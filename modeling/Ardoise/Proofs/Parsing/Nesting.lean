import Ardoise.Proofs.Parsing.Counter

/-!
# The limit on nesting

Every level is paid for with a token, except the one around a whole expression.
So the levels around a token together with the tokens that are left bound how
deep the parser can still go, and a limit above the number of tokens is never
met.
-/

namespace Ardoise

namespace Parser

variable {α β : Type}

/-! ## Room for every level -/

/-- The levels around the next token and the tokens there are: no level lies deeper. -/
def reach (c : Cursor) : Nat := c.nesting + c.tokens.length

/-- At least `least` tokens are taken for good, or the text is refused, but not for its depth. -/
def StaysWithin (least : Nat) (c : Cursor) : Reply α → Prop
  | .parsed _ next => c.nesting ≤ next.nesting ∧ reach next + least ≤ reach c
  | .refused fault _ => ∀ limit, fault.fault.expected ≠ .tooDeep limit
  | .exhausted => True

/-- The parser does not run into a limit that lies `slack` levels above its reach. -/
def Fits (slack least : Nat) (p : Parser α) : Prop :=
  ∀ s c, s.final.kind = .endOfInput → reach c + slack ≤ s.limit → StaysWithin least c (p s c)

def FitsInside (slack least : Nat) (p : Parser α) : Prop :=
  ∀ s c, s.final.kind = .endOfInput → c.tokens ≠ [] → reach c + slack ≤ s.limit →
    StaysWithin least c (p s c)

theorem StaysWithin.mono {least fewer : Nat} {c : Cursor} {reply : Reply α}
    (h : StaysWithin least c reply) (le : fewer ≤ least) : StaysWithin fewer c reply := by
  cases reply with
  | parsed => exact ⟨h.1, by have := h.2; omega⟩
  | refused => exact h
  | exhausted => trivial

theorem Fits.mono {slack more least fewer : Nat} {p : Parser α} (h : Fits slack least p)
    (room : slack ≤ more) (le : fewer ≤ least) : Fits more fewer p :=
  fun s c final within => (h s c final (by omega)).mono le

theorem FitsInside.mono {slack least fewer : Nat} {p : Parser α} (h : FitsInside slack least p)
    (le : fewer ≤ least) : FitsInside slack fewer p :=
  fun s c final inside within => (h s c final inside within).mono le

theorem Fits.inside {slack least : Nat} {p : Parser α} (h : Fits slack least p) :
    FitsInside slack least p :=
  fun s c final _ within => h s c final within

theorem fits_pure (slack : Nat) (a : α) : Fits slack 0 (pure a : Parser α) :=
  fun _ _ _ _ => ⟨Nat.le_refl _, Nat.le_refl _⟩

theorem fits_exhausted (slack least : Nat) : Fits slack least (exhausted : Parser α) :=
  fun _ _ _ _ => trivial

theorem fits_refuseAt (slack least : Nat) (token : Token) {expected : Expected}
    (other : ∀ limit, expected ≠ .tooDeep limit) :
    Fits slack least (refuseAt token expected : Parser α) := by
  intro s c _ _ limit
  rw [GrammarFault.ofLexeme_expected]
  exact other limit

theorem fits_refuse (slack least : Nat) {expected : Expected}
    (other : ∀ limit, expected ≠ .tooDeep limit) :
    Fits slack least (refuse expected : Parser α) :=
  fun s c => fits_refuseAt slack least (c.tokens.headD s.final) other s c

/-- What is left of the limit grows by the tokens that the first parser takes. -/
theorem staysWithin_bind {slack a b : Nat} {p : Parser α} {f : α → Parser β} {s : Setting}
    {c : Cursor} (final : s.final.kind = .endOfInput) (within : reach c + slack ≤ s.limit)
    (first : StaysWithin a c (p s c)) (second : ∀ x, Fits (slack + a) b (f x)) :
    StaysWithin (a + b) c ((p >>= f) s c) := by
  change StaysWithin (a + b) c (Parser.bind p f s c)
  unfold Parser.bind
  generalize p s c = reply at first
  cases reply with
  | parsed x next =>
      obtain ⟨levels, taken⟩ := first
      have after := second x s next final (by omega)
      dsimp only
      generalize f x s next = reply at after
      cases reply with
      | parsed y last =>
          obtain ⟨levels', taken'⟩ := after
          exact ⟨Nat.le_trans levels levels', by omega⟩
      | refused => exact after
      | exhausted => trivial
  | refused => exact first
  | exhausted => trivial

theorem Fits.bind {slack a b : Nat} {p : Parser α} {f : α → Parser β} (first : Fits slack a p)
    (second : ∀ x, Fits (slack + a) b (f x)) : Fits slack (a + b) (p >>= f) :=
  fun s c final within => staysWithin_bind final within (first s c final within) second

theorem FitsInside.bind {slack a b : Nat} {p : Parser α} {f : α → Parser β}
    (first : FitsInside slack a p) (second : ∀ x, Fits (slack + a) b (f x)) :
    FitsInside slack (a + b) (p >>= f) :=
  fun s c final inside within =>
    staysWithin_bind final within (first s c final inside within) second

theorem fits_peek {slack least : Nat} {f : Token → Parser β}
    (going : ∀ token, token.kind ≠ .endOfInput → FitsInside slack least (f token))
    (ended : ∀ token, token.kind = .endOfInput → Fits slack least (f token)) :
    Fits slack least (peek >>= f) := by
  intro s c final within
  change StaysWithin least c (f (c.tokens.headD s.final) s c)
  cases tokens : c.tokens with
  | nil => exact ended s.final final s c final within
  | cons token rest =>
      by_cases eof : token.kind = .endOfInput
      · exact ended token eof s c final within
      · exact going token eof s c final (by simp [tokens]) within

theorem fitsInside_advance {slack least : Nat} {f : Token → Parser β}
    (rest : ∀ token, Fits (slack + 1) least (f token)) :
    FitsInside slack (least + 1) (advance >>= f) := by
  rintro s ⟨_ | ⟨token, tokens⟩, n⟩ final inside within
  · exact absurd rfl inside
  · rw [Nat.add_comm least]
    refine staysWithin_bind final within ⟨Nat.le_refl _, ?_⟩ rest
    simp only [reach, List.length_cons]
    omega

private theorem fitsInside_advance_only {slack : Nat} : FitsInside slack 1 advance := by
  rintro s ⟨_ | ⟨token, tokens⟩, n⟩ final inside within
  · exact absurd rfl inside
  · refine ⟨Nat.le_refl _, ?_⟩
    simp only [reach, List.length_cons]
    omega

/-- Going deeper costs a level, for which the next token makes up. -/
theorem fitsInside_deepen {slack least : Nat} {f : Unit → Parser β}
    (h : FitsInside slack (least + 1) (f ())) : FitsInside (slack + 1) least (deepen >>= f) := by
  rintro s ⟨tokens, n⟩ final inside within
  have present := List.length_pos_iff.mpr inside
  simp only [reach] at within
  rw [deepen_bind (by simp only at present; omega)]
  have after := h s ⟨tokens, n + 1⟩ final inside (by simp only [reach]; omega)
  generalize f () s ⟨tokens, n + 1⟩ = reply at after
  cases reply with
  | parsed x next =>
      obtain ⟨levels, taken⟩ := after
      simp only [reach] at levels taken
      refine ⟨by simp only; omega, by simp only [reach]; omega⟩
  | refused => exact after
  | exhausted => trivial

theorem Fits.nested {slack least : Nat} {p : Parser α} (h : Fits slack least p) :
    Fits (slack + 1) least (nested p) := by
  intro s c final within
  have room : c.nesting < s.limit := by
    simp only [reach] at within
    omega
  rw [nested_of_lt p room]
  have after := h s { c with nesting := c.nesting + 1 } final (by simp only [reach] at *; omega)
  generalize p s { c with nesting := c.nesting + 1 } = reply at after
  cases reply with
  | parsed x next =>
      obtain ⟨levels, taken⟩ := after
      simp only [reach] at levels taken
      refine ⟨by simp only; omega, by simp only [reach]; omega⟩
  | refused => exact after
  | exhausted => trivial

theorem Fits.balanced {slack least : Nat} {p : Parser α} (h : Fits slack least p) :
    Fits slack least (balanced p) := by
  intro s c final within
  have after := h s c final within
  unfold Parser.balanced
  generalize p s c = reply at after
  cases reply with
  | parsed x next =>
      obtain ⟨levels, taken⟩ := after
      simp only [reach] at levels taken
      exact ⟨Nat.le_refl _, by simp only [reach]; omega⟩
  | refused => exact after
  | exhausted => trivial

theorem Fits.bind_any {slack least : Nat} {p : Parser α} {f : α → Parser β}
    (first : Fits slack 0 p) (second : ∀ x, Fits slack least (f x)) :
    Fits slack least (p >>= f) := by
  rw [← Nat.zero_add least]
  exact first.bind second

theorem Fits.bind_one {slack : Nat} {p : Parser α} {f : α → Parser β} (first : Fits slack 1 p)
    (second : ∀ x, Fits (slack + 1) 0 (f x)) : Fits slack 1 (p >>= f) :=
  first.bind second

theorem Fits.some {slack more : Nat} {p : Parser α} (h : Fits slack 1 p) (room : slack ≤ more) :
    Fits more 0 p :=
  h.mono room (Nat.zero_le 1)

theorem fitsInside_advance_pure {slack : Nat} (f : Token → α) :
    FitsInside slack 1 (advance >>= fun token => pure (f token)) :=
  fitsInside_advance fun _ => fits_pure _ _

theorem fits_accept (slack : Nat) {kind : Kind} (proper : kind ≠ .endOfInput) :
    Fits slack 0 (accept kind) := by
  refine fits_peek (fun token _ => ?_) (fun token eof => ?_)
  · split
    · exact (fitsInside_advance_pure _).mono (Nat.zero_le 1)
    · exact (fits_pure _ _).inside
  · rw [if_neg (by rw [eof]; exact proper.symm)]
    exact fits_pure _ _

theorem fits_expect (slack : Nat) {kind : Kind} (proper : kind ≠ .endOfInput)
    {expected : Expected} (other : ∀ limit, expected ≠ .tooDeep limit) :
    Fits slack 1 (expect kind expected) := by
  refine fits_peek (fun token _ => ?_) (fun token eof => ?_)
  · split
    · exact fitsInside_advance_only
    · exact (fits_refuse _ _ other).inside
  · rw [if_neg (by rw [eof]; exact proper.symm)]
    exact fits_refuse _ _ other

theorem fits_expectName (slack : Nat) {expected : Expected}
    (other : ∀ limit, expected ≠ .tooDeep limit) : Fits slack 1 (expectName expected) := by
  refine fits_peek (fun token _ => ?_) (fun token eof => ?_)
  · split
    · exact fitsInside_advance_pure _
    · exact (fits_refuse _ _ other).inside
  · rw [eof]
    exact fits_refuse _ _ other

theorem Fits.separated {slack : Nat} {item : Parser α} (h : Fits slack 1 item)
    (allowance : Nat) : Fits slack 1 (separated item allowance) := by
  induction allowance with
  | zero => exact fits_exhausted _ _
  | succ allowance ih =>
      refine h.bind_one fun first => (fits_accept _ (symbol_ne_end _)).bind_any fun again => ?_
      split
      · exact (ih.bind_one fun _ => fits_pure _ _).some (Nat.le_succ _)
      · exact fits_pure _ _

theorem Fits.separatedUntil {slack : Nat} {item : Parser α} (h : Fits slack 1 item)
    (close : Kind) (allowance : Nat) : Fits slack 0 (separatedUntil close item allowance) := by
  have items := (h.separated allowance).some (Nat.le_refl _)
  refine fits_peek (fun token _ => ?_) (fun token _ => ?_) <;> split
  · exact (fits_pure _ _).inside
  · exact items.inside
  · exact fits_pure _ _
  · exact items

section Rules

variable {expression operand bound : Parser Expr} {parameters : Parser (List Name)}
  {body otherwise : Parser (Block Stmt × Token)}

theorem Fits.afterElement {slack : Nat} {more : Parser (List Expr × Token)}
    (h : Fits slack 1 more) (first : Expr) : Fits slack 1 (afterElement first more) := by
  have comma : Fits slack 1 (expect (.symbol .comma) .arrayComma) :=
    fits_expect _ (symbol_ne_end _) (by simp)
  have others := comma.bind_one fun _ =>
    (h.bind_one fun others => fits_pure _ (first :: others.1, others.2)).some (Nat.le_succ _)
  refine fits_peek (fun token _ => ?_) (fun token eof => ?_)
  · split
    · exact fitsInside_advance_pure _
    · exact others.inside
  · rw [eof, if_neg (symbol_ne_end _).symm]
    exact others

theorem Fits.elements {slack : Nat} (h : Fits slack 1 expression) (allowance : Nat) :
    Fits slack 1 (elements expression allowance) := by
  induction allowance with
  | zero => exact fits_exhausted _ _
  | succ allowance ih =>
      have others : Fits slack 1
          (do Parser.afterElement (← expression) (Parser.elements expression allowance)) :=
        h.bind_one fun first => (ih.afterElement first).some (Nat.le_succ _)
      refine fits_peek (fun token _ => ?_) (fun token eof => ?_)
      · split
        · exact fitsInside_advance_pure _
        · exact others.inside
      · rw [eof, if_neg (symbol_ne_end _).symm]
        exact others

theorem Fits.primary (h : Fits 1 1 expression) (allowance : Nat) :
    Fits 0 1 (primary expression allowance) := by
  refine fits_peek (fun token _ => ?_) (fun token eof => ?_)
  · split
    · exact fitsInside_advance_pure _
    · exact fitsInside_advance_pure _
    · refine fitsInside_advance fun _ => (h.bind_one fun _ => ?_).some (Nat.le_refl _)
      exact ((fits_expect _ (symbol_ne_end _) (by simp)).bind_one fun _ =>
        fits_pure _ _).some (Nat.le_refl _)
    · exact fitsInside_advance fun _ =>
        ((h.elements allowance).bind_one fun _ => fits_pure _ _).some (Nat.le_refl _)
    · exact (fits_refuse _ _ (by simp)).inside
  · rw [eof]
    exact fits_refuse _ _ (by simp)

theorem Fits.arguments (h : Fits 1 1 expression) (allowance : Nat) (callee : Expr) :
    FitsInside 0 2 (arguments expression allowance callee) :=
  fitsInside_advance fun _ => (h.separatedUntil _ allowance).bind_any fun _ =>
    (fits_expect _ (symbol_ne_end _) (by simp)).bind_one fun _ => fits_pure _ _

theorem Fits.subscript (h : Fits 1 1 expression) (source : Expr) :
    FitsInside 0 2 (subscript expression source) :=
  fitsInside_advance fun _ => h.bind_one fun _ =>
    ((fits_expect _ (symbol_ne_end _) (by simp)).bind_one fun _ =>
      fits_pure _ _).some (Nat.le_refl _)

theorem Fits.suffixes (h : Fits 1 1 expression) (allowance turns : Nat) (left : Expr) :
    Fits 1 0 (suffixes expression allowance turns left) := by
  induction turns generalizing left with
  | zero => exact fits_exhausted _ _
  | succ turns ih =>
      have again : ∀ e : Expr, Fits (0 + 2) 0 (Parser.suffixes expression allowance turns e) :=
        fun e => (ih e).mono (by omega) (Nat.le_refl _)
      refine fits_peek (fun token _ => ?_) (fun token eof => ?_)
      · split
        · exact fitsInside_deepen (((h.arguments allowance left).bind again).mono (by omega))
        · exact fitsInside_deepen (((h.subscript left).bind again).mono (by omega))
        · exact (fits_pure _ _).inside
      · rw [eof]
        exact fits_pure _ _

theorem Fits.postfixed (h : Fits 1 1 expression) (allowance : Nat) :
    Fits 0 1 (postfixed expression allowance) :=
  Fits.balanced ((h.primary allowance).bind_one (h.suffixes allowance allowance))

theorem Fits.prefixed (h : Fits 0 1 operand) (allowance : Nat) :
    Fits 0 1 (prefixed operand allowance) := by
  induction allowance with
  | zero => exact fits_exhausted _ _
  | succ allowance ih =>
      refine fits_peek (fun token _ => ?_) (fun token eof => ?_)
      · split
        · exact fitsInside_advance fun _ =>
            (ih.nested.bind_one fun _ => fits_pure _ _).some (Nat.le_refl _)
        · exact h.inside
      · rw [eof]
        exact h

theorem Fits.operations (h : Fits 0 1 operand) (level : Level) (allowance : Nat) (left : Expr) :
    Fits 1 0 (operations level operand allowance left) := by
  induction allowance generalizing left with
  | zero => exact fits_exhausted _ _
  | succ allowance ih =>
      refine fits_peek (fun token _ => ?_) (fun token eof => ?_)
      · split
        · refine fitsInside_deepen (fitsInside_advance fun _ => ?_)
          refine ((h.bind_one fun _ => ?_).some (Nat.zero_le _))
          exact (ih _).mono (by omega) (Nat.le_refl _)
        · exact (fits_pure _ _).inside
      · rw [eof, Level.operator?_endOfInput]
        exact fits_pure _ _

theorem Fits.operators (h : Fits 0 1 operand) (allowance : Nat) (levels : List Level) :
    Fits 0 1 (operators operand allowance levels) := by
  induction levels with
  | nil => exact h
  | cons level tighter ih => exact Fits.balanced (ih.bind_one (ih.operations level allowance))

theorem Fits.assignment (h : Fits 0 1 operand) (allowance : Nat) :
    Fits 0 1 (assignment operand allowance) := by
  induction allowance with
  | zero => exact fits_exhausted _ _
  | succ allowance ih =>
      refine h.bind_one fun left => ?_
      refine fits_peek (fun token _ => ?_) (fun token eof => ?_)
      · split
        · refine (fitsInside_advance fun equals => ?_).mono (Nat.zero_le 1)
          refine ((ih.nested.bind_one fun value => ?_).some (by omega))
          split
          · exact fits_pure _ _
          · exact fits_refuseAt _ _ _ (by simp)
        · exact (fits_pure _ _).inside
      · rw [eof, if_neg (symbol_ne_end _).symm]
        exact fits_pure _ _

theorem fits_operand (h : Fits 1 1 expression) (allowance : Nat) :
    Fits 0 1 (Parser.operand expression allowance) :=
  (h.postfixed allowance).prefixed allowance

theorem fits_expression (allowance : Nat) : Fits 1 1 (Parser.expression allowance) := by
  induction allowance with
  | zero => exact fits_exhausted _ _
  | succ allowance ih =>
      exact (((fits_operand ih _).operators _ Level.all).assignment _).nested

private theorem fits_bound (allowance : Nat) : Fits 0 1 (Parser.bound allowance) :=
  (fits_operand (fits_expression allowance) _).operators _ Level.arithmetic

theorem Fits.statements {statement : Parser Stmt} (h : Fits 1 1 statement) (closers : List Kind)
    (allowance : Nat) : Fits 1 0 (statements statement closers allowance) := by
  induction allowance with
  | zero => exact fits_exhausted _ _
  | succ allowance ih =>
      have more : Fits 1 0 (do
          let first ← statement
          return first :: (← Parser.statements statement closers allowance)) := by
        refine (h.bind_one fun first => ?_).some (Nat.le_refl _)
        exact (ih.mono (Nat.le_succ _) (Nat.le_refl _)).bind_any fun _ => fits_pure _ _
      refine fits_peek (fun token _ => ?_) (fun token _ => ?_) <;> split
      · exact (fits_pure _ _).inside
      · exact more.inside
      · exact fits_pure _ _
      · exact more

theorem Fits.block {body : Parser (List Stmt)} (h : Fits 1 0 body) {closers : List Kind}
    (proper : .endOfInput ∉ closers) {expected : Expected}
    (other : ∀ limit, expected ≠ .tooDeep limit) : Fits 2 1 (block body closers expected) := by
  have rest : ∀ first : Token, Fits 2 1 (do
      let statements ← Parser.nested body
      if (← peek).kind ∈ closers then
        let close ← advance
        return ((⟨first.span.upTo close.span, statements⟩ : Block Stmt), close)
      else
        refuse expected) := by
    refine fun first => h.nested.bind_any fun statements => ?_
    refine fits_peek (fun token _ => ?_) (fun token eof => ?_)
    · split
      · exact fitsInside_advance_pure _
      · exact (fits_refuse _ _ other).inside
    · rw [eof, if_neg proper]
      exact fits_refuse _ _ other
  exact fits_peek (fun token _ => (rest token).inside) (fun token _ => rest token)

-- a statement that starts with a token of its own makes room for one level more

theorem Fits.functionRule (names : Fits 0 0 parameters) (h : Fits 2 1 body) :
    FitsInside 1 1 (functionRule parameters body) := by
  refine fitsInside_advance fun _ => ((fits_expectName _ (by simp)).bind_one fun _ => ?_).some
    (Nat.le_refl _)
  refine ((fits_expect _ (symbol_ne_end _) (by simp)).bind_one fun _ => ?_).some (Nat.le_refl _)
  refine (names.mono (Nat.zero_le _) (Nat.le_refl _)).bind_any fun _ => ?_
  refine ((fits_expect _ (symbol_ne_end _) (by simp)).bind_one fun _ => ?_).some (Nat.le_refl _)
  exact (h.bind_one fun _ => fits_pure _ _).some (by omega)

theorem Fits.giveRule (h : Fits 1 1 expression) (inFunction : Bool) :
    FitsInside 1 1 (giveRule inFunction expression) := by
  unfold Parser.giveRule
  split
  · exact fitsInside_advance fun _ => (h.bind_one fun _ => fits_pure _ _).some (by omega)
  · exact (fits_refuse _ _ (by simp)).inside

theorem Fits.declareRule (h : Fits 1 1 expression) : FitsInside 1 1 (declareRule expression) := by
  refine fitsInside_advance fun _ => ((fits_expectName _ (by simp)).bind_one fun _ => ?_).some
    (Nat.le_refl _)
  refine ((fits_expect _ (symbol_ne_end _) (by simp)).bind_one fun _ => ?_).some (Nat.le_refl _)
  exact (h.bind_one fun _ => fits_pure _ _).some (by omega)

theorem Fits.branchRule (condition : Fits 1 1 expression) (h : Fits 2 1 body)
    (h' : Fits 2 1 otherwise) : FitsInside 1 1 (branchRule expression body otherwise) := by
  refine fitsInside_advance fun _ => (condition.bind_one fun _ => ?_).some (by omega)
  refine ((fits_expect _ (keyword_ne_end _) (by simp)).bind_one fun _ => ?_).some (Nat.le_refl _)
  refine (h.bind_one fun x => ?_).some (by omega)
  dsimp only
  split
  · exact (h'.bind_one fun _ => fits_pure _ _).some (by omega)
  · exact fits_pure _ _

theorem Fits.whileRule (condition : Fits 1 1 expression) (h : Fits 2 1 body) :
    FitsInside 1 1 (whileRule expression body) := by
  refine fitsInside_advance fun _ => (condition.bind_one fun _ => ?_).some (by omega)
  refine ((fits_expect _ (keyword_ne_end _) (by simp)).bind_one fun _ => ?_).some (Nat.le_refl _)
  exact (h.bind_one fun _ => fits_pure _ _).some (by omega)

theorem Fits.countRule (bounds : Fits 0 1 bound) (h : Fits 2 1 body) :
    FitsInside 1 1 (countRule bound body) := by
  have bounds' : Fits 2 1 bound := bounds.mono (Nat.zero_le 2) (Nat.le_refl 1)
  refine fitsInside_advance fun _ => ((fits_expectName _ (by simp)).bind_one fun _ => ?_).some
    (Nat.le_refl _)
  refine ((fits_expect _ (keyword_ne_end _) (by simp)).bind_one fun _ => ?_).some (Nat.le_refl _)
  refine (bounds'.bind_one fun _ => ?_).some (by omega)
  refine ((fits_expect _ (keyword_ne_end _) (by simp)).bind_one fun _ => ?_).some (Nat.le_refl _)
  refine (bounds'.bind_one fun _ => ?_).some (by omega)
  refine (fits_accept _ (keyword_ne_end _)).bind_any fun _ => ?_
  exact (h.bind_one fun _ => fits_pure _ _).some (by omega)

theorem Fits.printRule (h : Fits 1 1 expression) : FitsInside 1 1 (printRule expression) := by
  refine fitsInside_advance fun _ => ?_
  exact (h.bind_one fun _ => fits_pure _ _).some (by omega)

theorem Fits.blockRule (h : Fits 2 1 body) : FitsInside 1 1 (blockRule body) := by
  refine fitsInside_advance fun _ => ?_
  exact (h.bind_one fun _ => fits_pure _ _).some (by omega)

end Rules

private theorem fits_statement (allowance : Nat) (inFunction : Bool) :
    Fits 1 1 (statement allowance inFunction) := by
  induction allowance generalizing inFunction with
  | zero => exact fits_exhausted _ _
  | succ allowance ih =>
      have bodies : ∀ f closers, .endOfInput ∉ closers → ∀ expected : Expected,
          (∀ limit, expected ≠ .tooDeep limit) → Fits 2 1
            (block (statements (statement allowance f) closers (allowance + 1)) closers expected) :=
        fun f closers proper expected other => ((ih f).statements closers _).block proper other
      have plain := (fits_expression (allowance + 1)).bind_one fun e =>
        fits_pure _ (Stmt.expression e)
      refine fits_peek (fun token _ => ?_) (fun token eof => ?_)
      · split
        · exact Fits.functionRule ((fits_expectName _ (by simp)).separatedUntil _ _)
            (bodies _ _ (by simp) _ (by simp))
        · exact (fits_expression _).giveRule inFunction
        · exact (fits_expression _).declareRule
        · exact (fits_expression _).branchRule (bodies _ _ (by simp) _ (by simp))
            (bodies _ _ (by simp) _ (by simp))
        · exact (fits_expression _).whileRule (bodies _ _ (by simp) _ (by simp))
        · exact (fits_bound _).countRule (bodies _ _ (by simp) _ (by simp))
        · exact (fits_expression _).printRule
        · exact (bodies _ _ (by simp) _ (by simp)).blockRule
        · exact plain.inside
      · rw [eof]
        exact plain

private theorem fits_program (allowance : Nat) : Fits 1 0 (program allowance) :=
  (fits_statement allowance false).statements [] allowance

end Parser

/-! ## Parsing under a limit -/

def TooDeep : Except (Located GrammarFault) Program → Prop
  | .ok _ => False
  | .error fault => ∃ limit, fault.fault.expected = .tooDeep limit

private theorem parse_eq_of_reply {limit limit' : Nat} {tokens : List Token}
    (same : parseReply limit tokens = parseReply limit' tokens) :
    parse limit tokens = parse limit' tokens := by
  simp only [parse, same]

private theorem parse_eq_of_le {limit limit' : Nat} (tokens : List Token) (le : limit ≤ limit')
    (fits : ¬ TooDeep (parse limit tokens)) : parse limit' tokens = parse limit tokens := by
  have cut : Parser.CutShort limit (parseReply limit tokens) (parseReply limit' tokens) :=
    (Parser.composed_program (tokens.length + 1) []).cutShort ⟨limit, Parser.finalToken tokens⟩
      ⟨limit', Parser.finalToken tokens⟩ le rfl ⟨tokens, 0⟩
  rcases cut with same | ⟨fault, stopped, refused, deep⟩
  · exact parse_eq_of_reply same.symm
  · have error : parse limit tokens = .error fault :=
      (Reply.result_eq_error _).mpr ⟨stopped, refused⟩
    rw [error] at fits
    exact absurd ⟨limit, deep⟩ fits

private theorem not_tooDeep_of_length_lt {limit : Nat} (tokens : List Token)
    (room : tokens.length < limit) : ¬ TooDeep (parse limit tokens) := by
  have within := Parser.fits_program (tokens.length + 1) ⟨limit, Parser.finalToken tokens⟩
    ⟨tokens, 0⟩ (Parser.finalToken_kind tokens) (by simp only [Parser.reach]; omega)
  change Parser.StaysWithin 0 _ (parseReply limit tokens) at within
  cases result : parse limit tokens with
  | ok program => simp [TooDeep]
  | error fault =>
      obtain ⟨stopped, refused⟩ := (Reply.result_eq_error _).mp result
      rw [refused] at within
      rintro ⟨deep, same⟩
      exact within deep same

/--
A limit on nesting only cuts parsing short, and one above the number of tokens does
not even do that.  Every rule puts the counter back when it succeeds.  What is run a
level deeper leaves the counter above where it was, so that it can be lowered.
-/
theorem parse_cut_short_only (tokens : List Token) :
    (∀ limit limit', limit ≤ limit' → ¬ TooDeep (parse limit tokens) →
      parse limit' tokens = parse limit tokens) ∧
    (∀ limit, tokens.length + 1 ≤ limit → ¬ TooDeep (parse limit tokens)) ∧
    ∀ (α : Type) (p : Parser α), p.IsRule → ∀ setting cursor,
      (∀ a next, p setting cursor = .parsed a next → next.nesting = cursor.nesting) ∧
      ∀ left ∈ Parser.cursor? (p setting { cursor with nesting := cursor.nesting + 1 }),
        cursor.nesting < left.nesting := by
  refine ⟨fun limit limit' => parse_eq_of_le tokens, fun limit => not_tooDeep_of_length_lt tokens,
    fun α p rule setting cursor => ⟨fun a next parsed => ?_, fun left leaves => ?_⟩⟩
  · have counted := rule.counts setting cursor
    rwa [parsed] at counted
  · exact rule.counts.rises.le_cursor? leaves

/-- An argument in parentheses stands inside four levels. -/
theorem parse_cut_short_only_call :
    ∃ tokens, scan "f((1), [2])" = .ok tokens ∧ TooDeep (parse 3 tokens) ∧
      ¬ TooDeep (parse 4 tokens) ∧ parse 9 tokens = parse 4 tokens ∧
      ¬ TooDeep (parse 12 tokens) := by
  have read : (scan "f((1), [2])").toOption.map (fun tokens => (tokens.length,
      (match parse 3 tokens with
        | .ok _ => none
        | .error fault => some fault.fault.expected),
      (parse 4 tokens).isOk)) = some (11, some (.tooDeep 3), true) := by decide +kernel
  cases scanned : scan "f((1), [2])" with
  | error fault =>
      rw [scanned] at read
      cases read
  | ok tokens =>
      simp only [scanned, Except.toOption, Option.map_some, Option.some.injEq, Prod.mk.injEq]
        at read
      obtain ⟨length, refused, parsed⟩ := read
      have deep : TooDeep (parse 3 tokens) := by
        split at refused
        · cases refused
        · rename_i fault result
          rw [result]
          exact ⟨3, Option.some.inj refused⟩
      have fits : ¬ TooDeep (parse 4 tokens) := by
        cases result : parse 4 tokens with
        | ok program => exact id
        | error fault =>
            rw [result] at parsed
            cases parsed
      obtain ⟨higher, enough, _⟩ := parse_cut_short_only tokens
      exact ⟨tokens, rfl, deep, fits, higher 4 9 (by decide) fits, enough 12 (by omega)⟩

end Ardoise
