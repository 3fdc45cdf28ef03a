import Ardoise.Proofs.Parsing.Agreement
import Ardoise.Proofs.Parsing.Composition
import Ardoise.Proofs.Parsing.Reading

/-!
# Counting levels of nesting

The limit on nesting is only looked at where the parser goes a level deeper, so
under two limits it does the same up to there.  Every rule of the grammar puts
the counter back where it found it when it succeeds.  When it refuses a text it
may leave the counter higher, but never lower.
-/

namespace Ardoise

namespace Parser

variable {α β : Type} {seen : List Token}

/-! ## Two limits -/

/-- Either the replies are the same, or the first one stops at its limit. -/
def CutShort (limit : Nat) (reply reply' : Reply α) : Prop :=
  reply = reply' ∨ ∃ fault stopped, reply = .refused fault stopped ∧
    fault.fault.expected = .tooDeep limit

theorem CutShort.bind {p : Parser α} {f : α → Parser β} {s s' : Setting} {c : Cursor}
    (first : CutShort s.limit (p s c) (p s' c))
    (second : ∀ a next, CutShort s.limit (f a s next) (f a s' next)) :
    CutShort s.limit ((p >>= f) s c) ((p >>= f) s' c) := by
  change CutShort s.limit (Parser.bind p f s c) (Parser.bind p f s' c)
  unfold Parser.bind
  rcases first with same | ⟨fault, stopped, refused, deep⟩
  · rw [same]
    cases p s' c with
    | parsed a next => exact second a next
    | refused => exact .inl rfl
    | exhausted => exact .inl rfl
  · rw [refused]
    exact .inr ⟨fault, stopped, rfl, deep⟩

theorem cutShort_deepen {s s' : Setting} (c : Cursor) (le : s.limit ≤ s'.limit) :
    CutShort s.limit (deepen s c) (deepen s' c) := by
  by_cases deep : s.limit < c.nesting + 1
  · refine .inr ⟨_, _, if_pos deep, ?_⟩
    exact GrammarFault.ofLexeme_expected _ _
  · left
    simp only [deepen, if_neg deep, if_neg (show ¬ s'.limit < c.nesting + 1 by omega)]

theorem Composed.cutShort {p : Parser α} (h : Composed seen p) (s s' : Setting)
    (le : s.limit ≤ s'.limit) (final : s.final = s'.final) (c : Cursor) :
    CutShort s.limit (p s c) (p s' c) := by
  induction h generalizing c with
  | pure a => exact .inl rfl
  | exhausted => exact .inl rfl
  | refuseAt member expected => exact .inl rfl
  | bind first second ih ih' => exact .bind (ih c) fun a next => ih' a next
  | peek rest ih =>
      refine .bind (.inl ?_) fun a next => ih a next
      unfold Parser.peek
      rw [final]
  | advance rest ih =>
      refine .bind (.inl ?_) fun a next => ih a next
      unfold Parser.advance
      rw [final]
  | deepen => exact cutShort_deepen c le
  | nested inner ih =>
      refine .bind (cutShort_deepen c le) fun _ next => ?_
      rcases ih next with same | ⟨fault, stopped, refused, deep⟩
      · rw [same]
        exact .inl rfl
      · rw [refused]
        exact .inr ⟨fault, _, rfl, deep⟩
  | balanced inner ih =>
      unfold Parser.balanced
      rcases ih c with same | ⟨fault, stopped, refused, deep⟩
      · rw [same]
        exact .inl rfl
      · rw [refused]
        exact .inr ⟨fault, stopped, rfl, deep⟩

/-! ## The counter -/

def cursor? : Reply α → Option Cursor
  | .parsed _ next => some next
  | .refused _ stopped => some stopped
  | .exhausted => none

/-- The levels a success leaves are as told, and a refusal leaves at least `n`. -/
def LeavesLevels (n : Nat) (success : Nat → Prop) : Reply α → Prop
  | .parsed _ next => success next.nesting
  | .refused _ stopped => n ≤ stopped.nesting
  | .exhausted => True

def Rises (p : Parser α) : Prop :=
  ∀ s c, LeavesLevels c.nesting (c.nesting ≤ ·) (p s c)

def Counts (p : Parser α) : Prop :=
  ∀ s c, LeavesLevels c.nesting (· = c.nesting) (p s c)

theorem Counts.rises {p : Parser α} (h : Counts p) : Rises p := by
  intro s c
  have left := h s c
  generalize p s c = reply at left
  cases reply with
  | parsed a next => exact Nat.le_of_eq left.symm
  | refused => exact left
  | exhausted => trivial

theorem Rises.le_cursor? {p : Parser α} (h : Rises p) {s : Setting} {c left : Cursor}
    (leaves : left ∈ cursor? (p s c)) : c.nesting ≤ left.nesting := by
  have levels := h s c
  generalize p s c = reply at leaves levels
  cases reply with
  | parsed | refused =>
      cases leaves
      exact levels
  | exhausted => cases leaves

theorem Rises.bind {p : Parser α} {f : α → Parser β} (first : Rises p)
    (second : ∀ a, Rises (f a)) : Rises (p >>= f) := by
  intro s c
  change LeavesLevels _ _ (Parser.bind p f s c)
  unfold Parser.bind
  have left := first s c
  generalize p s c = reply at left
  cases reply with
  | parsed a next =>
      have left' := second a s next
      simp only [LeavesLevels] at left left' ⊢
      generalize f a s next = reply at left'
      cases reply with
      | parsed => exact Nat.le_trans left left'
      | refused => exact Nat.le_trans left left'
      | exhausted => trivial
  | refused => exact left
  | exhausted => trivial

@[grind ←] theorem Counts.bind {p : Parser α} {f : α → Parser β} (first : Counts p)
    (second : ∀ a, Counts (f a)) : Counts (p >>= f) := by
  intro s c
  change LeavesLevels _ _ (Parser.bind p f s c)
  unfold Parser.bind
  have left := first s c
  generalize p s c = reply at left
  cases reply with
  | parsed a next =>
      have same : next.nesting = c.nesting := left
      exact same ▸ second a s next
  | refused => exact left
  | exhausted => trivial

def lower : Reply α → Reply α
  | .parsed a next => .parsed a { next with nesting := next.nesting - 1 }
  | .refused fault stopped => .refused fault { stopped with nesting := stopped.nesting - 1 }
  | .exhausted => .exhausted

theorem deepen_bind_of_lt {f : Unit → Parser β} {s : Setting} {c : Cursor}
    (room : c.nesting < s.limit) :
    (deepen >>= f) s c = f () s { c with nesting := c.nesting + 1 } :=
  deepen_bind room

theorem deepen_bind_of_le {f : Unit → Parser β} {s : Setting} {c : Cursor}
    (full : s.limit ≤ c.nesting) :
    (deepen >>= f) s c = refuse (.tooDeep s.limit) s { c with nesting := c.nesting + 1 } := by
  have deep : deepen s c = refuse (.tooDeep s.limit) s { c with nesting := c.nesting + 1 } :=
    if_pos (Nat.lt_succ_of_le full)
  change Parser.bind deepen f s c = _
  unfold Parser.bind
  rw [deep]
  rfl

theorem nested_of_lt (p : Parser α) {s : Setting} {c : Cursor} (room : c.nesting < s.limit) :
    nested p s c = lower (p s { c with nesting := c.nesting + 1 }) :=
  deepen_bind_of_lt room

theorem nested_of_le (p : Parser α) {s : Setting} {c : Cursor} (full : s.limit ≤ c.nesting) :
    nested p s c = refuse (.tooDeep s.limit) s { c with nesting := c.nesting + 1 } :=
  deepen_bind_of_le full

theorem rises_deepen : Rises deepen := by
  intro s c
  unfold deepen
  dsimp only
  split <;> exact Nat.le_succ _

@[grind ←] theorem counts_pure (a : α) : Counts (pure a : Parser α) := fun _ _ => rfl

@[grind ←] theorem counts_exhausted : Counts (exhausted : Parser α) := fun _ _ => trivial

@[grind ←] theorem counts_refuseAt (token : Token) (expected : Expected) :
    Counts (refuseAt token expected : Parser α) :=
  fun _ _ => Nat.le_refl _

@[grind ←] theorem counts_refuse (expected : Expected) : Counts (refuse expected : Parser α) :=
  fun _ _ => Nat.le_refl _

@[grind ←] theorem counts_peek : Counts peek := fun _ _ => rfl

@[grind ←] theorem counts_advance : Counts advance := by
  intro s ⟨tokens, n⟩
  cases tokens <;> rfl

@[grind ←] theorem Counts.nested {p : Parser α} (h : Counts p) : Counts (nested p) := by
  intro s c
  by_cases room : c.nesting < s.limit
  · rw [nested_of_lt p room]
    have left := h s { c with nesting := c.nesting + 1 }
    generalize p s { c with nesting := c.nesting + 1 } = reply at left
    -- what is lowered is positive, also where the text is refused
    cases reply with
    | parsed a next =>
        have same : next.nesting = c.nesting + 1 := left
        exact Nat.sub_eq_of_eq_add same
    | refused fault stopped =>
        have more : c.nesting + 1 ≤ stopped.nesting := left
        exact Nat.le_sub_of_add_le more
    | exhausted => trivial
  · rw [nested_of_le p (Nat.le_of_not_lt room)]
    exact Nat.le_succ _

theorem Rises.balanced {p : Parser α} (h : Rises p) : Counts (balanced p) := by
  intro s c
  have left := h s c
  unfold Parser.balanced
  generalize p s c = reply at left
  cases reply with
  | parsed => rfl
  | refused => exact left
  | exhausted => trivial

@[grind ←] theorem counts_accept (kind : Kind) : Counts (accept kind) := by
  unfold accept
  grind

@[grind ←] theorem counts_expect (kind : Kind) (expected : Expected) :
    Counts (expect kind expected) := by
  unfold expect
  grind

@[grind ←] theorem counts_expectName (expected : Expected) : Counts (expectName expected) := by
  unfold expectName
  grind

@[grind ←] theorem Counts.separated {item : Parser α} (h : Counts item) (allowance : Nat) :
    Counts (separated item allowance) := by
  induction allowance with
  | zero => exact counts_exhausted
  | succ allowance ih =>
      unfold Parser.separated
      grind

@[grind ←] theorem Counts.separatedUntil {item : Parser α} (h : Counts item) (close : Kind)
    (allowance : Nat) : Counts (separatedUntil close item allowance) := by
  unfold Parser.separatedUntil
  grind

section Rules

variable {expression operand bound : Parser Expr} {parameters : Parser (List Name)}
  {body otherwise : Parser (Block Stmt × Token)}

@[grind ←] theorem Counts.elements (h : Counts expression) (allowance : Nat) :
    Counts (elements expression allowance) := by
  induction allowance with
  | zero => exact counts_exhausted
  | succ allowance ih =>
      unfold Parser.elements afterElement
      grind

@[grind ←] theorem Counts.array (h : Counts expression) (allowance : Nat) :
    Counts (array expression allowance) := by
  unfold Parser.array
  grind

@[grind ←] theorem Counts.parenthesised (h : Counts expression) :
    Counts (parenthesised expression) := by
  unfold Parser.parenthesised
  grind

theorem Counts.primary (h : Counts expression) (allowance : Nat) :
    Counts (primary expression allowance) := by
  refine counts_peek.bind fun token => ?_
  split <;> grind

theorem Counts.arguments (h : Counts expression) (allowance : Nat) (callee : Expr) :
    Counts (arguments expression allowance callee) := by
  unfold Parser.arguments
  grind

theorem Counts.subscript (h : Counts expression) (source : Expr) :
    Counts (subscript expression source) := by
  unfold Parser.subscript
  grind

theorem Counts.rises_suffixes (h : Counts expression) (allowance turns : Nat) (left : Expr) :
    Rises (suffixes expression allowance turns left) := by
  induction turns generalizing left with
  | zero => exact counts_exhausted.rises
  | succ turns ih =>
      refine counts_peek.rises.bind fun token => ?_
      split
      · exact rises_deepen.bind fun _ => (h.arguments allowance left).rises.bind ih
      · exact rises_deepen.bind fun _ => (h.subscript left).rises.bind ih
      · exact (counts_pure left).rises

theorem Counts.postfixed (h : Counts expression) (allowance : Nat) :
    Counts (postfixed expression allowance) :=
  Rises.balanced ((h.primary allowance).rises.bind (h.rises_suffixes allowance allowance))

theorem Counts.prefixed (h : Counts operand) (allowance : Nat) :
    Counts (prefixed operand allowance) := by
  induction allowance with
  | zero => exact counts_exhausted
  | succ allowance ih =>
      refine counts_peek.bind fun token => ?_
      split <;> grind

private theorem Counts.rises_operations (h : Counts operand) (level : Level) (allowance : Nat)
    (left : Expr) : Rises (operations level operand allowance left) := by
  induction allowance generalizing left with
  | zero => exact counts_exhausted.rises
  | succ allowance ih =>
      refine counts_peek.rises.bind fun token => ?_
      split
      · refine rises_deepen.bind fun _ => counts_advance.rises.bind fun _ => ?_
        exact h.rises.bind fun _ => ih _
      · exact (counts_pure left).rises

theorem Counts.operators (h : Counts operand) (allowance : Nat) (levels : List Level) :
    Counts (operators operand allowance levels) := by
  induction levels with
  | nil => exact h
  | cons level tighter ih =>
      exact Rises.balanced (ih.rises.bind (ih.rises_operations level allowance))

theorem Counts.assignment (h : Counts operand) (allowance : Nat) :
    Counts (assignment operand allowance) := by
  induction allowance with
  | zero => exact counts_exhausted
  | succ allowance ih =>
      refine h.bind fun left => counts_peek.bind fun token => ?_
      split
      · refine counts_advance.bind fun equals => ih.nested.bind fun value => ?_
        split <;> grind
      · exact counts_pure left

theorem counts_operand (h : Counts expression) (allowance : Nat) :
    Counts (Parser.operand expression allowance) :=
  (h.postfixed allowance).prefixed allowance

@[grind ←] theorem counts_expression (allowance : Nat) : Counts (Parser.expression allowance) := by
  induction allowance with
  | zero => exact counts_exhausted
  | succ allowance ih =>
      exact (((counts_operand ih _).operators _ Level.all).assignment _).nested

@[grind ←] theorem counts_bound (allowance : Nat) : Counts (Parser.bound allowance) :=
  (counts_operand (counts_expression allowance) _).operators _ Level.arithmetic

theorem Counts.statements {statement : Parser Stmt} (h : Counts statement) (closers : List Kind)
    (allowance : Nat) : Counts (statements statement closers allowance) := by
  induction allowance with
  | zero => exact counts_exhausted
  | succ allowance ih =>
      unfold Parser.statements
      grind

theorem Counts.block {body : Parser (List Stmt)} (h : Counts body) (closers : List Kind)
    (expected : Expected) : Counts (block body closers expected) := by
  unfold Parser.block
  grind

theorem Counts.functionRule (names : Counts parameters) (h : Counts body) :
    Counts (functionRule parameters body) := by
  unfold Parser.functionRule
  grind

theorem Counts.giveRule (h : Counts expression) (inFunction : Bool) :
    Counts (giveRule inFunction expression) := by
  unfold Parser.giveRule
  grind

theorem Counts.declareRule (h : Counts expression) : Counts (declareRule expression) := by
  unfold Parser.declareRule
  grind

theorem Counts.branchRule (condition : Counts expression) (h : Counts body)
    (h' : Counts otherwise) : Counts (branchRule expression body otherwise) := by
  unfold Parser.branchRule
  grind

theorem Counts.whileRule (condition : Counts expression) (h : Counts body) :
    Counts (whileRule expression body) := by
  unfold Parser.whileRule
  grind

theorem Counts.countRule (bounds : Counts bound) (h : Counts body) :
    Counts (countRule bound body) := by
  refine counts_advance.bind fun _ => (counts_expectName _).bind fun _ => ?_
  refine (counts_expect _ _).bind fun _ => bounds.bind fun _ => ?_
  grind

theorem Counts.printRule (h : Counts expression) : Counts (printRule expression) := by
  unfold Parser.printRule
  grind

theorem Counts.blockRule (h : Counts body) : Counts (blockRule body) := by
  unfold Parser.blockRule
  grind

end Rules

theorem counts_statement (allowance : Nat) (inFunction : Bool) :
    Counts (statement allowance inFunction) := by
  induction allowance generalizing inFunction with
  | zero => exact counts_exhausted
  | succ allowance ih =>
      have bodies : ∀ f closers expected, Counts
          (block (statements (statement allowance f) closers (allowance + 1)) closers expected) :=
        fun f closers expected => ((ih f).statements closers _).block closers expected
      refine counts_peek.bind fun token => ?_
      split
      · exact .functionRule (by grind) (bodies _ _ _)
      · exact (counts_expression _).giveRule inFunction
      · exact (counts_expression _).declareRule
      · exact (counts_expression _).branchRule (bodies _ _ _) (bodies _ _ _)
      · exact (counts_expression _).whileRule (bodies _ _ _)
      · exact (counts_bound _).countRule (bodies _ _ _)
      · exact (counts_expression _).printRule
      · exact (bodies _ _ _).blockRule
      · grind

inductive IsRule : {α : Type} → Parser α → Prop
  | expect (kind : Kind) (expected : Expected) : IsRule (expect kind expected)
  | accept (kind : Kind) : IsRule (accept kind)
  | expectName (expected : Expected) : IsRule (expectName expected)
  | separatedUntil {α : Type} {item : Parser α} (h : IsRule item) (close : Kind)
      (allowance : Nat) : IsRule (separatedUntil close item allowance)
  | array {expression : Parser Expr} (h : IsRule expression) (allowance : Nat) :
      IsRule (array expression allowance)
  | parenthesised {expression : Parser Expr} (h : IsRule expression) :
      IsRule (parenthesised expression)
  | primary {expression : Parser Expr} (h : IsRule expression) (allowance : Nat) :
      IsRule (primary expression allowance)
  | arguments {expression : Parser Expr} (h : IsRule expression) (allowance : Nat)
      (callee : Expr) : IsRule (arguments expression allowance callee)
  | subscript {expression : Parser Expr} (h : IsRule expression) (source : Expr) :
      IsRule (subscript expression source)
  | postfixed {expression : Parser Expr} (h : IsRule expression) (allowance : Nat) :
      IsRule (postfixed expression allowance)
  | prefixed {operand : Parser Expr} (h : IsRule operand) (allowance : Nat) :
      IsRule (prefixed operand allowance)
  | operators {operand : Parser Expr} (h : IsRule operand) (allowance : Nat)
      (levels : List Level) : IsRule (operators operand allowance levels)
  | assignment {operand : Parser Expr} (h : IsRule operand) (allowance : Nat) :
      IsRule (assignment operand allowance)
  | expression (allowance : Nat) : IsRule (expression allowance)
  | bound (allowance : Nat) : IsRule (bound allowance)
  | statements {statement : Parser Stmt} (h : IsRule statement) (closers : List Kind)
      (allowance : Nat) : IsRule (statements statement closers allowance)
  | block {body : Parser (List Stmt)} (h : IsRule body) (closers : List Kind)
      (expected : Expected) : IsRule (block body closers expected)
  | functionRule {parameters : Parser (List Name)} {body : Parser (Block Stmt × Token)}
      (names : IsRule parameters) (h : IsRule body) : IsRule (functionRule parameters body)
  | giveRule {expression : Parser Expr} (h : IsRule expression) (inFunction : Bool) :
      IsRule (giveRule inFunction expression)
  | declareRule {expression : Parser Expr} (h : IsRule expression) :
      IsRule (declareRule expression)
  | branchRule {expression : Parser Expr} {body otherwise : Parser (Block Stmt × Token)}
      (condition : IsRule expression) (h : IsRule body) (h' : IsRule otherwise) :
      IsRule (branchRule expression body otherwise)
  | whileRule {expression : Parser Expr} {body : Parser (Block Stmt × Token)}
      (condition : IsRule expression) (h : IsRule body) : IsRule (whileRule expression body)
  | countRule {bound : Parser Expr} {body : Parser (Block Stmt × Token)}
      (bounds : IsRule bound) (h : IsRule body) : IsRule (countRule bound body)
  | printRule {expression : Parser Expr} (h : IsRule expression) : IsRule (printRule expression)
  | blockRule {body : Parser (Block Stmt × Token)} (h : IsRule body) : IsRule (blockRule body)
  | statement (allowance : Nat) (inFunction : Bool) : IsRule (statement allowance inFunction)
  | program (allowance : Nat) : IsRule (program allowance)

theorem IsRule.counts {p : Parser α} (h : IsRule p) : Counts p := by
  induction h with
  | expect kind expected => exact counts_expect kind expected
  | accept kind => exact counts_accept kind
  | expectName expected => exact counts_expectName expected
  | separatedUntil _ close allowance ih => exact ih.separatedUntil close allowance
  | array _ allowance ih => exact ih.array allowance
  | parenthesised _ ih => exact ih.parenthesised
  | primary _ allowance ih => exact ih.primary allowance
  | arguments _ allowance callee ih => exact ih.arguments allowance callee
  | subscript _ source ih => exact ih.subscript source
  | postfixed _ allowance ih => exact ih.postfixed allowance
  | prefixed _ allowance ih => exact ih.prefixed allowance
  | operators _ allowance levels ih => exact ih.operators allowance levels
  | assignment _ allowance ih => exact ih.assignment allowance
  | expression allowance => exact counts_expression allowance
  | bound allowance => exact counts_bound allowance
  | statements _ closers allowance ih => exact ih.statements closers allowance
  | block _ closers expected ih => exact ih.block closers expected
  | functionRule _ _ ih ih' => exact ih.functionRule ih'
  | giveRule _ inFunction ih => exact ih.giveRule inFunction
  | declareRule _ ih => exact ih.declareRule
  | branchRule _ _ _ ih ih' ih'' => exact ih.branchRule ih' ih''
  | whileRule _ _ ih ih' => exact ih.whileRule ih'
  | countRule _ _ ih ih' => exact ih.countRule ih'
  | printRule _ ih => exact ih.printRule
  | blockRule _ ih => exact ih.blockRule
  | statement allowance inFunction => exact counts_statement allowance inFunction
  | program allowance => exact (counts_statement allowance false).statements [] allowance

end Parser

end Ardoise
