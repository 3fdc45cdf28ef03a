import Ardoise.Parser
import Ardoise.Proofs.Blur
import Ardoise.Proofs.Parsing.Grammar

/-!
# What is parsed was derived

A parser is sound for a relation when every value it gives is related to the
tokens it has taken, which are those that stand before the tokens it leaves.
The rules of the parser are sound for the rules of the grammar, one by one.
-/

namespace Ardoise

namespace Grammar

private theorem Infix.of_operator? {level : Level} {kind : Kind} {op : Operator}
    (h : level.operator? kind = some op) : Infix level kind op := by
  unfold Level.operator? at h
  split at h <;> cases h <;> constructor

private theorem Sign.of_isSign {kind : Kind} (h : kind.isSign = true) : Sign kind := by
  unfold Kind.isSign at h
  split at h <;> cases h <;> constructor

theorem Atom.of_literal? {kind : Kind} {value : Literal} (h : Parser.literal? kind = some value) :
    Atom kind value := by
  unfold Parser.literal? at h
  split at h <;> cases h <;> constructor

theorem Commas.map {α β : Type} {Q : α → List Token → Prop} {R : β → List Token → Prop}
    {f : α → β} (weaker : ∀ a ts, Q a ts → R (f a) ts) {as : List α} {ts : List Token}
    (h : Commas Q as ts) : Commas R (as.map f) ts := by
  induction h with
  | one only => exact .one (weaker _ _ only)
  | more first separator _ ih => exact .more (weaker _ _ first) separator ih

theorem Items.map {α β : Type} {Q : α → List Token → Prop} {R : β → List Token → Prop}
    {f : α → β} (weaker : ∀ a ts, Q a ts → R (f a) ts) {as : List α} {ts : List Token}
    (h : Items Q as ts) : Items R (as.map f) ts := by
  cases h with
  | none => exact .none
  | some values => exact .some (values.map weaker)

theorem Elements.cons {e : Expr} {es : List Expr} {comma : Token} {ts us : List Token}
    (first : Expression e ts) (separator : comma.kind = .symbol .comma) (others : Elements es us) :
    Elements (e :: es) (ts ++ comma :: us) := by
  cases others with
  | plain values =>
      cases values with
      | none => exact .trailing (.one first) separator
      | some values => exact .plain (.some (.more first separator values))
  | trailing values separator' =>
      simpa using Elements.trailing (.more first separator values) separator'

end Grammar

theorem Operator.blur_placeless_join (op : Operator) (token : Token) (left right : Expr) :
    (op.join token left right).blur .placeless =
      op.apply token (left.blur .placeless) (right.blur .placeless) := by
  cases op <;> rfl

private theorem Expr.blur_placeless_widen (span : Span) (e : Expr) :
    (e.widen span).blur .placeless = e.blur .placeless := by
  cases e <;> rfl

open Grammar

namespace Parser

variable {α β : Type} {pre : List Token → Prop}

def SoundOn (pre : List Token → Prop) (Q : α → List Token → Prop) (p : Parser α) : Prop :=
  ∀ setting cursor a next, setting.final.kind = .endOfInput → pre cursor.tokens →
    p setting cursor = .parsed a next →
    ∃ used, cursor.tokens = used ++ next.tokens ∧ Q a used

def Sound (Q : α → List Token → Prop) (p : Parser α) : Prop := SoundOn (fun _ => True) Q p

def SoundFrom (first : Token) (Q : α → List Token → Prop) (p : Parser α) : Prop :=
  SoundOn (fun tokens => tokens.head? = some first) Q p

theorem Sound.on {Q : α → List Token → Prop} {p : Parser α} (h : Sound Q p) : SoundOn pre Q p :=
  fun setting cursor a next final _ parsed => h setting cursor a next final trivial parsed

theorem SoundOn.mono {Q R : α → List Token → Prop} {p : Parser α} (h : SoundOn pre Q p)
    (weaker : ∀ a used, Q a used → R a used) : SoundOn pre R p := by
  intro setting cursor a next final holds parsed
  obtain ⟨used, split, related⟩ := h setting cursor a next final holds parsed
  exact ⟨used, split, weaker a used related⟩

theorem sound_pure {Q : α → List Token → Prop} {a : α} (h : Q a []) :
    Sound Q (pure a : Parser α) := by
  intro setting cursor b next _ _ parsed
  cases parsed
  exact ⟨[], rfl, h⟩

theorem sound_exhausted {Q : α → List Token → Prop} : Sound Q (exhausted : Parser α) :=
  fun _ _ _ _ _ _ parsed => nomatch parsed

private theorem sound_refuseAt {Q : α → List Token → Prop} (token : Token) (expected : Expected) :
    Sound Q (refuseAt token expected : Parser α) :=
  fun _ _ _ _ _ _ parsed => nomatch parsed

theorem sound_refuse {Q : α → List Token → Prop} (expected : Expected) :
    Sound Q (refuse expected : Parser α) :=
  fun _ _ _ _ _ _ parsed => nomatch parsed

theorem SoundOn.bind {R : α → List Token → Prop} {Q : β → List Token → Prop} {p : Parser α}
    {f : α → Parser β} (first : SoundOn pre R p)
    (second : ∀ a used, R a used → Sound (fun b more => Q b (used ++ more)) (f a)) :
    SoundOn pre Q (p >>= f) := by
  intro setting cursor b last final holds parsed
  change Parser.bind p f setting cursor = .parsed b last at parsed
  unfold Parser.bind at parsed
  split at parsed
  · rename_i a next taken
    obtain ⟨used, split, related⟩ := first setting cursor a next final holds taken
    obtain ⟨more, split', related'⟩ :=
      second a used related setting next b last final trivial parsed
    exact ⟨used ++ more, by rw [split, split', List.append_assoc], related'⟩
  · cases parsed
  · cases parsed

theorem sound_peek {Q : β → List Token → Prop} {f : Token → Parser β}
    (going : ∀ token, SoundFrom token Q (f token))
    (ended : ∀ token, token.kind = .endOfInput → Sound Q (f token)) : Sound Q (peek >>= f) := by
  intro setting cursor b next final _ parsed
  change f (cursor.tokens.headD setting.final) setting cursor = .parsed b next at parsed
  cases tokens : cursor.tokens with
  | nil =>
      rw [tokens] at parsed
      obtain ⟨used, split, related⟩ :=
        ended setting.final final setting cursor b next final trivial parsed
      exact ⟨used, by rw [← split, tokens], related⟩
  | cons token rest =>
      rw [tokens] at parsed
      obtain ⟨used, split, related⟩ :=
        going token setting cursor b next final (by rw [tokens]; rfl) parsed
      exact ⟨used, by rw [← split, tokens], related⟩

theorem soundFrom_advance {Q : β → List Token → Prop} {f : Token → Parser β} {token : Token}
    (rest : Sound (fun b used => Q b (token :: used)) (f token)) :
    SoundFrom token Q (advance >>= f) := by
  intro setting cursor b next final starts parsed
  obtain ⟨tail, tokens⟩ := List.head?_eq_some_iff.mp starts
  have step : (advance >>= f) setting cursor = f token setting { cursor with tokens := tail } := by
    change Parser.bind advance f setting cursor = _
    unfold Parser.bind advance
    rw [tokens]
  rw [step] at parsed
  obtain ⟨used, split, related⟩ := rest setting _ b next final trivial parsed
  exact ⟨token :: used, by rw [tokens, List.cons_append, ← split], related⟩

private theorem soundFrom_advance_only {Q : Token → List Token → Prop} {token : Token}
    (h : Q token [token]) : SoundFrom token Q advance := by
  intro setting cursor b next final starts parsed
  obtain ⟨tail, tokens⟩ := List.head?_eq_some_iff.mp starts
  unfold advance at parsed
  rw [tokens] at parsed
  cases parsed
  exact ⟨[token], by rw [tokens]; rfl, h⟩

theorem soundOn_deepen {Q : β → List Token → Prop} {f : Unit → Parser β}
    (rest : SoundOn pre Q (f ())) : SoundOn pre Q (deepen >>= f) := by
  intro setting cursor b next final holds parsed
  change Parser.bind deepen f setting cursor = .parsed b next at parsed
  unfold Parser.bind deepen at parsed
  simp only at parsed
  split at parsed
  · rename_i taken
    split at taken
    · cases taken
    · cases taken
      exact rest setting { cursor with nesting := cursor.nesting + 1 } b next final holds parsed
  · cases parsed
  · cases parsed

theorem SoundOn.nested {Q : α → List Token → Prop} {p : Parser α} (h : SoundOn pre Q p) :
    SoundOn pre Q (nested p) := by
  refine soundOn_deepen fun setting cursor a next final holds parsed => ?_
  split at parsed
  · rename_i last taken
    cases parsed
    exact h setting cursor a last final holds taken
  · cases parsed
  · cases parsed

theorem SoundOn.balanced {Q : α → List Token → Prop} {p : Parser α} (h : SoundOn pre Q p) :
    SoundOn pre Q (balanced p) := by
  intro setting cursor a next final holds parsed
  unfold Parser.balanced at parsed
  split at parsed
  · rename_i last taken
    cases parsed
    exact h setting cursor a last final holds taken
  · cases parsed
  · cases parsed

def Accepted (kind : Kind) : Bool → List Token → Prop
  | true, used => ∃ token : Token, token.kind = kind ∧ used = [token]
  | false, used => used = []

theorem sound_accept {kind : Kind} (proper : kind ≠ .endOfInput) :
    Sound (Accepted kind) (accept kind) := by
  have without : Accepted kind false [] := rfl
  refine sound_peek (fun token => ?_) (fun token eof => ?_)
  · split
    · rename_i same
      exact soundFrom_advance (sound_pure ⟨token, same, rfl⟩)
    · exact (sound_pure without).on
  · rw [if_neg (by rw [eof]; exact proper.symm)]
    exact sound_pure without

theorem sound_expect {kind : Kind} (proper : kind ≠ .endOfInput) (expected : Expected) :
    Sound (fun token used => token.kind = kind ∧ used = [token]) (expect kind expected) := by
  refine sound_peek (fun token => ?_) (fun token eof => ?_)
  · split
    · rename_i same
      exact soundFrom_advance_only ⟨same, rfl⟩
    · exact (sound_refuse expected).on
  · rw [if_neg (by rw [eof]; exact proper.symm)]
    exact sound_refuse expected

theorem sound_expectName (expected : Expected) :
    Sound (fun name used => Named (name.blur .placeless) used) (expectName expected) := by
  refine sound_peek (fun token => ?_) (fun token eof => ?_)
  · split
    · rename_i same
      exact soundFrom_advance (sound_pure (.token same))
    · exact (sound_refuse expected).on
  · rw [eof]
    exact sound_refuse expected

private theorem sound_separated {Q : α → List Token → Prop} {item : Parser α} (h : Sound Q item)
    (allowance : Nat) : Sound (Commas Q) (separated item allowance) := by
  induction allowance with
  | zero => exact sound_exhausted
  | succ allowance ih =>
      refine h.bind fun first used related => ?_
      refine (sound_accept (symbol_ne_end .comma)).bind fun again comma accepted => ?_
      cases again with
      | false =>
          obtain rfl : comma = [] := accepted
          refine sound_pure ?_
          simpa using Commas.one related
      | true =>
          obtain ⟨token, kind, rfl⟩ := accepted
          refine ih.bind fun others more listed => sound_pure ?_
          simpa using Commas.more related kind listed

theorem sound_separatedUntil {Q : α → List Token → Prop} {item : Parser α} (h : Sound Q item)
    (close : Kind) (allowance : Nat) :
    Sound (Items Q) (separatedUntil close item allowance) := by
  have items : Sound (Items Q) (separated item allowance) :=
    (sound_separated h allowance).mono fun _ _ => .some
  refine sound_peek (fun token => ?_) (fun token _ => ?_) <;> split
  · exact (sound_pure .none).on
  · exact items.on
  · exact sound_pure .none
  · exact items

/-! ## Expressions -/

/-- Derived by a rule; and if it is a name, then one that can be assigned to. -/
def Derived (rule : Expr → List Token → Prop) (e : Expr) (used : List Token) : Prop :=
  rule (e.blur .placeless) used ∧
    ∀ name, e.blur .placeless = .lookup .nowhere name → Target name used

theorem Derived.of_ne {rule : Expr → List Token → Prop} {e : Expr} {used : List Token}
    (derived : rule (e.blur .placeless) used)
    (other : ∀ name, e.blur .placeless ≠ .lookup .nowhere name) : Derived rule e used :=
  ⟨derived, fun name same => absurd same (other name)⟩

/-- What a chain makes of `left`, which is no name unless the chain is empty. -/
def Extends (chain : Expr → Expr → List Token → Prop) (left e : Expr) (used : List Token) : Prop :=
  chain (left.blur .placeless) (e.blur .placeless) used ∧
    (e = left ∧ used = [] ∨ ∀ name, e.blur .placeless ≠ .lookup .nowhere name)

theorem Derived.extend {rule rule' : Expr → List Token → Prop}
    {chain : Expr → Expr → List Token → Prop} {first e : Expr} {ts us : List Token}
    (derived : Derived rule first ts) (extended : Extends chain first e us)
    (whole : rule' (e.blur .placeless) (ts ++ us)) : Derived rule' e (ts ++ us) := by
  rcases extended.2 with ⟨rfl, rfl⟩ | other
  · rw [List.append_nil] at whole ⊢
    exact ⟨whole, derived.2⟩
  · exact .of_ne whole other

def ClosedBy (closers : List Kind) (inner : α → List Token → Prop) (x : α × Token)
    (used : List Token) : Prop :=
  ∃ ts, used = ts ++ [x.2] ∧ x.2.kind ∈ closers ∧ inner x.1 ts

section Expressions

variable {expression operand : Parser Expr}

def ElementsClosed : List Expr × Token → List Token → Prop :=
  ClosedBy [.symbol .rightBracket] fun es ts => Elements (Expr.blurAll .placeless es) ts

private theorem sound_afterElement {more : Parser (List Expr × Token)} {first : Expr}
    {taken : List Token} (derived : Expression (first.blur .placeless) taken)
    (h : Sound ElementsClosed more) :
    Sound (fun x used => ElementsClosed x (taken ++ used)) (afterElement first more) := by
  have others : Sound (fun x used => ElementsClosed x (taken ++ used)) (do
      let _ ← expect (.symbol .comma) .arrayComma
      let others ← more
      pure (first :: others.1, others.2)) := by
    refine (sound_expect (symbol_ne_end _) _).bind fun comma used isComma => ?_
    obtain ⟨separator, rfl⟩ := isComma
    refine h.bind fun others used closed => sound_pure ?_
    obtain ⟨ts, rfl, closes, inner⟩ := closed
    exact ⟨taken ++ comma :: ts, by simp, closes, .cons derived separator inner⟩
  refine sound_peek (fun token => ?_) (fun token eof => ?_)
  · split
    · rename_i closes
      refine soundFrom_advance (sound_pure ⟨taken, rfl, by simp [closes], ?_⟩)
      exact .plain (.some (.one derived))
    · exact others.on
  · rw [eof, if_neg (symbol_ne_end _).symm]
    exact others

private theorem sound_elements (h : Sound (Derived Expression) expression) (allowance : Nat) :
    Sound ElementsClosed (elements expression allowance) := by
  induction allowance with
  | zero => exact sound_exhausted
  | succ allowance ih =>
      have others : Sound ElementsClosed
          (do afterElement (← expression) (elements expression allowance)) :=
        h.bind fun first taken derived => sound_afterElement derived.1 ih
      refine sound_peek (fun token => ?_) (fun token eof => ?_)
      · split
        · rename_i closes
          exact soundFrom_advance (sound_pure ⟨[], rfl, by simp [closes], .plain .none⟩)
        · exact others.on
      · rw [eof, if_neg (symbol_ne_end _).symm]
        exact others

private theorem soundFrom_array (h : Sound (Derived Expression) expression) (allowance : Nat)
    {token : Token} (opens : token.kind = .symbol .leftBracket) :
    SoundFrom token (Derived Primary) (array expression allowance) := by
  refine soundFrom_advance ((sound_elements h allowance).bind fun x used closed => sound_pure ?_)
  obtain ⟨ts, rfl, closes, inner⟩ := closed
  refine .of_ne ?_ (by simp [Expr.blur])
  simpa [Expr.blur] using Primary.array opens inner (by simpa using closes)

private theorem soundFrom_parenthesised (h : Sound (Derived Expression) expression) {token : Token}
    (opens : token.kind = .symbol .leftParen) :
    SoundFrom token (Derived Primary) (parenthesised expression) := by
  refine soundFrom_advance (h.bind fun e used derived => ?_)
  refine (sound_expect (symbol_ne_end _) _).bind fun close _ closing => sound_pure ?_
  obtain ⟨closes, rfl⟩ := closing
  rw [List.append_nil, ← List.cons_append, Derived, Expr.blur_placeless_widen]
  exact ⟨.parenthesised opens derived.1 closes,
    fun name same => .parenthesised opens (derived.2 name same) closes⟩

private theorem sound_primary (h : Sound (Derived Expression) expression) (allowance : Nat) :
    Sound (Derived Primary) (primary expression allowance) := by
  refine sound_peek (fun token => ?_) (fun token eof => ?_)
  · split
    · rename_i isLiteral
      refine soundFrom_advance (sound_pure (.of_ne ?_ (by simp [Expr.blur])))
      exact .atom (Atom.of_literal? isLiteral)
    · rename_i name _ isName
      refine soundFrom_advance (sound_pure ⟨.name (.token isName), ?_⟩)
      rintro _ ⟨⟩
      exact .name (.token isName)
    · rename_i opens
      exact soundFrom_parenthesised h opens
    · rename_i opens
      exact soundFrom_array h allowance opens
    · exact (sound_refuse _).on
  · rw [eof]
    exact sound_refuse _

def StartsSuffixes (left e : Expr) (used : List Token) : Prop :=
  (∀ f us, Suffixes (e.blur .placeless) f us → Suffixes (left.blur .placeless) f (used ++ us)) ∧
    ∀ name, e.blur .placeless ≠ .lookup .nowhere name

private theorem soundFrom_arguments (h : Sound (Derived Expression) expression) (allowance : Nat)
    (callee : Expr) {token : Token} (opens : token.kind = .symbol .leftParen) :
    SoundFrom token (StartsSuffixes callee) (arguments expression allowance callee) := by
  refine soundFrom_advance ((sound_separatedUntil h _ allowance).bind fun values ts items => ?_)
  refine (sound_expect (symbol_ne_end _) _).bind fun close _ closing => sound_pure ?_
  obtain ⟨closes, rfl⟩ := closing
  have inner : Items Expression (Expr.blurAll .placeless values) ts := by
    rw [Expr.blurAll_eq_map]
    exact items.map fun _ _ derived => derived.1
  refine ⟨fun f us suffixes => ?_, by simp [Expr.blur]⟩
  simpa using Suffixes.call opens inner closes suffixes

private theorem soundFrom_subscript (h : Sound (Derived Expression) expression) (source : Expr)
    {token : Token} (opens : token.kind = .symbol .leftBracket) :
    SoundFrom token (StartsSuffixes source) (subscript expression source) := by
  refine soundFrom_advance (h.bind fun position ts derived => ?_)
  refine (sound_expect (symbol_ne_end _) _).bind fun close _ closing => sound_pure ?_
  obtain ⟨closes, rfl⟩ := closing
  refine ⟨fun f us suffixes => ?_, by simp [Expr.blur]⟩
  simpa using Suffixes.index opens derived.1 closes suffixes

theorem StartsSuffixes.extends {left e f : Expr} {ts us : List Token}
    (starts : StartsSuffixes left e ts) (suffixes : Extends Suffixes e f us) :
    Extends Suffixes left f (ts ++ us) := by
  refine ⟨starts.1 _ us suffixes.1, .inr ?_⟩
  rcases suffixes.2 with ⟨rfl, rfl⟩ | other
  · exact starts.2
  · exact other

private theorem sound_suffixes (h : Sound (Derived Expression) expression) (allowance turns : Nat)
    (left : Expr) :
    Sound (Extends Suffixes left) (suffixes expression allowance turns left) := by
  have none : Extends Suffixes left left [] := ⟨.done _, .inl ⟨rfl, rfl⟩⟩
  induction turns generalizing left with
  | zero => exact sound_exhausted
  | succ turns ih =>
      have again : ∀ e used, StartsSuffixes left e used →
          Sound (fun f us => Extends Suffixes left f (used ++ us))
            (suffixes expression allowance turns e) := by
        intro e used starts
        exact (ih e ⟨.done _, .inl ⟨rfl, rfl⟩⟩).mono fun f us => starts.extends
      refine sound_peek (fun token => ?_) (fun token eof => ?_)
      · split
        · rename_i opens
          exact soundOn_deepen ((soundFrom_arguments h allowance left opens).bind again)
        · rename_i opens
          exact soundOn_deepen ((soundFrom_subscript h left opens).bind again)
        · exact (sound_pure none).on
      · rw [eof]
        exact sound_pure none

theorem sound_postfixed (h : Sound (Derived Expression) expression) (allowance : Nat) :
    Sound (Derived Unary) (postfixed expression allowance) := by
  refine SoundOn.balanced ((sound_primary h allowance).bind fun first ts derived => ?_)
  refine (sound_suffixes h allowance allowance first).mono fun e us extended => ?_
  exact derived.extend extended (.call derived.1 extended.1)

theorem sound_prefixed (h : Sound (Derived Unary) operand) (allowance : Nat) :
    Sound (Derived Unary) (prefixed operand allowance) := by
  induction allowance with
  | zero => exact sound_exhausted
  | succ allowance ih =>
      refine sound_peek (fun token => ?_) (fun token eof => ?_)
      · split
        · rename_i isSign
          refine soundFrom_advance (ih.nested.bind fun right ts derived => sound_pure ?_)
          refine .of_ne ?_ (by simp [Expr.blur])
          simpa [Expr.blur] using Unary.apply (Sign.of_isSign isSign) derived.1
        · exact h.on
      · rw [eof]
        exact h

private theorem sound_operations {tighter : List Level} (level : Level)
    (h : Sound (Derived (Operation tighter)) operand) (allowance : Nat) (left : Expr) :
    Sound (Extends (Chain level tighter) left) (operations level operand allowance left) := by
  have none : ∀ e, Extends (Chain level tighter) e e [] := fun e =>
    ⟨.done _ _ _, .inl ⟨rfl, rfl⟩⟩
  induction allowance generalizing left with
  | zero => exact sound_exhausted
  | succ allowance ih =>
      refine sound_peek (fun token => ?_) (fun token eof => ?_)
      · split
        · rename_i op isInfix
          refine soundOn_deepen (soundFrom_advance (h.bind fun right ts derived => ?_))
          refine (ih (op.join token left right)).mono fun e us extended => ⟨?_, .inr ?_⟩
          · rw [Extends, Operator.blur_placeless_join] at extended
            exact .apply (Infix.of_operator? isInfix) derived.1 extended.1
          · rcases extended.2 with ⟨rfl, rfl⟩ | other
            -- an operator has been applied, so this is not a name that could be assigned to
            · rw [Operator.blur_placeless_join]
              cases op <;> simp [Operator.apply]
            · exact other
        · exact (sound_pure (none left)).on
      · rw [eof, level.operator?_endOfInput]
        exact sound_pure (none left)

theorem sound_operators (h : Sound (Derived Unary) operand) (allowance : Nat)
    (levels : List Level) :
    Sound (Derived (Operation levels)) (operators operand allowance levels) := by
  induction levels with
  | nil => exact h.mono fun e ts derived => ⟨.unary derived.1, derived.2⟩
  | cons level tighter ih =>
      refine SoundOn.balanced (ih.bind fun first ts derived => ?_)
      refine (sound_operations level ih allowance first).mono fun e us extended => ?_
      exact derived.extend extended (.level derived.1 extended.1)

theorem sound_assignment (h : Sound (Derived (Operation Level.all)) operand) (allowance : Nat) :
    Sound (Derived Expression) (assignment operand allowance) := by
  induction allowance with
  | zero => exact sound_exhausted
  | succ allowance ih =>
      refine h.bind fun left ts derived => ?_
      have alone : Derived Expression left (ts ++ []) := by
        rw [List.append_nil]
        exact ⟨.operation derived.1, derived.2⟩
      refine sound_peek (fun token => ?_) (fun token eof => ?_)
      · split
        · rename_i isEqual
          refine soundFrom_advance (ih.nested.bind fun value us assigned => ?_)
          split
          · rename_i target
            refine sound_pure (.of_ne ?_ (by simp [Expr.blur]))
            simpa [Expr.blur] using
              Expression.assign (derived.2 (target.blur .placeless) rfl) isEqual assigned.1
          · exact sound_refuseAt token _
        · exact (sound_pure alone).on
      · rw [eof, if_neg (symbol_ne_end _).symm]
        exact sound_pure alone

end Expressions

theorem sound_expression (allowance : Nat) :
    Sound (Derived Expression) (expression allowance) := by
  induction allowance with
  | zero => exact sound_exhausted
  | succ allowance ih =>
      have operands := sound_prefixed (sound_postfixed ih (allowance + 1)) (allowance + 1)
      exact (sound_assignment (sound_operators operands (allowance + 1) _) (allowance + 1)).nested

private theorem sound_bound (allowance : Nat) :
    Sound (Derived (Operation [.sum, .product])) (bound allowance) := by
  have postfixes := sound_postfixed (sound_expression allowance) (allowance + 1)
  exact sound_operators (sound_prefixed postfixes (allowance + 1)) (allowance + 1) _

/-! ## Statements -/

def DerivedStatement (s : Stmt) (used : List Token) : Prop :=
  Statement (s.blur .placeless) used

def DerivedStatements (ss : List Stmt) (used : List Token) : Prop :=
  Statements (Stmt.blurAll .placeless ss) used

def DerivedBlock (closers : List Kind) : Block Stmt × Token → List Token → Prop :=
  ClosedBy closers fun block ts => DerivedStatements block.body ts

theorem sound_statements {statement : Parser Stmt} (h : Sound DerivedStatement statement)
    (closers : List Kind) (allowance : Nat) :
    Sound DerivedStatements (statements statement closers allowance) := by
  induction allowance with
  | zero => exact sound_exhausted
  | succ allowance ih =>
      refine sound_peek (fun token => ?_) (fun token eof => ?_)
      · split
        · exact (sound_pure .nil).on
        · refine Sound.on (h.bind fun first ts statement => ih.bind fun rest us statements => ?_)
          refine sound_pure ?_
          simpa [DerivedStatements, Stmt.blurAll] using Statements.cons statement statements
      · rw [if_pos (.inr eof)]
        exact sound_pure .nil

private theorem sound_block {body : Parser (List Stmt)} (h : Sound DerivedStatements body)
    {closers : List Kind} (proper : .endOfInput ∉ closers) (expected : Expected) :
    Sound (DerivedBlock closers) (block body closers expected) := by
  have inner : ∀ first : Token, Sound (DerivedBlock closers) (do
      let body ← nested body
      if (← peek).kind ∈ closers then
        let close ← advance
        return (⟨first.span.upTo close.span, body⟩, close)
      else
        refuse expected) := by
    refine fun first => SoundOn.bind (SoundOn.nested h) fun body ts derived => ?_
    refine sound_peek (fun token => ?_) (fun token eof => ?_)
    · split
      · rename_i closes
        exact soundFrom_advance (sound_pure ⟨ts, rfl, closes, derived⟩)
      · exact (sound_refuse expected).on
    · rw [eof, if_neg proper]
      exact sound_refuse expected
  exact sound_peek (fun token => (inner token).on) fun token _ => inner token

section Statements

variable {expression bound : Parser Expr} {body otherwise : Parser (Block Stmt × Token)}
  {token : Token}

private theorem soundFrom_functionRule {parameters : Parser (List Name)}
    (h : Sound (Items fun name => Named (name.blur .placeless)) parameters)
    (bodies : Sound (DerivedBlock [.keyword .fin]) body)
    (begins : token.kind = .keyword .fonction) :
    SoundFrom token DerivedStatement (functionRule parameters body) := by
  refine soundFrom_advance ((sound_expectName _).bind fun name ts named => ?_)
  refine (sound_expect (symbol_ne_end _) _).bind fun opening _ opened => ?_
  obtain ⟨opens, rfl⟩ := opened
  refine h.bind fun parameters us items => ?_
  refine (sound_expect (symbol_ne_end _) _).bind fun close _ closed => ?_
  obtain ⟨closes, rfl⟩ := closed
  refine bodies.bind fun block _ derived => sound_pure ?_
  obtain ⟨vs, rfl, ends, inner⟩ := derived
  have names : Items Named (parameters.map (Name.blur .placeless)) us :=
    items.map (f := Name.blur .placeless) fun _ _ named => named
  have derived := Statement.function begins named opens names closes inner (by simpa using ends)
  simpa [DerivedStatement, Stmt.blur] using derived

private theorem soundFrom_giveRule (inFunction : Bool) (h : Sound (Derived Expression) expression)
    (begins : token.kind = .keyword .retourner) :
    SoundFrom token DerivedStatement (giveRule inFunction expression) := by
  unfold giveRule
  split
  · refine soundFrom_advance (h.bind fun value ts derived => sound_pure ?_)
    simpa [DerivedStatement, Stmt.blur] using Statement.give begins derived.1
  · exact (sound_refuse _).on

private theorem soundFrom_declareRule (h : Sound (Derived Expression) expression)
    (begins : token.kind = .keyword .var) :
    SoundFrom token DerivedStatement (declareRule expression) := by
  refine soundFrom_advance ((sound_expectName _).bind fun name ts named => ?_)
  refine (sound_expect (symbol_ne_end _) _).bind fun equals _ signed => ?_
  obtain ⟨sign, rfl⟩ := signed
  refine h.bind fun value us derived => sound_pure ?_
  simpa [DerivedStatement, Stmt.blur] using Statement.declare begins named sign derived.1

private theorem soundFrom_branchRule (h : Sound (Derived Expression) expression)
    (bodies : Sound (DerivedBlock [.keyword .fin, .keyword .sinon]) body)
    (others : Sound (DerivedBlock [.keyword .fin]) otherwise)
    (begins : token.kind = .keyword .si) :
    SoundFrom token DerivedStatement (branchRule expression body otherwise) := by
  refine soundFrom_advance (h.bind fun condition ts tested => ?_)
  refine (sound_expect (keyword_ne_end _) _).bind fun middle _ leading => ?_
  obtain ⟨leads, rfl⟩ := leading
  refine bodies.bind fun block _ derived => ?_
  obtain ⟨us, rfl, ends, inner⟩ := derived
  dsimp only
  split
  · rename_i turns
    refine others.bind fun other _ derived => sound_pure ?_
    obtain ⟨vs, rfl, ends', alternative⟩ := derived
    have derived := Statement.branchOtherwise begins tested.1 leads inner turns alternative
      (by simpa using ends')
    simpa [DerivedStatement, Stmt.blur] using derived
  · rename_i other
    have last : block.2.kind = .keyword .fin := by simpa [other] using ends
    refine sound_pure ?_
    simpa [DerivedStatement, Stmt.blur] using Statement.branch begins tested.1 leads inner last

private theorem soundFrom_whileRule (h : Sound (Derived Expression) expression)
    (bodies : Sound (DerivedBlock [.keyword .fin]) body)
    (begins : token.kind = .keyword .tantque) :
    SoundFrom token DerivedStatement (whileRule expression body) := by
  refine soundFrom_advance (h.bind fun condition ts tested => ?_)
  refine (sound_expect (keyword_ne_end _) _).bind fun middle _ leading => ?_
  obtain ⟨leads, rfl⟩ := leading
  refine bodies.bind fun block _ derived => sound_pure ?_
  obtain ⟨us, rfl, ends, inner⟩ := derived
  have derived := Statement.whileLoop begins tested.1 leads inner (by simpa using ends)
  simpa [DerivedStatement, Stmt.blur] using derived

private theorem soundFrom_countRule (h : Sound (Derived (Operation [.sum, .product])) bound)
    (bodies : Sound (DerivedBlock [.keyword .fin]) body) (begins : token.kind = .keyword .pour) :
    SoundFrom token DerivedStatement (countRule bound body) := by
  refine soundFrom_advance ((sound_expectName _).bind fun counter ts named => ?_)
  refine (sound_expect (keyword_ne_end _) _).bind fun between _ ranging => ?_
  obtain ⟨ranges, rfl⟩ := ranging
  refine h.bind fun first us lower => ?_
  refine (sound_expect (keyword_ne_end _) _).bind fun conjunction _ joining => ?_
  obtain ⟨joins, rfl⟩ := joining
  refine h.bind fun final vs upper => ?_
  refine (sound_accept (keyword_ne_end _)).bind fun accepted leading leads => ?_
  refine bodies.bind fun block _ derived => sound_pure ?_
  obtain ⟨ws, rfl, ends, inner⟩ := derived
  have optional : leading = [] ∨
      ∃ middle : Token, middle.kind = .keyword .alors ∧ leading = [middle] := by
    cases accepted with
    | true => exact .inr leads
    | false => exact .inl leads
  have derived := Statement.countLoop begins named ranges lower.1 joins upper.1 optional inner
    (by simpa using ends)
  simpa [DerivedStatement, Stmt.blur] using derived

private theorem soundFrom_printRule (h : Sound (Derived Expression) expression)
    (begins : token.kind = .keyword .afficher) :
    SoundFrom token DerivedStatement (printRule expression) := by
  refine soundFrom_advance (h.bind fun value ts derived => sound_pure ?_)
  simpa [DerivedStatement, Stmt.blur] using Statement.print begins derived.1

private theorem soundFrom_blockRule (bodies : Sound (DerivedBlock [.symbol .rightBrace]) body)
    (opens : token.kind = .symbol .leftBrace) :
    SoundFrom token DerivedStatement (blockRule body) := by
  refine soundFrom_advance (bodies.bind fun block _ derived => sound_pure ?_)
  obtain ⟨ts, rfl, closes, inner⟩ := derived
  simpa [DerivedStatement, Stmt.blur] using Statement.block opens inner (by simpa using closes)

end Statements

private theorem sound_statement (allowance : Nat) (inFunction : Bool) :
    Sound DerivedStatement (statement allowance inFunction) := by
  induction allowance generalizing inFunction with
  | zero => exact sound_exhausted
  | succ allowance ih =>
      have expressions := sound_expression (allowance + 1)
      have bodies : ∀ inside {closers} expected, .endOfInput ∉ closers →
          Sound (DerivedBlock closers)
            (block (statements (statement allowance inside) closers (allowance + 1)) closers
              expected) :=
        fun inside closers expected proper =>
          sound_block (sound_statements (ih inside) closers (allowance + 1)) proper expected
      have alone : Sound DerivedStatement (do
          let value ← expression (allowance + 1)
          return .expression value) := by
        refine expressions.bind fun value ts derived => sound_pure ?_
        simpa [DerivedStatement, Stmt.blur] using Statement.expression derived.1
      refine sound_peek (fun token => ?_) (fun token eof => ?_)
      · split <;> rename_i begins
        · refine soundFrom_functionRule ?_ (bodies true _ (by simp)) begins
          exact sound_separatedUntil (sound_expectName _) _ _
        · exact soundFrom_giveRule inFunction expressions begins
        · exact soundFrom_declareRule expressions begins
        · exact soundFrom_branchRule expressions (bodies _ _ (by simp)) (bodies _ _ (by simp))
            begins
        · exact soundFrom_whileRule expressions (bodies _ _ (by simp)) begins
        · exact soundFrom_countRule (sound_bound _) (bodies _ _ (by simp)) begins
        · exact soundFrom_printRule expressions begins
        · exact soundFrom_blockRule (bodies _ _ (by simp)) begins
        · exact alone.on
      · rw [eof]
        exact alone

private theorem sound_program (allowance : Nat) : Sound DerivedStatements (program allowance) :=
  sound_statements (sound_statement allowance false) [] allowance

/-- Statements are read until one that closes them, or the end of the text, comes next. -/
theorem statements_stop {statement : Parser Stmt} {closers : List Kind} {allowance : Nat}
    {setting : Setting} {cursor next : Cursor} {ss : List Stmt}
    (h : statements statement closers allowance setting cursor = .parsed ss next) :
    (next.tokens.headD setting.final).kind ∈ closers ∨
      (next.tokens.headD setting.final).kind = .endOfInput := by
  induction allowance generalizing cursor ss with
  | zero => cases h
  | succ allowance ih =>
      change (if (cursor.tokens.headD setting.final).kind ∈ closers ∨
          (cursor.tokens.headD setting.final).kind = .endOfInput then pure []
        else statement >>= fun first =>
          statements statement closers allowance >>= fun rest => pure (first :: rest) :
          Parser (List Stmt)) setting cursor = .parsed ss next at h
      split at h
      · rename_i stops
        cases h
        exact stops
      · change Parser.bind _ _ setting cursor = .parsed ss next at h
        unfold Parser.bind at h
        split at h
        · rename_i first middle _
          change Parser.bind _ _ setting middle = .parsed ss next at h
          unfold Parser.bind at h
          split at h
          · rename_i rest last read
            cases h
            exact ih read
          · cases h
          · cases h
        · cases h
        · cases h

end Parser

private theorem eq_of_append_end {used rest tokens : List Token} {final other : Token}
    (same : used ++ rest = tokens ++ [final])
    (proper : ∀ token ∈ tokens, token.kind ≠ .endOfInput)
    (proper' : ∀ token ∈ used, token.kind ≠ .endOfInput) (ends : final.kind = .endOfInput)
    (stops : (rest.headD other).kind = .endOfInput) : used = tokens := by
  rcases List.append_eq_append_iff.mp same with ⟨more, rfl, tail⟩ | ⟨more, rfl, tail⟩
  · cases more with
    | nil => exact (List.append_nil used).symm
    | cons token more =>
        rw [tail] at stops
        exact absurd stops (proper token (by simp))
  · cases more with
    | nil => exact List.append_nil tokens
    | cons token more =>
        simp only [List.cons_append, List.cons.injEq] at tail
        exact absurd ends (tail.1 ▸ proper' token (by simp))

/--
The tokens of a program that is parsed, all of them and in their order, are
derived from the grammar, as the tree that the program is but for its spans.
-/
theorem statements_of_parse {limit : Nat} {tokens : List Token} {final : Token}
    {program : Program} (proper : ∀ token ∈ tokens, token.kind ≠ .endOfInput)
    (ends : final.kind = .endOfInput) (parsed : parse limit (tokens ++ [final]) = .ok program) :
    Grammar.Statements (Stmt.blurAll .placeless program) tokens := by
  obtain ⟨next, reply⟩ := (Reply.result_eq_ok _).mp parsed
  unfold parseReply at reply
  have isFinal := Parser.finalToken_kind (tokens ++ [final])
  obtain ⟨used, split, derived⟩ := Parser.sound_program _ _ _ program next isFinal trivial reply
  have taken : Takes 0 ⟨tokens ++ [final], 0⟩ next := by
    have room : (tokens ++ [final]).length < (tokens ++ [final]).length + 1 := Nat.lt_succ_self _
    have proper := Parser.ends_program room ⟨limit, Parser.finalToken (tokens ++ [final])⟩
      ⟨tokens ++ [final], 0⟩ isFinal (Nat.le_refl _)
    rwa [reply] at proper
  obtain ⟨used', split', _, proper'⟩ := taken
  -- the statements end before an end of input, and the last token is the only one
  have stops := (Parser.statements_stop reply).resolve_left List.not_mem_nil
  have same : used = used' := List.append_cancel_right (split.symm.trans split')
  rw [← eq_of_append_end split.symm proper (same ▸ proper') ends stops]
  exact derived

/-- A target in parentheses, an array with a comma at its end, and a loop without its word. -/
theorem statements_of_parse_all_forms :
    let kinds : List Kind := [.symbol .leftParen, .identifier "a", .symbol .rightParen,
      .symbol .equal, .symbol .leftBracket, .identifier "f", .symbol .leftParen, .text "b",
      .symbol .rightParen, .symbol .comma, .symbol .rightBracket, .keyword .pour, .identifier "i",
      .keyword .entre, .identifier "a", .keyword .et, .identifier "a", .symbol .star,
      .identifier "a", .keyword .afficher, .identifier "i", .keyword .fin]
    let tokens : List Token := kinds.map fun kind => ⟨kind, "", .nowhere⟩
    (∀ token ∈ tokens, token.kind ≠ .endOfInput) ∧ ∃ program,
      parse 9 (tokens ++ [.endAt .nowhere]) = .ok program ∧ program.length = 2 ∧
      Grammar.Statements (Stmt.blurAll .placeless program) tokens := by
  intro kinds tokens
  have proper : ∀ token ∈ tokens, token.kind ≠ .endOfInput := by decide
  have length : (parse 9 (tokens ++ [.endAt .nowhere])).toOption.map List.length = some 2 := by
    decide +kernel
  refine ⟨proper, ?_⟩
  cases parsed : parse 9 (tokens ++ [.endAt .nowhere]) with
  | error fault => simp [parsed, Except.toOption] at length
  | ok program =>
      refine ⟨program, rfl, ?_, statements_of_parse proper rfl parsed⟩
      simpa [parsed, Except.toOption] using length

end Ardoise
