import Ardoise.Proofs.Blur
import Ardoise.Proofs.Parsing.Reading

/-!
# Expressions are read back

Every place in which an expression can stand is a slot of some rank, and is read
by the parser of that rank.  Tokens that fill a slot also fill the slots of lower
ranks; so it is enough to show that an expression fills the slot of its own rank,
and that it fills any slot when it stands in parentheses.
-/

namespace Ardoise

def Level.tighter : Level → List Level
  | disjunction => [conjunction, equality, comparison, sum, product]
  | conjunction => [equality, comparison, sum, product]
  | equality => [comparison, sum, product]
  | comparison => [sum, product]
  | sum => [product]
  | product => []

namespace Parser

/-- The parser of operators of the given levels, with allowance `a` for what stands inside. -/
def ranked (a : Nat) (levels : List Level) : Parser Expr :=
  operators (operand (expression a) (a + 1)) (a + 1) levels

section Slots

variable (setting : Setting) (a : Nat) (ts : List Token) (e : Expr)

def StartsPlain : Prop :=
  ∃ token rest, ts = token :: rest ∧ token.kind.isSign = false

def FillsPrimary : Prop :=
  StartsPlain ts ∧ ∀ n next, n + ts.length ≤ setting.limit + 1 →
    Reads setting n ts next (primary (expression a) (a + 1)) e

def FillsPostfix : Prop :=
  StartsPlain ts ∧ ∀ n next, n + ts.length ≤ setting.limit + 1 →
    ∃ turns depth, a + 1 ≤ turns + ts.length ∧ depth < ts.length ∧
      Leads setting n ts next
        (primary (expression a) (a + 1) >>= suffixes (expression a) (a + 1) (a + 1))
        (n + depth) (suffixes (expression a) (a + 1) turns e)

def FillsPrefix : Prop :=
  ∀ b n next, ts.length < b → n + ts.length ≤ setting.limit + 1 → next.kind.Stops 7 →
    Reads setting n ts next (prefixed (postfixed (expression a) (a + 1)) b) e

def FillsLevel (level : Level) : Prop :=
  ∀ n next, n + ts.length ≤ setting.limit + 1 → next.kind.Stops (level.rank + 1) →
    ∃ turns depth, a + 1 ≤ turns + ts.length ∧ depth < ts.length ∧
      Leads setting n ts next
        (ranked a level.tighter >>= operations level (ranked a level.tighter) (a + 1))
        (n + depth) (operations level (ranked a level.tighter) turns e)

def FillsAssignment : Prop :=
  ∀ b n next, ts.length < b → n + ts.length ≤ setting.limit + 1 → next.kind.Stops 0 →
    Reads setting n ts next (assignment (ranked a Level.all) b) e

/-- The tokens are read as the expression where one of the given rank is asked for. -/
def Fills : Nat → Prop
  | 0 => FillsAssignment setting a ts e
  | 1 => FillsLevel setting a ts e .disjunction
  | 2 => FillsLevel setting a ts e .conjunction
  | 3 => FillsLevel setting a ts e .equality
  | 4 => FillsLevel setting a ts e .comparison
  | 5 => FillsLevel setting a ts e .sum
  | 6 => FillsLevel setting a ts e .product
  | 7 => FillsPrefix setting a ts e
  | 8 => FillsPostfix setting a ts e
  | _ => FillsPrimary setting a ts e

end Slots

variable {setting : Setting} {a : Nat} {ts : List Token} {e : Expr}

private theorem fills_level (level : Level) :
    Fills setting a ts e level.rank ↔ FillsLevel setting a ts e level := by
  cases level <;> exact Iff.rfl

/-! ## From higher ranks to lower ones -/

theorem StartsPlain.pos (h : StartsPlain ts) : 0 < ts.length := by
  obtain ⟨token, rest, rfl, _⟩ := h
  exact Nat.succ_pos _

theorem StartsPlain.append (h : StartsPlain ts) (us : List Token) : StartsPlain (ts ++ us) := by
  obtain ⟨token, rest, rfl, plain⟩ := h
  exact ⟨token, rest ++ us, rfl, plain⟩

theorem FillsPrimary.postfix (h : FillsPrimary setting a ts e) : FillsPostfix setting a ts e := by
  refine ⟨h.1, fun n next room => ⟨a + 1, 0, Nat.le_add_right _ _, h.1.pos, ?_⟩⟩
  exact (h.2 n next room).leads _

private theorem suffixes_stop {expression : Parser Expr} {allowance turns n : Nat} {next : Token}
    (left : Expr) (more : List Token) (positive : 0 < turns) (stops : next.kind.Stops 7) :
    suffixes expression allowance turns left setting ⟨next :: more, n⟩ =
      .parsed left ⟨next :: more, n⟩ := by
  obtain ⟨turns, rfl⟩ := Nat.exists_eq_succ_of_ne_zero (Nat.ne_of_gt positive)
  have notCall : next.kind ≠ .symbol .leftParen := stops.ne rfl (by decide)
  have notIndex : next.kind ≠ .symbol .leftBracket := stops.ne rfl (by decide)
  rw [suffixes, peek_bind]
  generalize next.kind = kind at notCall notIndex
  cases kind with
  | symbol sign => cases sign <;> first | rfl | contradiction
  | _ => rfl

private theorem FillsPostfix.prefix (h : FillsPostfix setting a ts e) (fits : ts.length ≤ a) :
    FillsPrefix setting a ts e := by
  intro b n next enough room stops
  obtain ⟨b, rfl⟩ := Nat.exists_eq_succ_of_ne_zero (Nat.ne_zero_of_lt enough)
  obtain ⟨turns, depth, left, _, leads⟩ := h.2 n next room
  have reads : Reads setting n ts next (postfixed (expression a) (a + 1)) e :=
    leads.balanced fun more => suffixes_stop e more (by omega) stops
  obtain ⟨token, rest, rfl, plain⟩ := h.1
  intro more
  rw [prefixed, List.cons_append, peek_bind, plain]
  exact reads more

theorem FillsPrefix.product (h : FillsPrefix setting a ts e) (positive : 0 < ts.length)
    (fits : ts.length ≤ a) : FillsLevel setting a ts e .product := by
  intro n next room stops
  refine ⟨a + 1, 0, Nat.le_add_right _ _, positive, ?_⟩
  exact (h (a + 1) n next (Nat.lt_succ_of_le fits) room stops).leads _

theorem operations_stop {level : Level} {operand : Parser Expr} {turns n : Nat} {next : Token}
    (left : Expr) (more : List Token) (positive : 0 < turns) (stops : next.kind.Stops level.rank) :
    operations level operand turns left setting ⟨next :: more, n⟩ =
      .parsed left ⟨next :: more, n⟩ := by
  obtain ⟨turns, rfl⟩ := Nat.exists_eq_succ_of_ne_zero (Nat.ne_of_gt positive)
  rw [operations, peek_bind, Level.operator?_of_stops stops]
  rfl

theorem FillsLevel.reads {level : Level} (h : FillsLevel setting a ts e level)
    (fits : ts.length ≤ a) {n : Nat} {next : Token} (room : n + ts.length ≤ setting.limit + 1)
    (stops : next.kind.Stops level.rank) :
    Reads setting n ts next (ranked a (level :: level.tighter)) e := by
  obtain ⟨turns, depth, left, _, leads⟩ := h n next room (stops.mono (Nat.le_succ _))
  exact leads.balanced fun more => operations_stop e more (by omega) stops

theorem FillsLevel.looser {level looser : Level} (h : FillsLevel setting a ts e level)
    (next_level : looser.tighter = level :: level.tighter) (rank : level.rank = looser.rank + 1)
    (positive : 0 < ts.length) (fits : ts.length ≤ a) : FillsLevel setting a ts e looser := by
  intro n next room stops
  rw [next_level]
  refine ⟨a + 1, 0, Nat.le_add_right _ _, positive, ?_⟩
  exact (h.reads fits room (rank ▸ stops)).leads _

theorem FillsLevel.assignment (h : FillsLevel setting a ts e .disjunction)
    (fits : ts.length ≤ a) : FillsAssignment setting a ts e := by
  intro b n next enough room stops more
  obtain ⟨b, rfl⟩ := Nat.exists_eq_succ_of_ne_zero (Nat.ne_zero_of_lt enough)
  have reads := h.reads fits room (stops.mono (Nat.zero_le _)) more
  have notEqual : next.kind ≠ .symbol .equal := stops.ne rfl (Nat.le_refl _)
  rw [Parser.assignment]
  refine (bind_of_parsed reads).trans ?_
  rw [peek_bind, if_neg notEqual]
  rfl

theorem Fills.down {rank : Nat} (h : Fills setting a ts e (rank + 1)) (positive : 0 < ts.length)
    (fits : ts.length ≤ a) : Fills setting a ts e rank := by
  match rank, h with
  | 0, h => exact FillsLevel.assignment h fits
  | 1, h => exact FillsLevel.looser h rfl rfl positive fits
  | 2, h => exact FillsLevel.looser h rfl rfl positive fits
  | 3, h => exact FillsLevel.looser h rfl rfl positive fits
  | 4, h => exact FillsLevel.looser h rfl rfl positive fits
  | 5, h => exact FillsLevel.looser h rfl rfl positive fits
  | 6, h => exact FillsPrefix.product h positive fits
  | 7, h => exact FillsPostfix.prefix h fits
  | 8, h => exact FillsPrimary.postfix h
  | _ + 9, h => exact h

theorem Fills.of_le {rank lower : Nat} (h : Fills setting a ts e rank) (le : lower ≤ rank)
    (positive : 0 < ts.length) (fits : ts.length ≤ a) : Fills setting a ts e lower := by
  induction le with
  | refl => exact h
  | step _ ih => exact ih (h.down positive fits)

/-! ## What fills a slot -/

def ReadsExpression (setting : Setting) (a : Nat) (ts : List Token) (e : Expr) : Prop :=
  ∀ n next, n + ts.length ≤ setting.limit → next.kind.Stops 0 →
    Reads setting n ts next (expression a) e

theorem Fills.expression {rank : Nat} (h : Fills setting a ts e rank) (positive : 0 < ts.length)
    (fits : ts.length ≤ a) : ReadsExpression setting (a + 1) ts e := by
  intro n next room stops
  have assignment : Fills setting a ts e 0 := h.of_le (Nat.zero_le _) positive fits
  have reads := assignment (a + 1) (n + 1) next (by omega) (by omega) stops
  exact reads.nested (by omega)

theorem stops_symbol {sign : Symbol} (h : (Kind.symbol sign).tightness? = none) (rank : Nat) :
    (Token.symbol sign).kind.Stops rank := Kind.stops_of_none h

private theorem fillsPrimary_literal (token : Token) {value : Literal}
    (isLiteral : literal? token.kind = some value) :
    FillsPrimary setting a [token] (.literal token.span value) := by
  have plain : token.kind.isSign = false := by
    unfold Kind.isSign
    split <;> simp_all [literal?]
  refine ⟨⟨token, [], rfl, plain⟩, fun n next _ more => ?_⟩
  rw [primary, List.singleton_append, peek_bind, isLiteral]
  rfl

theorem fillsPrimary_name (name : Name) :
    FillsPrimary setting a [name.token] (.lookup .nowhere ⟨name.text, .nowhere⟩) :=
  ⟨⟨name.token, [], rfl, rfl⟩, fun _ _ _ _ => rfl⟩

theorem length_enclose (opening close : Symbol) (ts : List Token) :
    (enclose opening close ts).length = ts.length + 2 := by
  simp [enclose]

theorem enclose_append (opening close : Symbol) (ts rest : List Token) :
    enclose opening close ts ++ rest = .symbol opening :: (ts ++ .symbol close :: rest) := by
  simp [enclose]

private theorem fillsPrimary_parenthesised (h : ReadsExpression setting a ts e)
    (flat : e.widen .nowhere = e) :
    FillsPrimary setting a (enclose .leftParen .rightParen ts) e := by
  refine ⟨⟨_, _, rfl, rfl⟩, fun n next room more => ?_⟩
  have room' : n + ts.length ≤ setting.limit := by
    rw [length_enclose] at room
    omega
  have inner := h n (.symbol .rightParen) room' (stops_symbol rfl 0) (next :: more)
  rw [enclose_append, primary, peek_bind]
  change parenthesised (Parser.expression a) setting
    ⟨.symbol .leftParen :: (ts ++ .symbol .rightParen :: next :: more), n⟩ = _
  rw [parenthesised, advance_bind, bind_of_parsed inner, expect_bind _ (Token.kind_symbol _)]
  exact congrArg (Reply.parsed · _) flat

def ReadsEach {γ : Type} (setting : Setting) (a : Nat) (f : γ → List Token) (g : γ → Expr)
    (xs : List γ) : Prop :=
  ∀ x ∈ xs, ReadsExpression setting a (f x) (g x) ∧ StartsExpression (f x)

section Lists

variable {γ : Type} {f : γ → List Token} {g : γ → Expr} {xs : List γ}

theorem ReadsEach.reads (h : ReadsEach setting a f g xs) {n : Nat}
    (room : n + (commaSeparated (xs.map f)).length ≤ setting.limit) {close : Token}
    (closes : close.kind.tightness? = none) :
    ∀ x ∈ xs, ∀ follow : Token, follow.kind = .symbol .comma ∨ follow = close →
      Reads setting n (f x) follow (expression a) (g x) := by
  intro x member follow follows
  have short := length_le_commaSeparated (f := f) member
  refine (h x member).1 n follow (by omega) (Kind.stops_of_none ?_)
  rcases follows with isComma | rfl
  · rw [isComma]
    rfl
  · exact closes

theorem ReadsEach.starts (h : ReadsEach setting a f g xs) {close : Kind}
    (closes : close.startsExpression = false) :
    ∀ x ∈ xs, ∃ token rest, f x = token :: rest ∧ token.kind ≠ close := by
  intro x member
  obtain ⟨token, rest, first, starts, _⟩ := (h x member).2
  exact ⟨token, rest, first, Kind.ne_of_startsExpression starts closes⟩

private theorem fillsPrimary_array (h : ReadsEach setting a f g xs)
    (fits : (commaSeparated (xs.map f)).length + 2 ≤ a) :
    FillsPrimary setting a (enclose .leftBracket .rightBracket (commaSeparated (xs.map f)))
      (.array .nowhere (xs.map g)) := by
  refine ⟨⟨_, _, rfl, rfl⟩, fun n next room more => ?_⟩
  rw [length_enclose] at room
  have count := length_le_length_commaSeparated (f := f) xs
  have inner := elements_parsed (Token.kind_symbol .rightBracket) (next :: more) xs
    (Nat.lt_of_le_of_lt count (by omega : _ < a + 1)) (h.starts rfl)
    (h.reads (by omega : n + _ ≤ setting.limit) rfl)
  rw [enclose_append]
  change (elements (expression a) (a + 1) >>= _) setting _ = _
  rw [bind_of_parsed inner]
  rfl

theorem FillsPostfix.call (callee : FillsPostfix setting a ts e) (flat : e.span = .nowhere)
    (h : ReadsEach setting a f g xs)
    (fits : ts.length + (commaSeparated (xs.map f)).length + 2 ≤ a) :
    FillsPostfix setting a (ts ++ enclose .leftParen .rightParen (commaSeparated (xs.map f)))
      (.call .nowhere .nowhere e (xs.map g)) := by
  refine ⟨callee.1.append _, fun n next room => ?_⟩
  rw [List.length_append, length_enclose] at room ⊢
  obtain ⟨turns, depth, left, shallow, leads⟩ := callee.2 n (.symbol .leftParen) (by omega)
  obtain ⟨turns, rfl⟩ := Nat.exists_eq_succ_of_ne_zero (by omega : turns ≠ 0)
  refine ⟨turns, depth + 1, by omega, by omega, fun more => ?_⟩
  have count := length_le_length_commaSeparated (f := f) xs
  have items := reads_separatedUntil (Token.kind_symbol .rightParen) nofun xs
    (by omega : xs.length ≤ a + 1) (h.starts rfl)
    (h.reads (by omega : n + depth + 1 + _ ≤ setting.limit) rfl) (next :: more)
  rw [List.append_assoc, enclose_append, leads, suffixes, peek_bind]
  refine (deepen_bind (by omega)).trans ?_
  refine bind_of_parsed ?_
  change (separatedUntil _ (expression a) (a + 1) >>= _) setting _ = _
  rw [bind_of_parsed items, expect_bind _ (Token.kind_symbol _), flat]
  rfl

end Lists

theorem FillsPostfix.index (source : FillsPostfix setting a ts e) (flat : e.span = .nowhere)
    {us : List Token} {position : Expr} (h : ReadsExpression setting a us position)
    (fits : ts.length + us.length + 2 ≤ a) :
    FillsPostfix setting a (ts ++ enclose .leftBracket .rightBracket us)
      (.index .nowhere e position) := by
  refine ⟨source.1.append _, fun n next room => ?_⟩
  rw [List.length_append, length_enclose] at room ⊢
  obtain ⟨turns, depth, left, shallow, leads⟩ := source.2 n (.symbol .leftBracket) (by omega)
  obtain ⟨turns, rfl⟩ := Nat.exists_eq_succ_of_ne_zero (by omega : turns ≠ 0)
  refine ⟨turns, depth + 1, by omega, by omega, fun more => ?_⟩
  have inner := h (n + depth + 1) (.symbol .rightBracket) (by omega) (stops_symbol rfl 0)
    (next :: more)
  rw [List.append_assoc, enclose_append, leads, suffixes, peek_bind]
  refine (deepen_bind (by omega)).trans ?_
  refine bind_of_parsed ?_
  change (expression a >>= _) setting _ = _
  rw [bind_of_parsed inner, expect_bind _ (Token.kind_symbol _), flat]
  rfl

theorem FillsPrefix.unary (h : FillsPrefix setting a ts e) (flat : e.span = .nowhere)
    (positive : 0 < ts.length) {op : Kind} (sign : op.isSign = true) :
    FillsPrefix setting a (.of op :: ts) (.unary .nowhere op e) := by
  intro b n next enough room stops more
  rw [List.length_cons] at enough room
  obtain ⟨b, rfl⟩ := Nat.exists_eq_succ_of_ne_zero (Nat.ne_zero_of_lt enough)
  have inner := (h b (n + 1) next (by omega) (by omega) stops).nested (by omega) more
  have sign : (Token.of op).kind.isSign = true := sign
  rw [prefixed, List.cons_append, peek_bind, sign]
  refine (advance_bind _ _ _ _).trans ?_
  rw [bind_of_parsed inner, flat]
  rfl

private theorem Fills.reads_operand {level : Level} (h : Fills setting a ts e (level.rank + 1))
    (fits : ts.length ≤ a) {n : Nat} {next : Token} (room : n + ts.length ≤ setting.limit + 1)
    (stops : next.kind.Stops (level.rank + 1)) :
    Reads setting n ts next (ranked a level.tighter) e := by
  cases level with
  | product => exact h (a + 1) n next (Nat.lt_succ_of_le fits) room stops
  | _ => exact FillsLevel.reads h fits room stops

theorem FillsLevel.operator {level : Level} (left : FillsLevel setting a ts e level)
    {token : Token} {op : Operator} (isOperator : level.operator? token.kind = some op)
    {us : List Token} {right : Expr} (h : Fills setting a us right (level.rank + 1))
    (positive : 0 < us.length) (fits : ts.length + us.length + 1 ≤ a) :
    FillsLevel setting a (ts ++ token :: us) (op.join token e right) level := by
  intro n next room stops
  rw [List.length_append, List.length_cons] at room ⊢
  have isNext : token.kind.Stops (level.rank + 1) :=
    Kind.stops_of_lt (Level.tightness?_of_operator? isOperator) (Nat.lt_succ_self _)
  -- the chain that ends here takes one more turn for the operator, one level deeper
  obtain ⟨turns, depth, enough, shallow, leads⟩ := left n token (by omega) isNext
  obtain ⟨turns, rfl⟩ := Nat.exists_eq_succ_of_ne_zero (by omega : turns ≠ 0)
  refine ⟨turns, depth + 1, by omega, by omega, fun more => ?_⟩
  have inner := h.reads_operand (by omega) (by omega : n + depth + 1 + us.length ≤ _) stops more
  rw [List.append_assoc, List.cons_append, leads, operations, peek_bind, isOperator]
  refine (deepen_bind (by omega)).trans ?_
  refine (advance_bind _ _ _ _).trans ?_
  rw [bind_of_parsed inner]
  rfl

theorem FillsAssignment.assign (h : FillsAssignment setting a ts e) (flat : e.span = .nowhere)
    (positive : 0 < ts.length) (fits : ts.length + 2 ≤ a) (target : Name) :
    FillsAssignment setting a (target.token :: .symbol .equal :: ts)
      (.assign .nowhere ⟨target.text, .nowhere⟩ e) := by
  intro b n next enough room stops more
  simp only [List.length_cons] at enough room
  obtain ⟨b, rfl⟩ := Nat.exists_eq_succ_of_ne_zero (Nat.ne_zero_of_lt enough)
  have name : Fills setting a [target.token] (.lookup .nowhere ⟨target.text, .nowhere⟩) 9 :=
    fillsPrimary_name target
  have level := name.of_le (by decide : 1 ≤ 9) Nat.one_pos (by simp; omega)
  have isEqual : (Token.symbol .equal).kind.Stops 1 := Kind.stops_of_lt rfl Nat.one_pos
  have left := FillsLevel.reads level (by simp; omega) (by simp; omega : n + _ ≤ _) isEqual
    (ts ++ next :: more)
  have value := (h b (n + 1) next (by omega) (by omega) stops).nested (by omega) more
  rw [Parser.assignment]
  refine (bind_of_parsed left).trans ?_
  rw [peek_bind, if_pos (Token.kind_symbol _), advance_bind, bind_of_parsed value, flat]
  rfl

theorem fills_fence {rank slot : Nat} (h : ∀ b, ts.length ≤ b → Fills setting b ts e rank)
    (flat : e.widen .nowhere = e) (positive : 0 < ts.length) (proper : slot ≤ 9)
    (fits : (fence slot rank ts).length ≤ a) : Fills setting a (fence slot rank ts) e slot := by
  unfold fence at fits ⊢
  split at fits
  · rename_i low
    rw [if_pos low]
    rw [length_enclose] at fits
    obtain ⟨a, rfl⟩ := Nat.exists_eq_succ_of_ne_zero (by omega : a ≠ 0)
    -- between parentheses any expression is a primary, whatever its rank
    have inner := (h a (by omega)).expression positive (by omega)
    have primary : Fills setting (a + 1) (enclose .leftParen .rightParen ts) e 9 :=
      fillsPrimary_parenthesised inner flat
    exact primary.of_le proper (by simp [enclose]) (by simpa [length_enclose] using fits)
  · rename_i high
    rw [if_neg high]
    exact (h a fits).of_le (Nat.le_of_not_lt high) positive fits

end Parser

/-! ## Expressions -/

@[simp] theorem Span.nowhere_upTo_nowhere : Span.nowhere.upTo .nowhere = .nowhere := rfl

namespace Expr

theorem span_blur_placeless (e : Expr) : (e.blur .placeless).span = .nowhere := by
  simp

theorem widen_blur_placeless (e : Expr) :
    (e.blur .placeless).widen .nowhere = e.blur .placeless := by
  cases e <;> rfl

theorem tokensEach_eq_map (es : List Expr) : tokensEach es = es.map tokens := by
  induction es with
  | nil => rfl
  | cons e rest ih => rw [tokensEach, ih, List.map_cons]

end Expr

private theorem Expr.allOperatorsFit_iff {es : List Expr} :
    Expr.allOperatorsFit es = true ↔ ∀ e ∈ es, e.operatorsFit = true := by
  induction es with
  | nil => simp [Expr.allOperatorsFit]
  | cons e rest ih => simp [Expr.allOperatorsFit, ih]

theorem Expr.tokens_starts : (e : Expr) → e.operatorsFit = true → StartsExpression e.tokens
  | .literal _ value, _ => by
      refine ⟨_, _, rfl, ?_, rfl⟩
      cases value with
      | boolean value => cases value <;> rfl
      | _ => rfl
  | .lookup .., _ => ⟨_, _, rfl, rfl, rfl⟩
  | .assign .., _ => ⟨_, _, rfl, rfl, rfl⟩
  | .array .., _ => ⟨_, _, rfl, rfl, rfl⟩
  | .unary _ op _, fit => by
      rw [operatorsFit, Bool.and_eq_true] at fit
      have sign := fit.1
      refine ⟨_, _, rfl, ?_, rfl⟩
      unfold Kind.isSign at sign
      split at sign <;> first | rfl | cases sign
  | .binary _ _ left _, fit | .logical _ _ _ left _, fit => by
      simp only [operatorsFit, Bool.and_eq_true] at fit
      rw [tokens]
      exact ((left.tokens_starts fit.1.2).fence _ _).append _
  | .call _ _ left _, fit | .index _ left _, fit => by
      simp only [operatorsFit, Bool.and_eq_true] at fit
      rw [tokens]
      exact ((left.tokens_starts fit.1).fence _ _).append _

theorem Expr.tokens_pos (e : Expr) : 0 < e.tokens.length := by
  cases e <;> simp only [tokens, enclose, List.length_append, List.length_cons] <;> omega

theorem length_fence_pos {ts : List Token} (h : 0 < ts.length) (slot rank : Nat) :
    0 < (fence slot rank ts).length := by
  unfold fence
  split
  · simp [enclose]
  · exact h

theorem Literal.literal?_kind (value : Literal) : Parser.literal? value.kind = some value := by
  cases value with
  | boolean value => cases value <;> rfl
  | _ => rfl

open Ardoise.Parser

variable {setting : Setting} {a : Nat}

theorem Expr.readsEach {es : List Expr} (fit : Expr.allOperatorsFit es = true)
    (each : ∀ e ∈ es, ∀ b, e.tokens.length ≤ b →
      Fills setting b e.tokens (e.blur .placeless) e.rank)
    (fits : (commaSeparated (es.map tokens)).length + 1 ≤ a) :
    ReadsEach setting a tokens (blur .placeless) es := by
  obtain ⟨a, rfl⟩ := Nat.exists_eq_succ_of_ne_zero (by omega : a ≠ 0)
  intro e member
  have short := length_le_commaSeparated (f := tokens) member
  have reads := (each e member a (by omega)).expression e.tokens_pos (by omega)
  exact ⟨reads, e.tokens_starts (Expr.allOperatorsFit_iff.mp fit e member)⟩

/-- Where both operands fill the slots of their ranks, so does an operator between them. -/
theorem Expr.fills_operator {level : Level} {op : Operator} (token : Token) {left right : Expr}
    (isOperator : level.operator? token.kind = some op)
    (first : ∀ b, left.tokens.length ≤ b →
      Fills setting b left.tokens (left.blur .placeless) left.rank)
    (second : ∀ b, right.tokens.length ≤ b →
      Fills setting b right.tokens (right.blur .placeless) right.rank)
    (fits : (fence level.rank left.rank left.tokens ++
      token :: fence (level.rank + 1) right.rank right.tokens).length ≤ a) :
    Fills setting a (fence level.rank left.rank left.tokens ++
      token :: fence (level.rank + 1) right.rank right.tokens)
      (op.join token (left.blur .placeless) (right.blur .placeless)) level.rank := by
  have low : level.rank < 9 := by cases level <;> decide
  rw [List.length_append, List.length_cons] at fits
  have slot := fills_fence (a := a) first left.widen_blur_placeless left.tokens_pos
    (Nat.le_of_lt low) (by omega)
  have slot' := fills_fence (a := a) second right.widen_blur_placeless right.tokens_pos
    (Nat.succ_le_of_lt low) (by simp only [Nat.succ_eq_add_one]; omega)
  rw [fills_level] at slot ⊢
  exact slot.operator isOperator slot' (length_fence_pos right.tokens_pos _ _) (by omega)

mutual

/-- What an expression is printed as fills the slot of its rank. -/
theorem Expr.fills_tokens (setting : Setting) : (e : Expr) → e.operatorsFit = true →
    ∀ a, e.tokens.length ≤ a → Fills setting a e.tokens (e.blur .placeless) e.rank
  | .literal _ value, _, a, _ => fillsPrimary_literal (.of value.kind) value.literal?_kind
  | .lookup _ name, _, a, _ => fillsPrimary_name name
  | .assign _ target value, fit, a, fits => by
      rw [tokens, List.length_cons, List.length_cons] at fits
      have inner := (Expr.fills_tokens setting value fit a (by omega)).of_le (Nat.zero_le _)
        value.tokens_pos (by omega)
      exact FillsAssignment.assign inner value.span_blur_placeless value.tokens_pos fits target
  | .unary _ op operand, fit, a, fits => by
      rw [operatorsFit, Bool.and_eq_true] at fit
      rw [tokens, List.length_cons] at fits
      have inner := fills_fence (a := a) (Expr.fills_tokens setting operand fit.2)
        operand.widen_blur_placeless operand.tokens_pos (by decide : 7 ≤ 9) (by omega)
      exact FillsPrefix.unary inner operand.span_blur_placeless
        (length_fence_pos operand.tokens_pos _ _) fit.1
  | .binary _ op left right, fit, a, fits => by
      simp only [operatorsFit, Bool.and_eq_true] at fit
      have operator := Level.operator?_eq_binary.mpr ⟨fit.1.1, rfl⟩
      have both := Expr.fills_operator (.of op) operator (Expr.fills_tokens setting left fit.1.2)
        (Expr.fills_tokens setting right fit.2) fits
      simp only [Operator.join, Expr.span_blur_placeless, Span.nowhere_upTo_nowhere] at both
      exact both
  | .logical _ op spelling left right, fit, a, fits => by
      simp only [operatorsFit, Bool.and_eq_true] at fit
      have operator := Level.operator?_eq_logical.mpr ⟨fit.1.1, rfl⟩
      have both := Expr.fills_operator ⟨op, spelling, .nowhere⟩ operator
        (Expr.fills_tokens setting left fit.1.2) (Expr.fills_tokens setting right fit.2) fits
      simp only [Operator.join, Expr.span_blur_placeless, Span.nowhere_upTo_nowhere] at both
      exact both
  | .call _ _ callee arguments, fit, a, fits => by
      rw [operatorsFit, Bool.and_eq_true] at fit
      rw [tokens, Expr.tokensEach_eq_map, List.length_append, length_enclose] at fits
      have inner := fills_fence (a := a) (Expr.fills_tokens setting callee fit.1)
        callee.widen_blur_placeless callee.tokens_pos (by decide : 8 ≤ 9) (by omega)
      have each := Expr.readsEach (a := a) fit.2 (Expr.fills_tokensEach setting arguments fit.2)
        (by omega)
      have call := FillsPostfix.call inner callee.span_blur_placeless each (by omega)
      rw [tokens, Expr.tokensEach_eq_map, Expr.blur, Expr.blurAll_eq_map]
      exact call
  | .array _ elements, fit, a, fits => by
      rw [tokens, Expr.tokensEach_eq_map, length_enclose] at fits
      have each := Expr.readsEach (a := a) fit (Expr.fills_tokensEach setting elements fit)
        (by omega)
      rw [tokens, Expr.tokensEach_eq_map, Expr.blur, Expr.blurAll_eq_map]
      exact fillsPrimary_array each fits
  | .index _ source position, fit, a, fits => by
      rw [operatorsFit, Bool.and_eq_true] at fit
      rw [tokens, List.length_append, length_enclose] at fits
      obtain ⟨a, rfl⟩ := Nat.exists_eq_succ_of_ne_zero (by omega : a ≠ 0)
      have inner := fills_fence (a := a + 1) (Expr.fills_tokens setting source fit.1)
        source.widen_blur_placeless source.tokens_pos (by decide : 8 ≤ 9) (by omega)
      have slot := Expr.fills_tokens setting position fit.2 a (by omega)
      have reads := slot.expression position.tokens_pos (by omega)
      rw [tokens, Expr.blur]
      exact FillsPostfix.index inner source.span_blur_placeless reads (by omega)

theorem Expr.fills_tokensEach (setting : Setting) : (es : List Expr) →
    Expr.allOperatorsFit es = true → ∀ e ∈ es, ∀ a, e.tokens.length ≤ a →
      Fills setting a e.tokens (e.blur .placeless) e.rank
  | [], _, _, member => nomatch member
  | e :: rest, fit, f, member => by
      rw [allOperatorsFit, Bool.and_eq_true] at fit
      rcases List.mem_cons.mp member with same | member
      · rw [same]
        exact Expr.fills_tokens setting e fit.1
      · exact Expr.fills_tokensEach setting rest fit.2 f member

end

theorem Expr.reads_tokens (setting : Setting) {e : Expr} (fit : e.operatorsFit = true) {a : Nat}
    (fits : e.tokens.length ≤ a) :
    ReadsExpression setting (a + 1) e.tokens (e.blur .placeless) := by
  exact (e.fills_tokens setting fit a fits).expression e.tokens_pos fits

theorem Expr.reads_bound {e : Expr} (fit : e.operatorsFit = true)
    (fits : (fence 5 e.rank e.tokens).length ≤ a) {n : Nat} {next : Token}
    (room : n + (fence 5 e.rank e.tokens).length ≤ setting.limit + 1)
    (stops : next.kind.Stops 5) :
    Reads setting n (fence 5 e.rank e.tokens) next (bound a) (e.blur .placeless) := by
  have fills := fills_fence (e.fills_tokens setting fit) e.widen_blur_placeless e.tokens_pos
    (by decide : 5 ≤ 9) fits
  exact FillsLevel.reads fills fits room stops

end Ardoise
