import Ardoise.Proofs.Parsing.Agreement
import Ardoise.Proofs.Parsing.Slots

/-!
# Parsing undoes printing

A statement is read back by its rule, as long as what follows does not go on
with an expression at its end.  Whatever a statement begins with, it does not
close the statements around it; so the statements of a program are read back one
after the other, to the end of the text.
-/

namespace Ardoise

/-! ## How statements begin -/

def Kind.startsStatement : Kind → Bool
  | .keyword .fonction | .keyword .retourner | .keyword .var | .keyword .si => true
  | .keyword .tantque | .keyword .pour | .keyword .afficher | .symbol .leftBrace => true
  | kind => kind.startsExpression

theorem Kind.startsStatement_of_expression {kind : Kind} (h : kind.startsExpression = true) :
    kind.startsStatement = true := by
  unfold Kind.startsStatement
  split <;> first | rfl | exact h

/-- A statement begins with a token that goes on with nothing, but for three. -/
theorem Kind.tightness?_of_startsStatement {kind : Kind} (h : kind.startsStatement = true)
    (other : kind ∉ [.symbol .leftParen, .symbol .leftBracket, .symbol .minus]) :
    kind.tightness? = none := by
  cases kind with
  | symbol sign => cases sign <;> simp_all [startsStatement, startsExpression, tightness?]
  | keyword word => cases word <;> simp_all [startsStatement, startsExpression, tightness?]
  | _ => rfl

def StartsStatement (ts : List Token) : Prop :=
  ∃ token rest, ts = token :: rest ∧ token.kind.startsStatement = true ∧ token.span = .nowhere

theorem StartsExpression.statement {ts : List Token} (h : StartsExpression ts) :
    StartsStatement ts := by
  obtain ⟨token, rest, rfl, starts, flat⟩ := h
  exact ⟨token, rest, rfl, Kind.startsStatement_of_expression starts, flat⟩

theorem Stmt.tokens_starts (s : Stmt) (fit : s.operatorsFit = true) :
    StartsStatement s.tokens := by
  cases s with
  | expression value => exact (value.tokens_starts fit).statement
  | branch span condition body otherwise =>
      obtain _ | ⟨_, _⟩ := otherwise <;> exact ⟨_, _, rfl, rfl, rfl⟩
  | _ => exact ⟨_, _, rfl, rfl, rfl⟩

namespace Parser

variable {setting : Setting} {n : Nat}

/-! ## Rules -/

def ReadsBlock (setting : Setting) (n : Nat) (ts : List Token) (close : Token)
    (p : Parser (Block Stmt × Token)) (body : List Stmt) : Prop :=
  ∀ more, p setting ⟨ts ++ close :: more, n⟩ = .parsed (⟨.nowhere, body⟩, close) ⟨more, n⟩

private theorem readsBlock_block {ts : List Token} {close : Token} {body : Parser (List Stmt)}
    {closers : List Kind} {ss : List Stmt} (expected : Expected)
    (h : Reads setting (n + 1) ts close body ss) (room : n < setting.limit)
    (starts : ts = [] ∨ StartsStatement ts) (closes : close.kind ∈ closers)
    (flat : close.span = .nowhere) :
    ReadsBlock setting n ts close (block body closers expected) ss := by
  intro more
  have inner := h.nested room more
  obtain ⟨first, rest, tokens, span⟩ :
      ∃ first rest, ts ++ close :: more = first :: rest ∧ first.span = .nowhere := by
    rcases starts with rfl | ⟨token, rest, rfl, _, span⟩
    · exact ⟨close, more, rfl, flat⟩
    · exact ⟨token, rest ++ close :: more, rfl, span⟩
  rw [block, tokens, peek_bind, ← tokens, bind_of_parsed inner, peek_bind, if_pos closes,
    advance_bind, span, flat]
  rfl

section Rules

variable {expression bound : Parser Expr} {body otherwise : Parser (Block Stmt × Token)}
  {ts us vs : List Token} {e : Expr} {inner other : List Stmt} {next : Token}

theorem expectName_bind {β : Type} (f : Name → Parser β) (name : Name) (expected : Expected)
    (rest : List Token) :
    (expectName expected >>= f) setting ⟨name.token :: rest, n⟩ =
      f ⟨name.text, .nowhere⟩ setting ⟨rest, n⟩ := rfl

theorem reads_printRule (h : Reads setting n ts next expression e) (flat : e.span = .nowhere) :
    Reads setting n (.keyword .afficher :: ts) next (printRule expression) (.print .nowhere e) := by
  intro more
  rw [printRule, List.cons_append, advance_bind, bind_of_parsed (h more), flat]
  rfl

theorem reads_giveRule (h : Reads setting n ts next expression e) (flat : e.span = .nowhere) :
    Reads setting n (.keyword .retourner :: ts) next (giveRule true expression)
      (.give .nowhere e) := by
  intro more
  rw [giveRule, if_pos rfl, List.cons_append, advance_bind, bind_of_parsed (h more), flat]
  rfl

private theorem reads_declareRule (name : Name) (h : Reads setting n ts next expression e)
    (flat : e.span = .nowhere) :
    Reads setting n (.keyword .var :: name.token :: .symbol .equal :: ts) next
      (declareRule expression) (.declare .nowhere ⟨name.text, .nowhere⟩ e) := by
  intro more
  simp only [List.cons_append]
  rw [declareRule, advance_bind, expectName_bind, expect_bind _ (Token.kind_symbol _),
    bind_of_parsed (h more), flat]
  rfl

private theorem reads_blockRule (h : ReadsBlock setting n ts (.symbol .rightBrace) body inner) :
    Reads setting n (enclose .leftBrace .rightBrace ts) next (blockRule body)
      (.block ⟨.nowhere, inner⟩) := by
  intro more
  rw [enclose_append, blockRule, advance_bind, bind_of_parsed (h (next :: more))]
  rfl

private theorem reads_branchRule (test : Reads setting n ts (.keyword .alors) expression e)
    (h : ReadsBlock setting n us (.keyword .fin) body inner) :
    Reads setting n (.keyword .si :: ts ++ .keyword .alors :: us ++ [.keyword .fin]) next
      (branchRule expression body otherwise) (.branch .nowhere e ⟨.nowhere, inner⟩ none) := by
  intro more
  simp only [List.append_assoc, List.cons_append, List.nil_append]
  rw [branchRule, advance_bind, bind_of_parsed (test _), expect_bind _ (Token.kind_keyword _),
    bind_of_parsed (h (next :: more))]
  rfl

theorem reads_branchRule_otherwise (test : Reads setting n ts (.keyword .alors) expression e)
    (h : ReadsBlock setting n us (.keyword .sinon) body inner)
    (h' : ReadsBlock setting n vs (.keyword .fin) otherwise other) :
    Reads setting n (.keyword .si :: ts ++ .keyword .alors :: us ++
        .keyword .sinon :: vs ++ [.keyword .fin]) next
      (branchRule expression body otherwise)
      (.branch .nowhere e ⟨.nowhere, inner⟩ (some ⟨.nowhere, other⟩)) := by
  intro more
  simp only [List.append_assoc, List.cons_append, List.nil_append]
  rw [branchRule, advance_bind, bind_of_parsed (test _), expect_bind _ (Token.kind_keyword _),
    bind_of_parsed (h _)]
  refine (bind_of_parsed (h' (next :: more))).trans ?_
  rfl

private theorem reads_whileRule (test : Reads setting n ts .faire expression e)
    (h : ReadsBlock setting n us (.keyword .fin) body inner) :
    Reads setting n (.keyword .tantque :: ts ++ .faire :: us ++ [.keyword .fin]) next
      (whileRule expression body) (.whileLoop .nowhere e ⟨.nowhere, inner⟩) := by
  intro more
  simp only [List.append_assoc, List.cons_append, List.nil_append]
  rw [whileRule, advance_bind, bind_of_parsed (test _), expect_bind _ Token.kind_faire,
    bind_of_parsed (h (next :: more))]
  rfl

private theorem reads_countRule (counter : Name) {f : Expr}
    (lower : Reads setting n ts (.keyword .et) bound e)
    (upper : Reads setting n us .faire bound f)
    (h : ReadsBlock setting n vs (.keyword .fin) body inner) :
    Reads setting n (.keyword .pour :: counter.token :: .keyword .entre :: ts ++
        .keyword .et :: us ++ .faire :: vs ++ [.keyword .fin]) next
      (countRule bound body)
      (.countLoop .nowhere ⟨counter.text, .nowhere⟩ e f ⟨.nowhere, inner⟩) := by
  intro more
  simp only [List.append_assoc, List.cons_append, List.nil_append]
  rw [countRule, advance_bind, expectName_bind, expect_bind _ (Token.kind_keyword _),
    bind_of_parsed (lower _), expect_bind _ (Token.kind_keyword _), bind_of_parsed (upper _),
    accept_bind Token.kind_faire, bind_of_parsed (h (next :: more))]
  rfl

theorem reads_functionRule (name : Name) {parameters : Parser (List Name)} {names : List Name}
    (params : Reads setting n us (.symbol .rightParen) parameters names)
    (h : ReadsBlock setting n vs (.keyword .fin) body inner) :
    Reads setting n (.keyword .fonction :: name.token ::
        enclose .leftParen .rightParen us ++ vs ++ [.keyword .fin]) next
      (functionRule parameters body)
      (.function .nowhere ⟨name.text, .nowhere⟩ names inner) := by
  intro more
  simp only [List.append_assoc, List.cons_append, List.nil_append, enclose_append]
  rw [functionRule, advance_bind, expectName_bind, expect_bind _ (Token.kind_symbol _),
    bind_of_parsed (params _), expect_bind _ (Token.kind_symbol _),
    bind_of_parsed (h (next :: more))]
  rfl

end Rules

/-! ## Statements -/

theorem reads_statement_expression {a : Nat} {inFunction : Bool} {ts : List Token} {next : Token}
    {e : Expr} (starts : StartsExpression ts)
    (h : Reads setting n ts next (expression (a + 1)) e) :
    Reads setting n ts next (statement (a + 1) inFunction) (.expression e) := by
  intro more
  obtain ⟨token, rest, rfl, starts, _⟩ := starts
  have other : statement (a + 1) inFunction setting ⟨token :: (rest ++ next :: more), n⟩ =
      (expression (a + 1) >>= fun value => pure (.expression value)) setting
        ⟨token :: (rest ++ next :: more), n⟩ := by
    rw [statement, peek_bind]
    generalize token.kind = kind at starts
    cases kind with
    | symbol sign => cases sign <;> first | rfl | cases starts
    | keyword word => cases word <;> first | rfl | cases starts
    | _ => rfl
  rw [List.cons_append, other]
  exact bind_of_parsed (h more)

private theorem reads_statements_nil {statement : Parser Stmt} {closers : List Kind} {next : Token}
    (closes : next.kind ∈ closers ∨ next.kind = .endOfInput) (allowance : Nat) :
    Reads setting n [] next (statements statement closers (allowance + 1)) [] := by
  intro more
  rw [statements, List.nil_append, peek_bind, if_pos closes]
  rfl

private theorem reads_statements_cons {statement : Parser Stmt} {closers : List Kind} {next : Token}
    {allowance : Nat} {ts us : List Token} {s : Stmt} {ss : List Stmt}
    (starts : StartsStatement ts) (others : ∀ kind ∈ closers, kind.startsStatement = false)
    (first : ∀ more, statement setting ⟨ts ++ (us ++ next :: more), n⟩ =
      .parsed s ⟨us ++ next :: more, n⟩)
    (rest : Reads setting n us next (statements statement closers allowance) ss) :
    Reads setting n (ts ++ us) next (statements statement closers (allowance + 1)) (s :: ss) := by
  intro more
  have read := first more
  obtain ⟨token, tail, rfl, starts, _⟩ := starts
  have goes : ¬(token.kind ∈ closers ∨ token.kind = .endOfInput) := by
    rintro (closes | ends)
    · rw [others _ closes] at starts
      cases starts
    · rw [ends] at starts
      cases starts
  rw [List.append_assoc]
  rw [List.cons_append] at read ⊢
  rw [statements, peek_bind, if_neg goes, bind_of_parsed read, bind_of_parsed (rest more)]
  rfl

end Parser

open Ardoise.Parser

/-- What may follow a statement: anything, unless it ends in an expression. -/
def Stmt.Ends (s : Stmt) (next : Token) : Prop :=
  s.endsInExpression = true → next.kind.Stops 0

private theorem Stmt.ends_of_not_couldGoOn {s t : Stmt} {token : Token} {rest : List Token}
    (apart : (s.endsInExpression && t.couldGoOn) = false) (tokens : t.tokens = token :: rest)
    (starts : token.kind.startsStatement = true) : s.Ends token := by
  intro ends
  refine Kind.stops_of_none (Kind.tightness?_of_startsStatement starts ?_)
  simpa [ends, Stmt.couldGoOn, tokens] using apart

/--
Values are given back where they may be, the statements are kept apart, and the
operators are such.
-/
structure Stmt.Legal (inFunction : Bool) (ss : List Stmt) : Prop where
  apart : Stmt.apartAll ss = true
  gives : Stmt.giveInside inFunction ss = true
  fit : Stmt.allOperatorsFit ss = true

namespace Stmt.Legal

variable {inFunction : Bool} {s : Stmt} {rest : List Stmt}

theorem tail (h : Stmt.Legal inFunction (s :: rest)) : Stmt.Legal inFunction rest := by
  obtain ⟨apart, gives, fit⟩ := h
  simp only [Stmt.giveInside, Stmt.allOperatorsFit, Bool.and_eq_true] at gives fit
  cases rest with
  | nil => exact ⟨rfl, rfl, rfl⟩
  | cons t rest =>
      simp only [Stmt.apartAll, Bool.and_eq_true] at apart
      exact ⟨apart.2, gives.2, fit.2⟩

theorem head_gives (h : Stmt.Legal inFunction (s :: rest)) : s.givesInside inFunction = true := by
  have gives := h.gives
  simp only [Stmt.giveInside, Bool.and_eq_true] at gives
  exact gives.1

theorem head_fit (h : Stmt.Legal inFunction (s :: rest)) : s.operatorsFit = true := by
  have fit := h.fit
  simp only [Stmt.allOperatorsFit, Bool.and_eq_true] at fit
  exact fit.1

private theorem head_apart (h : Stmt.Legal inFunction (s :: rest)) : s.apart = true := by
  have apart := h.apart
  cases rest with
  | nil => exact apart
  | cons t rest =>
      simp only [Stmt.apartAll, Bool.and_eq_true] at apart
      exact apart.1.1

theorem ends (h : Stmt.Legal inFunction (s :: rest)) {next : Token}
    (loose : next.kind.tightness? = none) (more : List Token) :
    ∃ token tail, Stmt.tokensAll rest ++ next :: more = token :: tail ∧ s.Ends token := by
  have apart := h.apart
  cases rest with
  | nil => exact ⟨next, more, rfl, fun _ => Kind.stops_of_none loose⟩
  | cons t rest =>
      simp only [Stmt.apartAll, Bool.and_eq_true, Bool.not_eq_true'] at apart
      obtain ⟨token, tail, tokens, starts, _⟩ := t.tokens_starts h.tail.head_fit
      refine ⟨token, tail ++ Stmt.tokensAll rest ++ next :: more, ?_, ?_⟩
      · rw [Stmt.tokensAll, tokens]
        rfl
      · exact Stmt.ends_of_not_couldGoOn apart.1.2 tokens starts

end Stmt.Legal

def Stmt.ReadsAll (setting : Setting) (ss : List Stmt) : Prop :=
  ∀ ⦃b c n : Nat⦄ ⦃inFunction : Bool⦄ ⦃closers : List Kind⦄ ⦃next : Token⦄,
    (Stmt.tokensAll ss).length < b → (Stmt.tokensAll ss).length < c →
    n + (Stmt.tokensAll ss).length ≤ setting.limit → Stmt.Legal inFunction ss →
    next.kind ∈ closers ∨ next.kind = .endOfInput →
    (∀ kind ∈ closers, kind.startsStatement = false) → next.kind.tightness? = none →
    Reads setting n (Stmt.tokensAll ss) next (statements (statement c inFunction) closers b)
      (Stmt.blurAll .placeless ss)

theorem Stmt.tokens_pos (s : Stmt) (fit : s.operatorsFit = true) : 0 < s.tokens.length := by
  obtain ⟨token, rest, tokens, _⟩ := s.tokens_starts fit
  rw [tokens]
  exact Nat.zero_lt_succ _

private theorem Stmt.Legal.tokensAll_starts {inFunction : Bool} {ss : List Stmt}
    (legal : Stmt.Legal inFunction ss) :
    Stmt.tokensAll ss = [] ∨ StartsStatement (Stmt.tokensAll ss) := by
  cases ss with
  | nil => exact .inl rfl
  | cons s rest =>
      obtain ⟨token, tail, first, starts⟩ := s.tokens_starts legal.head_fit
      exact .inr ⟨token, tail ++ Stmt.tokensAll rest, by rw [Stmt.tokensAll, first]; rfl, starts⟩

structure Closes (closers : List Kind) (close : Token) : Prop where
  member : close.kind ∈ closers
  others : ∀ kind ∈ closers, kind.startsStatement = false
  loose : close.kind.tightness? = none
  flat : close.span = .nowhere

theorem closes_fin : Closes [.keyword .fin] (.keyword .fin) :=
  ⟨by simp, by decide, rfl, rfl⟩

private theorem closes_rightBrace : Closes [.symbol .rightBrace] (.symbol .rightBrace) :=
  ⟨by simp, by decide, rfl, rfl⟩

theorem closes_branch {word : Keyword} (h : word = .fin ∨ word = .sinon) :
    Closes [.keyword .fin, .keyword .sinon] (.keyword word) := by
  rcases h with rfl | rfl <;> exact ⟨by simp, by decide, rfl, rfl⟩

theorem Stmt.ReadsAll.block {setting : Setting} {body : List Stmt}
    (h : Stmt.ReadsAll setting body) {c n : Nat} {inFunction : Bool} {closers : List Kind}
    {close : Token} (closes : Closes closers close) (expected : Expected)
    (legal : Stmt.Legal inFunction body) (fits : (Stmt.tokensAll body).length < c)
    (room : n + (Stmt.tokensAll body).length < setting.limit) :
    ReadsBlock setting n (Stmt.tokensAll body) close
      (Parser.block (statements (statement c inFunction) closers (c + 1)) closers expected)
      (Stmt.blurAll .placeless body) := by
  have reads := h (n := n + 1) (Nat.lt_succ_of_lt fits) fits (by omega) legal
    (.inl closes.member) closes.others closes.loose
  exact readsBlock_block expected reads (by omega) legal.tokensAll_starts closes.member
    closes.flat

private theorem reads_parameters (setting : Setting) (n : Nat) {a : Nat} (names : List Name)
    (fits : (commaSeparated (names.map fun name => [name.token])).length < a) :
    Reads setting n (commaSeparated (names.map fun name => [name.token])) (.symbol .rightParen)
      (separatedUntil (.symbol .rightParen) (expectName .parameterName) a)
      (names.map (Name.blur .placeless)) := by
  refine reads_separatedUntil rfl (by decide) names ?_ ?_ ?_
  · have := length_le_length_commaSeparated (f := fun name : Name => [name.token]) names
    omega
  · intro name _
    exact ⟨name.token, [], rfl, by simp⟩
  · intro name _ follow _ more
    rfl

mutual

theorem Stmt.reads_tokens (setting : Setting) : (s : Stmt) → ∀ ⦃c n : Nat⦄ ⦃inFunction : Bool⦄
    ⦃next : Token⦄, s.tokens.length ≤ c → n + s.tokens.length ≤ setting.limit →
    s.apart = true → s.givesInside inFunction = true → s.operatorsFit = true → s.Ends next →
    Reads setting n s.tokens next (statement (c + 1) inFunction) (s.blur .placeless)
  | .expression value, c, n, inFunction, next, fits, room, apart, gives, fit, ends => by
      have reads := Expr.reads_tokens setting fit fits n next room (ends rfl)
      exact reads_statement_expression (value.tokens_starts fit) reads
  | .print _ value, c, n, inFunction, next, fits, room, apart, gives, fit, ends => by
      simp only [Stmt.tokens, List.length_cons] at fits room
      have reads := Expr.reads_tokens setting fit (a := c) (by omega) n next (by omega) (ends rfl)
      exact reads_printRule reads value.span_blur_placeless
  | .declare _ name value, c, n, inFunction, next, fits, room, apart, gives, fit, ends => by
      simp only [Stmt.tokens, List.length_cons] at fits room
      have reads := Expr.reads_tokens setting fit (a := c) (by omega) n next (by omega) (ends rfl)
      exact reads_declareRule name reads value.span_blur_placeless
  | .give _ value, c, n, true, next, fits, room, apart, gives, fit, ends => by
      simp only [Stmt.tokens, List.length_cons] at fits room
      have reads := Expr.reads_tokens setting fit (a := c) (by omega) n next (by omega) (ends rfl)
      exact reads_giveRule reads value.span_blur_placeless
  | .block ⟨_, body⟩, c, n, inFunction, next, fits, room, apart, gives, fit, ends => by
      rw [Stmt.tokens, length_enclose] at fits room
      have inner := (Stmt.reads_tokensAll setting body).block (c := c) (n := n) closes_rightBrace
        .blockEnd ⟨apart, gives, fit⟩ (by omega) (by omega)
      exact reads_blockRule inner
  | .branch _ condition ⟨_, body⟩ none, c, n, inFunction, next, fits, room, apart, gives, fit,
      ends => by
      rw [Stmt.operatorsFit, Bool.and_eq_true] at fit
      simp only [Stmt.tokens, List.length_cons, List.length_append, List.length_nil] at fits room
      have test := Expr.reads_tokens setting fit.1 (a := c) (by omega) n (.keyword .alors)
        (by omega) (Kind.stops_of_none rfl)
      have inner := (Stmt.reads_tokensAll setting body).block (c := c) (n := n)
        (closes_branch (.inl rfl)) .conditionEnd ⟨apart, gives, fit.2⟩ (by omega) (by omega)
      exact reads_branchRule test inner
  | .branch _ condition ⟨_, body⟩ (some ⟨_, other⟩), c, n, inFunction, next, fits, room, apart,
      gives, fit, ends => by
      simp only [Stmt.tokens, List.length_cons, List.length_append, List.length_nil] at fits room
      simp only [Stmt.apart, Stmt.givesInside, Stmt.operatorsFit, Bool.and_eq_true]
        at apart gives fit
      have test := Expr.reads_tokens setting fit.1.1 (a := c) (by omega) n (.keyword .alors)
        (by omega) (Kind.stops_of_none rfl)
      have inner := (Stmt.reads_tokensAll setting body).block (c := c) (n := n)
        (closes_branch (.inr rfl)) .conditionEnd ⟨apart.1, gives.1, fit.1.2⟩ (by omega) (by omega)
      have inner' := (Stmt.reads_tokensAll setting other).block (c := c) (n := n) closes_fin
        .conditionEnd ⟨apart.2, gives.2, fit.2⟩ (by omega) (by omega)
      exact reads_branchRule_otherwise test inner inner'
  | .whileLoop _ condition ⟨_, body⟩, c, n, inFunction, next, fits, room, apart, gives, fit,
      ends => by
      rw [Stmt.operatorsFit, Bool.and_eq_true] at fit
      simp only [Stmt.tokens, List.length_cons, List.length_append, List.length_nil] at fits room
      have test := Expr.reads_tokens setting fit.1 (a := c) (by omega) n .faire (by omega)
        (Kind.stops_of_none rfl)
      have inner := (Stmt.reads_tokensAll setting body).block (c := c) (n := n) closes_fin .loopEnd
        ⟨apart, gives, fit.2⟩ (by omega) (by omega)
      exact reads_whileRule test inner
  | .countLoop _ counter first last ⟨_, body⟩, c, n, inFunction, next, fits, room, apart, gives,
      fit, ends => by
      simp only [Stmt.operatorsFit, Bool.and_eq_true] at fit
      simp only [Stmt.tokens, List.length_cons, List.length_append, List.length_nil] at fits room
      -- `et` goes on with a condition, but not with the sum that a bound is
      have lower : Reads setting n _ (.keyword .et) (bound (c + 1)) _ :=
        Expr.reads_bound fit.1.1 (by omega) (by omega) (Kind.stops_of_lt rfl (by decide))
      have upper : Reads setting n _ .faire (bound (c + 1)) _ :=
        Expr.reads_bound fit.1.2 (by omega) (by omega) (Kind.stops_of_none rfl)
      have inner := (Stmt.reads_tokensAll setting body).block (c := c) (n := n) closes_fin .loopEnd
        ⟨apart, gives, fit.2⟩ (by omega) (by omega)
      exact reads_countRule counter lower upper inner
  | .function _ name parameters body, c, n, inFunction, next, fits, room, apart, gives, fit,
      ends => by
      simp only [Stmt.tokens, List.length_cons, List.length_append, List.length_nil,
        length_enclose] at fits room
      have params := reads_parameters setting n (a := c + 1) parameters (by omega)
      have inner := (Stmt.reads_tokensAll setting body).block (c := c) (n := n) closes_fin
        .functionEnd ⟨apart, gives, fit⟩ (by omega) (by omega)
      exact reads_functionRule name params inner

theorem Stmt.reads_tokensAll (setting : Setting) : (ss : List Stmt) → Stmt.ReadsAll setting ss
  | [] => by
      intro b c n inFunction closers next enough _ _ _ closes _ _
      obtain ⟨b, rfl⟩ := Nat.exists_eq_succ_of_ne_zero (Nat.ne_zero_of_lt enough)
      exact reads_statements_nil closes b
  | s :: rest => by
      intro b c n inFunction closers next enough fits room legal closes others loose
      obtain ⟨b, rfl⟩ := Nat.exists_eq_succ_of_ne_zero (Nat.ne_zero_of_lt enough)
      obtain ⟨c, rfl⟩ := Nat.exists_eq_succ_of_ne_zero (Nat.ne_zero_of_lt fits)
      simp only [Stmt.tokensAll, List.length_append] at enough fits room
      have positive := s.tokens_pos legal.head_fit
      have tail := Stmt.reads_tokensAll setting rest (b := b) (c := c + 1) (n := n) (by omega)
        (by omega) (by omega) legal.tail closes others loose
      refine reads_statements_cons (s.tokens_starts legal.head_fit) others ?_ tail
      intro more
      -- behind `s` stands the first token of `rest`, or else the one that closes the list
      obtain ⟨token, following, tokens, ends⟩ := legal.ends loose more
      rw [tokens]
      exact Stmt.reads_tokens setting s (by omega) (by omega) legal.head_apart legal.head_gives
        legal.head_fit ends following

end

/-! ## Programs -/

theorem parse_tokensAll {limit : Nat} {program : Program} {final : Token}
    (legal : Stmt.Legal false program) (room : (Stmt.tokensAll program).length ≤ limit)
    (ends : final.kind = .endOfInput) :
    parse limit (Stmt.tokensAll program ++ [final]) = .ok (Stmt.blurAll .placeless program) := by
  refine (Reply.result_eq_ok _).mpr ⟨⟨[final], 0⟩, ?_⟩
  have enough :
      (Stmt.tokensAll program).length < (Stmt.tokensAll program ++ [final]).length + 1 := by
    simp only [List.length_append, List.length_singleton]
    omega
  have loose : final.kind.tightness? = none := by
    rw [ends]
    rfl
  have room : 0 + (Stmt.tokensAll program).length ≤ limit := by
    rwa [Nat.zero_add]
  exact Stmt.reads_tokensAll ⟨limit, finalToken (Stmt.tokensAll program ++ [final])⟩ program enough
    enough room legal (.inr ends) (by simp) loose []

/-- Programs that are printed alike are the same but for where they stand. -/
theorem Stmt.blurAll_eq_of_tokensAll_eq {program program' : Program}
    (legal : Stmt.Legal false program) (legal' : Stmt.Legal false program')
    (printed : Stmt.tokensAll program = Stmt.tokensAll program') :
    Stmt.blurAll .placeless program = Stmt.blurAll .placeless program' := by
  have ends : (Token.endAt .nowhere).kind = .endOfInput := rfl
  have read := parse_tokensAll legal (Nat.le_refl _) ends
  have read' := parse_tokensAll legal' (Nat.le_refl _) ends
  rw [printed, read'] at read
  exact (Except.ok.inj read).symm

/--
A program is parsed from what is printed of it, wherever the tokens stand, once
as many levels are allowed as there are tokens.
-/
theorem parse_printed {limit : Nat} {program : Program} {tokens : List Token} {final : Token}
    (legal : Stmt.Legal false program) (room : (Stmt.tokensAll program).length ≤ limit)
    (printed : tokens.map (Token.view id) = (Stmt.tokensAll program).map (Token.view id))
    (ends : final.kind = .endOfInput) :
    ∃ program', parse limit (tokens ++ [final]) = .ok program' ∧
      Stmt.blurAll .placeless program' = Stmt.blurAll .placeless program := by
  have canonical := parse_tokensAll legal room ends
  have views : (tokens ++ [final]).map (Token.view id) =
      (Stmt.tokensAll program ++ [final]).map (Token.view id) := by
    rw [List.map_append, List.map_append, printed]
  rcases parse_alike limit views with ⟨_, _, _, failed, _⟩ | ⟨program', _, parsed, parsed', same⟩
  · rw [canonical] at failed
    cases failed
  · rw [canonical] at parsed'
    cases parsed'
    exact ⟨program', parsed, same.trans (Stmt.blurAll_blurAll .placeless .placeless program)⟩

/-- Operators in parentheses and out of them, and every kind of statement, all on line two. -/
theorem parse_printed_all_forms :
    let name : String → Name := fun text => ⟨text, ⟨1, 2, 1⟩⟩
    let a : Expr := .lookup ⟨1, 2, 1⟩ (name "a")
    let minus : Expr → Expr → Expr := .binary ⟨1, 5, 1⟩ (.symbol .minus)
    let both : Expr := .logical ⟨1, 5, 1⟩ (.keyword .ou) "or" a
      (.binary ⟨1, 5, 1⟩ (.symbol .less) a a)
    let program : Program := [
      .function ⟨0, 9, 1⟩ (name "f") [name "a", name "b"] [
        .branch ⟨0, 9, 1⟩ both ⟨⟨3, 9, 1⟩, [.give ⟨3, 9, 1⟩ (minus a (minus a a))]⟩
          (some ⟨⟨3, 9, 1⟩, [.give ⟨3, 9, 1⟩ (minus (minus a a) a)]⟩)],
      .countLoop ⟨0, 9, 1⟩ (name "i") both (minus a a) ⟨⟨3, 9, 1⟩, [
        .expression (.assign ⟨3, 9, 1⟩ (name "a") (.assign ⟨3, 9, 1⟩ (name "b") a)),
        .print ⟨3, 9, 1⟩ (.index ⟨3, 9, 1⟩ (.array ⟨3, 9, 1⟩ [a, both]) a)]⟩,
      .declare ⟨0, 9, 1⟩ (name "c")
        (.call ⟨3, 9, 1⟩ ⟨4, 5, 1⟩ (.unary ⟨3, 9, 1⟩ (.symbol .minus) a) [both, a]),
      .whileLoop ⟨0, 9, 1⟩ both ⟨⟨3, 9, 1⟩, [.block ⟨⟨3, 9, 1⟩, []⟩]⟩,
      .expression (.unary ⟨0, 9, 1⟩ (.symbol .minus)
        (.unary ⟨0, 9, 1⟩ (.symbol .bang) (minus a a)))]
    let tokens := (Stmt.tokensAll program).map fun token => { token with span := ⟨0, 1, 2⟩ }
    Stmt.Legal false program ∧ (Stmt.tokensAll program).length ≤ 99 ∧ ∃ program',
      parse 99 (tokens ++ [.endAt ⟨1, 1, 2⟩]) = .ok program' ∧
        Stmt.blurAll .placeless program' = Stmt.blurAll .placeless program := by
  intro name a minus both program tokens
  have legal : Stmt.Legal false program := ⟨by decide, by decide, by decide⟩
  have room : (Stmt.tokensAll program).length ≤ 99 := by decide
  have printed : tokens.map (Token.view id) = (Stmt.tokensAll program).map (Token.view id) := by
    rw [List.map_map]
    rfl
  exact ⟨legal, room, parse_printed legal room printed rfl⟩

end Ardoise
