import Ardoise.Proofs.Parsing.Counter

/-!
# Larger allowances

The rules of the parser are composed of the same steps whatever their allowance
is; one with a larger allowance only goes on for longer.  `Prolonged` says so of two
parsers, and keeps two more things of how the rules are composed: a token is only
taken once it has been seen not to be the end of the text, and what is refused is
the next token, unless there is nothing to assign to.
-/

namespace Ardoise

namespace Parser

/--
The second parser takes the same steps as the first, and goes on where the first has
used up its allowance.  `ahead` stands for what is known of the next token; it has to
hold where a token is taken, and to tell that this token is not the end of the text.
-/
inductive Prolonged : {α : Type} → Prop → Parser α → Parser α → Prop
  | exhausted {α : Type} {ahead : Prop} (q : Parser α) : Prolonged ahead exhausted q
  | pure {α : Type} {ahead : Prop} (a : α) : Prolonged ahead (pure a : Parser α) (pure a)
  | refuse {α : Type} {ahead : Prop} (expected : Expected) :
      Prolonged ahead (refuse expected : Parser α) (refuse expected)
  | refuseTarget {α : Type} {ahead : Prop} (token : Token) :
      Prolonged ahead (refuseAt token .assignmentTarget : Parser α)
        (refuseAt token .assignmentTarget)
  | peek {β : Type} {ahead : Prop} {f g : Token → Parser β}
      (rest : ∀ token, Prolonged (token.kind ≠ .endOfInput) (f token) (g token)) :
      Prolonged ahead (peek >>= f) (peek >>= g)
  | advance {ahead : Prop} (known : ahead) : Prolonged ahead advance advance
  | deepen {β : Type} {ahead : Prop} {f g : Unit → Parser β}
      (rest : Prolonged ahead (f ()) (g ())) :
      Prolonged ahead (deepen >>= f) (deepen >>= g)
  | bind {α β : Type} {ahead : Prop} {p q : Parser α} {f g : α → Parser β}
      (first : Prolonged ahead p q) (second : ∀ a, Prolonged False (f a) (g a)) :
      Prolonged ahead (p >>= f) (q >>= g)
  | nested {α : Type} {ahead : Prop} {p q : Parser α} (inner : Prolonged ahead p q) :
      Prolonged ahead (nested p) (nested q)
  | balanced {α : Type} {ahead : Prop} {p q : Parser α} (inner : Prolonged ahead p q) :
      Prolonged ahead (balanced p) (balanced q)

variable {α : Type} {ahead : Prop}

theorem Prolonged.mono {ahead' : Prop} {p q : Parser α} (h : Prolonged ahead p q)
    (more : ahead → ahead') : Prolonged ahead' p q := by
  induction h with
  | exhausted q => exact .exhausted q
  | pure a => exact .pure a
  | refuse expected => exact .refuse expected
  | refuseTarget token => exact .refuseTarget token
  | peek rest => exact .peek rest
  | advance known => exact .advance (more known)
  | deepen _ ih => exact .deepen (ih more)
  | bind _ second ih => exact .bind (ih more) second
  | nested _ ih => exact .nested (ih more)
  | balanced _ ih => exact .balanced (ih more)

theorem Prolonged.anywhere {p q : Parser α} (h : Prolonged False p q) : Prolonged ahead p q :=
  h.mono False.elim

theorem prolonged_accept {kind : Kind} (proper : kind ≠ .endOfInput) :
    Prolonged ahead (accept kind) (accept kind) := by
  refine .peek fun token => ?_
  split
  · rename_i same
    exact .bind (.advance (same ▸ proper)) fun _ => .pure true
  · exact .pure false

theorem prolonged_expect {kind : Kind} (proper : kind ≠ .endOfInput) (expected : Expected) :
    Prolonged ahead (expect kind expected) (expect kind expected) := by
  refine .peek fun token => ?_
  split
  · rename_i same
    exact .advance (same ▸ proper)
  · exact .refuse expected

theorem prolonged_expectName (expected : Expected) :
    Prolonged ahead (expectName expected) (expectName expected) := by
  refine .peek fun token => ?_
  split
  · rename_i same
    exact .bind (.advance (by rw [same]; exact nofun)) fun _ => .pure _
  · exact .refuse expected

theorem Prolonged.separated {item item' : Parser α} (h : Prolonged False item item') {n m : Nat}
    (le : n ≤ m) : Prolonged False (separated item n) (separated item' m) := by
  induction n generalizing m with
  | zero => exact .exhausted _
  | succ n ih =>
      obtain ⟨m, rfl⟩ := Nat.exists_eq_add_of_lt le
      refine .bind h fun first => .bind (prolonged_accept (symbol_ne_end _)) fun again => ?_
      split
      · exact .bind (ih (by omega)) fun _ => .pure _
      · exact .pure _

theorem Prolonged.separatedUntil {item item' : Parser α} (h : Prolonged False item item')
    (close : Kind) {n m : Nat} (le : n ≤ m) :
    Prolonged ahead (separatedUntil close item n) (separatedUntil close item' m) := by
  refine .peek fun token => ?_
  split
  · exact .pure _
  · exact (h.separated le).anywhere

/-! ## Expressions -/

section Expressions

variable {expression expression' operand operand' : Parser Expr} {n m : Nat}

theorem Prolonged.afterElement {more more' : Parser (List Expr × Token)} (first : Expr)
    (h : Prolonged False more more') :
    Prolonged False (afterElement first more) (afterElement first more') := by
  refine .peek fun token => ?_
  split
  · rename_i same
    exact .bind (.advance (same ▸ symbol_ne_end _)) fun _ => .pure _
  · exact .bind (prolonged_expect (symbol_ne_end _) _) fun _ => .bind h fun _ => .pure _

theorem Prolonged.elements (h : Prolonged False expression expression') (le : n ≤ m) :
    Prolonged False (elements expression n) (elements expression' m) := by
  induction n generalizing m with
  | zero => exact .exhausted _
  | succ n ih =>
      obtain ⟨m, rfl⟩ := Nat.exists_eq_add_of_lt le
      refine .peek fun token => ?_
      split
      · rename_i same
        exact .bind (.advance (same ▸ symbol_ne_end _)) fun _ => .pure _
      · exact .bind h.anywhere fun first => (ih (Nat.le_add_right n m)).afterElement first

theorem Prolonged.array (h : Prolonged False expression expression') (le : n ≤ m) (known : ahead) :
    Prolonged ahead (array expression n) (array expression' m) :=
  .bind (.advance known) fun _ => .bind (h.elements le) fun _ => .pure _

theorem Prolonged.parenthesised (h : Prolonged False expression expression') (known : ahead) :
    Prolonged ahead (parenthesised expression) (parenthesised expression') :=
  .bind (.advance known) fun _ => .bind h fun _ =>
    .bind (prolonged_expect (symbol_ne_end _) _) fun _ => .pure _

theorem Prolonged.primary (h : Prolonged False expression expression') (le : n ≤ m) :
    Prolonged False (primary expression n) (primary expression' m) := by
  refine .peek fun token => ?_
  split
  · rename_i literal
    have known : token.kind ≠ .endOfInput := by
      intro eof
      rw [eof] at literal
      cases literal
    exact .bind (.advance known) fun _ => .pure _
  · rename_i same
    exact .bind (.advance (by rw [same]; exact nofun)) fun _ => .pure _
  · rename_i same
    exact h.parenthesised (same ▸ symbol_ne_end _)
  · rename_i same
    exact h.array le (same ▸ symbol_ne_end _)
  · exact .refuse _

theorem Prolonged.arguments (h : Prolonged False expression expression') (le : n ≤ m)
    (callee : Expr) (known : ahead) :
    Prolonged ahead (arguments expression n callee) (arguments expression' m callee) :=
  .bind (.advance known) fun _ => .bind (h.separatedUntil _ le) fun _ =>
    .bind (prolonged_expect (symbol_ne_end _) _) fun _ => .pure _

theorem Prolonged.subscript (h : Prolonged False expression expression') (source : Expr)
    (known : ahead) :
    Prolonged ahead (subscript expression source) (subscript expression' source) :=
  .bind (.advance known) fun _ => .bind h fun _ =>
    .bind (prolonged_expect (symbol_ne_end _) _) fun _ => .pure _

theorem Prolonged.suffixes (h : Prolonged False expression expression') (le : n ≤ m)
    {turns turns' : Nat} (more : turns ≤ turns') (left : Expr) :
    Prolonged False (suffixes expression n turns left) (suffixes expression' m turns' left) := by
  induction turns generalizing turns' left with
  | zero => exact .exhausted _
  | succ turns ih =>
      obtain ⟨turns', rfl⟩ := Nat.exists_eq_add_of_lt more
      have again := ih (Nat.le_add_right turns turns')
      refine .peek fun token => ?_
      split
      · rename_i same
        exact .deepen (.bind (h.arguments le left (same ▸ symbol_ne_end _)) again)
      · rename_i same
        exact .deepen (.bind (h.subscript left (same ▸ symbol_ne_end _)) again)
      · exact .pure left

theorem Prolonged.postfixed (h : Prolonged False expression expression') (le : n ≤ m) :
    Prolonged False (postfixed expression n) (postfixed expression' m) :=
  .balanced (.bind (h.primary le) fun left => h.suffixes le le left)

theorem Prolonged.prefixed (h : Prolonged False operand operand') (le : n ≤ m) :
    Prolonged False (prefixed operand n) (prefixed operand' m) := by
  induction n generalizing m with
  | zero => exact .exhausted _
  | succ n ih =>
      obtain ⟨m, rfl⟩ := Nat.exists_eq_add_of_lt le
      refine .peek fun token => ?_
      split
      · rename_i same
        have known : token.kind ≠ .endOfInput := fun eof => by
          rw [eof] at same
          cases same
        exact .bind (.advance known) fun _ => .bind (.nested (ih (by omega))) fun _ => .pure _
      · exact h.anywhere

theorem Prolonged.operations (level : Level) (h : Prolonged False operand operand') (le : n ≤ m)
    (left : Expr) :
    Prolonged False (operations level operand n left) (operations level operand' m left) := by
  induction n generalizing m left with
  | zero => exact .exhausted _
  | succ n ih =>
      obtain ⟨m, rfl⟩ := Nat.exists_eq_add_of_lt le
      refine .peek fun token => ?_
      split
      · rename_i op same
        have known : token.kind ≠ .endOfInput := fun eof => by
          rw [eof, Level.operator?_endOfInput] at same
          cases same
        exact .deepen (.bind (.advance known) fun _ => .bind h fun _ => ih (by omega) _)
      · exact .pure left

theorem Prolonged.operators (h : Prolonged False operand operand') (le : n ≤ m)
    (levels : List Level) :
    Prolonged False (operators operand n levels) (operators operand' m levels) := by
  induction levels with
  | nil => exact h
  | cons level tighter ih => exact .balanced (.bind ih fun left => ih.operations level le left)

theorem Prolonged.assignment (h : Prolonged False operand operand') (le : n ≤ m) :
    Prolonged False (assignment operand n) (assignment operand' m) := by
  induction n generalizing m with
  | zero => exact .exhausted _
  | succ n ih =>
      obtain ⟨m, rfl⟩ := Nat.exists_eq_add_of_lt le
      refine .bind h fun left => .peek fun token => ?_
      split
      · rename_i same
        refine .bind (.advance (same ▸ symbol_ne_end _)) fun equals =>
          .bind (.nested (ih (by omega))) fun value => ?_
        split
        · exact .pure _
        · -- The sign has been taken by now, and with it the whole value.
          exact .refuseTarget equals
      · exact .pure left

theorem Prolonged.unary (h : Prolonged False expression expression') (le : n ≤ m) :
    Prolonged False (Parser.operand expression n) (Parser.operand expression' m) :=
  (h.postfixed le).prefixed le

theorem prolonged_expression (le : n ≤ m) :
    Prolonged False (Parser.expression n) (Parser.expression m) := by
  induction n generalizing m with
  | zero => exact .exhausted _
  | succ n ih =>
      obtain ⟨m, rfl⟩ := Nat.exists_eq_add_of_lt le
      have inner : Prolonged False (Parser.expression n) (Parser.expression (n + m)) :=
        ih (Nat.le_add_right n m)
      exact .nested (((inner.unary (by omega)).operators (by omega) Level.all).assignment
        (by omega))

theorem prolonged_bound (le : n ≤ m) : Prolonged False (bound n) (bound m) :=
  ((prolonged_expression le).unary (Nat.succ_le_succ le)).operators (Nat.succ_le_succ le) _

end Expressions

/-! ## Statements -/

section Statements

variable {n m : Nat}

theorem Prolonged.statements {statement statement' : Parser Stmt}
    (h : Prolonged False statement statement') (closers : List Kind) (le : n ≤ m) :
    Prolonged False (statements statement closers n) (statements statement' closers m) := by
  induction n generalizing m with
  | zero => exact .exhausted _
  | succ n ih =>
      obtain ⟨m, rfl⟩ := Nat.exists_eq_add_of_lt le
      refine .peek fun token => ?_
      split
      · exact .pure []
      · exact .bind h.anywhere fun _ => .bind (ih (by omega)) fun _ => .pure _

theorem Prolonged.block {body body' : Parser (List Stmt)} (h : Prolonged False body body')
    {closers : List Kind} (proper : .endOfInput ∉ closers) (expected : Expected) :
    Prolonged False (block body closers expected) (block body' closers expected) := by
  refine .peek fun first => .bind h.nested.anywhere fun body => .peek fun token => ?_
  split
  · rename_i closes
    exact .bind (.advance fun eof => proper (eof ▸ closes)) fun _ => .pure _
  · exact .refuse expected

variable {expression expression' : Parser Expr} {body body' otherwise otherwise' :
  Parser (Block Stmt × Token)}

theorem Prolonged.functionRule {parameters parameters' : Parser (List Name)}
    (names : Prolonged False parameters parameters') (h : Prolonged False body body')
    (known : ahead) :
    Prolonged ahead (functionRule parameters body) (functionRule parameters' body') :=
  .bind (.advance known) fun _ => .bind (prolonged_expectName _) fun _ =>
    .bind (prolonged_expect (symbol_ne_end _) _) fun _ => .bind names fun _ =>
      .bind (prolonged_expect (symbol_ne_end _) _) fun _ => .bind h fun _ => .pure _

theorem Prolonged.giveRule (inFunction : Bool) (h : Prolonged False expression expression')
    (known : ahead) :
    Prolonged ahead (giveRule inFunction expression) (giveRule inFunction expression') := by
  cases inFunction with
  | true => exact .bind (.advance known) fun _ => .bind h fun _ => .pure _
  | false => exact .refuse _

theorem Prolonged.declareRule (h : Prolonged False expression expression') (known : ahead) :
    Prolonged ahead (declareRule expression) (declareRule expression') :=
  .bind (.advance known) fun _ => .bind (prolonged_expectName _) fun _ =>
    .bind (prolonged_expect (symbol_ne_end _) _) fun _ => .bind h fun _ => .pure _

theorem Prolonged.branchRule (h : Prolonged False expression expression')
    (first : Prolonged False body body') (second : Prolonged False otherwise otherwise')
    (known : ahead) :
    Prolonged ahead (branchRule expression body otherwise)
      (branchRule expression' body' otherwise') := by
  refine .bind (.advance known) fun _ => .bind h fun _ =>
    .bind (prolonged_expect (keyword_ne_end _) _) fun _ => .bind first fun closed => ?_
  dsimp only
  split
  · exact .bind second fun _ => .pure _
  · exact .pure _

theorem Prolonged.whileRule (h : Prolonged False expression expression')
    (inner : Prolonged False body body') (known : ahead) :
    Prolonged ahead (whileRule expression body) (whileRule expression' body') :=
  .bind (.advance known) fun _ => .bind h fun _ =>
    .bind (prolonged_expect (keyword_ne_end _) _) fun _ => .bind inner fun _ => .pure _

theorem Prolonged.countRule (h : Prolonged False expression expression')
    (inner : Prolonged False body body') (known : ahead) :
    Prolonged ahead (countRule expression body) (countRule expression' body') :=
  .bind (.advance known) fun _ => .bind (prolonged_expectName _) fun _ =>
    .bind (prolonged_expect (keyword_ne_end _) _) fun _ => .bind h fun _ =>
      .bind (prolonged_expect (keyword_ne_end _) _) fun _ => .bind h fun _ =>
        .bind (prolonged_accept (keyword_ne_end _)) fun _ => .bind inner fun _ => .pure _

theorem Prolonged.printRule (h : Prolonged False expression expression') (known : ahead) :
    Prolonged ahead (printRule expression) (printRule expression') :=
  .bind (.advance known) fun _ => .bind h fun _ => .pure _

theorem Prolonged.blockRule (h : Prolonged False body body') (known : ahead) :
    Prolonged ahead (blockRule body) (blockRule body') :=
  .bind (.advance known) fun _ => .bind h fun _ => .pure _

theorem prolonged_statement (le : n ≤ m) (inFunction : Bool) :
    Prolonged False (statement n inFunction) (statement m inFunction) := by
  induction n generalizing m inFunction with
  | zero => exact .exhausted _
  | succ n ih =>
      obtain ⟨m, rfl⟩ := Nat.exists_eq_add_of_lt le
      have expressions := prolonged_expression le
      have blocks : ∀ inFunction closers, .endOfInput ∉ closers → ∀ expected, Prolonged False
          (block (statements (statement n inFunction) closers (n + 1)) closers expected)
          (block (statements (statement (n + m) inFunction) closers (n + m + 1)) closers
            expected) := fun inFunction closers proper expected =>
        ((ih (Nat.le_add_right n m) inFunction).statements closers le).block proper expected
      refine .peek fun token => ?_
      split
      · rename_i same
        exact .functionRule (.separatedUntil (prolonged_expectName _) _ le)
          (blocks _ _ (by simp) _) (same ▸ keyword_ne_end _)
      · rename_i same
        exact expressions.giveRule _ (same ▸ keyword_ne_end _)
      · rename_i same
        exact expressions.declareRule (same ▸ keyword_ne_end _)
      · rename_i same
        exact expressions.branchRule (blocks _ _ (by simp) _) (blocks _ _ (by simp) _)
          (same ▸ keyword_ne_end _)
      · rename_i same
        exact expressions.whileRule (blocks _ _ (by simp) _) (same ▸ keyword_ne_end _)
      · rename_i same
        exact (prolonged_bound le).countRule (blocks _ _ (by simp) _) (same ▸ keyword_ne_end _)
      · rename_i same
        exact expressions.printRule (same ▸ keyword_ne_end _)
      · rename_i same
        exact .blockRule (blocks _ _ (by simp) _) (same ▸ symbol_ne_end _)
      · exact .bind expressions.anywhere fun _ => .pure _

theorem prolonged_program (le : n ≤ m) : Prolonged False (program n) (program m) :=
  (prolonged_statement le false).statements [] le

end Statements

/-! ## What a larger allowance changes -/

/-- A larger allowance only matters to a parser that has used up its own. -/
theorem Prolonged.eq_of_ended {p q : Parser α} (h : Prolonged ahead p q) (s : Setting) (c : Cursor)
    (ended : p s c ≠ .exhausted) : q s c = p s c := by
  induction h generalizing c with
  | exhausted q => exact absurd rfl ended
  | pure | refuse | refuseTarget | advance => rfl
  | peek _ ih => exact ih _ c ended
  | deepen _ ih =>
      rcases Nat.lt_or_ge c.nesting s.limit with room | full
      · rw [deepen_bind_of_lt room] at ended ⊢
        rw [deepen_bind_of_lt room]
        exact ih _ ended
      · rw [deepen_bind_of_le full, deepen_bind_of_le full]
  | @bind _ _ _ p q f g _ _ ih ih' =>
      change Parser.bind p f s c ≠ _ at ended
      change Parser.bind q g s c = Parser.bind p f s c
      unfold Parser.bind at ended ⊢
      cases reply : p s c with
      | parsed a next =>
          rw [reply] at ended
          rw [ih c (by rw [reply]; exact nofun), reply]
          exact ih' a next ended
      | refused => rw [ih c (by rw [reply]; exact nofun), reply]
      | exhausted =>
          rw [reply] at ended
          exact absurd rfl ended
  | @nested _ _ p q _ ih =>
      rcases Nat.lt_or_ge c.nesting s.limit with room | full
      · rw [nested_of_lt p room] at ended ⊢
        rw [nested_of_lt q room, ih _ fun none => ended (by rw [none]; rfl)]
      · rw [nested_of_le p full, nested_of_le q full]
  | balanced _ ih =>
      unfold Parser.balanced at ended ⊢
      rw [ih c fun none => ended (by rw [none])]

def LeavesEnd (c : Cursor) : Reply α → Prop
  | .parsed _ next => Takes 0 c next
  | .refused _ stopped => Takes 0 c stopped
  | .exhausted => True

theorem LeavesEnd.of_takes {c middle : Cursor} {reply : Reply α} (h : LeavesEnd middle reply)
    (taken : Takes 0 c middle) : LeavesEnd c reply := by
  cases reply with
  | parsed => exact taken.trans h
  | refused => exact taken.trans h
  | exhausted => trivial

theorem LeavesEnd.lower {c : Cursor} {reply : Reply α} (h : LeavesEnd c reply) :
    LeavesEnd c (lower reply) := by
  cases reply with
  | parsed => exact Takes.of_tokens h rfl rfl
  | refused => exact Takes.of_tokens h rfl rfl
  | exhausted => trivial

theorem Prolonged.leavesEnd {p q : Parser α} (h : Prolonged ahead p q) {s : Setting} {c : Cursor}
    (going : ahead → (c.tokens.headD s.final).kind ≠ .endOfInput) : LeavesEnd c (p s c) := by
  have deeper : ∀ c : Cursor, Takes 0 c { c with nesting := c.nesting + 1 } :=
    fun c => (Takes.refl c).of_tokens rfl rfl
  induction h generalizing c with
  | exhausted q => trivial
  | pure | refuse | refuseTarget => exact Takes.refl c
  | advance known =>
      obtain ⟨tokens, n⟩ := c
      cases tokens with
      | nil => exact Takes.refl _
      | cons token rest => exact ⟨[token], rfl, Nat.zero_le _, by simpa using going known⟩
  | peek _ ih => exact ih _ id
  | deepen _ ih =>
      rcases Nat.lt_or_ge c.nesting s.limit with room | full
      · rw [deepen_bind_of_lt room]
        exact (ih (c := { c with nesting := c.nesting + 1 }) going).of_takes (deeper c)
      · rw [deepen_bind_of_le full]
        exact deeper _
  | @bind _ _ _ p q f g _ _ ih ih' =>
      have first := ih going
      change LeavesEnd c (Parser.bind p f s c)
      unfold Parser.bind
      generalize p s c = reply at first
      cases reply with
      | parsed a next =>
          exact (ih' a False.elim).of_takes first
      | refused => exact first
      | exhausted => trivial
  | @nested _ _ p q _ ih =>
      rcases Nat.lt_or_ge c.nesting s.limit with room | full
      · rw [nested_of_lt p room]
        exact ((ih (c := { c with nesting := c.nesting + 1 }) going).of_takes (deeper c)).lower
      · rw [nested_of_le p full]
        exact deeper _
  | @balanced _ _ p q _ ih =>
      have inner := ih going
      unfold Parser.balanced
      generalize p s c = reply at inner
      cases reply with
      | parsed => exact Takes.of_tokens inner rfl rfl
      | refused => exact inner
      | exhausted => trivial

end Parser

/-- Any allowance that exceeds the number of tokens gives the same. -/
theorem program_eq_parseReply (limit : Nat) {tokens : List Token} {n : Nat}
    (room : tokens.length < n) :
    Parser.program n ⟨limit, Parser.finalToken tokens⟩ ⟨tokens, 0⟩ = parseReply limit tokens :=
  (Parser.prolonged_program room).eq_of_ended _ _ (parseReply_ne_exhausted limit tokens)

theorem leavesEnd_parseReply (limit : Nat) (tokens : List Token) :
    Parser.LeavesEnd ⟨tokens, 0⟩ (parseReply limit tokens) :=
  (Parser.prolonged_program (Nat.le_refl _)).leavesEnd False.elim

end Ardoise
