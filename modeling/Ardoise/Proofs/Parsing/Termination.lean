import Ardoise.Proofs.Parsing.Allowance

/-!
# Parsing terminates

An allowance is there for the rules to be defined, and what it hides is shown here:
every statement and every expression takes a token, whatever its allowance is, and each
turn of a loop takes one or is the last.  So a rule never runs out of an allowance that
exceeds the number of tokens, whichever tokens these are.
-/

namespace Ardoise

def Reply.map {α β : Type} (f : α → β) : Reply α → Reply β
  | .parsed a next => .parsed (f a) next
  | .refused fault stopped => .refused fault stopped
  | .exhausted => .exhausted

theorem Reply.map_id {α : Type} (reply : Reply α) : reply.map id = reply := by
  cases reply <;> rfl

private theorem Reply.map_ne_exhausted {α β : Type} {f : α → β} {reply : Reply α}
    (ended : reply ≠ .exhausted) : reply.map f ≠ .exhausted := by
  cases reply with
  | parsed | refused => exact nofun
  | exhausted => exact absurd rfl ended

namespace Parser

variable {α β γ σ : Type} {s : Setting} {c : Cursor} {n : Nat}

/-! ## Statements and expressions -/

/--
A statement, or an expression of some level, with allowances for less than `n` tokens.
The expressions inside a primary one stand behind a bracket, and may do with one less.
-/
inductive Phrase : Nat → {α : Type} → Parser α → Prop
  | primary {n allowance : Nat} {expression : Parser Expr} (h : Phrase (n - 1) expression)
      (le : n ≤ allowance) : Phrase n (primary expression allowance)
  | postfixed {n allowance : Nat} {expression : Parser Expr} (h : Phrase (n - 1) expression)
      (le : n ≤ allowance) : Phrase n (postfixed expression allowance)
  | prefixed {n allowance : Nat} {operand : Parser Expr} (h : Phrase n operand)
      (le : n ≤ allowance) : Phrase n (prefixed operand allowance)
  | operators {n allowance : Nat} {operand : Parser Expr} (h : Phrase n operand)
      (le : n ≤ allowance) (levels : List Level) : Phrase n (operators operand allowance levels)
  | assignment {n allowance : Nat} {operand : Parser Expr} (h : Phrase n operand)
      (le : n ≤ allowance) : Phrase n (assignment operand allowance)
  | expression {n allowance : Nat} (le : n ≤ allowance) : Phrase n (expression allowance)
  | bound {n allowance : Nat} (le : n ≤ allowance) : Phrase n (bound allowance)
  | statement {n allowance : Nat} (le : n ≤ allowance) (inFunction : Bool) :
      Phrase n (statement allowance inFunction)

theorem Phrase.ends {p : Parser α} (h : Phrase n p) {k : Nat} (room : k < n) : Ends k 1 p := by
  induction h generalizing k with
  | primary _ le ih => exact ends_primary (by omega) fun m _ => ih (by omega)
  | postfixed _ le ih => exact ends_postfixed (by omega) fun m _ => ih (by omega)
  | prefixed _ le ih => exact ends_prefixed (by omega) fun m _ => ih (by omega)
  | operators _ le levels ih => exact ends_operators levels (by omega) fun m _ => ih (by omega)
  | assignment _ le ih => exact ends_assignment (by omega) fun m _ => ih (by omega)
  | expression le => exact ends_expression (by omega)
  | bound le => exact ends_bound (by omega)
  | statement le inFunction => exact ends_statement (by omega) inFunction

theorem Phrase.enlarge {p : Parser α} (h : Phrase n p) (m : Nat) :
    ∃ q, Phrase m q ∧ Prolonged False p q := by
  induction h generalizing m with
  | primary _ _ ih =>
      obtain ⟨q, phrase, more⟩ := ih (m - 1)
      exact ⟨_, .primary phrase (Nat.le_max_right _ m), more.primary (Nat.le_max_left _ m)⟩
  | postfixed _ _ ih =>
      obtain ⟨q, phrase, more⟩ := ih (m - 1)
      exact ⟨_, .postfixed phrase (Nat.le_max_right _ m), more.postfixed (Nat.le_max_left _ m)⟩
  | prefixed _ _ ih =>
      obtain ⟨q, phrase, more⟩ := ih m
      exact ⟨_, .prefixed phrase (Nat.le_max_right _ m), more.prefixed (Nat.le_max_left _ m)⟩
  | operators _ _ levels ih =>
      obtain ⟨q, phrase, more⟩ := ih m
      exact ⟨_, .operators phrase (Nat.le_max_right _ m) levels,
        more.operators (Nat.le_max_left _ m) levels⟩
  | assignment _ _ ih =>
      obtain ⟨q, phrase, more⟩ := ih m
      exact ⟨_, .assignment phrase (Nat.le_max_right _ m), more.assignment (Nat.le_max_left _ m)⟩
  | expression =>
      exact ⟨_, .expression (Nat.le_max_right _ m), prolonged_expression (Nat.le_max_left _ m)⟩
  | bound => exact ⟨_, .bound (Nat.le_max_right _ m), prolonged_bound (Nat.le_max_left _ m)⟩
  | statement _ inFunction =>
      exact ⟨_, .statement (Nat.le_max_right _ m) inFunction,
        prolonged_statement (Nat.le_max_left _ m) inFunction⟩

/-- A phrase that is read takes a token, also where its allowance has only just sufficed. -/
theorem Phrase.takes {p : Parser α} (h : Phrase n p) (final : s.final.kind = .endOfInput) {a : α}
    {next : Cursor} (parsed : p s c = .parsed a next) : Takes 1 c next := by
  obtain ⟨q, phrase, more⟩ := h.enlarge (c.tokens.length + 1)
  have proper := phrase.ends (Nat.lt_succ_self _) s c final (Nat.le_refl _)
  rwa [more.eq_of_ended s c (by rw [parsed]; exact nofun), parsed] at proper

theorem Phrase.takes_of_refused {p : Parser α} (h : Phrase n p) {fault : Located GrammarFault}
    {stopped : Cursor} (refused : p s c = .refused fault stopped) : Takes 0 c stopped := by
  obtain ⟨q, _, more⟩ := h.enlarge 0
  have leaves : LeavesEnd c (p s c) := more.leavesEnd False.elim
  rwa [refused] at leaves

theorem Phrase.proper {p : Parser α} (h : Phrase n p) (final : s.final.kind = .endOfInput)
    (room : c.tokens.length < n) : (p s c).Proper 1 c :=
  h.ends room s c final (Nat.le_refl _)

theorem Phrase.ended {p : Parser α} (h : Phrase n p) (final : s.final.kind = .endOfInput)
    (room : c.tokens.length < n) : p s c ≠ .exhausted := by
  intro none
  have proper := h.proper final room
  rw [none] at proper
  exact proper

/-! ## Loops -/

theorem EndsInside.proper {p : Parser α} {least : Nat} (h : EndsInside n least p)
    (final : s.final.kind = .endOfInput)
    (going : (c.tokens.headD s.final).kind ≠ .endOfInput) (room : c.tokens.length ≤ n) :
    (p s c).Proper least c := by
  cases tokens : c.tokens with
  | nil =>
      rw [tokens] at going
      exact absurd final going
  | cons token rest =>
      rw [tokens] at going
      exact h s c token rest final tokens going room

/--
The loops of the grammar, by the turns that are left and by what they carry along:
statements one after the other, in a program or in a block; operators of one level;
calls and indices; arguments; parameters; and the elements of an array.
-/
inductive Loop : Nat → {σ β : Type} → (Nat → σ → Parser β) → Prop
  | statements {n : Nat} {statement : Parser Stmt} (h : Phrase n statement)
      (closers : List Kind) : Loop n fun turns (_ : Unit) => statements statement closers turns
  | operations {n : Nat} {operand : Parser Expr} (h : Phrase n operand) (level : Level) :
      Loop n (operations level operand)
  | suffixes {n allowance : Nat} {expression : Parser Expr} (h : Phrase (n - 1) expression)
      (le : n ≤ allowance) : Loop n (suffixes expression allowance)
  | arguments {n : Nat} {expression : Parser Expr} (h : Phrase n expression) :
      Loop n fun turns (_ : Unit) => separated expression turns
  | parameters {n : Nat} :
      Loop n fun turns (_ : Unit) => separated (expectName .parameterName) turns
  | elements {n : Nat} {expression : Parser Expr} (h : Phrase n expression) :
      Loop n fun turns (_ : Unit) => elements expression turns

/--
One turn of a loop from the cursor on, with the reply it gives for each number of turns
that are left after it: either it is the last, or it takes a token and the loop goes on.
-/
inductive Turn (loop : Nat → σ → Parser β) (s : Setting) (c : Cursor) (reply : Nat → Reply β) :
    Prop
  | stops (last : Reply β) (ended : last ≠ .exhausted) (same : ∀ turns, reply turns = last) :
      Turn loop s c reply
  | goesOn {next : Cursor} (state : σ) (f : β → β) (taken : Takes 1 c next)
      (same : ∀ turns, reply turns = (loop turns state s next).map f) : Turn loop s c reply

section Turns

variable {loop : Nat → σ → Parser β} {reply reply' : Nat → Reply β}

theorem Turn.of_eq (h : Turn loop s c reply) (same : ∀ turns, reply' turns = reply turns) :
    Turn loop s c reply' := by
  cases h with
  | stops last ended stays => exact .stops last ended fun turns => (same turns).trans (stays turns)
  | goesOn state f taken again =>
      exact .goesOn state f taken fun turns => (same turns).trans (again turns)

theorem Turn.of_pure {next : Cursor} (a : β) :
    Turn loop s c fun _ => (pure a : Parser β) s next :=
  .stops (.parsed a next) nofun fun _ => rfl

theorem Turn.bind {body : Parser γ} {after : Nat → γ → Parser β} {middle : Cursor} {a b : Nat}
    (taken : Takes a c middle) (proper : (body s middle).Proper b middle)
    (second : ∀ x next, Takes (a + b) c next → Turn loop s c fun turns => after turns x s next) :
    Turn loop s c fun turns => (body >>= after turns) s middle := by
  change Turn loop s c fun turns => Parser.bind body (after turns) s middle
  unfold Parser.bind
  generalize body s middle = first at proper
  cases first with
  | parsed x next => exact second x next (taken.trans proper)
  | refused fault stopped => exact .stops (.refused fault stopped) nofun fun _ => rfl
  | exhausted => exact proper.elim

theorem Turn.deepen {body : Parser γ} {after : Nat → γ → Parser β}
    (final : s.final.kind = .endOfInput)
    (going : (c.tokens.headD s.final).kind ≠ .endOfInput)
    (inside : EndsInside c.tokens.length 1 body)
    (second : ∀ x next, Takes 1 c next → Turn loop s c fun turns => after turns x s next) :
    Turn loop s c fun turns => (deepen >>= fun _ => body >>= after turns) s c := by
  rcases Nat.lt_or_ge c.nesting s.limit with room | full
  · refine Turn.of_eq ?_ fun _ => deepen_bind_of_lt room
    have proper : (body s { c with nesting := c.nesting + 1 }).Proper 1 _ :=
      inside.proper final going (Nat.le_refl _)
    exact Turn.bind ((Takes.refl c).of_tokens rfl rfl) proper second
  · exact .stops _ (by intro none; cases none) fun _ => deepen_bind_of_le full

theorem Turn.pass {next : Cursor} (state : σ) (taken : Takes 1 c next) :
    Turn loop s c fun turns => loop turns state s next :=
  .goesOn state id taken fun turns => (loop turns state s next).map_id.symm

theorem Turn.again {next : Cursor} (state : σ) (f : β → β) (taken : Takes 1 c next) :
    Turn loop s c fun turns => (loop turns state >>= fun x => pure (f x)) s next := by
  refine .goesOn state f taken fun turns => ?_
  change Parser.bind _ _ s next = _
  unfold Parser.bind
  cases loop turns state s next <;> rfl

end Turns

theorem peek_bind_headD (f : Token → Parser β) :
    (peek >>= f) s c = f (c.tokens.headD s.final) s c := rfl

theorem turn_statements {statement : Parser Stmt} (h : Phrase n statement) (closers : List Kind)
    (final : s.final.kind = .endOfInput) (room : c.tokens.length < n) :
    Turn (fun turns (_ : Unit) => statements statement closers turns) s c
      fun turns => statements statement closers (turns + 1) s c := by
  have code : ∀ turns, statements statement closers (turns + 1) s c =
      (if (c.tokens.headD s.final).kind ∈ closers ∨ (c.tokens.headD s.final).kind = .endOfInput
        then pure []
        else statement >>= fun first => statements statement closers turns >>= fun others =>
          pure (first :: others) : Parser (List Stmt)) s c := fun _ => rfl
  split at code
  · exact (Turn.of_pure []).of_eq code
  · refine Turn.of_eq ?_ code
    refine Turn.bind (.refl c) (h.proper final room) fun first next taken => ?_
    exact Turn.again () (first :: ·) taken

private theorem turn_operations {operand : Parser Expr} (h : Phrase n operand) (level : Level)
    (left : Expr) (final : s.final.kind = .endOfInput) (room : c.tokens.length < n) :
    Turn (operations level operand) s c
      fun turns => operations level operand (turns + 1) left s c := by
  cases found : level.operator? (c.tokens.headD s.final).kind with
  | none =>
      refine .stops (.parsed left c) nofun fun turns => ?_
      rw [operations, peek_bind_headD, found]
      rfl
  | some op =>
      have code : ∀ turns, operations level operand (turns + 1) left s c =
          (deepen >>= fun _ => advance >>= fun token => operand >>= fun right =>
            operations level operand turns (op.join token left right)) s c := by
        intro turns
        rw [operations, peek_bind_headD, found]
      have going : (c.tokens.headD s.final).kind ≠ .endOfInput := by
        intro eof
        rw [eof, Level.operator?_endOfInput] at found
        cases found
      refine Turn.of_eq ?_ code
      refine Turn.deepen final going endsInside_advance_only fun token middle taken => ?_
      have shorter := taken.length
      have right := h.proper (c := middle) final (by omega)
      exact Turn.bind taken right fun _ next taken' => .pass _ (taken'.mono (by omega))

theorem suffixes_of_ne {expression : Parser Expr} {allowance : Nat} (turns : Nat) (left : Expr)
    (paren : (c.tokens.headD s.final).kind ≠ .symbol .leftParen)
    (bracket : (c.tokens.headD s.final).kind ≠ .symbol .leftBracket) :
    suffixes expression allowance (turns + 1) left s c = .parsed left c := by
  rw [suffixes, peek_bind_headD]
  generalize (c.tokens.headD s.final).kind = kind at paren bracket
  revert paren bracket
  cases kind with
  | symbol symbol => cases symbol <;> simp <;> rfl
  | _ => exact fun _ _ => rfl

theorem turn_suffixes {expression : Parser Expr} {allowance : Nat} (h : Phrase (n - 1) expression)
    (le : n ≤ allowance) (left : Expr) (final : s.final.kind = .endOfInput)
    (room : c.tokens.length < n) :
    Turn (suffixes expression allowance) s c
      fun turns => suffixes expression allowance (turns + 1) left s c := by
  have inner : ∀ m, m + 1 ≤ c.tokens.length → Ends m 1 expression := fun m _ => h.ends (by omega)
  have suffix : ∀ {p : Parser Expr}, EndsInside c.tokens.length 1 p →
      (c.tokens.headD s.final).kind ≠ .endOfInput → Turn (suffixes expression allowance) s c
        fun turns => (deepen >>= fun _ => p >>= suffixes expression allowance turns) s c :=
    fun inside going => Turn.deepen final going inside fun e _ => .pass e
  by_cases paren : (c.tokens.headD s.final).kind = .symbol .leftParen
  · have call := endsInside_arguments left (Nat.lt_of_lt_of_le room le) inner
    refine (suffix call (paren ▸ symbol_ne_end _)).of_eq fun turns => ?_
    rw [suffixes, peek_bind_headD, paren]
  · by_cases bracket : (c.tokens.headD s.final).kind = .symbol .leftBracket
    · have index := endsInside_subscript left inner
      refine (suffix index (bracket ▸ symbol_ne_end _)).of_eq fun turns => ?_
      rw [suffixes, peek_bind_headD, bracket]
    · exact .stops (.parsed left c) nofun fun turns => suffixes_of_ne turns left paren bracket

theorem turn_separated {item : Parser α} (h : ∀ k, k < n → Ends k 1 item)
    (final : s.final.kind = .endOfInput) (room : c.tokens.length < n) :
    Turn (fun turns (_ : Unit) => separated item turns) s c
      fun turns => separated item (turns + 1) s c := by
  refine Turn.bind (.refl c) (h _ room s c final (Nat.le_refl _)) fun first middle taken => ?_
  have comma := ends_accept _ (symbol_ne_end .comma) s middle final (Nat.le_refl _)
  refine Turn.bind taken comma fun again next taken' => ?_
  cases again with
  | true => exact Turn.again () (first :: ·) taken'
  | false => exact Turn.of_pure [first]

theorem Turn.close {loop : Nat → σ → Parser (List Expr × Token)} {middle : Cursor} {least : Nat}
    (items : List Expr) (taken : Takes least c middle) (final : s.final.kind = .endOfInput)
    (closes : (middle.tokens.headD s.final).kind = .symbol .rightBracket) :
    Turn loop s c fun _ => (advance >>= fun close => pure (items, close)) s middle := by
  have bracket : (advance s middle).Proper 1 middle :=
    endsInside_advance_only.proper final (closes ▸ symbol_ne_end _) (Nat.le_refl _)
  exact Turn.bind taken bracket fun close _ _ => .of_pure (items, close)

private theorem turn_afterElement {expression : Parser Expr} {middle : Cursor} (first : Expr)
    (taken : Takes 1 c middle) (final : s.final.kind = .endOfInput) :
    Turn (fun turns (_ : Unit) => elements expression turns) s c
      fun turns => afterElement first (elements expression turns) s middle := by
  have code : ∀ turns, afterElement first (elements expression turns) s middle =
      (if (middle.tokens.headD s.final).kind = .symbol .rightBracket
        then advance >>= fun close => pure ([first], close)
        else expect (.symbol .comma) .arrayComma >>= fun _ => elements expression turns >>=
          fun others => pure (first :: others.1, others.2) :
          Parser (List Expr × Token)) s middle := fun _ => rfl
  split at code
  · rename_i closes
    exact (Turn.close [first] taken final closes).of_eq code
  · refine Turn.of_eq ?_ code
    have comma := ends_expect _ (symbol_ne_end .comma) .arrayComma s middle final (Nat.le_refl _)
    refine Turn.bind taken comma fun _ next taken' => ?_
    exact Turn.again () (fun others => (first :: others.1, others.2)) (taken'.mono (by omega))

private theorem turn_elements {expression : Parser Expr} (h : Phrase n expression)
    (final : s.final.kind = .endOfInput) (room : c.tokens.length < n) :
    Turn (fun turns (_ : Unit) => elements expression turns) s c
      fun turns => elements expression (turns + 1) s c := by
  have code : ∀ turns, elements expression (turns + 1) s c =
      (if (c.tokens.headD s.final).kind = .symbol .rightBracket
        then advance >>= fun close => pure ([], close)
        else expression >>= fun first => afterElement first (elements expression turns) :
          Parser (List Expr × Token)) s c := fun _ => rfl
  split at code
  · rename_i closes
    exact (Turn.close [] (.refl c) final closes).of_eq code
  · refine Turn.of_eq ?_ code
    exact Turn.bind (.refl c) (h.proper final room) fun first _ taken =>
      turn_afterElement first taken final

theorem Loop.turn {loop : Nat → σ → Parser β} (h : Loop n loop) (state : σ)
    (final : s.final.kind = .endOfInput) (room : c.tokens.length < n) :
    Turn loop s c fun turns => loop (turns + 1) state s c := by
  cases h with
  | statements phrase closers => exact turn_statements phrase closers final room
  | operations phrase level => exact turn_operations phrase level state final room
  | suffixes phrase le => exact turn_suffixes phrase le state final room
  | arguments phrase => exact turn_separated (fun _ => phrase.ends) final room
  | parameters => exact turn_separated (fun k _ => ends_expectName k _) final room
  | elements phrase => exact turn_elements phrase final room

/-- A loop is over after at most as many turns as there are tokens, and one more. -/
theorem Loop.ended {loop : Nat → σ → Parser β} (h : Loop n loop) {turns : Nat} {state : σ}
    (final : s.final.kind = .endOfInput) (room : c.tokens.length < n)
    (turning : c.tokens.length < turns) : loop turns state s c ≠ .exhausted := by
  induction turns generalizing state c with
  | zero => omega
  | succ turns ih =>
      cases h.turn state final room with
      | stops last ended same => rwa [same turns]
      | goesOn state' f taken same =>
          have shorter := taken.length
          rw [same turns]
          exact Reply.map_ne_exhausted (ih (by omega) (by omega))

theorem LeavesEnd.takes {reply : Reply α} (h : LeavesEnd c reply) {left : Cursor}
    (leaves : left ∈ cursor? reply) : Takes 0 c left := by
  cases reply with
  | parsed | refused =>
      cases leaves
      exact h
  | exhausted => cases leaves

end Parser

/--
Parsing terminates on every list of tokens, in four parts.  It never uses up its
allowance, and gives the same for every allowance that exceeds the number of tokens.
What it has taken when it ends, with a program or with a fault, holds no end of the text.
Each call for a statement or for an expression of some level ends, and takes a token
when it succeeds.  Each turn of a loop ends the loop or takes a token, so that there are
no more turns than tokens but for the last.
-/
theorem parse_terminates (limit : Nat) (tokens : List Token) :
    (parseReply limit tokens ≠ .exhausted ∧
      ∀ allowance, tokens.length < allowance →
        Parser.program allowance ⟨limit, Parser.finalToken tokens⟩ ⟨tokens, 0⟩ =
          parseReply limit tokens) ∧
    (∀ left ∈ Parser.cursor? (parseReply limit tokens), Takes 0 ⟨tokens, 0⟩ left) ∧
    (∀ (n : Nat) (α : Type) (p : Parser α), Parser.Phrase n p → ∀ setting cursor,
      setting.final.kind = .endOfInput →
        (cursor.tokens.length < n → p setting cursor ≠ .exhausted) ∧
        (∀ a next, p setting cursor = .parsed a next → Takes 1 cursor next) ∧
        ∀ fault stopped, p setting cursor = .refused fault stopped → Takes 0 cursor stopped) ∧
    ∀ (n : Nat) (σ β : Type) (loop : Nat → σ → Parser β), Parser.Loop n loop →
      ∀ setting cursor state, setting.final.kind = .endOfInput → cursor.tokens.length < n →
        Parser.Turn loop setting cursor (fun turns => loop (turns + 1) state setting cursor) ∧
        ∀ turns, cursor.tokens.length < turns → loop turns state setting cursor ≠ .exhausted := by
  refine ⟨⟨parseReply_ne_exhausted limit tokens, fun _ => program_eq_parseReply limit⟩, ?_, ?_, ?_⟩
  · exact fun left => (leavesEnd_parseReply limit tokens).takes
  · intro n α p phrase setting cursor final
    exact ⟨phrase.ended final, fun a next => phrase.takes final,
      fun fault stopped => phrase.takes_of_refused⟩
  · intro n σ β loop rule setting cursor state final room
    exact ⟨rule.turn state final room, fun turns => rule.ended final room⟩

/-- An end of the text in the middle is not passed, and what follows it is left. -/
theorem parse_terminates_at_first_end :
    ∃ (tokens : List Token) (setting : Setting),
      tokens.map Token.kind =
        [.identifier "x", .endOfInput, .endOfInput, .symbol .plus] ∧
      setting.final.kind = .endOfInput ∧
      Parser.program 99 ⟨7, Parser.finalToken tokens⟩ ⟨tokens, 0⟩ = parseReply 7 tokens ∧
      (∃ value next, Parser.expression 5 setting ⟨tokens, 0⟩ = .parsed value next ∧
        Takes 1 ⟨tokens, 0⟩ next) ∧
      Parser.statements (Parser.statement 5 false) [] 6 setting ⟨tokens, 0⟩ ≠ .exhausted := by
  let name : Token := ⟨.identifier "x", "x", ⟨0, 1, 1⟩⟩
  let plus : Token := ⟨.symbol .plus, "+", ⟨1, 2, 1⟩⟩
  let tokens := [name, .endAt ⟨1, 1, 1⟩, .endAt ⟨1, 1, 1⟩, plus]
  let setting : Setting := ⟨7, .endAt .nowhere⟩
  obtain ⟨⟨_, same⟩, _, phrases, loops⟩ := parse_terminates 7 tokens
  have five : Parser.Phrase 5 (Parser.statement 5 false) := .statement (Nat.le_refl _) false
  have read : ∃ value next, Parser.expression 5 setting ⟨tokens, 0⟩ = .parsed value next :=
    ⟨_, _, rfl⟩
  obtain ⟨value, next, parsed⟩ := read
  have taken := (phrases 5 _ _ (.expression (Nat.le_refl 5)) setting ⟨tokens, 0⟩ rfl).2.1 _ _ parsed
  have ended := (loops 5 _ _ _ (.statements five []) setting ⟨tokens, 0⟩ () rfl (by decide)).2 6
    (by decide)
  exact ⟨tokens, setting, rfl, rfl, same 99 (by decide), ⟨value, next, parsed, taken⟩, ended⟩

end Ardoise
