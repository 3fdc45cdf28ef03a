import Ardoise.Parser.Statement

/-!
# Parsing ends

Every rule of the grammar takes at least one token whenever it succeeds, never
takes the end of the text, and leaves the tokens after those it took.  An
allowance that exceeds the number of tokens is therefore never used up:
`ends_program` says so of whole programs.
-/

namespace Ardoise

/-- At least `least` tokens lead from `cursor` to `next`, none of them the end of the text. -/
def Takes (least : Nat) (cursor next : Cursor) : Prop :=
  ∃ used, cursor.tokens = used ++ next.tokens ∧ least ≤ used.length ∧
    ∀ token ∈ used, token.kind ≠ .endOfInput

namespace Takes

theorem refl (cursor : Cursor) : Takes 0 cursor cursor :=
  ⟨[], rfl, Nat.le_refl _, by simp⟩

theorem trans {a b : Nat} {cursor middle next : Cursor} (first : Takes a cursor middle)
    (second : Takes b middle next) : Takes (a + b) cursor next := by
  obtain ⟨used, split, enough, proper⟩ := first
  obtain ⟨used', split', enough', proper'⟩ := second
  refine ⟨used ++ used', by rw [split, split', List.append_assoc], ?_, ?_⟩
  · rw [List.length_append]
    omega
  · intro token member
    rcases List.mem_append.mp member with here | there
    · exact proper token here
    · exact proper' token there

theorem mono {a b : Nat} {cursor next : Cursor} (le : a ≤ b) (taken : Takes b cursor next) :
    Takes a cursor next := by
  obtain ⟨used, split, enough, proper⟩ := taken
  exact ⟨used, split, Nat.le_trans le enough, proper⟩

theorem length {a : Nat} {cursor next : Cursor} (taken : Takes a cursor next) :
    next.tokens.length + a ≤ cursor.tokens.length := by
  obtain ⟨used, split, enough, -⟩ := taken
  rw [split, List.length_append]
  omega

theorem of_tokens {a : Nat} {cursor next cursor' next' : Cursor} (taken : Takes a cursor next)
    (same : cursor'.tokens = cursor.tokens) (same' : next'.tokens = next.tokens) :
    Takes a cursor' next' := by
  obtain ⟨used, split, rest⟩ := taken
  exact ⟨used, by rw [same, same', split], rest⟩

end Takes

def Reply.Proper {α : Type} (least : Nat) (cursor : Cursor) : Reply α → Prop
  | .parsed _ next => Takes least cursor next
  | .refused _ _ => True
  | .exhausted => False

theorem Reply.Proper.mono {α : Type} {least fewer : Nat} {cursor : Cursor} {reply : Reply α}
    (proper : reply.Proper least cursor) (le : fewer ≤ least) : reply.Proper fewer cursor := by
  cases reply with
  | parsed => exact Takes.mono le proper
  | refused => trivial
  | exhausted => exact proper

namespace Parser

variable {α β : Type}

/-- On any list of at most `n` tokens, the parser ends and takes at least `least` of them. -/
def Ends (n least : Nat) (p : Parser α) : Prop :=
  ∀ setting cursor, setting.final.kind = .endOfInput → cursor.tokens.length ≤ n →
    (p setting cursor).Proper least cursor

def EndsInside (n least : Nat) (p : Parser α) : Prop :=
  ∀ setting cursor token rest, setting.final.kind = .endOfInput →
    cursor.tokens = token :: rest → token.kind ≠ .endOfInput → cursor.tokens.length ≤ n →
    (p setting cursor).Proper least cursor

theorem Ends.inside {n least : Nat} {p : Parser α} (h : Ends n least p) : EndsInside n least p :=
  fun setting cursor _ _ final _ _ bound => h setting cursor final bound

theorem Ends.mono {n m least fewer : Nat} {p : Parser α} (h : Ends n least p) (room : m ≤ n)
    (le : fewer ≤ least) : Ends m fewer p :=
  fun setting cursor final bound =>
    (h setting cursor final (Nat.le_trans bound room)).mono le

theorem EndsInside.mono {n least fewer : Nat} {p : Parser α} (h : EndsInside n least p)
    (le : fewer ≤ least) : EndsInside n fewer p :=
  fun setting cursor token rest final tokens going bound =>
    (h setting cursor token rest final tokens going bound).mono le

theorem symbol_ne_end (symbol : Symbol) : Kind.symbol symbol ≠ .endOfInput := nofun

theorem keyword_ne_end (keyword : Keyword) : Kind.keyword keyword ≠ .endOfInput := nofun

theorem ends_pure (n : Nat) (a : α) : Ends n 0 (pure a : Parser α) :=
  fun _ cursor _ _ => Takes.refl cursor

private theorem ends_refuseAt (n least : Nat) (token : Token) (expected : Expected) :
    Ends n least (refuseAt token expected : Parser α) :=
  fun _ _ _ _ => trivial

theorem ends_refuse (n least : Nat) (expected : Expected) :
    Ends n least (refuse expected : Parser α) :=
  fun _ _ _ _ => trivial

theorem proper_bind {n a b : Nat} {p : Parser α} {f : α → Parser β} {setting : Setting}
    {cursor : Cursor} (final : setting.final.kind = .endOfInput)
    (bound : cursor.tokens.length ≤ n) (first : (p setting cursor).Proper a cursor)
    (second : ∀ x, a ≤ n → Ends (n - a) b (f x)) :
    ((p >>= f) setting cursor).Proper (a + b) cursor := by
  change (Parser.bind p f setting cursor).Proper (a + b) cursor
  unfold Parser.bind
  cases reply : p setting cursor with
  | parsed x next =>
    rw [reply] at first
    have shorter := Takes.length first
    have after := second x (by omega) setting next final (by omega)
    change (f x setting next).Proper (a + b) cursor
    cases reply' : f x setting next with
    | parsed y last =>
      rw [reply'] at after
      exact Takes.trans first after
    | refused => trivial
    | exhausted =>
      rw [reply'] at after
      exact after
  | refused => trivial
  | exhausted =>
    rw [reply] at first
    exact first

theorem Ends.bind {n a b : Nat} {p : Parser α} {f : α → Parser β} (first : Ends n a p)
    (second : ∀ x, a ≤ n → Ends (n - a) b (f x)) : Ends n (a + b) (p >>= f) :=
  fun setting cursor final bound =>
    proper_bind final bound (first setting cursor final bound) second

theorem EndsInside.bind {n a b : Nat} {p : Parser α} {f : α → Parser β}
    (first : EndsInside n a p) (second : ∀ x, a ≤ n → Ends (n - a) b (f x)) :
    EndsInside n (a + b) (p >>= f) :=
  fun setting cursor token rest final tokens going bound =>
    proper_bind final bound (first setting cursor token rest final tokens going bound) second

theorem Ends.bind_any {n least : Nat} {p : Parser α} {f : α → Parser β} (first : Ends n 0 p)
    (second : ∀ x, Ends n least (f x)) : Ends n least (p >>= f) := by
  rw [← Nat.zero_add least]
  exact first.bind fun x _ => second x

theorem Ends.bind_one {n : Nat} {p : Parser α} {f : α → Parser β} (first : Ends n 1 p)
    (second : ∀ x, 1 ≤ n → Ends (n - 1) 0 (f x)) : Ends n 1 (p >>= f) :=
  first.bind second

theorem ends_peek {n least : Nat} {f : Token → Parser β}
    (going : ∀ token, token.kind ≠ .endOfInput → EndsInside n least (f token))
    (ended : ∀ token, token.kind = .endOfInput → Ends n least (f token)) :
    Ends n least (peek >>= f) := by
  intro setting cursor final bound
  change (f (cursor.tokens.headD setting.final) setting cursor).Proper least cursor
  cases tokens : cursor.tokens with
  | nil => exact ended setting.final final setting cursor final bound
  | cons token rest =>
    by_cases eof : token.kind = .endOfInput
    · exact ended token eof setting cursor final bound
    · exact going token eof setting cursor token rest final tokens eof bound

theorem endsInside_advance {n least : Nat} {f : Token → Parser β}
    (rest : ∀ token, 1 ≤ n → Ends (n - 1) least (f token)) :
    EndsInside n (least + 1) (advance >>= f) := by
  intro setting cursor token tail final tokens proper bound
  have positive : 1 ≤ n := by
    rw [tokens, List.length_cons] at bound
    omega
  have room : tail.length ≤ n - 1 := by
    rw [tokens, List.length_cons] at bound
    omega
  have after := rest token positive setting { cursor with tokens := tail } final room
  have step : (advance >>= f) setting cursor = f token setting { cursor with tokens := tail } := by
    change Parser.bind advance f setting cursor = _
    unfold Parser.bind advance
    rw [tokens]
  rw [step]
  cases reply : f token setting { cursor with tokens := tail } with
  | parsed x next =>
    rw [reply] at after
    have one : Takes 1 cursor { cursor with tokens := tail } :=
      ⟨[token], by simp [tokens], Nat.le_refl _, by simpa using proper⟩
    exact Takes.mono (by omega) (one.trans after)
  | refused => trivial
  | exhausted =>
    rw [reply] at after
    exact after

theorem endsInside_advance_pure {n : Nat} (f : Token → α) :
    EndsInside n 1 (advance >>= fun token => pure (f token)) :=
  endsInside_advance fun _ _ => ends_pure _ _

theorem endsInside_advance_only {n : Nat} : EndsInside n 1 advance := by
  intro setting cursor token tail _ tokens proper _
  have step : advance setting cursor = .parsed token { cursor with tokens := tail } := by
    unfold advance
    rw [tokens]
  rw [step]
  exact ⟨[token], by simp [tokens], Nat.le_refl _, by simpa using proper⟩

private theorem ends_deepen (n : Nat) : Ends n 0 deepen := by
  intro setting cursor _ _
  unfold deepen
  simp only
  split
  · trivial
  · exact (Takes.refl cursor).of_tokens rfl rfl

theorem endsInside_deepen {n least : Nat} {f : Unit → Parser β} (h : EndsInside n least (f ())) :
    EndsInside n least (deepen >>= f) := by
  intro setting cursor token rest final tokens going bound
  change (Parser.bind deepen f setting cursor).Proper least cursor
  unfold Parser.bind deepen
  simp only
  split
  · rename_i a next reply
    split at reply
    · cases reply
    · cases reply
      have proper := h setting { cursor with nesting := cursor.nesting + 1 } token rest final tokens
        going bound
      cases inner : f () setting { cursor with nesting := cursor.nesting + 1 } with
      | parsed x last =>
        rw [inner] at proper
        exact Takes.of_tokens proper rfl rfl
      | refused => trivial
      | exhausted =>
        rw [inner] at proper
        exact proper
  · trivial
  · rename_i reply
    split at reply <;> cases reply

theorem Ends.nested {n least : Nat} {p : Parser α} (h : Ends n least p) :
    Ends n least (nested p) := by
  rw [← Nat.zero_add least]
  refine (ends_deepen n).bind fun _ _ setting cursor final bound => ?_
  have proper := h setting cursor final bound
  cases reply : p setting cursor with
  | parsed a next =>
    rw [reply] at proper
    exact Takes.of_tokens proper rfl rfl
  | refused => trivial
  | exhausted =>
    rw [reply] at proper
    exact proper

theorem Ends.balanced {n least : Nat} {p : Parser α} (h : Ends n least p) :
    Ends n least (balanced p) := by
  intro setting cursor final bound
  have proper := h setting cursor final bound
  unfold Parser.balanced
  cases reply : p setting cursor with
  | parsed a next =>
    rw [reply] at proper
    exact Takes.of_tokens proper rfl rfl
  | refused => trivial
  | exhausted =>
    rw [reply] at proper
    exact proper

theorem ends_accept (n : Nat) {kind : Kind} (proper : kind ≠ .endOfInput) :
    Ends n 0 (accept kind) := by
  refine ends_peek (fun token _ => ?_) (fun token eof => ?_)
  · split
    · exact (endsInside_advance_pure _).mono (Nat.zero_le _)
    · exact (ends_pure _ _).inside
  · rw [if_neg (by rw [eof]; exact proper.symm)]
    exact ends_pure _ _

theorem ends_expect (n : Nat) {kind : Kind} (proper : kind ≠ .endOfInput) (expected : Expected) :
    Ends n 1 (expect kind expected) := by
  refine ends_peek (fun token _ => ?_) (fun token eof => ?_)
  · split
    · exact endsInside_advance_only
    · exact (ends_refuse _ _ _).inside
  · rw [if_neg (by rw [eof]; exact proper.symm)]
    exact ends_refuse _ _ _

theorem ends_expectName (n : Nat) (expected : Expected) : Ends n 1 (expectName expected) := by
  refine ends_peek (fun token _ => ?_) (fun token eof => ?_)
  · split
    · exact endsInside_advance_pure _
    · exact (ends_refuse _ _ _).inside
  · rw [eof]
    exact ends_refuse _ _ _

private theorem ends_separated {item : Parser α} {n allowance : Nat} (room : n < allowance)
    (h : ∀ m, m ≤ n → Ends m 1 item) : Ends n 1 (separated item allowance) := by
  induction allowance generalizing n with
  | zero => omega
  | succ allowance ih =>
    refine (h n (Nat.le_refl _)).bind_one fun first positive => ?_
    refine (ends_accept _ (symbol_ne_end _)).bind_any fun again => ?_
    cases again with
    | false => exact ends_pure _ _
    | true =>
      have rest := ih (n := n - 1) (by omega) fun m le => h m (by omega)
      exact (rest.bind_one fun _ _ => ends_pure _ _).mono (Nat.le_refl _) (Nat.zero_le _)

theorem ends_separatedUntil {close : Kind} {item : Parser α} {n allowance : Nat}
    (room : n < allowance) (h : ∀ m, m ≤ n → Ends m 1 item) :
    Ends n 0 (separatedUntil close item allowance) := by
  have items := (ends_separated room h).mono (Nat.le_refl _) (Nat.zero_le _)
  refine ends_peek (fun token _ => ?_) (fun token _ => ?_) <;> split
  · exact (ends_pure _ _).inside
  · exact items.inside
  · exact ends_pure _ _
  · exact items

/-! ## Expressions -/

private theorem ends_afterElement {more : Parser (List Expr × Token)} {n : Nat} (first : Expr)
    (h : ∀ m, m ≤ n → Ends m 0 more) : Ends n 1 (afterElement first more) := by
  have others := (ends_expect n (symbol_ne_end .comma) .arrayComma).bind_one fun _ _ =>
    (h (n - 1) (by omega)).bind_any fun others => ends_pure _ (first :: others.1, others.2)
  refine ends_peek (fun token _ => ?_) (fun token eof => ?_)
  · split
    · exact endsInside_advance_pure _
    · exact others.inside
  · rw [eof, if_neg (symbol_ne_end _).symm]
    exact others

private theorem ends_elements {expression : Parser Expr} {n allowance : Nat} (room : n < allowance)
    (h : ∀ m, m ≤ n → Ends m 1 expression) : Ends n 1 (elements expression allowance) := by
  induction allowance generalizing n with
  | zero => omega
  | succ allowance ih =>
    have others : Ends n 1 (do afterElement (← expression) (elements expression allowance)) :=
      (h n (Nat.le_refl _)).bind_one fun first _ =>
        (ends_afterElement first fun m le =>
          (ih (by omega) fun k _ => h k (by omega)).mono (Nat.le_refl _) (Nat.zero_le _)).mono
            (Nat.le_refl _) (Nat.zero_le _)
    refine ends_peek (fun token _ => ?_) (fun token eof => ?_)
    · split
      · exact endsInside_advance_pure _
      · exact others.inside
    · rw [eof, if_neg (symbol_ne_end _).symm]
      exact others

section Rules

variable {expression : Parser Expr} {n allowance : Nat}

private theorem endsInside_array (room : n < allowance) (h : ∀ m, m + 1 ≤ n → Ends m 1 expression) :
    EndsInside n 1 (array expression allowance) :=
  endsInside_advance fun _ positive =>
    ((ends_elements (by omega) fun m le => h m (by omega)).bind_one
      fun _ _ => ends_pure _ _).mono (Nat.le_refl _) (Nat.zero_le _)

private theorem endsInside_parenthesised (h : ∀ m, m + 1 ≤ n → Ends m 1 expression) :
    EndsInside n 1 (parenthesised expression) :=
  endsInside_advance fun _ positive =>
    ((h (n - 1) (by omega)).bind_one fun _ _ =>
      ((ends_expect _ (symbol_ne_end _) _).bind_one fun _ _ => ends_pure _ _).mono
        (Nat.le_refl _) (Nat.zero_le _)).mono (Nat.le_refl _) (Nat.zero_le _)

theorem ends_primary (room : n < allowance) (h : ∀ m, m + 1 ≤ n → Ends m 1 expression) :
    Ends n 1 (primary expression allowance) := by
  refine ends_peek (fun token _ => ?_) (fun token eof => ?_)
  · split
    · exact endsInside_advance_pure _
    · exact endsInside_advance_pure _
    · exact endsInside_parenthesised h
    · exact endsInside_array room h
    · exact (ends_refuse _ _ _).inside
  · rw [eof]
    exact ends_refuse _ _ _

theorem endsInside_arguments (callee : Expr) (room : n < allowance)
    (h : ∀ m, m + 1 ≤ n → Ends m 1 expression) :
    EndsInside n 1 (arguments expression allowance callee) :=
  endsInside_advance fun _ positive =>
    (ends_separatedUntil (by omega) fun m le => h m (by omega)).bind_any fun _ =>
      ((ends_expect _ (symbol_ne_end _) _).bind_one fun _ _ => ends_pure _ _).mono
        (Nat.le_refl _) (Nat.zero_le _)

theorem endsInside_subscript (source : Expr) (h : ∀ m, m + 1 ≤ n → Ends m 1 expression) :
    EndsInside n 1 (subscript expression source) :=
  endsInside_advance fun _ positive =>
    ((h (n - 1) (by omega)).bind_one fun _ _ =>
      ((ends_expect _ (symbol_ne_end _) _).bind_one fun _ _ => ends_pure _ _).mono
        (Nat.le_refl _) (Nat.zero_le _)).mono (Nat.le_refl _) (Nat.zero_le _)

theorem ends_suffixes {turns : Nat} (left : Expr) (room : n < allowance) (turning : n < turns)
    (h : ∀ m, m + 1 ≤ n → Ends m 1 expression) :
    Ends n 0 (suffixes expression allowance turns left) := by
  induction turns generalizing n left with
  | zero => omega
  | succ turns ih =>
    have again : ∀ e : Expr, 1 ≤ n → Ends (n - 1) 0 (suffixes expression allowance turns e) :=
      fun e positive => ih e (by omega) (by omega) fun m le => h m (by omega)
    refine ends_peek (fun token _ => ?_) (fun token eof => ?_)
    · split
      · exact endsInside_deepen
          (((endsInside_arguments left room h).bind again).mono (Nat.zero_le _))
      · exact endsInside_deepen
          (((endsInside_subscript left h).bind again).mono (Nat.zero_le _))
      · exact (ends_pure _ _).inside
    · rw [eof]
      exact ends_pure _ _

theorem ends_postfixed (room : n < allowance) (h : ∀ m, m + 1 ≤ n → Ends m 1 expression) :
    Ends n 1 (postfixed expression allowance) :=
  Ends.balanced ((ends_primary room h).bind_one fun e positive =>
    ends_suffixes e (by omega) (by omega) fun m le => h m (by omega))

theorem ends_prefixed {operand : Parser Expr} (room : n < allowance)
    (h : ∀ m, m ≤ n → Ends m 1 operand) : Ends n 1 (prefixed operand allowance) := by
  induction allowance generalizing n with
  | zero => omega
  | succ allowance ih =>
    refine ends_peek (fun token _ => ?_) (fun token eof => ?_)
    · split
      · refine (endsInside_advance fun _ positive => ?_)
        have inner := ih (n := n - 1) (by omega) fun m le => h m (by omega)
        exact (inner.nested.bind_one fun _ _ => ends_pure _ _).mono (Nat.le_refl _) (Nat.zero_le _)
      · exact (h n (Nat.le_refl _)).inside
    · rw [eof]
      exact h n (Nat.le_refl _)

private theorem ends_operations {precedence : Level} {operand : Parser Expr} (left : Expr)
    (room : n < allowance) (h : ∀ m, m ≤ n → Ends m 1 operand) :
    Ends n 0 (operations precedence operand allowance left) := by
  induction allowance generalizing n left with
  | zero => omega
  | succ allowance ih =>
    refine ends_peek (fun token _ => ?_) (fun token eof => ?_)
    · split
      · refine endsInside_deepen (EndsInside.mono ?_ (Nat.zero_le 1))
        refine endsInside_advance fun _ positive => ?_
        refine ((h (n - 1) (by omega)).bind_one fun _ positive' => ?_).mono
          (Nat.le_refl _) (Nat.zero_le _)
        exact ih _ (by omega) fun m le => h m (by omega)
      · exact (ends_pure _ _).inside
    · rw [eof, Level.operator?_endOfInput]
      exact ends_pure _ _

theorem ends_operators {operand : Parser Expr} (levels : List Level) (room : n < allowance)
    (h : ∀ m, m ≤ n → Ends m 1 operand) : Ends n 1 (operators operand allowance levels) := by
  induction levels generalizing n with
  | nil => exact h n (Nat.le_refl _)
  | cons precedence tighter ih =>
    refine Ends.balanced ((ih room h).bind_one fun left positive => ?_)
    exact ends_operations left (by omega) fun m le => ih (by omega) fun k le' => h k (by omega)

theorem ends_assignment {operand : Parser Expr} (room : n < allowance)
    (h : ∀ m, m ≤ n → Ends m 1 operand) : Ends n 1 (assignment operand allowance) := by
  induction allowance generalizing n with
  | zero => omega
  | succ allowance ih =>
    refine (h n (Nat.le_refl _)).bind_one fun left positive => ?_
    refine ends_peek (fun token _ => ?_) (fun token eof => ?_)
    · split
      · refine EndsInside.mono ?_ (Nat.zero_le 1)
        refine endsInside_advance fun equals positive' => ?_
        have value := ih (n := n - 1 - 1) (by omega) fun m le => h m (by omega)
        refine (value.nested.bind_one fun _ _ => ?_).mono (Nat.le_refl _) (Nat.zero_le _)
        split
        · exact ends_pure _ _
        · exact ends_refuseAt _ _ _ _
      · exact (ends_pure _ _).inside
    · rw [eof, if_neg (symbol_ne_end _).symm]
      exact ends_pure _ _

theorem ends_operand (room : n < allowance) (h : ∀ m, m + 1 ≤ n → Ends m 1 expression) :
    Ends n 1 (operand expression allowance) :=
  ends_prefixed room fun m le =>
    ends_postfixed (by omega) fun k le' => h k (by omega)

end Rules

theorem ends_expression {n allowance : Nat} (room : n < allowance) :
    Ends n 1 (expression allowance) := by
  induction allowance generalizing n with
  | zero => omega
  | succ allowance ih =>
    refine Ends.nested (ends_assignment room fun m le => ?_)
    refine ends_operators _ (by omega) fun k le' => ?_
    exact ends_operand (by omega) fun j le'' => ih (by omega)

theorem ends_bound {n allowance : Nat} (room : n < allowance) : Ends n 1 (bound allowance) :=
  ends_operators _ (by omega) fun _ _ =>
    ends_operand (by omega) fun _ _ => ends_expression (by omega)

/-! ## Statements -/

theorem ends_statements {statement : Parser Stmt} {closers : List Kind} {n allowance : Nat}
    (room : n < allowance) (h : ∀ m, m ≤ n → Ends m 1 statement) :
    Ends n 0 (statements statement closers allowance) := by
  induction allowance generalizing n with
  | zero => omega
  | succ allowance ih =>
    have more : Ends n 0 (do
        let first ← statement
        return first :: (← statements statement closers allowance)) := by
      refine ((h n (Nat.le_refl _)).bind_one fun first positive => ?_).mono
        (Nat.le_refl _) (Nat.zero_le _)
      exact (ih (n := n - 1) (by omega) fun m le => h m (by omega)).bind_any
        fun _ => ends_pure _ _
    refine ends_peek (fun token _ => ?_) (fun token _ => ?_) <;> split
    · exact (ends_pure _ _).inside
    · exact more.inside
    · exact ends_pure _ _
    · exact more

private theorem ends_block {body : Parser (List Stmt)} {closers : List Kind} {expected : Expected}
    {n : Nat} (proper : .endOfInput ∉ closers) (h : Ends n 0 body) :
    Ends n 1 (block body closers expected) := by
  have closing : ∀ (first : Token) (statements : List Stmt), Ends n 1 (do
      if (← peek).kind ∈ closers then
        let close ← advance
        return ((⟨first.span.upTo close.span, statements⟩ : Block Stmt), close)
      else
        refuse expected) := by
    intro first statements
    refine ends_peek (fun token _ => ?_) (fun token eof => ?_)
    · split
      · exact endsInside_advance_pure _
      · exact (ends_refuse _ _ _).inside
    · rw [eof, if_neg proper]
      exact ends_refuse _ _ _
  have rest : ∀ first : Token, Ends n 1 (do
      let statements ← nested body
      if (← peek).kind ∈ closers then
        let close ← advance
        return ((⟨first.span.upTo close.span, statements⟩ : Block Stmt), close)
      else
        refuse expected) :=
    fun first => h.nested.bind_any (closing first)
  exact ends_peek (fun token _ => (rest token).inside) (fun token _ => rest token)

theorem Ends.some {n : Nat} {p : Parser α} (h : Ends n 1 p) : Ends n 0 p :=
  h.mono (Nat.le_refl _) (Nat.zero_le _)

section Rules

variable {expression bound : Parser Expr} {parameters : Parser (List Name)}
  {body otherwise : Parser (Block Stmt × Token)} {n : Nat}

private theorem endsInside_functionRule (hp : ∀ m, m + 1 ≤ n → Ends m 0 parameters)
    (hb : ∀ m, m + 1 ≤ n → Ends m 1 body) : EndsInside n 1 (functionRule parameters body) :=
  endsInside_advance fun _ _ =>
    ((ends_expectName _ _).bind_one fun _ _ =>
      ((ends_expect _ (symbol_ne_end _) _).bind_one fun _ _ =>
        (hp _ (by omega)).bind_any fun _ =>
          ((ends_expect _ (symbol_ne_end _) _).bind_one fun _ _ =>
            ((hb _ (by omega)).bind_one fun _ _ => ends_pure _ _).some).some).some).some

private theorem endsInside_giveRule (inFunction : Bool) (h : ∀ m, m + 1 ≤ n → Ends m 1 expression) :
    EndsInside n 1 (giveRule inFunction expression) := by
  unfold giveRule
  split
  · exact endsInside_advance fun _ _ =>
      ((h _ (by omega)).bind_one fun _ _ => ends_pure _ _).some
  · exact (ends_refuse _ _ _).inside

private theorem endsInside_declareRule (h : ∀ m, m + 1 ≤ n → Ends m 1 expression) :
    EndsInside n 1 (declareRule expression) :=
  endsInside_advance fun _ _ =>
    ((ends_expectName _ _).bind_one fun _ _ =>
      ((ends_expect _ (symbol_ne_end _) _).bind_one fun _ _ =>
        ((h _ (by omega)).bind_one fun _ _ => ends_pure _ _).some).some).some

private theorem endsInside_branchRule (h : ∀ m, m + 1 ≤ n → Ends m 1 expression)
    (hb : ∀ m, m + 1 ≤ n → Ends m 1 body) (ho : ∀ m, m + 1 ≤ n → Ends m 1 otherwise) :
    EndsInside n 1 (branchRule expression body otherwise) := by
  refine endsInside_advance fun _ _ => ((h _ (by omega)).bind_one fun _ _ =>
    ((ends_expect _ (keyword_ne_end _) _).bind_one fun _ _ =>
      ((hb _ (by omega)).bind_one fun (_, delimiter) _ => ?_).some).some).some
  by_cases more : delimiter.kind = .keyword .sinon
  · simp only [more, if_true]
    exact ((ho _ (by omega)).bind_one fun _ _ => ends_pure _ _).some
  · simp only [more, if_false]
    exact ends_pure _ _

private theorem endsInside_whileRule (h : ∀ m, m + 1 ≤ n → Ends m 1 expression)
    (hb : ∀ m, m + 1 ≤ n → Ends m 1 body) : EndsInside n 1 (whileRule expression body) :=
  endsInside_advance fun _ _ =>
    ((h _ (by omega)).bind_one fun _ _ =>
      ((ends_expect _ (keyword_ne_end _) _).bind_one fun _ _ =>
        ((hb _ (by omega)).bind_one fun _ _ => ends_pure _ _).some).some).some

private theorem endsInside_countRule (h : ∀ m, m + 1 ≤ n → Ends m 1 bound)
    (hb : ∀ m, m + 1 ≤ n → Ends m 1 body) : EndsInside n 1 (countRule bound body) :=
  endsInside_advance fun _ _ =>
    ((ends_expectName _ _).bind_one fun _ _ =>
      ((ends_expect _ (keyword_ne_end _) _).bind_one fun _ _ =>
        ((h _ (by omega)).bind_one fun _ _ =>
          ((ends_expect _ (keyword_ne_end _) _).bind_one fun _ _ =>
            ((h _ (by omega)).bind_one fun _ _ =>
              (ends_accept _ (keyword_ne_end _)).bind_any fun _ =>
                ((hb _ (by omega)).bind_one fun _ _ =>
                  ends_pure _ _).some).some).some).some).some).some

private theorem endsInside_printRule (h : ∀ m, m + 1 ≤ n → Ends m 1 expression) :
    EndsInside n 1 (printRule expression) :=
  endsInside_advance fun _ _ => ((h _ (by omega)).bind_one fun _ _ => ends_pure _ _).some

private theorem endsInside_blockRule (hb : ∀ m, m + 1 ≤ n → Ends m 1 body) :
    EndsInside n 1 (blockRule body) :=
  endsInside_advance fun _ _ => ((hb _ (by omega)).bind_one fun _ _ => ends_pure _ _).some

end Rules

theorem ends_statement {n allowance : Nat} (room : n < allowance) (inFunction : Bool) :
    Ends n 1 (statement allowance inFunction) := by
  induction allowance generalizing n inFunction with
  | zero => omega
  | succ allowance ih =>
    have he : ∀ m, m ≤ n → Ends m 1 (expression (allowance + 1)) :=
      fun m le => ends_expression (by omega)
    have hx : Ends n 1 (do return Stmt.expression (← expression (allowance + 1))) :=
      (he n (Nat.le_refl _)).bind_one fun _ _ => ends_pure _ _
    have hb : ∀ inFunction closers expected m, .endOfInput ∉ closers → m + 1 ≤ n →
        Ends m 1 (block (statements (statement allowance inFunction) closers (allowance + 1))
          closers expected) :=
      fun inFunction closers expected m proper le =>
        ends_block proper (ends_statements (by omega) fun k le' => ih (by omega) inFunction)
    refine ends_peek (fun token _ => ?_) (fun token eof => ?_)
    · split
      · exact endsInside_functionRule
          (fun m le => ends_separatedUntil (by omega) fun k _ => ends_expectName k _)
          (fun m le => hb _ _ _ m (by simp) le)
      · exact endsInside_giveRule _ fun m le => he m (by omega)
      · exact endsInside_declareRule fun m le => he m (by omega)
      · exact endsInside_branchRule (fun m le => he m (by omega))
          (fun m le => hb _ _ _ m (by simp) le) (fun m le => hb _ _ _ m (by simp) le)
      · exact endsInside_whileRule (fun m le => he m (by omega))
          (fun m le => hb _ _ _ m (by simp) le)
      · exact endsInside_countRule (fun m le => ends_bound (by omega))
          (fun m le => hb _ _ _ m (by simp) le)
      · exact endsInside_printRule fun m le => he m (by omega)
      · exact endsInside_blockRule fun m le => hb _ _ _ m (by simp) le
      · exact hx.inside
    · rw [eof]
      exact hx

theorem ends_program {n allowance : Nat} (room : n < allowance) : Ends n 0 (program allowance) :=
  ends_statements room fun _ _ => ends_statement (by omega) false

end Parser

end Ardoise
