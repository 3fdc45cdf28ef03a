import Ardoise.Parser.Statement
import Ardoise.Proofs.Parsing.Printing

/-!
# How printed tokens are read

Parsing stops where the next token cannot go on with what has been read: where
it holds less tight.  A parser `Reads` tokens when it takes just these, whatever
stands behind the token that follows them.  A chain of operators, or of calls
and indices, is read piece by piece, so that a left operand is not read on its
own; `Leads` says that parsing has come past it and goes on behind it.
-/

namespace Ardoise

/-! ## What can go on with an expression -/

/-- The rank at which a token goes on with the expression before it. -/
def Kind.tightness? : Kind → Option Nat
  | .symbol .equal => some 0
  | .keyword .ou => some 1
  | .keyword .et => some 2
  | .symbol .equalEqual | .symbol .bangEqual => some 3
  | .symbol .greater | .symbol .greaterEqual | .symbol .less | .symbol .lessEqual => some 4
  | .symbol .plus | .symbol .minus => some 5
  | .symbol .star | .symbol .slash => some 6
  | .symbol .leftParen | .symbol .leftBracket => some 8
  | _ => none

def Kind.Stops (rank : Nat) (kind : Kind) : Prop :=
  ∀ tightness, kind.tightness? = some tightness → tightness < rank

def Kind.startsExpression : Kind → Bool
  | .number _ | .text _ | .identifier _ => true
  | .keyword .vrai | .keyword .faux | .keyword .nul => true
  | .symbol .leftParen | .symbol .leftBracket | .symbol .minus | .symbol .bang => true
  | _ => false

namespace Kind

variable {kind : Kind} {rank : Nat}

theorem ne_of_startsExpression {other : Kind} (h : kind.startsExpression = true)
    (differs : other.startsExpression = false) : kind ≠ other := by
  rintro rfl
  rw [h] at differs
  cases differs

theorem Stops.mono {higher : Nat} (h : kind.Stops rank) (le : rank ≤ higher) : kind.Stops higher :=
  fun tightness same => Nat.lt_of_lt_of_le (h tightness same) le

theorem stops_of_none (h : kind.tightness? = none) : kind.Stops rank := by
  intro tightness same
  rw [h] at same
  cases same

theorem stops_of_lt {tightness : Nat} (same : kind.tightness? = some tightness)
    (lt : tightness < rank) : kind.Stops rank := by
  intro other same'
  rw [same] at same'
  cases same'
  exact lt

theorem Stops.ne {tightness : Nat} (h : kind.Stops rank) {other : Kind}
    (same : other.tightness? = some tightness) (le : rank ≤ tightness) : kind ≠ other := by
  rintro rfl
  exact absurd (h tightness same) (Nat.not_lt.mpr le)

end Kind

def StartsExpression (ts : List Token) : Prop :=
  ∃ token rest, ts = token :: rest ∧ token.kind.startsExpression = true ∧ token.span = .nowhere

theorem StartsExpression.pos {ts : List Token} (h : StartsExpression ts) : 0 < ts.length := by
  obtain ⟨token, rest, rfl, _⟩ := h
  exact Nat.succ_pos _

theorem StartsExpression.append {ts : List Token} (h : StartsExpression ts) (us : List Token) :
    StartsExpression (ts ++ us) := by
  obtain ⟨token, rest, rfl, starts⟩ := h
  exact ⟨token, rest ++ us, rfl, starts⟩

theorem StartsExpression.fence {ts : List Token} (h : StartsExpression ts) (slot rank : Nat) :
    StartsExpression (fence slot rank ts) := by
  unfold Ardoise.fence
  split
  · exact ⟨_, _, rfl, rfl, rfl⟩
  · exact h

theorem Level.tightness?_of_operator? {level : Level} {kind : Kind} {op : Operator}
    (h : level.operator? kind = some op) : kind.tightness? = some level.rank := by
  unfold Level.operator? at h
  split at h <;> first | rfl | cases h

theorem Level.operator?_of_stops {level : Level} {kind : Kind} (h : kind.Stops level.rank) :
    level.operator? kind = none := by
  cases found : level.operator? kind with
  | none => rfl
  | some op => exact absurd (h _ (Level.tightness?_of_operator? found)) (Nat.lt_irrefl _)

namespace Parser

variable {α β : Type} {setting : Setting}

/-! ## Steps -/

theorem bind_of_parsed {p : Parser α} {f : α → Parser β} {cursor next : Cursor} {a : α}
    (h : p setting cursor = .parsed a next) : (p >>= f) setting cursor = f a setting next := by
  change Parser.bind p f setting cursor = _
  unfold Parser.bind
  rw [h]

theorem peek_bind (f : Token → Parser β) (token : Token) (rest : List Token) (n : Nat) :
    (peek >>= f) setting ⟨token :: rest, n⟩ = f token setting ⟨token :: rest, n⟩ := rfl

theorem advance_bind (f : Token → Parser β) (token : Token) (rest : List Token) (n : Nat) :
    (advance >>= f) setting ⟨token :: rest, n⟩ = f token setting ⟨rest, n⟩ := rfl

theorem deepen_bind {f : Unit → Parser β} {tokens : List Token} {n : Nat}
    (room : n < setting.limit) :
    (deepen >>= f) setting ⟨tokens, n⟩ = f () setting ⟨tokens, n + 1⟩ := by
  apply bind_of_parsed
  unfold deepen
  rw [if_neg (by simp only; omega)]

theorem expect_bind {f : Token → Parser β} {token : Token} {rest : List Token} {n : Nat}
    {kind : Kind} (expected : Expected) (same : token.kind = kind) :
    (expect kind expected >>= f) setting ⟨token :: rest, n⟩ = f token setting ⟨rest, n⟩ := by
  apply bind_of_parsed
  unfold expect
  rw [peek_bind, if_pos same]
  rfl

theorem accept_bind {f : Bool → Parser β} {token : Token} {rest : List Token} {n : Nat}
    {kind : Kind} (same : token.kind = kind) :
    (accept kind >>= f) setting ⟨token :: rest, n⟩ = f true setting ⟨rest, n⟩ := by
  apply bind_of_parsed
  unfold accept
  rw [peek_bind, if_pos same]
  rfl

theorem accept_bind_of_ne {f : Bool → Parser β} {token : Token} {rest : List Token} {n : Nat}
    {kind : Kind} (differs : token.kind ≠ kind) :
    (accept kind >>= f) setting ⟨token :: rest, n⟩ = f false setting ⟨token :: rest, n⟩ := by
  apply bind_of_parsed
  unfold accept
  rw [peek_bind, if_neg differs]
  rfl

/-- With `next` behind them, exactly the tokens `ts` are taken, and no level is gone deeper. -/
def Reads (setting : Setting) (n : Nat) (ts : List Token) (next : Token) (p : Parser α) (a : α) :
    Prop :=
  ∀ more, p setting ⟨ts ++ next :: more, n⟩ = .parsed a ⟨next :: more, n⟩

/-- Behind the tokens `ts`, `p` goes on as `q`, at nesting `m`. -/
def Leads (setting : Setting) (n : Nat) (ts : List Token) (next : Token) (p : Parser α) (m : Nat)
    (q : Parser α) : Prop :=
  ∀ more, p setting ⟨ts ++ next :: more, n⟩ = q setting ⟨next :: more, m⟩

theorem Reads.leads {n : Nat} {ts : List Token} {next : Token} {p : Parser α} {a : α}
    (h : Reads setting n ts next p a) (f : α → Parser β) :
    Leads setting n ts next (p >>= f) n (f a) :=
  fun more => bind_of_parsed (h more)

theorem Reads.nested {n : Nat} {ts : List Token} {next : Token} {p : Parser α} {a : α}
    (h : Reads setting (n + 1) ts next p a) (room : n < setting.limit) :
    Reads setting n ts next (nested p) a := by
  intro more
  refine (deepen_bind room).trans ?_
  have taken := h more
  generalize p setting ⟨ts ++ next :: more, n + 1⟩ = reply at taken
  rw [taken]
  rfl

theorem Leads.balanced {n m : Nat} {ts : List Token} {next : Token} {p q : Parser α} {a : α}
    (h : Leads setting n ts next p m q)
    (stops : ∀ more, q setting ⟨next :: more, m⟩ = .parsed a ⟨next :: more, m⟩) :
    Reads setting n ts next (balanced p) a := by
  intro more
  unfold Parser.balanced
  rw [h more, stops more]

/-! ## Lists -/

section Lists

variable {γ : Type} {item : Parser α} {f : γ → List Token} {g : γ → α} {n : Nat}

private theorem reads_separated {next : Token} (ends : next.kind ≠ .symbol .comma) (x : γ)
    (xs : List γ) {allowance : Nat} (enough : xs.length < allowance)
    (each : ∀ y ∈ x :: xs, ∀ follow : Token, follow.kind = .symbol .comma ∨ follow = next →
      Reads setting n (f y) follow item (g y)) :
    Reads setting n (commaSeparated ((x :: xs).map f)) next (separated item allowance)
      ((x :: xs).map g) := by
  induction xs generalizing x allowance with
  | nil =>
      obtain ⟨allowance, rfl⟩ := Nat.exists_eq_succ_of_ne_zero (Nat.ne_zero_of_lt enough)
      intro more
      have first := each x (by simp) next (.inr rfl)
      rw [separated, List.map_singleton, commaSeparated, bind_of_parsed (first more),
        accept_bind_of_ne ends]
      rfl
  | cons y ys ih =>
      obtain ⟨allowance, rfl⟩ := Nat.exists_eq_succ_of_ne_zero (Nat.ne_zero_of_lt enough)
      intro more
      have first := each x (by simp) (.symbol .comma) (.inl rfl)
      have others := @ih y allowance (by simpa using enough)
        fun z member => each z (List.mem_cons_of_mem x member)
      simp only [List.map_cons, commaSeparated, List.append_assoc, List.cons_append] at others ⊢
      rw [separated, bind_of_parsed (first _), accept_bind (Token.kind_symbol _), if_pos rfl,
        bind_of_parsed (others more)]
      rfl

theorem commaSeparated_cons {x : γ} {token : Token} {ts : List Token} (starts : f x = token :: ts)
    (xs : List γ) : ∃ us, commaSeparated ((x :: xs).map f) = token :: us := by
  cases xs with
  | nil => exact ⟨ts, by simp [commaSeparated, starts]⟩
  | cons y ys => exact ⟨_, by simp only [List.map_cons, commaSeparated, starts]; rfl⟩

theorem length_le_commaSeparated {x : γ} {xs : List γ} (member : x ∈ xs) :
    (f x).length ≤ (commaSeparated (xs.map f)).length := by
  induction xs with
  | nil => cases member
  | cons y ys ih =>
      cases ys with
      | nil => simp_all [commaSeparated]
      | cons z zs =>
          simp only [List.map_cons, commaSeparated, List.length_append, List.length_cons] at ih ⊢
          rcases List.mem_cons.mp member with rfl | member
          · omega
          · have := ih member
            omega

theorem length_le_length_commaSeparated (xs : List γ) :
    xs.length ≤ (commaSeparated (xs.map f)).length + 1 := by
  induction xs with
  | nil => exact Nat.zero_le _
  | cons y ys ih =>
      cases ys with
      | nil => exact Nat.le_add_left _ _
      | cons z zs =>
          simp only [List.map_cons, commaSeparated, List.length_append, List.length_cons] at ih ⊢
          omega

theorem reads_separatedUntil {next : Token} {close : Kind} (closes : next.kind = close)
    (ends : close ≠ .symbol .comma) (xs : List γ) {allowance : Nat}
    (enough : xs.length ≤ allowance)
    (starts : ∀ x ∈ xs, ∃ token ts, f x = token :: ts ∧ token.kind ≠ close)
    (each : ∀ y ∈ xs, ∀ follow : Token, follow.kind = .symbol .comma ∨ follow = next →
      Reads setting n (f y) follow item (g y)) :
    Reads setting n (commaSeparated (xs.map f)) next (separatedUntil close item allowance)
      (xs.map g) := by
  intro more
  cases xs with
  | nil =>
      simp only [List.map_nil, commaSeparated, List.nil_append, separatedUntil]
      rw [peek_bind, if_pos closes]
      rfl
  | cons x xs =>
      obtain ⟨token, ts, first, differs⟩ := starts x (by simp)
      obtain ⟨us, whole⟩ := commaSeparated_cons first xs
      have items := reads_separated (closes ▸ ends) x xs enough each more
      rw [whole] at items ⊢
      rw [separatedUntil, List.cons_append, peek_bind, if_neg differs]
      exact items

theorem elements_parsed {item : Parser Expr} {g : γ → Expr} {close : Token}
    (closes : close.kind = .symbol .rightBracket) (more : List Token) (xs : List γ)
    {allowance : Nat} (enough : xs.length < allowance)
    (starts : ∀ x ∈ xs, ∃ token ts, f x = token :: ts ∧ token.kind ≠ .symbol .rightBracket)
    (each : ∀ y ∈ xs, ∀ follow : Token, follow.kind = .symbol .comma ∨ follow = close →
      Reads setting n (f y) follow item (g y)) :
    elements item allowance setting ⟨commaSeparated (xs.map f) ++ close :: more, n⟩ =
      .parsed (xs.map g, close) ⟨more, n⟩ := by
  induction xs generalizing allowance with
  | nil =>
      obtain ⟨allowance, rfl⟩ := Nat.exists_eq_succ_of_ne_zero (Nat.ne_zero_of_lt enough)
      rw [elements, List.map_nil, commaSeparated, List.nil_append, peek_bind, if_pos closes]
      rfl
  | cons x xs ih =>
      obtain ⟨allowance, rfl⟩ := Nat.exists_eq_succ_of_ne_zero (Nat.ne_zero_of_lt enough)
      obtain ⟨token, ts, first, differs⟩ := starts x (by simp)
      obtain ⟨us, whole⟩ := commaSeparated_cons first xs
      have start : elements item (allowance + 1) setting
            ⟨commaSeparated ((x :: xs).map f) ++ close :: more, n⟩ =
          (item >>= fun e => afterElement e (elements item allowance)) setting
            ⟨commaSeparated ((x :: xs).map f) ++ close :: more, n⟩ := by
        rw [elements, whole, List.cons_append, peek_bind, if_neg differs]
      rw [start]
      cases xs with
      | nil =>
          have only := each x (by simp) close (.inr rfl) more
          rw [List.map_singleton, commaSeparated, bind_of_parsed only, afterElement, peek_bind,
            if_pos closes]
          rfl
      | cons y ys =>
          have head := each x (by simp) (.symbol .comma) (.inl rfl)
          have others := @ih allowance (by simpa using enough)
            (fun z member => starts z (List.mem_cons_of_mem x member))
            fun z member => each z (List.mem_cons_of_mem x member)
          simp only [List.map_cons, commaSeparated, List.append_assoc, List.cons_append] at others ⊢
          rw [bind_of_parsed (head _), afterElement, peek_bind, if_neg (by decide),
            expect_bind _ (Token.kind_symbol _), bind_of_parsed others]
          rfl

end Lists

end Parser

end Ardoise
