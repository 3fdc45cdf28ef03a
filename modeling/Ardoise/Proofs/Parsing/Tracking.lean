import Ardoise.Proofs.Parsing.Derivation
import Ardoise.Proofs.Parsing.Soundness

/-!
# What is parsed has a derivation

A parser tracks a relation when every value it gives is related to the tokens it
took and to the levels of nesting it leaves.  The rules of the parser track those
for derivations, one by one, and all but the ones that continue an expression
leave as many levels as they found.
-/

namespace Ardoise

namespace Parser

variable {α β : Type} {setting : Setting} {n : Nat} {pre : List Token → Prop}

/--
From `n` levels of nesting, every value that the parser gives is related to the
tokens it took and to the levels it left.
-/
def Tracks (setting : Setting) (n : Nat) (pre : List Token → Prop)
    (Q : α → List Token → Nat → Prop) (p : Parser α) : Prop :=
  ∀ tokens a next, pre tokens → p setting ⟨tokens, n⟩ = .parsed a next →
    ∃ used, tokens = used ++ next.tokens ∧ Q a used next.nesting

def Kept (n : Nat) (R : α → List Token → Prop) (a : α) (used : List Token) (left : Nat) : Prop :=
  left = n ∧ R a used

def anywhere (_ : List Token) : Prop := True

def startsWith (token : Token) (tokens : List Token) : Prop := tokens.head? = some token

variable {R : α → List Token → Prop} {Q : β → List Token → Nat → Prop}

theorem Tracks.on {P : α → List Token → Nat → Prop} {p : Parser α}
    (h : Tracks setting n anywhere P p) : Tracks setting n pre P p :=
  fun tokens a next _ => h tokens a next trivial

theorem Tracks.mono {P P' : α → List Token → Nat → Prop} {p : Parser α}
    (h : Tracks setting n pre P p) (weaker : ∀ a used left, P a used left → P' a used left) :
    Tracks setting n pre P' p := by
  intro tokens a next holds parsed
  obtain ⟨used, split, related⟩ := h tokens a next holds parsed
  exact ⟨used, split, weaker a used _ related⟩

theorem Tracks.mono_kept {R' : α → List Token → Prop} {p : Parser α}
    (h : Tracks setting n pre (Kept n R) p) (weaker : ∀ a used, R a used → R' a used) :
    Tracks setting n pre (Kept n R') p :=
  h.mono fun a used _ kept => ⟨kept.1, weaker a used kept.2⟩

theorem tracks_pure {P : α → List Token → Nat → Prop} {a : α} (h : P a [] n) :
    Tracks setting n pre P (pure a : Parser α) := by
  intro tokens b next _ parsed
  cases parsed
  exact ⟨[], rfl, h⟩

theorem tracks_exhausted {P : α → List Token → Nat → Prop} :
    Tracks setting n pre P (exhausted : Parser α) :=
  fun _ _ _ _ parsed => nomatch parsed

theorem tracks_refuseAt {P : α → List Token → Nat → Prop} (token : Token) (expected : Expected) :
    Tracks setting n pre P (refuseAt token expected : Parser α) :=
  fun _ _ _ _ parsed => nomatch parsed

theorem tracks_refuse {P : α → List Token → Nat → Prop} (expected : Expected) :
    Tracks setting n pre P (refuse expected : Parser α) :=
  fun _ _ _ _ parsed => nomatch parsed

theorem Tracks.bind {p : Parser α} {f : α → Parser β} (first : Tracks setting n pre (Kept n R) p)
    (second : ∀ a used, R a used →
      Tracks setting n anywhere (fun b more => Q b (used ++ more)) (f a)) :
    Tracks setting n pre Q (p >>= f) := by
  intro tokens b last holds parsed
  change Parser.bind p f setting ⟨tokens, n⟩ = .parsed b last at parsed
  unfold Parser.bind at parsed
  split at parsed
  · rename_i a next taken
    obtain ⟨used, split, same, related⟩ := first tokens a next holds taken
    obtain ⟨rest, left⟩ := next
    cases same
    obtain ⟨more, split', related'⟩ := second a used related rest b last trivial parsed
    exact ⟨used ++ more, by rw [split, split', List.append_assoc], related'⟩
  · cases parsed
  · cases parsed

theorem tracks_peek {f : Token → Parser β}
    (going : ∀ token, Tracks setting n (startsWith token) Q (f token))
    (ended : Tracks setting n anywhere Q (f setting.final)) :
    Tracks setting n anywhere Q (peek >>= f) := by
  intro tokens b next _ parsed
  change f (tokens.headD setting.final) setting ⟨tokens, n⟩ = .parsed b next at parsed
  cases tokens with
  | nil => exact ended [] b next trivial parsed
  | cons token rest => exact going token (token :: rest) b next rfl parsed

theorem tracks_advance {f : Token → Parser β} {token : Token}
    (rest : Tracks setting n anywhere (fun b used => Q b (token :: used)) (f token)) :
    Tracks setting n (startsWith token) Q (advance >>= f) := by
  intro tokens b next starts parsed
  obtain ⟨tail, rfl⟩ := List.head?_eq_some_iff.mp starts
  obtain ⟨used, split, related⟩ := rest tail b next trivial parsed
  exact ⟨token :: used, by rw [split, List.cons_append], related⟩

private theorem tracks_advance_only {P : Token → List Token → Nat → Prop} {token : Token}
    (h : P token [token] n) : Tracks setting n (startsWith token) P advance := by
  intro tokens b next starts parsed
  obtain ⟨tail, rfl⟩ := List.head?_eq_some_iff.mp starts
  cases parsed
  exact ⟨[token], rfl, h⟩

theorem tracks_deepen {f : Unit → Parser β}
    (rest : n < setting.limit → Tracks setting (n + 1) pre Q (f ())) :
    Tracks setting n pre Q (deepen >>= f) := by
  intro tokens b next holds parsed
  change Parser.bind deepen f setting ⟨tokens, n⟩ = .parsed b next at parsed
  unfold Parser.bind deepen at parsed
  simp only at parsed
  split at parsed
  · rename_i taken
    split at taken
    · cases taken
    · rename_i room
      cases taken
      exact rest (by omega) tokens b next holds parsed
  · cases parsed
  · cases parsed

theorem Tracks.nested {p : Parser α} (h : Tracks setting (n + 1) pre (Kept (n + 1) R) p) :
    Tracks setting n pre (Kept n fun a used => n < setting.limit ∧ R a used) (nested p) := by
  refine tracks_deepen fun room tokens a next holds parsed => ?_
  split at parsed
  · rename_i last taken
    cases parsed
    obtain ⟨used, split, left, related⟩ := h tokens a last holds taken
    exact ⟨used, split, by simp [left], room, related⟩
  · cases parsed
  · cases parsed

theorem Tracks.balanced {p : Parser α}
    (h : Tracks setting n pre (fun a used _ => R a used) p) :
    Tracks setting n pre (Kept n R) (balanced p) := by
  intro tokens a next holds parsed
  unfold Parser.balanced at parsed
  split at parsed
  · rename_i last taken
    cases parsed
    obtain ⟨used, split, related⟩ := h tokens a last holds taken
    exact ⟨used, split, rfl, related⟩
  · cases parsed
  · cases parsed

section

variable (final : setting.final.kind = .endOfInput)
include final

theorem tracks_accept {kind : Kind} (proper : kind ≠ .endOfInput) :
    Tracks setting n anywhere (Kept n (Accepted kind)) (accept kind) := by
  refine tracks_peek (fun token => ?_) ?_
  · split
    · rename_i same
      exact tracks_advance (tracks_pure ⟨rfl, token, same, rfl⟩)
    · exact tracks_pure ⟨rfl, rfl⟩
  · rw [final, if_neg proper.symm]
    exact tracks_pure ⟨rfl, rfl⟩

theorem tracks_expect {kind : Kind} (proper : kind ≠ .endOfInput) (expected : Expected) :
    Tracks setting n anywhere (Kept n fun token used => token.kind = kind ∧ used = [token])
      (expect kind expected) := by
  refine tracks_peek (fun token => ?_) ?_
  · split
    · rename_i same
      exact tracks_advance_only ⟨rfl, same, rfl⟩
    · exact tracks_refuse expected
  · rw [final, if_neg proper.symm]
    exact tracks_refuse expected

theorem tracks_expectName (expected : Expected) :
    Tracks setting n anywhere (Kept n Name.IsAt) (expectName expected) := by
  refine tracks_peek (fun token => ?_) ?_
  · split
    · rename_i same
      exact tracks_advance (tracks_pure ⟨rfl, token, rfl, same, rfl⟩)
    · exact tracks_refuse expected
  · rw [final]
    exact tracks_refuse expected

/-! ## Lists -/

def Listed (R : α → List Token → Prop) (as : List α) (used : List Token) : Prop :=
  ∃ pieces : List (α × List Token), as = pieces.map Prod.fst ∧
    (∀ piece ∈ pieces, R piece.1 piece.2) ∧ Joined (pieces.map Prod.snd) used

omit final in
theorem Listed.none : Listed R [] [] :=
  ⟨[], rfl, by simp, .none⟩

omit final in
theorem Listed.one {a : α} {ts : List Token} (only : R a ts) : Listed R [a] ts :=
  ⟨[(a, ts)], rfl, by simpa using only, .one ts⟩

omit final in
theorem Listed.more {a : α} {as : List α} {comma : Token} {ts us : List Token} (first : R a ts)
    (separator : comma.kind = .symbol .comma) (others : Listed R as us) :
    Listed R (a :: as) (ts ++ comma :: us) := by
  obtain ⟨pieces, rfl, each, joined⟩ := others
  exact ⟨(a, ts) :: pieces, rfl, List.forall_mem_cons.mpr ⟨first, each⟩, .more separator joined⟩

private theorem tracks_separated {item : Parser α} (h : Tracks setting n anywhere (Kept n R) item)
    (allowance : Nat) :
    Tracks setting n anywhere (Kept n (Listed R)) (separated item allowance) := by
  induction allowance with
  | zero => exact tracks_exhausted
  | succ allowance ih =>
      refine h.bind fun first used related => ?_
      refine (tracks_accept final (symbol_ne_end .comma)).bind fun again comma accepted => ?_
      cases again with
      | false =>
          obtain rfl : comma = [] := accepted
          refine tracks_pure ⟨rfl, ?_⟩
          simpa using Listed.one related
      | true =>
          obtain ⟨token, kind, rfl⟩ := accepted
          refine ih.bind fun others more listed => tracks_pure ⟨rfl, ?_⟩
          simpa using Listed.more related kind listed

theorem tracks_separatedUntil {item : Parser α} (h : Tracks setting n anywhere (Kept n R) item)
    (close : Kind) (allowance : Nat) :
    Tracks setting n anywhere (Kept n (Listed R)) (separatedUntil close item allowance) := by
  have items := tracks_separated final h allowance
  refine tracks_peek (fun token => ?_) ?_ <;> split
  · exact tracks_pure ⟨rfl, .none⟩
  · exact items.on
  · exact tracks_pure ⟨rfl, .none⟩
  · exact items

/-! ## Expressions -/

def Follows (setting : Setting) (rule : Rule) (p : Parser Expr) : Prop :=
  ∀ n, Tracks setting n anywhere (Kept n (Derives setting.limit rule n)) p

variable {expression operand : Parser Expr}

def ListedElements (limit n : Nat) : List Expr × Token → List Token → Prop :=
  ClosedBy [.symbol .rightBracket] (Listed (Derives limit .expression n))

private theorem tracks_afterElement {more : Parser (List Expr × Token)} {first : Expr}
    {taken : List Token} (derived : Derives setting.limit .expression n first taken)
    (h : Tracks setting n anywhere (Kept n (ListedElements setting.limit n)) more) :
    Tracks setting n anywhere
      (Kept n fun x used => ListedElements setting.limit n x (taken ++ used))
      (afterElement first more) := by
  have others : Tracks setting n anywhere
      (Kept n fun x used => ListedElements setting.limit n x (taken ++ used)) (do
      let _ ← expect (.symbol .comma) .arrayComma
      let others ← more
      pure (first :: others.1, others.2)) := by
    refine (tracks_expect final (symbol_ne_end _) _).bind fun comma used isComma => ?_
    obtain ⟨separator, rfl⟩ := isComma
    refine h.bind fun others used closed => tracks_pure ⟨rfl, ?_⟩
    obtain ⟨ts, rfl, closes, inner⟩ := closed
    exact ⟨taken ++ comma :: ts, by simp, closes, .more derived separator inner⟩
  refine tracks_peek (fun token => ?_) ?_
  · split
    · rename_i closes
      exact tracks_advance (tracks_pure ⟨rfl, taken, rfl, by simp [closes], .one derived⟩)
    · exact others.on
  · rw [final, if_neg (symbol_ne_end _).symm]
    exact others

private theorem tracks_elements (h : Follows setting .expression expression) (n allowance : Nat) :
    Tracks setting n anywhere (Kept n (ListedElements setting.limit n))
      (elements expression allowance) := by
  induction allowance with
  | zero => exact tracks_exhausted
  | succ allowance ih =>
      have more : Tracks setting n anywhere (Kept n (ListedElements setting.limit n)) (do
          afterElement (← expression) (elements expression allowance)) :=
        (h n).bind fun first taken derived => tracks_afterElement final derived ih
      refine tracks_peek (fun token => ?_) ?_
      · split
        · rename_i closes
          exact tracks_advance (tracks_pure ⟨rfl, [], rfl, by simp [closes], .none⟩)
        · exact more.on
      · rw [final, if_neg (symbol_ne_end _).symm]
        exact more

private theorem follows_primary (h : Follows setting .expression expression) (allowance : Nat) :
    Follows setting .primary (primary expression allowance) := by
  intro n
  refine tracks_peek (fun token => ?_) ?_
  · split
    · rename_i isLiteral
      exact tracks_advance (tracks_pure ⟨rfl, .literal isLiteral⟩)
    · rename_i name _ isName
      exact tracks_advance (tracks_pure ⟨rfl, .name isName⟩)
    · rename_i opens
      refine tracks_advance ((h n).bind fun e ts derived => ?_)
      refine (tracks_expect final (symbol_ne_end _) _).bind fun close _ closing => ?_
      obtain ⟨closes, rfl⟩ := closing
      refine tracks_pure ⟨rfl, ?_⟩
      simpa using Derives.parenthesised opens derived closes
    · rename_i opens
      refine tracks_advance ((tracks_elements final h n allowance).bind fun x _ closed => ?_)
      obtain ⟨ts, rfl, closes, pieces, same, each, joined⟩ := closed
      refine tracks_pure ⟨rfl, ?_⟩
      rw [same]
      simpa using Derives.array opens each joined (by simpa using closes)
    · exact tracks_refuse _
  · rw [final]
    exact tracks_refuse _

def Continues (limit n : Nat) (left e : Expr) (used : List Token) : Prop :=
  ∀ f us, Derives limit (.suffixes e) (n + 1) f us → Derives limit (.suffixes left) n f (used ++ us)

private theorem tracks_arguments (h : Follows setting .expression expression) (allowance : Nat)
    (room : n < setting.limit) (callee : Expr) {token : Token}
    (opens : token.kind = .symbol .leftParen) :
    Tracks setting (n + 1) (startsWith token)
      (Kept (n + 1) (Continues setting.limit n callee))
      (arguments expression allowance callee) := by
  have values := tracks_separatedUntil final (h (n + 1)) (.symbol .rightParen) allowance
  refine tracks_advance (values.bind fun _ ts listed => ?_)
  refine (tracks_expect final (symbol_ne_end _) _).bind fun close _ closing => ?_
  obtain ⟨pieces, rfl, each, joined⟩ := listed
  obtain ⟨closes, rfl⟩ := closing
  refine tracks_pure ⟨rfl, fun f us rest => ?_⟩
  simpa using Derives.call room opens each joined closes rest

theorem tracks_subscript (h : Follows setting .expression expression) (room : n < setting.limit)
    (source : Expr) {token : Token} (opens : token.kind = .symbol .leftBracket) :
    Tracks setting (n + 1) (startsWith token) (Kept (n + 1) (Continues setting.limit n source))
      (subscript expression source) := by
  refine tracks_advance ((h (n + 1)).bind fun position ts derived => ?_)
  refine (tracks_expect final (symbol_ne_end _) _).bind fun close _ closing => ?_
  obtain ⟨closes, rfl⟩ := closing
  refine tracks_pure ⟨rfl, fun f us rest => ?_⟩
  simpa using Derives.index room opens derived closes rest

theorem tracks_suffixes (h : Follows setting .expression expression) (allowance turns n : Nat)
    (left : Expr) :
    Tracks setting n anywhere (fun e used _ => Derives setting.limit (.suffixes left) n e used)
      (suffixes expression allowance turns left) := by
  induction turns generalizing n left with
  | zero => exact tracks_exhausted
  | succ turns ih =>
      have again : ∀ e used, Continues setting.limit n left e used →
          Tracks setting (n + 1) anywhere
            (fun f us _ => Derives setting.limit (.suffixes left) n f (used ++ us))
            (suffixes expression allowance turns e) :=
        fun e used continues => (ih (n + 1) e).mono fun f us _ => continues f us
      refine tracks_peek (fun token => ?_) ?_
      · split
        · rename_i opens
          exact tracks_deepen fun room =>
            (tracks_arguments final h allowance room left opens).bind again
        · rename_i opens
          exact tracks_deepen fun room => (tracks_subscript final h room left opens).bind again
        · exact tracks_pure (.bare left)
      · rw [final]
        exact tracks_pure (.bare left)

private theorem follows_postfixed (h : Follows setting .expression expression) (allowance : Nat) :
    Follows setting .operand (postfixed expression allowance) := by
  intro n
  refine Tracks.balanced ((follows_primary final h allowance n).bind fun first ts derived => ?_)
  exact (tracks_suffixes final h allowance allowance n first).mono fun e us _ =>
    .postfixed derived

private theorem follows_prefixed (h : Follows setting .operand operand) (allowance : Nat) :
    Follows setting .operand (prefixed operand allowance) := by
  induction allowance with
  | zero => exact fun _ => tracks_exhausted
  | succ allowance ih =>
      intro n
      refine tracks_peek (fun token => ?_) ?_
      · split
        · rename_i sign
          refine tracks_advance ((ih (n + 1)).nested.bind fun right ts derived => ?_)
          refine tracks_pure ⟨rfl, ?_⟩
          simpa using Derives.prefixed derived.1 sign derived.2
        · exact (h n).on
      · rw [final]
        exact h n

private theorem tracks_operations {tighter : List Level} (level : Level)
    (h : Follows setting (.operators tighter) operand) (allowance n : Nat) (left : Expr) :
    Tracks setting n anywhere
      (fun e used _ => Derives setting.limit (.operations level tighter left) n e used)
      (operations level operand allowance left) := by
  induction allowance generalizing n left with
  | zero => exact tracks_exhausted
  | succ allowance ih =>
      refine tracks_peek (fun token => ?_) ?_
      · split
        · rename_i op operator
          refine tracks_deepen fun room => tracks_advance ?_
          refine (h (n + 1)).bind fun right ts derived => ?_
          exact (ih (n + 1) (op.join token left right)).mono fun e us _ =>
            .apply room operator derived
        · exact tracks_pure (.done left)
      · rw [final, level.operator?_endOfInput]
        exact tracks_pure (.done left)

theorem follows_operators (h : Follows setting .operand operand) (allowance : Nat)
    (levels : List Level) :
    Follows setting (.operators levels) (operators operand allowance levels) := by
  induction levels with
  | nil => exact fun n => (h n).mono_kept fun _ _ => .plain
  | cons level tighter ih =>
      intro n
      refine Tracks.balanced ((ih n).bind fun first ts derived => ?_)
      exact (tracks_operations final level ih allowance n first).mono fun e us _ =>
        .level derived

private theorem follows_assignment (h : Follows setting (.operators Level.all) operand)
    (allowance : Nat) : Follows setting .assignment (assignment operand allowance) := by
  induction allowance with
  | zero => exact fun _ => tracks_exhausted
  | succ allowance ih =>
      intro n
      refine (h n).bind fun left ts derived => ?_
      have alone : Kept n (Derives setting.limit .assignment n) left (ts ++ []) n := by
        rw [List.append_nil]
        exact ⟨rfl, .unassigned derived⟩
      refine tracks_peek (fun token => ?_) ?_
      · split
        · rename_i sign
          refine tracks_advance ((ih (n + 1)).nested.bind fun value us assigned => ?_)
          split
          · refine tracks_pure ⟨rfl, ?_⟩
            simpa using Derives.assign assigned.1 derived sign assigned.2
          · exact tracks_refuseAt token _
        · exact tracks_pure alone
      · rw [final, if_neg (symbol_ne_end _).symm]
        exact tracks_pure alone

theorem follows_operand (h : Follows setting .expression expression) (allowance : Nat) :
    Follows setting .operand (Parser.operand expression allowance) :=
  follows_prefixed final (follows_postfixed final h allowance) allowance

theorem follows_expression (allowance : Nat) :
    Follows setting .expression (Parser.expression allowance) := by
  induction allowance with
  | zero => exact fun _ => tracks_exhausted
  | succ allowance ih =>
      have operators := follows_operators final (follows_operand final ih (allowance + 1))
        (allowance + 1) Level.all
      intro n
      exact (follows_assignment final operators (allowance + 1) (n + 1)).nested.mono_kept
        fun _ _ derived => .nested derived.1 derived.2

private theorem follows_bound (allowance : Nat) :
    Follows setting (.operators Level.arithmetic) (bound allowance) :=
  follows_operators final (follows_operand final (follows_expression final allowance)
    (allowance + 1)) (allowance + 1) Level.arithmetic

/-! ## Statements -/

def Sequenced (limit : Nat) (f : Bool) (n : Nat) (ss : List Stmt) (used : List Token) : Prop :=
  ∃ pieces : List (Stmt × List Token), ss = pieces.map Prod.fst ∧
    (∀ piece ∈ pieces, StmtDerives limit f n piece.1 piece.2) ∧
    used = (pieces.map Prod.snd).flatten

/-- A body one level deeper, for which there is room, and the token that closes it. -/
def Enclosed (limit : Nat) (f : Bool) (n : Nat) (closers : List Kind) (x : Block Stmt × Token)
    (used : List Token) : Prop :=
  n < limit ∧ ClosedBy closers (fun block => Sequenced limit f (n + 1) block.body) x used

variable {f : Bool} {closers : List Kind}

theorem tracks_statements {statement : Parser Stmt}
    (h : Tracks setting n anywhere (Kept n (StmtDerives setting.limit f n)) statement)
    (closers : List Kind) (allowance : Nat) :
    Tracks setting n anywhere (Kept n (Sequenced setting.limit f n))
      (statements statement closers allowance) := by
  have none : Sequenced setting.limit f n [] [] := ⟨[], rfl, by simp, rfl⟩
  induction allowance with
  | zero => exact tracks_exhausted
  | succ allowance ih =>
      refine tracks_peek (fun token => ?_) ?_
      · split
        · exact tracks_pure ⟨rfl, none⟩
        · refine Tracks.on (h.bind fun first ts derived => ih.bind fun rest us sequenced => ?_)
          obtain ⟨pieces, rfl, each, rfl⟩ := sequenced
          refine tracks_pure ⟨rfl, (first, ts) :: pieces, rfl, ?_, by simp⟩
          exact List.forall_mem_cons.mpr ⟨derived, each⟩
      · rw [if_pos (.inr final)]
        exact tracks_pure ⟨rfl, none⟩

private theorem tracks_block {body : Parser (List Stmt)}
    (h : Tracks setting (n + 1) anywhere
      (Kept (n + 1) (Sequenced setting.limit f (n + 1))) body)
    (proper : .endOfInput ∉ closers) (expected : Expected) :
    Tracks setting n anywhere (Kept n (Enclosed setting.limit f n closers))
      (block body closers expected) := by
  have inner : ∀ first : Token,
      Tracks setting n anywhere (Kept n (Enclosed setting.limit f n closers)) (do
      let body ← nested body
      if (← peek).kind ∈ closers then
        let close ← advance
        pure (⟨first.span.upTo close.span, body⟩, close)
      else
        refuse expected) := by
    intro first
    refine h.nested.bind fun body ts derived => tracks_peek (fun token => ?_) ?_
    · split
      · rename_i closes
        exact tracks_advance (tracks_pure ⟨rfl, derived.1, ts, rfl, closes, derived.2⟩)
      · exact tracks_refuse _
    · rw [final, if_neg proper]
      exact tracks_refuse _
  exact tracks_peek (fun token => (inner token).on) (inner _)

section Rules

variable {body other : Parser (Block Stmt × Token)} {token : Token}

private theorem tracks_functionRule {parameters : Parser (List Name)}
    (names : Tracks setting n anywhere (Kept n (Listed Name.IsAt)) parameters)
    (bodies : Tracks setting n anywhere
      (Kept n (Enclosed setting.limit true n [.keyword .fin])) body)
    (begins : token.kind = .keyword .fonction) :
    Tracks setting n (startsWith token) (Kept n (StmtDerives setting.limit f n))
      (functionRule parameters body) := by
  refine tracks_advance ((tracks_expectName final _).bind fun name own named => ?_)
  refine (tracks_expect final (symbol_ne_end _) _).bind fun opening _ opens => ?_
  refine names.bind fun _ ts listed => ?_
  refine (tracks_expect final (symbol_ne_end _) _).bind fun close _ closes => ?_
  refine bodies.bind fun x _ enclosed => tracks_pure ⟨rfl, ?_⟩
  obtain ⟨opens, rfl⟩ := opens
  obtain ⟨parameters, rfl, each, joined⟩ := listed
  obtain ⟨closes, rfl⟩ := closes
  obtain ⟨room, _, rfl, ends, body, same, inner, rfl⟩ := enclosed
  rw [same]
  simpa using StmtDerives.function room begins named opens each joined closes inner
    (List.mem_singleton.mp ends)

private theorem tracks_declareRule (h : Follows setting .expression expression)
    (begins : token.kind = .keyword .var) :
    Tracks setting n (startsWith token) (Kept n (StmtDerives setting.limit f n))
      (declareRule expression) := by
  refine tracks_advance ((tracks_expectName final _).bind fun name own named => ?_)
  refine (tracks_expect final (symbol_ne_end _) _).bind fun equals _ sign => ?_
  refine (h n).bind fun value ts derived => tracks_pure ⟨rfl, ?_⟩
  obtain ⟨sign, rfl⟩ := sign
  simpa using StmtDerives.declare begins named sign derived

private theorem tracks_branchRule (h : Follows setting .expression expression)
    (bodies : Tracks setting n anywhere
      (Kept n (Enclosed setting.limit f n [.keyword .fin, .keyword .sinon])) body)
    (others : Tracks setting n anywhere
      (Kept n (Enclosed setting.limit f n [.keyword .fin])) other)
    (begins : token.kind = .keyword .si) :
    Tracks setting n (startsWith token) (Kept n (StmtDerives setting.limit f n))
      (branchRule expression body other) := by
  refine tracks_advance ((h n).bind fun condition ts derived => ?_)
  refine (tracks_expect final (keyword_ne_end _) _).bind fun middle _ leads => ?_
  refine bodies.bind fun x _ enclosed => ?_
  obtain ⟨leads, rfl⟩ := leads
  obtain ⟨room, _, rfl, ends, body, same, inner, rfl⟩ := enclosed
  obtain ⟨⟨span, _⟩, delimiter⟩ := x
  obtain rfl : _ = body.map Prod.fst := same
  dsimp only at ends ⊢
  split
  · rename_i turns
    refine others.bind fun y _ enclosed => tracks_pure ⟨rfl, ?_⟩
    obtain ⟨_, _, rfl, ends, other, same, inner', rfl⟩ := enclosed
    obtain ⟨⟨span', _⟩, last⟩ := y
    obtain rfl : _ = other.map Prod.fst := same
    simpa using StmtDerives.branchOtherwise room begins derived leads inner turns inner'
      (List.mem_singleton.mp ends)
  · rename_i straight
    have ends : delimiter.kind = .keyword .fin := by simpa [straight] using ends
    refine tracks_pure ⟨rfl, ?_⟩
    simpa using StmtDerives.branch room begins derived leads inner ends

private theorem tracks_whileRule (h : Follows setting .expression expression)
    (bodies : Tracks setting n anywhere
      (Kept n (Enclosed setting.limit f n [.keyword .fin])) body)
    (begins : token.kind = .keyword .tantque) :
    Tracks setting n (startsWith token) (Kept n (StmtDerives setting.limit f n))
      (whileRule expression body) := by
  refine tracks_advance ((h n).bind fun condition ts derived => ?_)
  refine (tracks_expect final (keyword_ne_end _) _).bind fun middle _ leads => ?_
  refine bodies.bind fun x _ enclosed => tracks_pure ⟨rfl, ?_⟩
  obtain ⟨leads, rfl⟩ := leads
  obtain ⟨room, _, rfl, ends, body, same, inner, rfl⟩ := enclosed
  obtain ⟨⟨span, _⟩, last⟩ := x
  obtain rfl : _ = body.map Prod.fst := same
  simpa using StmtDerives.whileLoop room begins derived leads inner (List.mem_singleton.mp ends)

private theorem tracks_countRule {bound : Parser Expr}
    (h : Follows setting (.operators Level.arithmetic) bound)
    (bodies : Tracks setting n anywhere
      (Kept n (Enclosed setting.limit f n [.keyword .fin])) body)
    (begins : token.kind = .keyword .pour) :
    Tracks setting n (startsWith token) (Kept n (StmtDerives setting.limit f n))
      (countRule bound body) := by
  refine tracks_advance ((tracks_expectName final _).bind fun counter own named => ?_)
  refine (tracks_expect final (keyword_ne_end _) _).bind fun between _ ranges => ?_
  refine (h n).bind fun first ts lower => ?_
  refine (tracks_expect final (keyword_ne_end _) _).bind fun conjunction _ joins => ?_
  refine (h n).bind fun last us upper => ?_
  refine (tracks_accept final (keyword_ne_end _)).bind fun _ leading _ => ?_
  refine bodies.bind fun x _ enclosed => tracks_pure ⟨rfl, ?_⟩
  obtain ⟨ranges, rfl⟩ := ranges
  obtain ⟨joins, rfl⟩ := joins
  obtain ⟨room, _, rfl, ends, body, same, inner, rfl⟩ := enclosed
  obtain ⟨⟨span, _⟩, close⟩ := x
  obtain rfl : _ = body.map Prod.fst := same
  simpa using StmtDerives.countLoop room begins named ranges lower joins upper inner
    (List.mem_singleton.mp ends)

omit final in
private theorem tracks_blockRule
    (bodies : Tracks setting n anywhere
      (Kept n (Enclosed setting.limit f n [.symbol .rightBrace])) body)
    (opens : token.kind = .symbol .leftBrace) :
    Tracks setting n (startsWith token) (Kept n (StmtDerives setting.limit f n))
      (blockRule body) := by
  refine tracks_advance (bodies.bind fun x _ enclosed => tracks_pure ⟨rfl, ?_⟩)
  obtain ⟨room, _, rfl, ends, body, same, inner, rfl⟩ := enclosed
  rw [same]
  simpa using StmtDerives.block room opens inner (List.mem_singleton.mp ends)

end Rules

private theorem tracks_statement (allowance : Nat) (f : Bool) (n : Nat) :
    Tracks setting n anywhere (Kept n (StmtDerives setting.limit f n))
      (statement allowance f) := by
  induction allowance generalizing f n with
  | zero => exact tracks_exhausted
  | succ allowance ih =>
      have expressions := follows_expression final (allowance + 1)
      have bounds := follows_bound final (allowance + 1)
      have names := tracks_separatedUntil final
        (tracks_expectName final (n := n) .parameterName) (.symbol .rightParen) (allowance + 1)
      have bodies : ∀ f closers expected, .endOfInput ∉ closers →
          Tracks setting n anywhere (Kept n (Enclosed setting.limit f n closers))
            (block (statements (statement allowance f) closers (allowance + 1)) closers expected) :=
        fun f closers expected proper =>
          tracks_block final (tracks_statements final (ih f (n + 1)) closers (allowance + 1)) proper
            expected
      have plain : Tracks setting n anywhere (Kept n (StmtDerives setting.limit f n)) (do
          pure (.expression (← Parser.expression (allowance + 1)))) := by
        refine (expressions n).bind fun value ts derived => tracks_pure ⟨rfl, ?_⟩
        rw [List.append_nil]
        exact .expression derived
      refine tracks_peek (fun token => ?_) ?_
      · split
        · rename_i begins
          exact tracks_functionRule final names (bodies true _ _ (by simp)) begins
        · rename_i begins
          unfold giveRule
          split
          · rename_i inFunction
            subst inFunction
            refine tracks_advance ((expressions n).bind fun value ts derived => ?_)
            refine tracks_pure ⟨rfl, ?_⟩
            simpa using StmtDerives.give begins derived
          · exact tracks_refuse _
        · rename_i begins
          exact tracks_declareRule final expressions begins
        · rename_i begins
          exact tracks_branchRule final expressions (bodies f _ _ (by simp))
            (bodies f _ _ (by simp)) begins
        · rename_i begins
          exact tracks_whileRule final expressions (bodies f _ _ (by simp)) begins
        · rename_i begins
          exact tracks_countRule final bounds (bodies f _ _ (by simp)) begins
        · rename_i begins
          refine tracks_advance ((expressions n).bind fun value ts derived => ?_)
          refine tracks_pure ⟨rfl, ?_⟩
          simpa using StmtDerives.print begins derived
        · rename_i opens
          exact tracks_blockRule (bodies f _ _ (by simp)) opens
        · exact plain.on
      · rw [final]
        exact plain

end

end Parser

/--
A program that was parsed is made of statements with derivations of their own, from
tokens of which none is the end of the text.
-/
theorem sequenced_of_parse {limit : Nat} {tokens : List Token} {program : Program}
    (parsed : parse limit tokens = .ok program) :
    ∃ used rest, tokens = used ++ rest ∧ (∀ token ∈ used, token.kind ≠ .endOfInput) ∧
      Parser.Sequenced limit false 0 program used := by
  obtain ⟨cursor, reply⟩ := (Reply.result_eq_ok _).mp parsed
  have final := Parser.finalToken_kind tokens
  have statements := @Parser.tracks_statement ⟨limit, Parser.finalToken tokens⟩ final
    (tokens.length + 1) false 0
  obtain ⟨used, split, _, sequenced⟩ := Parser.tracks_statements final statements []
    (tokens.length + 1) tokens program cursor trivial reply
  have ends := Parser.ends_program (Nat.lt_succ_self tokens.length)
    ⟨limit, Parser.finalToken tokens⟩ ⟨tokens, 0⟩ final (Nat.le_refl _)
  change (parseReply limit tokens).Proper 0 _ at ends
  rw [reply] at ends
  obtain ⟨taken, split', _, proper⟩ := ends
  obtain rfl : used = taken := List.append_cancel_right (split.symm.trans split')
  exact ⟨used, cursor.tokens, split, proper, sequenced⟩

end Ardoise
