import Ardoise.Parser

/-!
# How the parser is composed

The rules of the parser are put together from a few primitive steps.  What holds
of the steps and of putting them together therefore holds of every rule.  One
such thing is where a text is refused: at a token that stands in it.
-/

namespace Ardoise

namespace Parser

/--
The parser is composed of primitive steps.  It refuses the next token, or one of
those it has seen before.
-/
inductive Composed : {α : Type} → List Token → Parser α → Prop
  | pure {α : Type} {seen : List Token} (a : α) : Composed seen (pure a : Parser α)
  | exhausted {α : Type} {seen : List Token} : Composed seen (exhausted : Parser α)
  | refuseAt {α : Type} {seen : List Token} {token : Token} (member : token ∈ seen)
      (expected : Expected) : Composed seen (refuseAt token expected : Parser α)
  | bind {α β : Type} {seen : List Token} {p : Parser α} {f : α → Parser β}
      (first : Composed seen p) (second : ∀ a, Composed seen (f a)) : Composed seen (p >>= f)
  | peek {β : Type} {seen : List Token} {f : Token → Parser β}
      (rest : ∀ token, Composed (token :: seen) (f token)) : Composed seen (peek >>= f)
  | advance {β : Type} {seen : List Token} {f : Token → Parser β}
      (rest : ∀ token, Composed (token :: seen) (f token)) : Composed seen (advance >>= f)
  | deepen {seen : List Token} : Composed seen deepen
  | nested {α : Type} {seen : List Token} {p : Parser α} (inner : Composed seen p) :
      Composed seen (nested p)
  | balanced {α : Type} {seen : List Token} {p : Parser α} (inner : Composed seen p) :
      Composed seen (balanced p)

variable {α : Type} {seen : List Token}

theorem composed_refuse (expected : Expected) : Composed seen (refuse expected : Parser α) :=
  .peek fun _ => .refuseAt List.mem_cons_self expected

private theorem composed_advance : Composed seen advance := by
  have same : advance = advance >>= fun token => (pure token : Parser Token) := by
    funext setting ⟨tokens, n⟩
    cases tokens <;> rfl
  rw [same]
  exact .advance fun token => .pure token

theorem composed_accept (kind : Kind) : Composed seen (accept kind) := by
  refine .peek fun token => ?_
  split
  · exact .advance fun _ => .pure true
  · exact .pure false

theorem composed_expect (kind : Kind) (expected : Expected) :
    Composed seen (expect kind expected) := by
  refine .peek fun token => ?_
  split
  · exact composed_advance
  · exact composed_refuse expected

theorem composed_expectName (expected : Expected) : Composed seen (expectName expected) := by
  refine .peek fun token => ?_
  split
  · exact .advance fun _ => .pure _
  · exact composed_refuse expected

private theorem composed_separated {item : Parser α} (h : Composed seen item) (allowance : Nat) :
    Composed seen (separated item allowance) := by
  induction allowance with
  | zero => exact .exhausted
  | succ allowance ih =>
      refine .bind h fun first => .bind (composed_accept _) fun again => ?_
      split
      · exact .bind ih fun _ => .pure _
      · exact .pure _

theorem composed_separatedUntil {item : Parser α} (h : ∀ seen, Composed seen item) (close : Kind)
    (allowance : Nat) : Composed seen (separatedUntil close item allowance) := by
  refine .peek fun token => ?_
  split
  · exact .pure _
  · exact composed_separated (h _) allowance

/-! ## Expressions -/

section Expressions

variable {expression operand : Parser Expr}

private theorem composed_elements (h : ∀ seen, Composed seen expression) (allowance : Nat)
    (seen : List Token) : Composed seen (elements expression allowance) := by
  induction allowance generalizing seen with
  | zero => exact .exhausted
  | succ allowance ih =>
      refine .peek fun token => ?_
      split
      · exact .advance fun _ => .pure _
      · refine .bind (h _) fun first => .peek fun token => ?_
        split
        · exact .advance fun _ => .pure _
        · exact .bind (composed_expect _ _) fun _ => .bind (ih _) fun _ => .pure _

private theorem composed_primary (h : ∀ seen, Composed seen expression) (allowance : Nat) :
    Composed seen (primary expression allowance) := by
  refine .peek fun token => ?_
  split
  · exact .advance fun _ => .pure _
  · exact .advance fun _ => .pure _
  · exact .advance fun _ => .bind (h _) fun _ => .bind (composed_expect _ _) fun _ => .pure _
  · exact .advance fun _ => .bind (composed_elements h allowance _) fun _ => .pure _
  · exact composed_refuse _

private theorem composed_suffixes (h : ∀ seen, Composed seen expression) (allowance turns : Nat)
    (seen : List Token) (left : Expr) :
    Composed seen (suffixes expression allowance turns left) := by
  induction turns generalizing seen left with
  | zero => exact .exhausted
  | succ turns ih =>
      refine .peek fun token => ?_
      split
      · refine .bind .deepen fun _ => .bind (.advance fun _ => ?_) fun _ => ih _ _
        exact .bind (composed_separatedUntil h _ allowance) fun _ =>
          .bind (composed_expect _ _) fun _ => .pure _
      · refine .bind .deepen fun _ => .bind (.advance fun _ => ?_) fun _ => ih _ _
        exact .bind (h _) fun _ => .bind (composed_expect _ _) fun _ => .pure _
      · exact .pure left

private theorem composed_prefixed (h : ∀ seen, Composed seen operand) (allowance : Nat)
    (seen : List Token) : Composed seen (prefixed operand allowance) := by
  induction allowance generalizing seen with
  | zero => exact .exhausted
  | succ allowance ih =>
      refine .peek fun token => ?_
      split
      · exact .advance fun _ => .bind (.nested (ih _)) fun _ => .pure _
      · exact h _

private theorem composed_operations (level : Level) (h : ∀ seen, Composed seen operand)
    (allowance : Nat) (seen : List Token) (left : Expr) :
    Composed seen (operations level operand allowance left) := by
  induction allowance generalizing seen left with
  | zero => exact .exhausted
  | succ allowance ih =>
      refine .peek fun token => ?_
      split
      · exact .bind .deepen fun _ => .advance fun _ => .bind (h _) fun _ => ih _ _
      · exact .pure left

theorem composed_operators (h : ∀ seen, Composed seen operand) (allowance : Nat)
    (levels : List Level) (seen : List Token) :
    Composed seen (operators operand allowance levels) := by
  induction levels generalizing seen with
  | nil => exact h seen
  | cons level tighter ih =>
      exact .balanced (.bind (ih _) fun _ => composed_operations level ih allowance _ _)

private theorem composed_assignment (h : ∀ seen, Composed seen operand) (allowance : Nat)
    (seen : List Token) : Composed seen (assignment operand allowance) := by
  induction allowance generalizing seen with
  | zero => exact .exhausted
  | succ allowance ih =>
      refine .bind (h _) fun left => .peek fun token => ?_
      split
      · refine .advance fun equals => .bind (.nested (ih _)) fun value => ?_
        split
        · exact .pure _
        · exact .refuseAt List.mem_cons_self _
      · exact .pure left

theorem composed_operand (h : ∀ seen, Composed seen expression) (allowance : Nat)
    (seen : List Token) : Composed seen (Parser.operand expression allowance) :=
  composed_prefixed (fun _ => .balanced
    (.bind (composed_primary h allowance) fun _ => composed_suffixes h allowance allowance _ _))
    allowance seen

end Expressions

theorem composed_expression (allowance : Nat) (seen : List Token) :
    Composed seen (expression allowance) := by
  induction allowance generalizing seen with
  | zero => exact .exhausted
  | succ allowance ih =>
      exact .nested (composed_assignment
        (composed_operators (composed_operand ih (allowance + 1)) (allowance + 1) Level.all)
        (allowance + 1) seen)

theorem composed_bound (allowance : Nat) : Composed seen (bound allowance) :=
  composed_operators (composed_operand (composed_expression allowance) (allowance + 1))
    (allowance + 1) Level.arithmetic seen

/-! ## Statements -/

theorem composed_statements {statement : Parser Stmt} (h : ∀ seen, Composed seen statement)
    (closers : List Kind) (allowance : Nat) (seen : List Token) :
    Composed seen (statements statement closers allowance) := by
  induction allowance generalizing seen with
  | zero => exact .exhausted
  | succ allowance ih =>
      refine .peek fun token => ?_
      split
      · exact .pure []
      · exact .bind (h _) fun _ => .bind (ih _) fun _ => .pure _

private theorem composed_block {body : Parser (List Stmt)} (h : ∀ seen, Composed seen body)
    (closers : List Kind) (expected : Expected) : Composed seen (block body closers expected) := by
  refine .peek fun first => .bind (.nested (h _)) fun body => .peek fun token => ?_
  split
  · exact .advance fun _ => .pure _
  · exact composed_refuse expected

private theorem composed_statement (allowance : Nat) (inFunction : Bool) (seen : List Token) :
    Composed seen (statement allowance inFunction) := by
  induction allowance generalizing inFunction seen with
  | zero => exact .exhausted
  | succ allowance ih =>
      have expressions := composed_expression (allowance + 1)
      have bodies : ∀ f closers expected seen, Composed seen
          (block (statements (statement allowance f) closers (allowance + 1)) closers expected) :=
        fun f closers expected seen =>
          composed_block (composed_statements (ih f) closers (allowance + 1)) closers expected
      refine .peek fun token => ?_
      split
      · refine .advance fun _ => .bind (composed_expectName _) fun _ => ?_
        refine .bind (composed_expect _ _) fun _ => .bind ?_ fun _ => ?_
        · exact composed_separatedUntil (fun _ => composed_expectName _) _ _
        · exact .bind (composed_expect _ _) fun _ => .bind (bodies _ _ _ _) fun _ => .pure _
      · unfold giveRule
        split
        · exact .advance fun _ => .bind (expressions _) fun _ => .pure _
        · exact composed_refuse _
      · refine .advance fun _ => .bind (composed_expectName _) fun _ => ?_
        exact .bind (composed_expect _ _) fun _ => .bind (expressions _) fun _ => .pure _
      · refine .advance fun _ => .bind (expressions _) fun _ => ?_
        refine .bind (composed_expect _ _) fun _ => .bind (bodies _ _ _ _) fun x => ?_
        dsimp only
        split
        · exact .bind (bodies _ _ _ _) fun _ => .pure _
        · exact .pure _
      · refine .advance fun _ => .bind (expressions _) fun _ => ?_
        exact .bind (composed_expect _ _) fun _ => .bind (bodies _ _ _ _) fun _ => .pure _
      · refine .advance fun _ => .bind (composed_expectName _) fun _ => ?_
        refine .bind (composed_expect _ _) fun _ => .bind (composed_bound _) fun _ => ?_
        refine .bind (composed_expect _ _) fun _ => .bind (composed_bound _) fun _ => ?_
        exact .bind (composed_accept _) fun _ => .bind (bodies _ _ _ _) fun _ => .pure _
      · exact .advance fun _ => .bind (expressions _) fun _ => .pure _
      · exact .advance fun _ => .bind (bodies _ _ _ _) fun _ => .pure _
      · exact .bind (expressions _) fun _ => .pure _

theorem composed_program (allowance : Nat) (seen : List Token) :
    Composed seen (program allowance) :=
  composed_statements (composed_statement allowance false) [] allowance seen

/-! ## Where a text is refused -/

def Locates (allowed tokens : List Token) : Reply α → Prop
  | .parsed _ next => next.tokens <:+ tokens
  | .refused fault _ => ∃ token ∈ allowed, fault.span = token.span
  | .exhausted => True

theorem Locates.mono {allowed allowed' tokens tokens' : List Token} {reply : Reply α}
    (h : Locates allowed tokens reply) (more : allowed ⊆ allowed')
    (longer : tokens <:+ tokens') : Locates allowed' tokens' reply := by
  cases reply with
  | parsed a next => exact h.trans longer
  | refused fault stopped =>
      obtain ⟨token, member, same⟩ := h
      exact ⟨token, more member, same⟩
  | exhausted => trivial

theorem headD_mem (tokens : List Token) (final : Token) :
    tokens.headD final ∈ tokens ++ [final] := by
  cases tokens <;> simp

theorem locates_deepen (setting : Setting) (cursor : Cursor) :
    Locates (cursor.tokens ++ [setting.final]) cursor.tokens (deepen setting cursor) := by
  unfold deepen
  dsimp only
  split
  · exact ⟨_, headD_mem cursor.tokens setting.final, rfl⟩
  · exact List.suffix_rfl

theorem locates_bind {β : Type} {p : Parser α} {f : α → Parser β} {setting : Setting}
    {cursor : Cursor}
    (first : Locates (seen ++ (cursor.tokens ++ [setting.final])) cursor.tokens (p setting cursor))
    (second : ∀ a next,
      Locates (seen ++ (next.tokens ++ [setting.final])) next.tokens (f a setting next)) :
    Locates (seen ++ (cursor.tokens ++ [setting.final])) cursor.tokens
      ((p >>= f) setting cursor) := by
  change Locates _ _ (Parser.bind p f setting cursor)
  unfold Parser.bind
  generalize p setting cursor = reply at first
  cases reply with
  | parsed a next =>
      have tokens : next.tokens <:+ cursor.tokens := first
      refine (second a next).mono ?_ tokens
      have fewer := tokens.subset
      grind
  | refused fault stopped => exact first
  | exhausted => trivial

private theorem Composed.locates {p : Parser α} (h : Composed seen p) (setting : Setting)
    (cursor : Cursor) :
    Locates (seen ++ (cursor.tokens ++ [setting.final])) cursor.tokens (p setting cursor) := by
  induction h generalizing cursor with
  | pure a => exact List.suffix_rfl
  | exhausted => trivial
  | refuseAt member expected => exact ⟨_, List.mem_append_left _ member, rfl⟩
  | bind first second ih ih' => exact locates_bind (ih cursor) fun a next => ih' a next
  | @peek β seen f rest ih =>
      refine (ih (cursor.tokens.headD setting.final) cursor).mono ?_ List.suffix_rfl
      exact List.cons_subset.mpr
        ⟨List.mem_append_right _ (headD_mem _ _), List.Subset.refl _⟩
  | @advance β seen f rest ih =>
      obtain ⟨tokens, n⟩ := cursor
      cases tokens with
      | nil =>
          refine (ih setting.final ⟨[], n⟩).mono ?_ List.suffix_rfl
          exact List.cons_subset.mpr ⟨by simp, List.Subset.refl _⟩
      | cons token tail =>
          refine (ih token ⟨tail, n⟩).mono ?_ (List.suffix_cons token tail)
          grind
  | deepen =>
      exact (locates_deepen setting cursor).mono (List.subset_append_right _ _) List.suffix_rfl
  | @nested α seen p inner ih =>
      have deeper := (locates_deepen setting cursor).mono (List.subset_append_right seen _)
        List.suffix_rfl
      refine locates_bind deeper fun _ next => ?_
      have located := ih next
      generalize p setting next = reply at located
      cases reply <;> exact located
  | @balanced α seen p inner ih =>
      have located := ih cursor
      unfold Parser.balanced
      generalize p setting cursor = reply at located
      cases reply <;> exact located

end Parser

/-- A text is refused at one of its tokens, or at the one that stands for its end. -/
theorem span_of_parse_error {limit : Nat} {tokens : List Token} {fault : Located GrammarFault}
    (refused : parse limit tokens = .error fault) :
    ∃ token ∈ tokens ++ [Parser.finalToken tokens], fault.span = token.span := by
  obtain ⟨cursor, reply⟩ := (Reply.result_eq_error _).mp refused
  have located := (Parser.composed_program (tokens.length + 1) []).locates
    ⟨limit, Parser.finalToken tokens⟩ ⟨tokens, 0⟩
  change Parser.Locates _ _ (parseReply limit tokens) at located
  rw [reply] at located
  exact located

end Ardoise
