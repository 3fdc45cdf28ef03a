import Ardoise.Proofs.Sessions.Returns

/-!
# Conditional loops

A conditional loop makes turns: its condition comes out true, and its body runs to
the end in a scope of its own.  Turns as such may follow each other without end.  An
execution of the loop makes those that there are, but no more than `maxTurns`, and
then ends in one of a few ways: all of them leave what the turns have done, and
only the last, for a condition that is true once too often, is the loop's own fault.
-/

namespace Ardoise

/-! ## Runs that fail -/

def Outcome.backIn {α : Type} (scope : Scope) : Outcome α → Outcome α
  | .done a n => .done a { n with scope := scope }
  | .failed fault n => .failed fault { n with scope := scope }
  | .exhausted => .exhausted

namespace Run

variable {α β : Type} {m n : Machine} {fault : Located RuntimeFault}

theorem bind_exhausted {r : Run α} (first : r m = .exhausted) (f : α → Run β) :
    (r >>= f) m = .exhausted := by
  change Run.bind r f m = _
  unfold Run.bind
  rw [first]

private theorem inside_eq (scope : Scope) (r : Run α) (m : Machine) :
    inside scope r m = (r { m with scope := scope }).backIn m.scope := by
  unfold inside
  cases r { m with scope := scope } <;> rfl

theorem inChild_eq (r : Run α) (m : Machine) :
    inChild r m = (r (m.enter m.scope)).backIn m.scope :=
  inside_eq _ r { m with store := (m.store.newChild m.scope).2 }

end Run

section

variable {i : Invoke} {condition : Expr} {m n : Machine}

theorem evaluateCondition_done {b : Bool} (done : evaluate i condition m = .done (.boolean b) n) :
    evaluateCondition i condition m = .done b n :=
  Run.bind_done done _

private theorem evaluateCondition_failed {fault : Located RuntimeFault}
    (failed : evaluate i condition m = .failed fault n) :
    evaluateCondition i condition m = .failed fault n :=
  Run.bind_failed failed _

private theorem evaluateCondition_exhausted (exhausted : evaluate i condition m = .exhausted) :
    evaluateCondition i condition m = .exhausted :=
  Run.bind_exhausted exhausted _

private theorem evaluateCondition_notBoolean {v : Value} (other : ∀ b, v ≠ .boolean b)
    (done : evaluate i condition m = .done v n) :
    evaluateCondition i condition m =
      .failed ⟨condition.span, .conditionNotBoolean v.kind⟩ n := by
  refine (Run.bind_done done _).trans ?_
  cases v with
  | boolean b => exact absurd rfl (other b)
  | _ => rfl

end

/-! ## Turns and endings -/

namespace Loop

/--
One turn of a loop: the condition comes out true, then the body runs to its end in a
new scope inside the one of the loop, and the machine comes back to that one.
-/
inductive Turn (limit fuel : Nat) (condition : Expr) (body : List Stmt) (m : Machine) :
    Machine → Prop
  | mk {tested ran : Machine}
      (holds : evaluate (invoke limit fuel) condition m = .done (.boolean true) tested)
      (goesOn : executeAll (invoke limit fuel) fuel body (tested.enter m.scope) =
        .done .next ran) :
      Turn limit fuel condition body m { ran with scope := m.scope }

inductive Turns (limit fuel : Nat) (condition : Expr) (body : List Stmt) :
    Nat → Machine → Machine → Prop
  | none (m : Machine) : Turns limit fuel condition body 0 m m
  | more {k : Nat} {m n p : Machine} (first : Turn limit fuel condition body m n)
      (others : Turns limit fuel condition body k n p) :
      Turns limit fuel condition body (k + 1) m p

inductive Ending where
  | finished
  | conditionFailed
  | conditionNotBoolean
  | bodyFailed
  | bodyGave
  | stopped
  /-- There is no fuel to evaluate the condition. -/
  | conditionUnfinished
  /-- There is no fuel to run the body. -/
  | bodyUnfinished

/--
What a loop comes to that has made `turns` turns, of at most `most`, and has arrived at
the machine `m`.
-/
inductive Ends (limit fuel : Nat) (condition : Expr) (body : List Stmt) (most turns : Nat)
    (m : Machine) : Ending → Outcome Flow → Prop
  | finished {tested : Machine}
      (fails : evaluate (invoke limit fuel) condition m = .done (.boolean false) tested) :
      Ends limit fuel condition body most turns m .finished (.done .next tested)
  | conditionFailed {fault : Located RuntimeFault} {tested : Machine}
      (failed : evaluate (invoke limit fuel) condition m = .failed fault tested) :
      Ends limit fuel condition body most turns m .conditionFailed (.failed fault tested)
  | conditionNotBoolean {v : Value} {tested : Machine} (other : ∀ b, v ≠ .boolean b)
      (done : evaluate (invoke limit fuel) condition m = .done v tested) :
      Ends limit fuel condition body most turns m .conditionNotBoolean
        (.failed ⟨condition.span, .conditionNotBoolean v.kind⟩ tested)
  | bodyFailed {tested ran : Machine} {fault : Located RuntimeFault} (allowed : turns < most)
      (holds : evaluate (invoke limit fuel) condition m = .done (.boolean true) tested)
      (failed : executeAll (invoke limit fuel) fuel body (tested.enter m.scope) =
        .failed fault ran) :
      Ends limit fuel condition body most turns m .bodyFailed
        (.failed fault { ran with scope := m.scope })
  | bodyGave {tested ran : Machine} {value : Value} (allowed : turns < most)
      (holds : evaluate (invoke limit fuel) condition m = .done (.boolean true) tested)
      (gave : executeAll (invoke limit fuel) fuel body (tested.enter m.scope) =
        .done (.give value) ran) :
      Ends limit fuel condition body most turns m .bodyGave
        (.done (.give value) { ran with scope := m.scope })
  | stopped {tested : Machine} (all : turns = most)
      (holds : evaluate (invoke limit fuel) condition m = .done (.boolean true) tested) :
      Ends limit fuel condition body most turns m .stopped
        (.failed ⟨condition.span, .infiniteLoop⟩ (tested.note (.loopStopped condition.span)))
  | conditionUnfinished (exhausted : evaluate (invoke limit fuel) condition m = .exhausted) :
      Ends limit fuel condition body most turns m .conditionUnfinished .exhausted
  | bodyUnfinished {tested : Machine} (allowed : turns < most)
      (holds : evaluate (invoke limit fuel) condition m = .done (.boolean true) tested)
      (exhausted : executeAll (invoke limit fuel) fuel body (tested.enter m.scope) =
        .exhausted) :
      Ends limit fuel condition body most turns m .bodyUnfinished .exhausted

variable {limit fuel : Nat} {condition : Expr} {body : List Stmt} {most turns k k' : Nat}
  {m n n' : Machine} {e e' : Ending} {o o' : Outcome Flow}

theorem Turn.unique (h : Turn limit fuel condition body m n)
    (h' : Turn limit fuel condition body m n') : n = n' := by
  obtain ⟨holds, goesOn⟩ := h
  obtain ⟨holds', goesOn'⟩ := h'
  cases holds.symm.trans holds'
  cases goesOn.symm.trans goesOn'
  rfl

/-- A loop that could make another turn ends only because it may not. -/
theorem Ends.eq_of_turn (h : Ends limit fuel condition body most turns m e o)
    (turn : Turn limit fuel condition body m n) : turns = most := by
  obtain ⟨holds, goesOn⟩ := turn
  cases h with
  | finished fails => cases holds.symm.trans fails
  | conditionFailed failed => cases holds.symm.trans failed
  | conditionNotBoolean other done =>
      cases holds.symm.trans done
      exact absurd rfl (other true)
  | bodyFailed _ holds' failed =>
      cases holds.symm.trans holds'
      cases goesOn.symm.trans failed
  | bodyGave _ holds' gave =>
      cases holds.symm.trans holds'
      cases goesOn.symm.trans gave
  | stopped all => exact all
  | conditionUnfinished exhausted => cases holds.symm.trans exhausted
  | bodyUnfinished _ holds' exhausted =>
      cases holds.symm.trans holds'
      cases goesOn.symm.trans exhausted

theorem Ends.unique (h : Ends limit fuel condition body most turns m e o)
    (h' : Ends limit fuel condition body most turns m e' o') : e = e' := by
  cases h <;> cases h' <;> grind

theorem Ends.recount {most' turns' : Nat} (h : Ends limit fuel condition body most turns m e o)
    (allowed : turns < most → turns' < most') (all : turns = most → turns' = most') :
    Ends limit fuel condition body most' turns' m e o := by
  cases h with
  | finished fails => exact .finished fails
  | conditionFailed failed => exact .conditionFailed failed
  | conditionNotBoolean other done => exact .conditionNotBoolean other done
  | bodyFailed less holds failed => exact .bodyFailed (allowed less) holds failed
  | bodyGave less holds gave => exact .bodyGave (allowed less) holds gave
  | stopped equal holds => exact .stopped (all equal) holds
  | conditionUnfinished exhausted => exact .conditionUnfinished exhausted
  | bodyUnfinished less holds exhausted => exact .bodyUnfinished (allowed less) holds exhausted

/-! ## The turns of an execution -/

/-- Either there is a turn to be made, or it is settled how the loop ends. -/
theorem turn_or_ends (limit fuel : Nat) (condition : Expr) (body : List Stmt) (most : Nat)
    (m : Machine) : (0 < most ∧ ∃ n, Turn limit fuel condition body m n) ∨
      ∃ e o, Ends limit fuel condition body most 0 m e o := by
  cases tests : evaluate (invoke limit fuel) condition m with
  | failed fault tested => exact .inr ⟨_, _, .conditionFailed tests⟩
  | exhausted => exact .inr ⟨_, _, .conditionUnfinished tests⟩
  | done v tested =>
      by_cases boolean : ∃ b, v = .boolean b
      · obtain ⟨b, rfl⟩ := boolean
        cases b with
        | false => exact .inr ⟨_, _, .finished tests⟩
        | true =>
            -- without a turn left, what the body would do does not matter
            rcases Nat.eq_zero_or_pos most with rfl | allowed
            · exact .inr ⟨_, _, .stopped rfl tests⟩
            cases runs : executeAll (invoke limit fuel) fuel body (tested.enter m.scope) with
            | failed fault ran => exact .inr ⟨_, _, .bodyFailed allowed tests runs⟩
            | exhausted => exact .inr ⟨_, _, .bodyUnfinished allowed tests runs⟩
            | done flow ran =>
                cases flow with
                | next => exact .inl ⟨allowed, _, .mk tests runs⟩
                | give value => exact .inr ⟨_, _, .bodyGave allowed tests runs⟩
      · exact .inr ⟨_, _, .conditionNotBoolean (fun b h => boolean ⟨b, h⟩) tests⟩

def run (limit fuel : Nat) (condition : Expr) (body : List Stmt) (most : Nat) : Run Flow :=
  whileTurns condition.span (evaluateCondition (invoke limit fuel) condition)
    (Run.inChild (executeAll (invoke limit fuel) fuel body)) most

theorem scope_of_evaluate {v : Value}
    (done : evaluate (invoke limit fuel) condition m = .done v n) : n.scope = m.scope :=
  ((effects_place.within_evaluate (effects_place.within_invoke limit fuel) condition m).of_done
    done).1

theorem inChild_body {o : Outcome Flow}
    (holds : evaluate (invoke limit fuel) condition m = .done (.boolean true) n)
    (ran : executeAll (invoke limit fuel) fuel body (n.enter m.scope) = o) :
    Run.inChild (executeAll (invoke limit fuel) fuel body) n = o.backIn m.scope := by
  rw [Run.inChild_eq, scope_of_evaluate holds, ran]

private theorem Turn.run_succ (turn : Turn limit fuel condition body m n) (most : Nat) :
    run limit fuel condition body (most + 1) m = run limit fuel condition body most n := by
  obtain ⟨holds, goesOn⟩ := turn
  simp only [run, whileTurns, Run.bind_done (evaluateCondition_done holds), if_true]
  rw [Run.bind_done (inChild_body holds goesOn)]

private theorem Turns.run_add (turns : Turns limit fuel condition body k m n) (most : Nat) :
    run limit fuel condition body (most + k) m = run limit fuel condition body most n := by
  induction turns with
  | none m => rfl
  | more first _ ih => exact (first.run_succ _).trans ih

theorem run_of_false (fails : evaluateCondition (invoke limit fuel) condition m = .done false n) :
    run limit fuel condition body most m = .done .next n := by
  cases most with
  | zero | succ => exact Run.bind_done fails _

theorem run_of_failed {fault : Located RuntimeFault}
    (failed : evaluateCondition (invoke limit fuel) condition m = .failed fault n) :
    run limit fuel condition body most m = .failed fault n := by
  cases most with
  | zero | succ => exact Run.bind_failed failed _

private theorem run_of_exhausted
    (exhausted : evaluateCondition (invoke limit fuel) condition m = .exhausted) :
    run limit fuel condition body most m = .exhausted := by
  cases most with
  | zero | succ => exact Run.bind_exhausted exhausted _

theorem Ends.run_eq (h : Ends limit fuel condition body most 0 m e o) :
    run limit fuel condition body most m = o := by
  cases h with
  | finished fails => exact run_of_false (evaluateCondition_done fails)
  | conditionFailed failed => exact run_of_failed (evaluateCondition_failed failed)
  | conditionNotBoolean other done =>
      exact run_of_failed (evaluateCondition_notBoolean other done)
  | conditionUnfinished exhausted => exact run_of_exhausted (evaluateCondition_exhausted exhausted)
  | stopped all holds =>
      subst all
      exact Run.bind_done (evaluateCondition_done holds) _
  | bodyFailed allowed holds failed =>
      obtain ⟨fewer, rfl⟩ := Nat.exists_eq_add_one.mpr allowed
      rw [run, whileTurns, Run.bind_done (evaluateCondition_done holds), if_pos rfl]
      exact Run.bind_failed (inChild_body holds failed) _
  | bodyGave allowed holds gave =>
      obtain ⟨fewer, rfl⟩ := Nat.exists_eq_add_one.mpr allowed
      rw [run, whileTurns, Run.bind_done (evaluateCondition_done holds), if_pos rfl]
      exact Run.bind_done (inChild_body holds gave) _
  | bodyUnfinished allowed holds exhausted =>
      obtain ⟨fewer, rfl⟩ := Nat.exists_eq_add_one.mpr allowed
      rw [run, whileTurns, Run.bind_done (evaluateCondition_done holds), if_pos rfl]
      exact Run.bind_exhausted (inChild_body holds exhausted) _

/-- A course that a loop may take: so many turns, the machine they lead to, and how it ends. -/
structure Course where
  turns : Nat
  reached : Machine
  ending : Ending

/-- The loop takes the course from the machine `m`, in at most `most` turns, and comes to `o`. -/
structure Takes (limit fuel : Nat) (condition : Expr) (body : List Stmt) (most : Nat)
    (m : Machine) (o : Outcome Flow) (course : Course) : Prop where
  allowed : course.turns ≤ most
  turns : Turns limit fuel condition body course.turns m course.reached
  ends : Ends limit fuel condition body most course.turns course.reached course.ending o

theorem Takes.run_eq {course : Course} (h : Takes limit fuel condition body most m o course) :
    run limit fuel condition body most m = o := by
  obtain ⟨left, rfl⟩ := Nat.exists_eq_add_of_le' h.allowed
  have last : Ends limit fuel condition body left 0 course.reached course.ending o :=
    h.ends.recount (by omega) (by omega)
  rw [h.turns.run_add, last.run_eq]

private theorem exists_takes (limit fuel : Nat) (condition : Expr) (body : List Stmt) (most : Nat)
    (m : Machine) :
    ∃ o course, Takes limit fuel condition body most m o course := by
  induction most generalizing m with
  | zero =>
      rcases turn_or_ends limit fuel condition body 0 m with ⟨less, _⟩ | ⟨e, o, ends⟩
      · cases less
      · exact ⟨o, ⟨0, m, e⟩, Nat.le_refl 0, .none m, ends⟩
  | succ most ih =>
      rcases turn_or_ends limit fuel condition body (most + 1) m with ⟨_, n, turn⟩ | ⟨e, o, ends⟩
      · obtain ⟨o, ⟨k, reached, e⟩, allowed, turns, ends⟩ := ih n
        exact ⟨o, ⟨k + 1, reached, e⟩, Nat.succ_le_succ allowed, .more turn turns,
          ends.recount Nat.succ_lt_succ (congrArg _)⟩
      · exact ⟨o, ⟨0, m, e⟩, Nat.zero_le _, .none m, ends⟩

theorem Takes.unique {course course' : Course}
    (h : Takes limit fuel condition body most m o course)
    (h' : Takes limit fuel condition body most m o' course') : course = course' := by
  obtain ⟨k, reached, e⟩ := course
  obtain ⟨k', reached', e'⟩ := course'
  obtain ⟨allowed, turns, ends⟩ := h
  obtain ⟨allowed', turns', ends'⟩ := h'
  dsimp only at allowed turns ends allowed' turns' ends'
  -- turn by turn; a course that ends first would have had the other's turn to make
  induction turns generalizing most k' with
  | none m =>
      cases turns' with
      | none => rw [ends.unique ends']
      | more first _ =>
          have all := ends.eq_of_turn first
          omega
  | more first _ ih =>
      cases turns' with
      | none =>
          have all := ends'.eq_of_turn first
          omega
      | more first' others' =>
          cases first.unique first'
          obtain ⟨most, rfl⟩ : ∃ fewer, most = fewer + 1 := Nat.exists_eq_add_one.mpr (by omega)
          have last : Ends limit fuel condition body most _ _ e o :=
            ends.recount Nat.lt_of_succ_lt_succ Nat.succ.inj
          have last' : Ends limit fuel condition body most _ _ e' o' :=
            ends'.recount Nat.lt_of_succ_lt_succ Nat.succ.inj
          cases ih _ (Nat.le_of_succ_le_succ allowed) last (Nat.le_of_succ_le_succ allowed') others'
            last'
          rfl

end Loop

/--
Executing a conditional loop comes to an outcome exactly if there is one course of turns,
no more than `maxTurns`, that ends in it.  The turns are those of this execution alone, on
whatever machine it begins; loops and calls within them are part of what they do.
-/
theorem execute_whileLoop_eq_iff (limit fuel : Nat) (span : Span) (condition : Expr)
    (body : Block Stmt) (m : Machine) (o : Outcome Flow) :
    execute (invoke limit fuel) fuel (.whileLoop span condition body) m = o ↔
      ∃! course, Loop.Takes limit fuel condition body.body maxTurns (m.note (.executing span)) o
        course := by
  have starts : execute (invoke limit fuel) fuel (.whileLoop span condition body) m =
      Loop.run limit fuel condition body.body maxTurns (m.note (.executing span)) := by
    rw [execute, Run.record_bind, Loop.run]
  rw [starts]
  constructor
  · rintro rfl
    obtain ⟨o, course, takes⟩ := Loop.exists_takes limit fuel condition body.body maxTurns
      (m.note (.executing span))
    rw [takes.run_eq]
    exact ⟨course, takes, fun _ other => other.unique takes⟩
  · rintro ⟨course, takes, _⟩
    exact takes.run_eq

private theorem Loop.Turns.size_of_idle {limit fuel k : Nat} {condition : Expr} {m n : Machine}
    (turns : Turns limit fuel condition [] k m n)
    (idle : ∀ m, evaluate (invoke limit fuel) condition m = .done (.boolean true) m) :
    n.store.frames.size = m.store.frames.size + k := by
  induction turns with
  | none m => rfl
  | more first _ ih =>
      obtain ⟨holds, goesOn⟩ := first
      cases (idle _).symm.trans holds
      cases goesOn
      rw [ih]
      simp only [Machine.enter, Store.newChild, Store.push, Array.size_push]
      omega

/-- A loop that nothing else ends has opened a scope for each of the turns that it may make. -/
theorem whileLoop_stopped_after_all_turns :
    let span : Span := ⟨0, 0, 1⟩
    let loop : Stmt := .whileLoop span (.literal span (.boolean true)) ⟨span, []⟩
    let m := (World.fresh {}).2.machine (World.fresh {}).1 #[]
    ∃ n, execute (invoke 128 0) 0 loop m = .failed ⟨span, .infiniteLoop⟩ n ∧
      n.store.frames.size = m.store.frames.size + maxTurns := by
  intro span loop m
  obtain ⟨o, executed⟩ : ∃ o, execute (invoke 128 0) 0 loop m = o := ⟨_, rfl⟩
  obtain ⟨⟨k, reached, e⟩, ⟨_, turns, ends⟩, _⟩ :=
    (execute_whileLoop_eq_iff _ _ _ _ _ _ _).mp executed
  rw [executed]
  cases ends with
  | stopped all holds =>
      cases holds
      refine ⟨_, rfl, ?_⟩
      rw [← all]
      exact turns.size_of_idle fun _ => rfl
  | finished fails => cases fails
  | conditionFailed failed => cases failed
  | conditionNotBoolean other done => cases done; exact absurd rfl (other true)
  | bodyFailed _ _ failed => cases failed
  | bodyGave _ _ gave => cases gave
  | conditionUnfinished exhausted => cases exhausted
  | bodyUnfinished _ _ exhausted => cases exhausted

end Ardoise
