import Ardoise.Proofs.Curtailed
import Ardoise.Proofs.Loops.Conditional
import Ardoise.Proofs.Numbers.Doubles

/-!
# Counting loops

A counting loop evaluates its bounds once, and from then on it counts by itself: the
values that it counts through are settled before the first turn, whatever the turns
do.  Each turn has a scope of its own in which the counter is bound to the next of
the values.  So a loop takes a list of values, one turn for each, until the list is
at its end or a turn does not come to its own.
-/

namespace Ardoise

/-- In a new scope inside the one in use, which binds the counter and nothing else. -/
def Machine.counting (m : Machine) (counter : Name) (value : Float) : Machine :=
  { m.enter m.scope with
    store := (m.enter m.scope).store.bind (m.enter m.scope).scope counter.text (.number value) }

theorem declare_counter (m : Machine) (counter : Name) (value : Float) :
    Run.declare counter (.number value) (m.enter m.scope) =
      .done () (m.counting counter value) := by
  have defined := m.store.define_newChild m.scope counter.text (.number value)
  simp only [Run.declare, Run.declareIn, Machine.enter, defined]
  rfl

theorem withCounter_eq (counter : Name) (body : Run Flow) (value : Float) (m : Machine) :
    withCounter counter body value m = (body (m.counting counter value)).backIn m.scope := by
  rw [withCounter_eq_inChild, Run.inChild_eq, Run.bind_done (declare_counter m counter value)]

namespace Counting

/-! ## Turns -/

inductive Turn (limit fuel : Nat) (counter : Name) (body : List Stmt) (value : Float)
    (m : Machine) : Machine → Prop
  | mk {ran : Machine}
      (goesOn : executeAll (invoke limit fuel) fuel body (m.counting counter value) =
        .done .next ran) :
      Turn limit fuel counter body value m { ran with scope := m.scope }

/-- A turn that ends the loop: the body fails, leaves the call in progress, or has no fuel. -/
inductive Stops (limit fuel : Nat) (counter : Name) (body : List Stmt) (value : Float)
    (m : Machine) : Outcome Flow → Prop
  | failed {fault : Located RuntimeFault} {ran : Machine}
      (failed : executeAll (invoke limit fuel) fuel body (m.counting counter value) =
        .failed fault ran) :
      Stops limit fuel counter body value m (.failed fault { ran with scope := m.scope })
  | gave {result : Value} {ran : Machine}
      (gave : executeAll (invoke limit fuel) fuel body (m.counting counter value) =
        .done (.give result) ran) :
      Stops limit fuel counter body value m (.done (.give result) { ran with scope := m.scope })
  | unfinished
      (exhausted : executeAll (invoke limit fuel) fuel body (m.counting counter value) =
        .exhausted) :
      Stops limit fuel counter body value m .exhausted

/-- The loop makes a turn for each of the values, in their order, or up to one that stops it. -/
inductive Takes (limit fuel : Nat) (counter : Name) (body : List Stmt) :
    List Float → Machine → Outcome Flow → Prop
  | ends (m : Machine) : Takes limit fuel counter body [] m (.done .next m)
  | turn {value : Float} {rest : List Float} {m n : Machine} {o : Outcome Flow}
      (first : Turn limit fuel counter body value m n)
      (others : Takes limit fuel counter body rest n o) :
      Takes limit fuel counter body (value :: rest) m o
  | stops {value : Float} {rest : List Float} {m : Machine} {o : Outcome Flow}
      (stops : Stops limit fuel counter body value m o) :
      Takes limit fuel counter body (value :: rest) m o

inductive Turns (limit fuel : Nat) (counter : Name) (body : List Stmt) :
    List Float → Machine → Machine → Prop
  | none (m : Machine) : Turns limit fuel counter body [] m m
  | more {value : Float} {rest : List Float} {m n p : Machine}
      (first : Turn limit fuel counter body value m n)
      (others : Turns limit fuel counter body rest n p) :
      Turns limit fuel counter body (value :: rest) m p

inductive Counts (step last : Float) : Float → List Float → Prop
  | past {x : Float} (beyond : withinBounds step last x = false) : Counts step last x []
  | next {x : Float} {rest : List Float} (within : withinBounds step last x = true)
      (others : Counts step last (x + step) rest) : Counts step last x (x :: rest)

variable {limit fuel : Nat} {counter : Name} {body : List Stmt} {value step last x y : Float}
  {values : List Float} {m n n' : Machine} {o o' : Outcome Flow}

theorem Turn.unique (h : Turn limit fuel counter body value m n)
    (h' : Turn limit fuel counter body value m n') : n = n' := by
  obtain ⟨goesOn⟩ := h
  obtain ⟨goesOn'⟩ := h'
  cases goesOn.symm.trans goesOn'
  rfl

theorem Stops.not_turn (h : Stops limit fuel counter body value m o) :
    ¬ Turn limit fuel counter body value m n := by
  rintro ⟨goesOn⟩
  cases h with
  | failed failed => cases goesOn.symm.trans failed
  | gave gave => cases goesOn.symm.trans gave
  | unfinished exhausted => cases goesOn.symm.trans exhausted

theorem Stops.unique (h : Stops limit fuel counter body value m o)
    (h' : Stops limit fuel counter body value m o') : o = o' := by
  cases h <;> cases h' <;> grind

theorem Takes.unique (h : Takes limit fuel counter body values m o)
    (h' : Takes limit fuel counter body values m o') : o = o' := by
  induction h with
  | ends m =>
      cases h'
      rfl
  | turn first _ ih =>
      cases h' with
      | turn first' others' => exact ih (first.unique first' ▸ others')
      | stops stops => exact absurd first stops.not_turn
  | stops stops =>
      cases h' with
      | turn first' _ => exact absurd first' stops.not_turn
      | stops stops' => exact stops.unique stops'

/-- A loop with fuel to count through its values makes a turn for each of them. -/
theorem Counts.takes (counts : Counts step last x values) {turns : Nat}
    (enough : values.length < turns) (m : Machine) :
    Takes limit fuel counter body values m (countTurns step last
      (withCounter counter (executeAll (invoke limit fuel) fuel body)) turns x m) := by
  induction counts generalizing turns m with
  | past beyond =>
      obtain ⟨turns, rfl⟩ := Nat.exists_eq_add_one.mpr enough
      rw [countTurns, if_neg (by simp [beyond])]
      exact .ends m
  | @next x rest within _ ih =>
      obtain ⟨turns, rfl⟩ := Nat.exists_eq_add_one.mpr (Nat.zero_lt_of_lt enough)
      have fewer : rest.length < turns := Nat.lt_of_succ_lt_succ enough
      rw [countTurns, if_pos within]
      have ran := withCounter_eq counter (executeAll (invoke limit fuel) fuel body) x m
      cases runs : executeAll (invoke limit fuel) fuel body (m.counting counter x) with
      | failed fault n =>
          rw [runs] at ran
          rw [Run.bind_failed ran]
          exact .stops (.failed runs)
      | exhausted =>
          rw [runs] at ran
          rw [Run.bind_exhausted ran]
          exact .stops (.unfinished runs)
      | done flow n =>
          rw [runs] at ran
          rw [Run.bind_done ran]
          cases flow with
          | next => exact .turn (.mk runs) (ih fewer _)
          | give result => exact .stops (.gave runs)

/-! ## The values -/

open Number (Denotes)

/-- Counting by the number `step` is counting by the integer `e`, up or down. -/
inductive Steps : Float → Int → Prop
  | up : Steps 1 1
  | down : Steps (-1) (-1)

private theorem Steps.denotes {e : Int} (h : Steps step e) : Denotes step e := by
  cases h with
  | up => exact_mod_cast Number.denotes_one
  | down => exact_mod_cast Number.denotes_neg_one

private theorem withinBounds_up (last x : Float) : withinBounds 1 last x = decide (x ≤ last) := by
  have positive : decide ((1 : Float) > 0) = true := by decide +kernel
  have other : decide ((1 : Float) < 0) = false := by decide +kernel
  simp only [withinBounds, positive, other, Bool.true_and, Bool.false_and, Bool.or_false]

theorem withinBounds_down (last x : Float) : withinBounds (-1) last x = decide (last ≤ x) := by
  have negative : decide ((-1 : Float) < 0) = true := by decide +kernel
  have other : decide ((-1 : Float) > 0) = false := by decide +kernel
  simp only [withinBounds, negative, other, Bool.true_and, Bool.false_and, Bool.false_or]

variable {a b e : Int}

theorem Steps.within_iff (h : Steps step e) (hx : Denotes x a) (hy : Denotes y b) :
    withinBounds step y x = true ↔ 0 ≤ e * (b - a) := by
  cases h with
  | up =>
      rw [withinBounds_up, decide_eq_true_iff, hx.le_iff hy, Int.cast_le]
      omega
  | down =>
      rw [withinBounds_down, decide_eq_true_iff, hy.le_iff hx, Int.cast_le]
      omega

def between (a b : Int) : List Int :=
  (List.range ((b - a).natAbs + 1)).map fun i : Nat => a + (if a ≤ b then 1 else -1) * i

/-- By induction on the number `k` of integers that are left. -/
theorem Steps.counts (h : Steps step e) {k : Nat} (hx : Denotes x a) (hy : Denotes y b)
    (distance : b + e = a + e * k) (small : |a| ≤ 2 ^ 53) (small' : |b| < 2 ^ 53) :
    ∃ values, Counts step y x values ∧
      values.Forall₂ (fun v i => Denotes v (i : Int))
        ((List.range k).map fun i : Nat => a + e * i) := by
  induction k generalizing a x with
  | zero =>
      refine ⟨[], .past ?_, .nil⟩
      rw [Bool.eq_false_iff, ne_eq, h.within_iff hx hy]
      cases h <;> omega
  | succ k ih =>
      have within : withinBounds step y x = true := by
        rw [h.within_iff hx hy]
        cases h <;> omega
      have near : |a + e| ≤ 2 ^ 53 := by
        rw [abs_le] at small ⊢
        rw [abs_lt] at small'
        cases h <;> omega
      have next : Denotes (x + step) (a + e : Int) := hx.add h.denotes near
      obtain ⟨rest, counts, each⟩ := ih next (by cases h <;> push_cast at distance <;> omega) near
      refine ⟨x :: rest, .next within counts, ?_⟩
      rw [List.range_succ_eq_map, List.map_cons, List.map_map]
      refine .cons (by simpa using hx) ?_
      convert each using 3
      simp only [Function.comp_apply]
      push_cast
      ring

private theorem countStep_steps (hx : Denotes x a) (hy : Denotes y b) :
    Steps (countStep x y) (if a ≤ b then 1 else -1) := by
  have same : x ≤ y ↔ a ≤ b := by rw [hx.le_iff hy, Int.cast_le]
  unfold countStep
  by_cases up : a ≤ b
  · rw [if_pos (same.mpr up), if_pos up]
    exact .up
  · rw [if_neg (mt same.mp up), if_neg up]
    exact .down

theorem exists_counts (hx : Denotes x a) (hy : Denotes y b) (small : |a| < 2 ^ 53)
    (small' : |b| < 2 ^ 53) :
    ∃ values, Counts (countStep x y) y x values ∧
      values.Forall₂ (fun v i => Denotes v (i : Int)) (between a b) := by
  have distance : b + (if a ≤ b then 1 else -1) =
      a + (if a ≤ b then 1 else -1) * ((b - a).natAbs + 1 : Nat) := by
    split <;> omega
  exact (countStep_steps hx hy).counts hx hy distance small.le small'

end Counting

/-! ## Executing a loop -/

theorem evaluateBound_done {i : Invoke} {bound : Bound} {e : Expr} {x : Float} {m n : Machine}
    (done : evaluate i e m = .done (.number x) n) : evaluateBound i bound e m = .done x n :=
  Run.bind_done done _

theorem execute_countLoop {limit fuel : Nat} {span : Span} {counter : Name} {first last : Expr}
    {body : Block Stmt} {x y : Float} {m n k : Machine}
    (firstDone : evaluate (invoke limit fuel) first (m.note (.executing span)) =
      .done (.number x) n)
    (lastDone : evaluate (invoke limit fuel) last n = .done (.number y) k) :
    execute (invoke limit fuel) fuel (.countLoop span counter first last body) m =
      countTurns (countStep x y) y
        (withCounter counter (executeAll (invoke limit fuel) fuel body.body)) fuel x k := by
  rw [execute, Run.record_bind, Run.bind_done (evaluateBound_done firstDone),
    Run.bind_done (evaluateBound_done lastDone)]

end Ardoise
