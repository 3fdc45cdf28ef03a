import Ardoise.Proofs.Loops.Counting
import Ardoise.Proofs.Sessions.Grounds

/-!
# The turns of a counting loop keep apart

Each turn has a scope of its own, made when the turn begins.  A function that is
declared in its body has that scope around it, and takes it along when it is kept.
Nothing else ever comes back to the scope: whatever happens afterwards, a call of the
function finds the counter where it was bound in the turn, unless the call binds the
name itself, and a later turn changes nothing there unless it calls such a function.
-/

namespace Ardoise

def Machine.Made (m n : Machine) (scope : Scope) : Prop :=
  m.store.frames.size ≤ scope.index ∧ scope.index < n.store.frames.size

/-! ## Later on -/

/--
All that can come after a machine, until the session is reset, if nothing is begun in
the scopes that are `left`: the moments of any task, and what statements come to.
-/
inductive Aftermath (left : Scope → Prop) (start : Machine) : Machine → Prop
  | start : Aftermath left start start
  | moved {n k : Machine} (before : Aftermath left start n) (same : k.store = n.store) :
      Aftermath left start k
  | moment {n k : Machine} {limit fuel fuel' : Nat} {task task' : Task}
      (before : Aftermath left start n) (outside : ¬ left n.scope)
      (path : Relation.ReflTransGen (Moment.LeadsTo limit) ⟨fuel, task, n⟩ ⟨fuel', task', k⟩) :
      Aftermath left start k
  | done {n k : Machine} {limit fuel : Nat} {ss : List Stmt} {flow : Flow}
      (before : Aftermath left start n) (outside : ¬ left n.scope)
      (done : executeAll (invoke limit fuel) fuel ss n = .done flow k) : Aftermath left start k
  | failed {n k : Machine} {limit fuel : Nat} {ss : List Stmt} {fault : Located RuntimeFault}
      (before : Aftermath left start n) (outside : ¬ left n.scope)
      (failed : executeAll (invoke limit fuel) fuel ss n = .failed fault k) :
      Aftermath left start k

namespace Aftermath

variable {left : Scope → Prop} {start n : Machine}

def Clear (left : Scope → Prop) (start n : Machine) : Prop :=
  start.store.Changes (fun a _ => ¬ left a) n.store ∧ ¬ left n.scope

theorem keeps_clear (there : ∀ a, left a → a.index < start.store.frames.size) (limit : Nat) :
    Effects.Keeps limit Machine.Declares (Clear left start) where
  effect {m n} declares h := by
    have larger := h.1.size_le
    refine ⟨h.1.trans (declares.2.mono fun a _ allowed was => ?_), declares.1 ▸ h.2⟩
    rcases allowed with new | rfl
    · exact absurd (there a was) (by omega)
    · exact h.2 was
  enter {m} outer h := by
    have larger := h.1.size_le
    refine ⟨.openScope h.1 outer, fun was => ?_⟩
    have early : m.store.frames.size < start.store.frames.size := there _ was
    omega
  deepen _ h := h

theorem changes (there : ∀ a, left a → a.index < start.store.frames.size)
    (after : Aftermath left start n) : start.store.Changes (fun a _ => ¬ left a) n.store := by
  have executed : ∀ (limit fuel : Nat) (ss : List Stmt) {m : Machine},
      start.store.Changes (fun a _ => ¬ left a) m.store → ¬ left m.scope →
      (executeAll (invoke limit fuel) fuel ss m).Leaves (Clear left start) :=
    fun limit fuel ss m before outside =>
      (effects_names.within_executeAll (effects_names.within_invoke limit fuel) fuel ss m).mono
        fun _ declares => (keeps_clear there limit).effect declares ⟨before, outside⟩
  induction after with
  | start => exact .refl _
  | moved _ same ih => rwa [same]
  | moment _ outside path ih =>
      exact (Moment.preserves_of_reflTransGen effects_names (keeps_clear there _) path
        ⟨ih, outside⟩).1
  | @done m k limit fuel ss _ _ outside done ih =>
      have reached := executed limit fuel ss ih outside
      rw [done] at reached
      exact reached.1
  | @failed m k limit fuel ss _ _ outside failed ih =>
      have reached := executed limit fuel ss ih outside
      rw [failed] at reached
      exact reached.1

end Aftermath

/-- A name stays bound where it is found, if it is not declared on the way there. -/
theorem Store.Changes.holder? {may : Scope → String → Prop} {s t : Store} (h : Changes may s t)
    (nested : s.Nested) {scope holder : Scope} {name : String}
    (present : scope.index < s.frames.size) (held : s.holder? scope name = some holder)
    (fixed : ∀ a, holder.index ≤ a.index → a.index < s.frames.size → ¬ may a name) :
    t.holder? scope name = some holder := by
  obtain ⟨bound, inner, outer, walk, free⟩ := List.find?_eq_some_iff_append.mp held
  have known : ∀ a ∈ s.chain scope, a.index < s.frames.size := fun a member =>
    Nat.lt_of_le_of_lt (nested.index_le_of_mem_chain member) present
  have later : ∀ a ∈ inner, holder.index < a.index := by
    have sorted := nested.pairwise_chain scope
    rw [walk] at sorted
    exact fun a member => (List.pairwise_append.mp sorted).2.2 a member holder (by simp)
  have holds : holder.index < s.frames.size := known holder (by simp [walk])
  refine List.find?_eq_some_iff_append.mpr
    ⟨h.binds holds bound, inner, outer, (chain_of_outline h.outline present).trans walk, ?_⟩
  intro a member
  have there : a.index < s.frames.size := known a (by simp [walk, member])
  have unbound := free a member
  simp only [Bool.not_eq_true'] at unbound ⊢
  rw [Bool.eq_false_iff]
  intro now
  rcases h.binds_or there now with earlier | allowed
  · rw [unbound] at earlier
    cases earlier
  · exact fixed a (Nat.le_of_lt (later a member)) there allowed

/-! ## Scopes that are not touched -/

mutual

theorem Value.holds_of_forall {F : Function → Prop} (all : ∀ f, F f) : (v : Value) → v.Holds F
  | .null => .plain .null
  | .boolean value => .plain (.boolean value)
  | .number value => .plain (.number value)
  | .text content => .plain (.text content)
  | .array elements => .array (Value.all_hold_of_forall all elements)
  | .function f => .function (all f)
  | .void => .plain .void

theorem Value.all_hold_of_forall {F : Function → Prop} (all : ∀ f, F f) :
    (vs : List Value) → ∀ v ∈ vs, v.Holds F
  | [] => by simp
  | v :: vs => by
      simp only [List.mem_cons, forall_eq_or_imp]
      exact ⟨Value.holds_of_forall all v, Value.all_hold_of_forall all vs⟩

end

structure Machine.Avoids (scope : Scope) (frame : Frame) (m : Machine) : Prop where
  present : m.scope.index < m.store.frames.size
  known : scope.index < m.store.frames.size
  frame : m.store.frame scope = frame
  apart : scope ∉ m.store.chain m.scope

theorem Machine.Avoids.enter {scope outer : Scope} {frame : Frame} {m : Machine}
    (h : m.Avoids scope frame) (apart : scope ∉ m.store.chain outer) :
    (m.enter outer).Avoids scope frame where
  present := m.scope_enter_lt outer
  known := by
    have known := h.known
    simp only [Machine.enter, size_newChild]
    omega
  frame := (Store.frame_push_of_lt _ _ h.known).trans h.frame
  apart := by
    have known := h.known
    simp only [Machine.enter]
    rw [Store.chain_newChild]
    rintro (_ | ⟨_, member⟩)
    · exact Nat.lt_irrefl _ known
    · exact apart member

theorem Machine.Avoids.of_outline {scope : Scope} {frame : Frame} {m : Machine}
    (h : m.Avoids scope frame) {store : Store} (outline : store.outline = m.store.outline)
    (same : store.frame scope = frame) : { m with store := store }.Avoids scope frame where
  present := by
    have present := h.present
    rwa [← Store.length_outline, ← outline, Store.length_outline] at present
  known := by
    have known := h.known
    rwa [← Store.length_outline, ← outline, Store.length_outline] at known
  frame := same
  apart := by
    have apart := h.apart
    rwa [← Store.walk_outline, ← outline, Store.walk_outline] at apart

def avoidance (scope : Scope) (frame : Frame) : Custody (List (List Scope)) where
  later := (· <+: ·)
  owns _ _ := True
  fits outline m := m.store.outline = outline ∧ m.Avoids scope frame

/-- In a run that calls no function from within the scope, its table is out of reach. -/
theorem avoidance_kept {limit : Nat} {scope : Scope} (frame : Frame) {start : Moment}
    (uncalled : ∀ fuel f arguments span n, Relation.ReflTransGen (Moment.LeadsTo limit) start
      ⟨fuel, .call (.closure f) arguments span, n⟩ → scope ∉ n.store.chain f.scope) :
    (avoidance scope frame).Kept limit (Relation.ReflTransGen (Moment.LeadsTo limit) start) where
  refl _ := List.prefix_rfl
  trans := List.IsPrefix.trans
  visited step path := path.tail step
  mono _ _ := trivial
  quiet _ _ _ fits := ⟨fits.1, fits.2.present, fits.2.known, fits.2.frame, fits.2.apart⟩
  get _ _ := Value.holds_of_forall (fun _ => trivial) _
  assign fits _ assigned := by
    obtain ⟨rfl, h⟩ := fits
    have outline := Store.outline_assign assigned
    exact ⟨outline, h.of_outline outline ((Store.frame_assign assigned h.apart).trans h.frame)⟩
  declare fits _ defined := by
    obtain ⟨rfl, h⟩ := fits
    have outline := Store.outline_define defined
    have other : scope ≠ _ := fun same => h.apart (same ▸ List.mem_cons_self)
    exact ⟨outline, h.of_outline outline ((Store.frame_define defined other).trans h.frame)⟩
  make name parameters body fits :=
    ⟨_, List.prefix_rfl, trivial, fits.1, fits.2.present, fits.2.known, fits.2.frame, fits.2.apart⟩
  enter {w m} fits := by
    obtain ⟨rfl, h⟩ := fits
    exact ⟨_, List.prefix_append _ _, Store.outline_push _ _, h.enter h.apart⟩
  call {w m fuel f arguments span} here fits _ := by
    obtain ⟨rfl, h⟩ := fits
    exact ⟨_, List.prefix_append _ _, Store.outline_push _ _, h.enter (uncalled _ _ _ _ _ here)⟩
  leave {v w m n} fits later reached := by
    obtain ⟨rfl, h⟩ := fits
    obtain ⟨rfl, h'⟩ := reached
    have larger : m.store.frames.size ≤ n.store.frames.size := by
      simpa only [Store.length_outline] using later.length_le
    refine ⟨rfl, Nat.lt_of_lt_of_le h.present larger, h'.known, h'.frame, ?_⟩
    exact (Store.chain_of_outline later h.present).symm ▸ h.apart

def Moment.CallsInto (limit : Nat) (start : Moment) (scope : Scope) : Prop :=
  ∃ fuel f arguments span n, Relation.ReflTransGen (LeadsTo limit) start
    ⟨fuel, .call (.closure f) arguments span, n⟩ ∧ scope ∈ n.store.chain f.scope

theorem Machine.Avoids.leaves_executeAll {limit fuel : Nat} {body : List Stmt} {scope : Scope}
    {frame : Frame} {m : Machine} (h : m.Avoids scope frame) :
    (executeAll (invoke limit fuel) fuel body m).Leaves fun n =>
      n.store.frame scope = frame ∨ Moment.CallsInto limit ⟨fuel, .statements body, m⟩ scope := by
  by_cases called : Moment.CallsInto limit ⟨fuel, .statements body, m⟩ scope
  · cases executeAll (invoke limit fuel) fuel body m with
    | done | failed => exact .inr called
    | exhausted => trivial
  · have uncalled : ∀ fuel' f arguments span n, Relation.ReflTransGen (Moment.LeadsTo limit)
        ⟨fuel, .statements body, m⟩ ⟨fuel', .call (.closure f) arguments span, n⟩ →
          scope ∉ n.store.chain f.scope :=
      fun _ _ _ _ _ path member => called ⟨_, _, _, _, _, path, member⟩
    have kept := avoidance_kept frame uncalled
    exact (kept.executeAll (kept.invoke fuel) body .refl ⟨rfl, h⟩).leaves
      fun _ _ _ fits => .inl fits.2.frame

/-! ## Turns -/

/-- The second moment is a part of the first that is not the body of a function. -/
def Moment.PartOf (limit : Nat) (x y : Moment) : Prop :=
  LeadsTo limit x y ∧ x.task.isCall = false

/--
The scope in use is there.  Around it are the outer scopes, and inside these some that
were made when there were at least so many.
-/
structure Machine.Inside (made : Nat) (outer : List Scope) (m : Machine) : Prop where
  present : m.scope.index < m.store.frames.size
  grown : made ≤ m.store.frames.size
  walk : ∃ inner, m.store.chain m.scope = inner ++ outer ∧ ∀ a ∈ inner, made ≤ a.index

namespace Machine.Inside

variable {made : Nat} {outer : List Scope} {m n : Machine}

theorem of_declares (h : m.Inside made outer) (declares : m.Declares n) :
    n.Inside made outer where
  present := declares.1 ▸ Nat.lt_of_lt_of_le h.present declares.2.size_le
  grown := Nat.le_trans h.grown declares.2.size_le
  walk := by
    rw [declares.1, Store.chain_of_outline declares.2.outline h.present]
    exact h.walk

theorem enter (m : Machine) (scope : Scope) :
    (m.enter scope).Inside m.store.frames.size (m.store.chain scope) where
  present := m.scope_enter_lt scope
  grown := by simp [Machine.enter, Store.newChild, Store.push]
  walk := ⟨[⟨m.store.frames.size⟩], Store.chain_newChild _ _, by simp⟩

theorem further (h : m.Inside made outer) : (m.enter m.scope).Inside made outer := by
  obtain ⟨present, grown, walk⟩ := enter m m.scope
  obtain ⟨inner, around, each⟩ := h.walk
  obtain ⟨first, chain, new⟩ := walk
  refine ⟨present, Nat.le_trans h.grown grown, first ++ inner, ?_, fun a member => ?_⟩
  · rw [chain, around, List.append_assoc]
  · rcases List.mem_append.mp member with newer | older
    · exact Nat.le_trans h.grown (new a newer)
    · exact each a older

theorem of_partOf {limit : Nat} {x y : Moment}
    (path : Relation.ReflTransGen (Moment.PartOf limit) x y) (h : x.machine.Inside made outer) :
    y.machine.Inside made outer := by
  induction path with
  | refl => exact h
  | tail _ step ih =>
      exact step.1.preserves_inside effects_names (fun declares h => h.of_declares declares)
        further step.2 ih

end Machine.Inside

/-! ## Parts that come before the end -/

def Machine.Extends (outline : List (List Scope)) (m : Machine) : Prop :=
  outline <+: m.store.outline

def Machine.Grows (m n : Machine) : Prop :=
  n.Extends m.store.outline

theorem effects_grows : Effects Machine.Grows Machine.Grows where
  refl _ := List.prefix_rfl
  trans := List.IsPrefix.trans
  stmtTrans := List.IsPrefix.trans
  lift := id
  record _ _ := List.prefix_rfl
  print _ _ := List.prefix_rfl
  assign assigned := ⟨[], by rw [List.append_nil, Store.outline_assign assigned]⟩
  declare defined := ⟨[], by rw [List.append_nil, Store.outline_define defined]⟩
  capture _ := List.prefix_rfl
  leave {m n} outer grows := by
    have pushed : m.store.outline <+: (m.enter outer).store.outline :=
      (Store.outline_push m.store (m.store.chain outer)).symm ▸ List.prefix_append _ _
    exact pushed.trans grows
  call := id

theorem Outcome.Leaves.backIn {α : Type} {outline : List (List Scope)} {o : Outcome α}
    (h : o.Leaves (Machine.Extends outline)) (scope : Scope) :
    (o.backIn scope).Leaves (Machine.Extends outline) := by
  cases o <;> exact h

namespace Moment

variable {limit : Nat} {outline : List (List Scope)} {x y : Moment}

def EndsPast (limit : Nat) (outline : List (List Scope)) (x : Moment) : Prop :=
  ∃ o, x.flow? limit = some o ∧ o.Leaves (Machine.Extends outline)

private theorem LeadsTo.endsPast (step : LeadsTo limit x y) (inside : x.task.isCall = false)
    (h : y.EndsPast limit outline) : x.EndsPast limit outline := by
  obtain ⟨o, flow, leaves⟩ := h
  have calls := effects_grows.within_invoke limit
  have bodies (fuel : Nat) (body : List Stmt) :=
    effects_grows.within_executeAll (calls fuel) fuel body
  -- what is still to do after the part ends adds scopes at most
  have onwards {r : Run Flow} {n : Machine} (within : Run.Within Machine.Grows r)
      (reached : n.Extends outline) : (r n).Leaves (Machine.Extends outline) :=
    (within n).mono fun _ further => reached.trans further
  cases step with
  | assigned | operand | binaryLeft | binaryRight | logicalLeft | logicalRight | callee
  | arguments | call | elements | source | position | firstExpression | otherExpressions
  | leading | condition | lastBound => cases flow
  | block =>
      cases flow
      refine ⟨_, rfl, ?_⟩
      rw [execute, Run.record_bind, Run.inChild_eq]
      exact leaves.backIn _
  | @branchThen _ _ _ _ _ _ otherwise holds =>
      cases flow
      refine ⟨_, rfl, ?_⟩
      cases otherwise <;>
      · simp only [execute, Run.record_bind, Run.bind_done holds, if_true]
        rw [Run.inChild_eq]
        exact leaves.backIn _
  | branchElse fails =>
      cases flow
      refine ⟨_, rfl, ?_⟩
      simp only [execute, Run.record_bind, Run.bind_done fails, Bool.false_eq_true, if_false]
      rw [Run.inChild_eq]
      exact leaves.backIn _
  | whileLoop =>
      obtain rfl := Option.some.inj flow
      refine ⟨_, rfl, ?_⟩
      rw [execute, Run.record_bind]
      exact leaves
  | whileBody holds =>
      cases flow
      refine ⟨_, rfl, ?_⟩
      simp only [Ardoise.whileTurns, Run.bind_done holds, if_true]
      refine Run.leaves_bind (Run.inChild_eq _ _ ▸ leaves.backIn _) (fun flow n reached => ?_)
        fun _ reached => reached
      cases flow with
      | next =>
          exact onwards (effects_grows.within_whileTurns _
            (effects_grows.within_evaluateCondition (calls _) _)
            (effects_grows.within_inChild (bodies _ _)) _) reached
      | give value => exact reached
  | whileAgain holds ran =>
      cases flow
      refine ⟨_, rfl, ?_⟩
      simp only [Ardoise.whileTurns, Run.bind_done holds, if_true, Run.bind_done ran]
      exact leaves
  | countLoop from' to' =>
      cases flow
      refine ⟨_, rfl, ?_⟩
      simp only [execute, Run.record_bind, Run.bind_done from', Run.bind_done to']
      exact leaves
  | @countBody fuel m n counter step last body turns current inBounds declared =>
      cases flow
      refine ⟨_, rfl, ?_⟩
      simp only [Ardoise.countTurns, inBounds, if_true]
      have ran : (withCounter counter (executeAll (invoke limit fuel) fuel body) current m).Leaves
          (Machine.Extends outline) := by
        rw [withCounter_eq_inChild, Run.inChild_eq, Run.bind_done declared]
        exact leaves.backIn _
      refine Run.leaves_bind ran (fun flow n reached => ?_) fun _ reached => reached
      cases flow with
      | next =>
          exact onwards (effects_grows.within_countTurns _ _
            (effects_grows.within_withCounter _ (bodies _ _)) _ _) reached
      | give value => exact reached
  | countAgain inBounds ran =>
      cases flow
      refine ⟨_, rfl, ?_⟩
      simp only [Ardoise.countTurns, inBounds, if_true, Run.bind_done ran]
      exact leaves
  | firstStatement =>
      cases flow
      refine ⟨_, rfl, ?_⟩
      simp only [executeAll]
      refine Run.leaves_bind leaves (fun flow n reached => ?_) fun _ reached => reached
      cases flow with
      | next => exact onwards (bodies _ _) reached
      | give value => exact reached
  | otherStatements first =>
      cases flow
      refine ⟨_, rfl, ?_⟩
      simp only [executeAll, Run.bind_done first]
      exact leaves
  | callBody => cases inside

/-- The scopes that are there at a statement are still there when what it is part of ends. -/
theorem endsPast_of_partOf {fuel : Nat} {s : Stmt} {n : Machine}
    (path : Relation.ReflTransGen (PartOf limit) x ⟨fuel, .statement s, n⟩) :
    x.EndsPast limit n.store.outline := by
  induction path using Relation.ReflTransGen.head_induction_on with
  | refl =>
      have calls := effects_grows.within_invoke limit fuel
      exact ⟨_, rfl, effects_grows.within_execute calls fuel s n⟩
  | head step _ ih => exact step.1.endsPast step.2 ih

end Moment

/-! ## Functions that are kept -/

/--
From the scopes of a function, the name is found in the holder for good: whatever came
after the machine `q`, and at any moment of a call of the function itself, unless the
name is bound in a scope that was made for this call.
-/
structure Closure.Recalls (left : Scope → Prop) (q : Machine) (f : Closure) (name : String)
    (holder : Scope) : Prop where
  found {k : Machine} : Aftermath left q k → k.store.holder? f.scope name = some holder
  called {k : Machine} {limit fuel : Nat} {arguments : List Value} {span : Span} {y z : Moment} :
    Aftermath left q k →
    Moment.LeadsTo limit ⟨fuel, .call (.closure f) arguments span, k⟩ y →
    Relation.ReflTransGen (Moment.PartOf limit) y z →
    ∃ inner, z.machine.store.chain z.machine.scope = inner ++ q.store.chain f.scope ∧
      (∀ a ∈ inner, k.store.frames.size ≤ a.index) ∧
      ((∀ a ∈ inner, (z.machine.store.frame a).binds name = false) →
        z.machine.store.holder? z.machine.scope name = some holder)

theorem Store.holder?_of_append {s : Store} {scope : Scope} {inner outer : List Scope}
    {name : String} (walk : s.chain scope = inner ++ outer)
    (free : ∀ a ∈ inner, (s.frame a).binds name = false) :
    s.holder? scope name = outer.find? fun a => (s.frame a).binds name := by
  have none : inner.find? (fun a => (s.frame a).binds name) = Option.none := by
    rw [List.find?_eq_none]
    intro a member
    rw [free a member]
    exact Bool.false_ne_true
  rw [Store.holder?, walk, List.find?_append, none, Option.none_or]

section

variable {left : Scope → Prop} {q k : Machine} {f : Closure} {limit fuel : Nat}
  {arguments : List Value} {span : Span} {y z : Moment}

theorem Machine.Inside.of_call
    (step : Moment.LeadsTo limit ⟨fuel, .call (.closure f) arguments span, k⟩ y)
    (path : Relation.ReflTransGen (Moment.PartOf limit) y z) :
    z.machine.Inside k.store.frames.size (k.store.chain f.scope) := by
  cases step with
  | callBody admitted declared =>
      obtain ⟨-, rfl⟩ := guardDepth_done admitted
      have entered := enter (k.note (.calling f.name arguments.length)).deepen f.scope
      have declares := (effects_names.leaves_declareAllIn_current
        (m := (k.note (.calling f.name arguments.length)).deepen.enter f.scope) _ rfl).of_done
        declared
      exact of_partOf path (entered.of_declares declares)

/-- A call does not depend on the scope in use, so it can come after anything. -/
theorem Aftermath.of_call (there : ∀ a, left a → a.index < q.store.frames.size)
    (after : Aftermath left q k)
    (step : Moment.LeadsTo limit ⟨fuel, .call (.closure f) arguments span, k⟩ y)
    (path : Relation.ReflTransGen (Moment.PartOf limit) y z) : Aftermath left q z.machine := by
  let elsewhere : Machine := { k with scope := ⟨q.store.frames.size⟩ }
  have moved : Aftermath left q elsewhere := .moved after rfl
  have outside : ¬ left elsewhere.scope := fun was => Nat.lt_irrefl _ (there _ was)
  have calls : Moment.LeadsTo limit ⟨fuel, .call (.closure f) arguments span, elsewhere⟩ y := by
    cases step with
    | callBody admitted declared =>
        obtain ⟨shallow, rfl⟩ := guardDepth_done admitted
        exact .callBody (guardDepth_of_lt shallow) declared
  have onwards : Relation.ReflTransGen (Moment.LeadsTo limit) y z := 
    Relation.ReflTransGen.mono (fun _ _ => And.left) _ _ path
  exact .moment moved outside (.head calls onwards)

private theorem Closure.recalls_of_found (there : ∀ a, left a → a.index < q.store.frames.size)
    (present : f.scope.index < q.store.frames.size) {name : String} {holder : Scope}
    (found : ∀ k, Aftermath left q k → k.store.holder? f.scope name = some holder) :
    f.Recalls left q name holder where
  found {k} := found k
  called {k limit fuel arguments span y z} after step path := by
    have chain {n : Machine} (later : Aftermath left q n) :
        n.store.chain f.scope = q.store.chain f.scope :=
      Store.chain_of_outline (later.changes there).outline present
    obtain ⟨inner, walk, each⟩ := (Machine.Inside.of_call step path).walk
    rw [chain after] at walk
    refine ⟨inner, walk, each, fun free => ?_⟩
    have later := after.of_call there step path
    rw [Store.holder?_of_append walk free, ← chain later]
    exact found _ later

end

namespace Counting

variable {limit fuel : Nat} {counter : Name} {body : List Stmt} {value : Float}
  {values : List Float} {m n p q r : Machine}

theorem counting_frame (p : Machine) (counter : Name) (value : Float) :
    (p.counting counter value).store.frame (p.counting counter value).scope =
      ⟨p.store.chain p.scope, false, [(counter.text, .number value)]⟩ := by
  refine (Store.frame_modify_self _ _ (p.scope_enter_lt p.scope)).trans ?_
  rw [p.frame_enter]
  rfl

theorem grounded_counting (h : p.Grounded) (counter : Name) (value : Float) :
    (p.counting counter value).Grounded := by
  have entered := h.enter h.scope
  refine ⟨entered.store.of_evolves (.modify (.refl _) _ fun _ => rfl)
    (entered.store.each.bind (.plain (.number value))), ?_⟩
  simpa [Machine.counting, Store.size_bind] using entered.scope

private theorem Turn.withCounter_done (turn : Turn limit fuel counter body value p q) :
    withCounter counter (executeAll (invoke limit fuel) fuel body) value p = .done .next q := by
  obtain ⟨goesOn⟩ := turn
  rw [withCounter_eq, goesOn]
  rfl

theorem Turn.keepsNames (turn : Turn limit fuel counter body value p q) : p.KeepsNames q :=
  (effects_names.within_withCounter counter (effects_names.within_executeAll
    (effects_names.within_invoke limit fuel) fuel body) value p).of_done turn.withCounter_done

theorem Turn.grounded (turn : Turn limit fuel counter body value p q) (h : p.Grounded) :
    q.Grounded := by
  have larger := turn.keepsNames.changes.size_le
  obtain ⟨goesOn⟩ := turn
  have ran := ((grounded_counting h counter value).executeAll limit fuel body).of_done goesOn
  exact ⟨ran.store, Nat.lt_of_lt_of_le h.scope larger⟩

theorem Turns.keepsNames (turns : Turns limit fuel counter body values p q) : p.KeepsNames q := by
  induction turns with
  | none m => exact effects_names.refl m
  | more first _ ih => exact first.keepsNames.trans ih

theorem Turns.grounded (turns : Turns limit fuel counter body values p q) (h : p.Grounded) :
    q.Grounded := by
  induction turns with
  | none m => exact h
  | more first _ ih => exact ih (first.grounded h)

/-- The turn for the value that begins on a machine has its scopes to itself. -/
structure Apart (limit fuel : Nat) (counter : Name) (body : List Stmt) (loop : Scope)
    (value : Float) (p : Machine) : Prop where
  inLoop : p.scope = loop
  fresh : (p.counting counter value).scope.index = p.store.frames.size
  frame : (p.counting counter value).store.frame (p.counting counter value).scope =
    ⟨p.store.chain loop, false, [(counter.text, .number value)]⟩
  /-- While the body itself runs, the scope in use, which its functions take, is in the turn. -/
  within {fuel' : Nat} {task : Task} {n : Machine} :
    Relation.ReflTransGen (Moment.PartOf limit)
      ⟨fuel, .statements body, p.counting counter value⟩ ⟨fuel', task, n⟩ →
    (p.counting counter value).scope ∈ n.store.chain n.scope
  /-- Wherever the counter is looked for from within the turn, it is found in the turn. -/
  refers : (executeAll (invoke limit fuel) fuel body (p.counting counter value)).Leaves fun q =>
    ∀ scope, (p.counting counter value).scope ∈ q.store.chain scope →
      ∃ holder, p.Made q holder ∧ (scope = (p.counting counter value).scope → holder = scope) ∧
        ∀ k, Aftermath (p.Made q) q k → k.store.holder? scope counter.text = some holder
  /--
  A function that a statement of the body declares has the scope of the turn around it.
  The function recalls the counter from a scope of the turn for good, which is that one
  unless the name is bound further in.
  -/
  kept {fuel' : Nat} {span : Span} {name : Name} {parameters : List Name} {inside : List Stmt}
    {n n' : Machine} {f : Closure} :
    Relation.ReflTransGen (Moment.PartOf limit)
      ⟨fuel, .statements body, p.counting counter value⟩
      ⟨fuel', .statement (.function span name parameters inside), n⟩ →
    execute (invoke limit fuel') fuel' (.function span name parameters inside) n =
      .done .next n' →
    (n'.store.frame n'.scope).get? name.text = some (.function (.closure f)) →
    (executeAll (invoke limit fuel) fuel body (p.counting counter value)).Leaves fun q =>
      ∃ inner holder,
        q.store.chain f.scope = inner ++ (p.counting counter value).scope :: p.store.chain loop ∧
        (∀ a ∈ inner, p.Made q a) ∧ p.Made q holder ∧
        ((∀ a ∈ inner, (q.store.frame a).binds counter.text = false) →
          holder = (p.counting counter value).scope) ∧
        f.Recalls (p.Made q) q counter.text holder
  /-- Other turns change nothing in the scopes of the turn, unless by way of its functions. -/
  untouched {q r : Machine} {scope : Scope} {others : List Float} :
    Turn limit fuel counter body value p q → p.Made q scope →
    Turns limit fuel counter body others q r → ∀ other,
      (executeAll (invoke limit fuel) fuel body (r.counting counter other)).Leaves fun n =>
        n.store.frame scope = r.store.frame scope ∨
          Moment.CallsInto limit ⟨fuel, .statements body, r.counting counter other⟩ scope

theorem exists_holder? {s : Store} (nested : s.Nested) {scope binding : Scope} {name : String}
    (member : binding ∈ s.chain scope) (bound : (s.frame binding).binds name = true) :
    ∃ holder, s.holder? scope name = some holder ∧ binding.index ≤ holder.index := by
  cases held : s.holder? scope name with
  | none =>
      have free := List.find?_eq_none.mp held binding member
      exact absurd bound free
  | some holder =>
      refine ⟨holder, rfl, ?_⟩
      obtain ⟨_, inner, outer, walk, free⟩ := List.find?_eq_some_iff_append.mp held
      have sorted := nested.pairwise_chain scope
      rw [walk] at member sorted
      rcases List.mem_append.mp member with before | after
      · have unbound := free binding before
        rw [bound] at unbound
        cases unbound
      · rcases List.mem_cons.mp after with rfl | further
        · exact Nat.le_refl _
        · have behind := (List.pairwise_append.mp sorted).2.1
          exact Nat.le_of_lt (List.rel_of_pairwise_cons behind further)

private theorem present_of_mem_chain {s : Store} {a scope : Scope} (member : a ∈ s.chain scope)
    (present : a.index < s.frames.size) : scope.index < s.frames.size := by
  by_contra absent
  rw [Store.chain, Store.frame_of_absent s (Nat.not_lt.mp absent)] at member
  have same : a = scope := by simpa [Frame.empty] using member
  exact absent (same ▸ present)

theorem refers_of_grounded (h : p.Grounded) (limit fuel : Nat) (counter : Name) (body : List Stmt)
    (value : Float) :
    (executeAll (invoke limit fuel) fuel body (p.counting counter value)).Leaves fun q =>
      ∀ scope, (p.counting counter value).scope ∈ q.store.chain scope →
        ∃ holder, p.Made q holder ∧ (scope = (p.counting counter value).scope → holder = scope) ∧
          ∀ k, Aftermath (p.Made q) q k → k.store.holder? scope counter.text = some holder := by
  have ran := (effects_names.within_executeAll (effects_names.within_invoke limit fuel) fuel body
    (p.counting counter value)).and ((grounded_counting h counter value).executeAll limit fuel body)
  refine ran.mono fun q reached scope member => ?_
  obtain ⟨⟨_, changes⟩, grounded⟩ := reached
  have opened := (grounded_counting h counter value).scope
  have bound : (q.store.frame (p.counting counter value).scope).binds counter.text = true := by
    refine changes.binds opened ?_
    rw [counting_frame]
    simp [Frame.binds]
  have there := Nat.lt_of_lt_of_le opened changes.size_le
  obtain ⟨holder, held, inner⟩ := exists_holder? grounded.store.nested member bound
  refine ⟨holder, ⟨inner, Store.present_of_binds (Store.binds_of_holder? held)⟩, ?_, ?_⟩
  · rintro rfl
    simp only [Store.holder?, Store.chain, List.find?_cons, bound, Option.some.injEq] at held
    exact held.symm
  · intro k after
    refine (after.changes fun a made => made.2).holder? grounded.store.nested
      (present_of_mem_chain member there) held fun a behind present allowed => ?_
    exact allowed ⟨Nat.le_trans inner behind, present⟩

theorem inside_turn (h : p.Grounded) {y : Moment}
    (path : Relation.ReflTransGen (Moment.PartOf limit)
      ⟨fuel, .statements body, p.counting counter value⟩ y) :
    y.machine.Inside p.store.frames.size
      ((p.counting counter value).scope :: p.store.chain p.scope) := by
  have opened := grounded_counting h counter value
  refine .of_partOf path ⟨opened.scope, Nat.le_of_lt opened.scope, [], ?_, by simp⟩
  rw [Store.chain, counting_frame]
  rfl

private theorem scope_of_execute_function {span : Span} {name : Name} {parameters : List Name}
    {inside : List Stmt} {f : Closure} (present : n.scope.index < n.store.frames.size)
    (ran : execute (invoke limit fuel) fuel (.function span name parameters inside) n =
      .done .next q)
    (bound : (q.store.frame q.scope).get? name.text = some (.function (.closure f))) :
    f.scope = n.scope := by
  let made : Closure := ⟨n.closures, name.text, parameters.length, parameters, inside, n.scope⟩
  let closed : Machine := { n.note (.executing span) with
    captured := n.scope :: n.captured, closures := n.closures + 1 }
  rw [execute, Run.record_bind, Run.closeOver_bind] at ran
  cases defined : n.store.define n.scope name.text (.function (.closure made)) with
  | error fault =>
      have fails : Run.declare name (.function (.closure made)) closed =
          .failed ⟨name.span, fault⟩ closed := by
        simp only [Run.declare, Run.declareIn, closed, Machine.note, defined]
      cases (Run.bind_failed fails _).symm.trans ran
  | ok store =>
      have declares : Run.declare name (.function (.closure made)) closed =
          .done () { closed with store := store } := by
        simp only [Run.declare, Run.declareIn, closed, Machine.note, defined]
      cases (Run.bind_done declares _).symm.trans ran
      have found : (store.frame n.scope).get? name.text = some (.function (.closure made)) := by
        rw [Store.eq_bind_of_define defined, Store.bind, Store.frame_modify_self _ _ present,
          Frame.get?_bind_self]
      have same : made = f := by simpa using found.symm.trans bound
      rw [← same]

private theorem kept_of_grounded (h : p.Grounded) {fuel' : Nat} {span : Span} {name : Name}
    {parameters : List Name} {inside : List Stmt} {f : Closure}
    (path : Relation.ReflTransGen (Moment.PartOf limit)
      ⟨fuel, .statements body, p.counting counter value⟩
      ⟨fuel', .statement (.function span name parameters inside), n⟩)
    (ran : execute (invoke limit fuel') fuel' (.function span name parameters inside) n =
      .done .next m)
    (bound : (m.store.frame m.scope).get? name.text = some (.function (.closure f))) :
    (executeAll (invoke limit fuel) fuel body (p.counting counter value)).Leaves fun q =>
      ∃ inner holder,
        q.store.chain f.scope =
          inner ++ (p.counting counter value).scope :: p.store.chain p.scope ∧
        (∀ a ∈ inner, p.Made q a) ∧ p.Made q holder ∧
        ((∀ a ∈ inner, (q.store.frame a).binds counter.text = false) →
          holder = (p.counting counter value).scope) ∧
        f.Recalls (p.Made q) q counter.text holder := by
  obtain ⟨present, _, inner, walk, each⟩ := inside_turn h path
  have declared := scope_of_execute_function present ran bound
  obtain ⟨o, flow, ends⟩ := Moment.endsPast_of_partOf path
  cases flow
  have refers := refers_of_grounded h limit fuel counter body value
  have grounded := (grounded_counting h counter value).executeAll limit fuel body
  refine ((ends.and refers).and grounded).mono fun q reached => ?_
  obtain ⟨⟨longer, refers⟩, grounded⟩ := reached
  have there : f.scope.index < q.store.frames.size := by
    have larger := longer.length_le
    simp only [Store.length_outline] at larger
    exact declared ▸ Nat.lt_of_lt_of_le present larger
  have around : q.store.chain f.scope =
      inner ++ (p.counting counter value).scope :: p.store.chain p.scope := by
    rw [declared, Store.chain_of_outline longer present, walk]
  obtain ⟨holder, made, _, found⟩ := refers f.scope (around ▸ by simp)
  refine ⟨inner, holder, around, fun a member => ?_, made, fun free => ?_, ?_⟩
  · have within : a.index ≤ f.scope.index := by
      refine grounded.store.nested.index_le_of_mem_chain ?_
      rw [around]
      exact List.mem_append_left _ member
    exact ⟨each a member, Nat.lt_of_le_of_lt within there⟩
  · obtain ⟨_, _, own, foundThere⟩ := refers _ List.mem_cons_self
    have bound := Store.binds_of_holder? (foundThere q .start)
    rw [own rfl] at bound
    have held := found q .start
    rw [Store.holder?_of_append around free, List.find?_cons, bound] at held
    exact (Option.some.inj held).symm
  · exact Closure.recalls_of_found (fun a => And.right) there found

theorem avoids_counting (h : p.Grounded) {scope : Scope} (known : scope.index < p.store.frames.size)
    (apart : p.scope.index < scope.index) (counter : Name) (value : Float) :
    (p.counting counter value).Avoids scope (p.store.frame scope) := by
  have outside : scope ∉ p.store.chain p.scope := fun member =>
    absurd (h.store.nested.index_le_of_mem_chain member) (Nat.not_le.mpr apart)
  have avoids : p.Avoids scope (p.store.frame scope) := ⟨h.scope, known, rfl, outside⟩
  have entered := avoids.enter outside
  refine entered.of_outline (Store.outline_bind _ _ _ _) ?_
  refine (Store.frame_modify_of_ne _ _ ?_).trans entered.frame
  rintro rfl
  exact Nat.lt_irrefl _ known

theorem apart_of_grounded (h : p.Grounded) (limit fuel : Nat) (counter : Name) (body : List Stmt)
    (value : Float) : Apart limit fuel counter body p.scope value p where
  inLoop := rfl
  fresh := rfl
  frame := counting_frame p counter value
  within path := by
    obtain ⟨inner, walk, _⟩ := (inside_turn h path).walk
    rw [walk]
    exact List.mem_append_right _ List.mem_cons_self
  refers := refers_of_grounded h limit fuel counter body value
  kept path ran bound := kept_of_grounded h path ran bound
  untouched {q r scope others} turn made turns other := by
    have grounded := turns.grounded (turn.grounded h)
    have known := Nat.lt_of_lt_of_le made.2 turns.keepsNames.changes.size_le
    have inLoop : r.scope = p.scope := turns.keepsNames.scope.trans turn.keepsNames.scope
    have below : r.scope.index < scope.index := inLoop ▸ Nat.lt_of_lt_of_le h.scope made.1
    exact (avoids_counting grounded known below counter other).leaves_executeAll

end Counting

namespace World

open Number (Denotes)

variable {world : World} {session : Session} {source : String} {m n k : Machine}

/--
A counting loop whose bounds come out as integers makes a turn for each integer from the
first to the last, upwards or downwards, in this order and whatever the turns do, until
one of them fails or leaves the call in progress.  Each turn has a new scope inside that
of the loop, in which the counter is bound to its integer.  A function that the body
declares has this scope around it, and whenever it is called later on, it finds the
counter there unless a nearer scope binds the name; no other turn changes what is bound
there, but by calling such functions.
-/
theorem Hosts.countLoop_inclusive (hosts : world.Hosts session)
    (passes : world.Passes session source m) {fuel : Nat} {span : Span} {counter : Name}
    {first last : Expr} {body : Block Stmt} {x y : Float} {a b : Int}
    (firstDone : evaluate (invoke session.limits.callDepth fuel) first
      (m.note (.executing span)) = .done (.number x) n)
    (lastDone : evaluate (invoke session.limits.callDepth fuel) last n = .done (.number y) k)
    (hx : Denotes x a) (hy : Denotes y b) (small : |a| < 2 ^ 53) (small' : |b| < 2 ^ 53)
    (enough : (b - a).natAbs + 1 < fuel) :
    ∃ values : List Float,
      values.Forall₂ (fun v i => Denotes v (i : Int)) (Counting.between a b) ∧
      (∀ o, execute (invoke session.limits.callDepth fuel) fuel
          (.countLoop span counter first last body) m = o ↔
        Counting.Takes session.limits.callDepth fuel counter body.body values k o) ∧
      ∀ before p,
        Counting.Turns session.limits.callDepth fuel counter body.body before k p →
        ∀ value,
          Counting.Apart session.limits.callDepth fuel counter body.body m.scope value p := by
  obtain ⟨values, counts, each⟩ := Counting.exists_counts hx hy small small'
  have length : values.length < fuel := by
    rw [each.length_eq]
    simpa [Counting.between] using enough
  refine ⟨values, each, fun o => ?_, fun before p turns value => ?_⟩
  · have takes : Counting.Takes session.limits.callDepth fuel counter body.body values k _ :=
      counts.takes length k
    rw [execute_countLoop firstDone lastDone]
    exact ⟨fun ran => ran ▸ takes, fun other => takes.unique other⟩
  · have noted : (m.note (.executing span)).Grounded := by
      obtain ⟨store, scope⟩ := hosts.grounded passes
      exact ⟨store, scope⟩
    have between := (noted.evaluate session.limits.callDepth fuel first).of_done firstDone
    have behind := (between.evaluate session.limits.callDepth fuel last).of_done lastDone
    have placed := turns.grounded behind
    have inLoop : p.scope = m.scope := by
      rw [turns.keepsNames.scope, Loop.scope_of_evaluate lastDone,
        Loop.scope_of_evaluate firstDone]
      rfl
    exact inLoop ▸ Counting.apart_of_grounded placed _ _ counter body.body value

/--
Downwards, with a function that each turn declares and keeps.  In the second turn, where
the counter is bound to 1, a call of the first function finds the counter of the first.
-/
theorem Hosts.countLoop_inclusive_downwards :
    let source := "var g = nul pour K entre 2 et 1 fonction G() retourner K fin g = G fin"
    let desk := Desk.empty.openSession {}
    let first : Expr := .literal ⟨25, 26, 1⟩ (.number 2)
    let last : Expr := .literal ⟨30, 31, 1⟩ (.number 1)
    let counter : Name := ⟨"K", ⟨17, 18, 1⟩⟩
    let inside : List Stmt := [.give ⟨45, 56, 1⟩ (.lookup ⟨55, 56, 1⟩ ⟨"K", ⟨55, 56, 1⟩⟩)]
    let body : List Stmt := [.function ⟨32, 60, 1⟩ ⟨"G", ⟨41, 42, 1⟩⟩ [] inside,
      .expression (.assign ⟨61, 66, 1⟩ ⟨"g", ⟨61, 62, 1⟩⟩
        (.lookup ⟨65, 66, 1⟩ ⟨"G", ⟨65, 66, 1⟩⟩))]
    let loop : Stmt := .countLoop ⟨12, 70, 1⟩ counter first last ⟨⟨32, 70, 1⟩, body⟩
    ∃ session m k, desk.session? 0 = some session ∧ desk.world.Hosts session ∧
      desk.world.Passes session source m ∧
      (∃ values : List Float, values.Forall₂ (fun v i => Denotes v (i : Int)) [2, 1] ∧
        (∀ o, execute (invoke 128 9) 9 loop m = o ↔ Counting.Takes 128 9 counter body values k o) ∧
        ∀ before p, Counting.Turns 128 9 counter body before k p →
          ∀ value, Counting.Apart 128 9 counter body m.scope value p) ∧
      ∃ q f y, Counting.Turn 128 9 counter body 2 k q ∧
        q.store.get q.scope "g" = .ok (.function (.closure f)) ∧
        Moment.LeadsTo 128 ⟨9, .call (.closure f) [] ⟨0, 0, 1⟩, q.counting counter 1⟩ y ∧
        y.machine.store.holder? y.machine.scope "K" = some (k.counting counter 2).scope ∧
        (y.machine.store.frame (k.counting counter 2).scope).get? "K" = some (.number 2) := by
  intro source desk first last counter inside body loop
  have opened : Desk.empty.step 0 (.newSession {}) = some (desk, none) := rfl
  have found : desk.session? 0 = some (initial.newSession {}).1 := rfl
  have hosts : desk.world.Hosts (initial.newSession {}).1 :=
    .found (Desk.Reachable.empty.step opened) found
  let tokens : List Token :=
      [⟨.keyword .var, "var", ⟨0, 3, 1⟩⟩, ⟨.identifier "g", "g", ⟨4, 5, 1⟩⟩,
        ⟨.symbol .equal, "=", ⟨6, 7, 1⟩⟩, ⟨.keyword .nul, "nul", ⟨8, 11, 1⟩⟩,
        ⟨.keyword .pour, "pour", ⟨12, 16, 1⟩⟩, ⟨.identifier "K", "K", ⟨17, 18, 1⟩⟩,
        ⟨.keyword .entre, "entre", ⟨19, 24, 1⟩⟩, ⟨.number 2, "2", ⟨25, 26, 1⟩⟩,
        ⟨.keyword .et, "et", ⟨27, 29, 1⟩⟩, ⟨.number 1, "1", ⟨30, 31, 1⟩⟩,
        ⟨.keyword .fonction, "fonction", ⟨32, 40, 1⟩⟩, ⟨.identifier "G", "G", ⟨41, 42, 1⟩⟩,
        ⟨.symbol .leftParen, "(", ⟨42, 43, 1⟩⟩, ⟨.symbol .rightParen, ")", ⟨43, 44, 1⟩⟩,
        ⟨.keyword .retourner, "retourner", ⟨45, 54, 1⟩⟩, ⟨.identifier "K", "K", ⟨55, 56, 1⟩⟩,
        ⟨.keyword .fin, "fin", ⟨57, 60, 1⟩⟩, ⟨.identifier "g", "g", ⟨61, 62, 1⟩⟩,
        ⟨.symbol .equal, "=", ⟨63, 64, 1⟩⟩, ⟨.identifier "G", "G", ⟨65, 66, 1⟩⟩,
        ⟨.keyword .fin, "fin", ⟨67, 70, 1⟩⟩, .endAt ⟨70, 70, 1⟩]
  have scanned : (scan source).toOption = some tokens := by decide +kernel
  let before : Stmt := .declare ⟨0, 11, 1⟩ ⟨"g", ⟨4, 5, 1⟩⟩ (.literal ⟨8, 11, 1⟩ .null)
  have parsed : parse 256 tokens = .ok [before, loop] := by cbv
  have reached : ∃ m library, desk.world.Passes (initial.newSession {}).1 source m ∧
      m.store = ⟨#[library, ⟨[⟨0⟩], false, [("g", .null)]⟩]⟩ ∧ m.scope = ⟨1⟩ ∧ m.depth = 0 :=
    ⟨_, _, @Passes.reached desk.world (initial.newSession {}).1 source _ _
      [before, loop] #[] 9 9 _ (eq_ok_of_toOption scanned) parsed
      (.head (.otherStatements rfl) (.single .firstStatement)), rfl, rfl, rfl⟩
  obtain ⟨⟨_, _, _, lines, captured, closures, journal⟩, library, passes, rfl, rfl, rfl⟩ := reached
  let k : Machine := ⟨⟨#[library, ⟨[⟨0⟩], false, [("g", .null)]⟩]⟩, ⟨1⟩, 0, lines, captured,
    closures, journal.push (.executing ⟨12, 70, 1⟩)⟩
  let f : Closure := ⟨closures, "G", 0, [], inside, ⟨2⟩⟩
  obtain ⟨n, declares, bound⟩ : ∃ n, execute (invoke 128 9) 9
      (.function ⟨32, 60, 1⟩ ⟨"G", ⟨41, 42, 1⟩⟩ [] inside) (k.counting counter 2) =
        .done .next n ∧ (n.store.frame n.scope).get? "G" = some (.function (.closure f)) :=
    ⟨_, rfl, rfl⟩
  let store : Store := ⟨#[library, ⟨[⟨0⟩], false, [("g", .function (.closure f))]⟩,
    ⟨[⟨1⟩, ⟨0⟩], false, [("K", .number 2), ("G", .function (.closure f))]⟩]⟩
  obtain ⟨lines, captured, closures, journal, goesOn⟩ : ∃ lines captured closures journal,
      executeAll (invoke 128 9) 9 body (k.counting counter 2) =
        .done .next ⟨store, ⟨2⟩, 0, lines, captured, closures, journal⟩ :=
    ⟨_, _, _, _, rfl⟩
  have two : Denotes 2 (2 : Int) :=
    ⟨false, 2 ^ 52, -51, by decide +kernel, by norm_num [Number.Form.value]⟩
  have one : Denotes 1 (1 : Int) := by exact_mod_cast Number.denotes_one
  have counted := @Hosts.countLoop_inclusive _ _ _ _ _ k hosts passes 9 ⟨12, 70, 1⟩ counter first
    last ⟨⟨32, 70, 1⟩, body⟩ 2 1 2 1 rfl rfl two one (by decide) (by decide) (by decide)
  refine ⟨_, _, k, found, hosts, passes, counted, ?_⟩
  obtain ⟨_, _, _, apart⟩ := counted
  have kept := (apart [] k (.none k) 2).kept (.single ⟨.firstStatement, rfl⟩) declares bound
  obtain ⟨inner, holder, chain, _, _, own, recalls⟩ := kept.of_done goesOn
  -- the second turn comes after the first, and so does a call in it
  let q : Machine := ⟨store, ⟨2⟩, 0, lines, captured, closures, journal⟩
  let next : Machine := { q with scope := ⟨1⟩ }
  have back : Aftermath (k.Made q) q next := .moved .start rfl
  have second : Aftermath (k.Made q) q (next.counting counter 1) :=
    .moment back (fun made => Nat.not_succ_le_self 1 made.1)
      (.single (@Moment.LeadsTo.countBody 128 9 next _ counter (-1) 1 body 0 1 (by decide +kernel)
        (declare_counter _ _ _)))
  have step : Moment.LeadsTo 128 ⟨9, .call (.closure f) [] ⟨0, 0, 1⟩, next.counting counter 1⟩ _ :=
    .callBody rfl rfl
  obtain ⟨inner', walk, _, finds⟩ := recalls.called second step .refl
  obtain rfl : inner = [] := List.append_left_eq_self.mp chain.symm
  obtain rfl : inner' = [⟨4⟩] := (List.append_left_inj _).mp (walk.symm.trans rfl)
  have named := finds (List.forall_mem_singleton.mpr rfl)
  rw [own (List.forall_mem_nil _)] at named
  exact ⟨next, f, _, .mk goesOn, rfl, step, named, rfl⟩

end World

end Ardoise
