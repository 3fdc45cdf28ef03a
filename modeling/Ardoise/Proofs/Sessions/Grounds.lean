import Ardoise.Proofs.Custody
import Ardoise.Proofs.Scoping
import Ardoise.Proofs.Sessions.Endings

/-!
# Scopes stand on firm ground

At every moment of a session, the scopes form a forest: each scope stands for good in
one that was made before it, the scope in use is one of them, and so is every scope
that a function in hand was declared in.  What is shown of all worlds that can come
about, here and elsewhere, follows the ways in which sessions change them.
-/

namespace Ardoise

/-! ## Worlds that host sessions -/

namespace World

/-- What holds of worlds to begin with, and whatever sessions do to them. -/
structure Lasting (P : World → Prop) : Prop where
  initial : P World.initial
  newSession {world : World} (limits : Limits) : world.Intact → P world →
    P (world.newSession limits).2
  clearLines {world : World} : P world → P world.clearLines
  reset {world : World} {session : Session} : session.Fits world → P world →
    P (world.reset session).2
  run {world : World} {session : Session} {fuel : Nat} {source : String} {report : Report} :
    world.Intact → session.Fits world → P world →
      world.run fuel session source = some report → P report.world

variable {P : World → Prop}

theorem Lasting.interpret (lasting : Lasting P) {world : World} {session : Session} {fuel : Nat}
    {source : String} {report : Report} (intact : world.Intact) (fits : session.Fits world)
    (h : P world) (ran : world.interpret fuel session source = some report) : P report.world :=
  lasting.run (intact.of_spares (reset_spares fits)) (reset_fits fits) (lasting.reset fits h) ran

theorem Lasting.of_reachable (lasting : Lasting P) {history : List Desk.Step} {desk : Desk}
    (reachable : Desk.Reachable history desk) : P desk.world := by
  induction reachable with
  | empty => exact lasting.initial
  | @step _ desk next fuel step diagnostic before taken ih =>
      have sound := before.sound
      cases step with
      | newSession limits =>
          cases taken
          exact lasting.newSession limits sound.intact ih
      | clearLines =>
          cases taken
          exact lasting.clearLines ih
      | drop number =>
          cases taken
          unfold Desk.drop
          split
          · exact ih
          · rename_i found
            exact lasting.reset (sound.fits found).1 ih
      | interpret number source =>
          cases found : desk.session? number with
          | none =>
              simp only [Desk.step, Desk.interpret, found, Option.some.injEq,
                Prod.mk.injEq] at taken
              exact taken.1 ▸ ih
          | some session =>
              obtain ⟨report, ran, rfl, _⟩ := (Desk.interpret_eq_some found).mp taken
              exact lasting.interpret sound.intact (sound.fits found).1 ih ran

theorem Lasting.of_hosts (lasting : Lasting P) {world : World} {session : Session}
    (hosts : world.Hosts session) : P world := by
  induction hosts with
  | found reachable _ => exact lasting.of_reachable reachable
  | reset before ih => exact lasting.reset before.fits.2 ih
  | clearLines _ ih => exact lasting.clearLines ih
  | run before ran ih => exact lasting.run before.fits.1 before.fits.2 ih ran

end World

theorem Store.Each.clearAll {V : Value → Prop} {s : Store} (h : s.Each V) (scopes : List Scope) :
    (s.clearAll scopes).Each V := by
  induction scopes generalizing s with
  | nil => exact h
  | cons scope rest ih => exact ih (h.clear scope)

/-! ## Where scopes stand -/

namespace Store

def outline (s : Store) : List (List Scope) :=
  s.frames.toList.map Frame.outer

def walk (outline : List (List Scope)) (scope : Scope) : List Scope :=
  scope :: outline[scope.index]?.getD []

variable {s t : Store} {scope : Scope}

@[simp] theorem length_outline (s : Store) : s.outline.length = s.frames.size := by
  simp [outline]

theorem walk_outline (s : Store) (scope : Scope) : walk s.outline scope = s.chain scope := by
  unfold walk chain frame outline
  by_cases present : scope.index < s.frames.size
  · simp [Array.getD, present]
  · simp [Array.getD, present, Frame.empty]

theorem outline_modify (s : Store) (scope : Scope) {f : Frame → Frame}
    (fixed : ∀ frame, (f frame).outer = frame.outer) : (s.modify scope f).outline = s.outline := by
  apply List.ext_getElem?
  intro i
  simp only [outline, modify, Array.toList_modify, List.getElem?_map, List.getElem?_modify]
  split <;> simp [Option.map_map, Function.comp_def, fixed]

theorem outline_push (s : Store) (outer : List Scope) :
    (s.push outer).2.outline = s.outline ++ [outer] := by
  simp [outline, push, Frame.empty]

theorem outline_bind (s : Store) (scope : Scope) (name : String) (value : Value) :
    (s.bind scope name value).outline = s.outline :=
  outline_modify s scope fun _ => rfl

theorem outline_assign {name : String} {value : Value}
    (assigned : s.assign scope name value = .ok t) : t.outline = s.outline := by
  unfold Store.assign at assigned
  split at assigned
  · cases assigned
  · split at assigned
    · cases assigned
    · cases assigned
      exact outline_bind s _ name value

theorem outline_define {name : String} {value : Value}
    (defined : s.define scope name value = .ok t) : t.outline = s.outline := by
  unfold Store.define at defined
  split at defined
  · cases defined
  · cases defined
    exact outline_bind s scope name value

theorem frame_assign {name : String} {value : Value} {other : Scope}
    (assigned : s.assign scope name value = .ok t) (apart : other ∉ s.chain scope) :
    t.frame other = s.frame other := by
  unfold Store.assign at assigned
  split at assigned
  · cases assigned
  · rename_i holder held
    split at assigned
    · cases assigned
    · cases assigned
      have member : holder ∈ s.chain scope := List.mem_of_find?_eq_some held
      exact frame_modify_of_ne s _ fun same => apart (same ▸ member)

theorem eq_bind_of_define {name : String} {value : Value}
    (defined : s.define scope name value = .ok t) : t = s.bind scope name value := by
  unfold Store.define at defined
  split at defined
  · cases defined
  · cases defined
    rfl

theorem frame_define {name : String} {value : Value} {other : Scope}
    (defined : s.define scope name value = .ok t) (apart : other ≠ scope) :
    t.frame other = s.frame other := by
  rw [eq_bind_of_define defined]
  exact frame_modify_of_ne s _ apart

theorem chain_newChild (s : Store) (outer : Scope) :
    (s.newChild outer).2.chain (s.newChild outer).1 = (s.newChild outer).1 :: s.chain outer := by
  rw [chain, newChild, frame_push_self]
  rfl

theorem chain_of_outline (longer : s.outline <+: t.outline)
    (present : scope.index < s.frames.size) : t.chain scope = s.chain scope := by
  obtain ⟨more, extended⟩ := longer
  have within : scope.index < s.outline.length := by simpa using present
  rw [← walk_outline, ← walk_outline, walk, walk, ← extended, List.getElem?_append_left within]

theorem Changes.outline {may : Scope → String → Prop} (h : Changes may s t) :
    s.outline <+: t.outline := by
  induction h with
  | refl => exact List.prefix_rfl
  | assign _ assigned ih => rwa [outline_assign assigned]
  | openScope _ outer ih =>
      rw [newChild, outline_push]
      exact ih.trans (List.prefix_append _ _)
  | define _ _ defined ih => rwa [outline_define defined]

theorem Nested.pairwise_chain (nested : s.Nested) (scope : Scope) :
    (s.chain scope).Pairwise fun inner outer => outer.index < inner.index := by
  induction scope using nested.wellFounded.induction with
  | _ scope ih =>
      cases parent : s.parent? scope with
      | none =>
          rw [nested.chain_of_root parent]
          exact List.pairwise_singleton _ _
      | some outer =>
          have walk := ih outer parent
          rw [nested.chain_of_parent parent]
          refine .cons (fun a member => ?_) walk
          have lower := nested.parent?_lt parent
          rcases List.mem_cons.mp member with rfl | further
          · exact lower
          · exact Nat.lt_trans (List.rel_of_pairwise_cons walk further) lower

theorem Nested.index_le_of_mem_chain (nested : s.Nested) {a : Scope}
    (member : a ∈ s.chain scope) : a.index ≤ scope.index := by
  rcases List.mem_cons.mp member with rfl | further
  · exact Nat.le_refl _
  · exact Nat.le_of_lt (List.rel_of_pairwise_cons (nested.pairwise_chain scope) further)

end Store

/-! ## Scopes in hand -/

def Function.Within (size : Nat) : Function → Prop
  | .builtin _ _ => True
  | .closure f => f.scope.index < size

theorem Function.Within.mono {size more : Nat} (le : size ≤ more) {f : Function}
    (h : f.Within size) : f.Within more := by
  cases f with
  | builtin => trivial
  | closure f => exact Nat.lt_of_lt_of_le h le

/-- The scopes form a forest, in which all closures stand that the store holds. -/
structure Store.Grounded (store : Store) : Prop where
  nested : store.Nested
  each : store.Each (Value.Holds (Function.Within store.frames.size))

namespace Store.Grounded

variable {s t : Store}

theorem of_evolves (h : s.Grounded) (evolves : s.Evolves t)
    (each : t.Each (Value.Holds (Function.Within s.frames.size))) : t.Grounded :=
  ⟨evolves.nested h.nested,
    each.mono fun _ held => held.mono fun _ => .mono evolves.size_le⟩

theorem newChild (h : s.Grounded) {scope : Scope} (present : scope.index < s.frames.size) :
    (s.newChild scope).2.Grounded :=
  h.of_evolves (.newChild (.refl s) present) (h.each.push _)

end Store.Grounded

structure Machine.Grounded (m : Machine) : Prop where
  store : m.store.Grounded
  scope : m.scope.index < m.store.frames.size

def grounds : Custody Nat where
  later := (· ≤ ·)
  owns := Function.Within
  fits size m := m.store.frames.size = size ∧ m.Grounded

theorem size_newChild (s : Store) (scope : Scope) :
    (s.newChild scope).2.frames.size = s.frames.size + 1 := by
  simp [Store.newChild, Store.push]

theorem Machine.Grounded.enter {m : Machine} (h : m.Grounded) {outer : Scope}
    (present : outer.index < m.store.frames.size) : (m.enter outer).Grounded :=
  ⟨h.store.newChild present, m.scope_enter_lt outer⟩

theorem grounds_kept (limit : Nat) : grounds.Kept limit fun _ => True where
  refl := Nat.le_refl
  trans := Nat.le_trans
  visited _ _ := trivial
  mono later owned := Function.Within.mono later owned
  quiet _ _ _ fits := ⟨fits.1, fits.2.store, fits.2.scope⟩
  get := by
    rintro _ m _ _ ⟨rfl, h⟩ found
    exact h.store.each.get found
  assign := by
    rintro _ m _ _ _ ⟨rfl, h⟩ has assigned
    have size := Store.size_assign assigned
    refine ⟨size, ?_, size ▸ h.scope⟩
    exact h.store.of_evolves (.assign (.refl _) assigned) (h.store.each.assign has assigned)
  declare := by
    rintro _ m _ _ _ ⟨rfl, h⟩ has defined
    have size := Store.size_define defined
    refine ⟨size, ?_, size ▸ h.scope⟩
    exact h.store.of_evolves (.define (.refl _) defined) (h.store.each.define has defined)
  make := by
    rintro size m name parameters body ⟨rfl, h⟩
    exact ⟨_, Nat.le_refl _, h.scope, rfl, h.store, h.scope⟩
  enter := by
    rintro _ m ⟨rfl, h⟩
    exact ⟨_, Nat.le_succ _, size_newChild _ _, h.enter h.scope⟩
  call := by
    rintro _ m _ f _ _ _ ⟨rfl, h⟩ owned
    exact ⟨_, Nat.le_succ _, size_newChild _ _, h.enter owned⟩
  leave := by
    rintro _ _ m n ⟨rfl, h⟩ later ⟨rfl, h'⟩
    exact ⟨rfl, h'.store, Nat.lt_of_lt_of_le h.scope later⟩

theorem Machine.Grounded.evaluate {m : Machine} (h : m.Grounded) (limit fuel : Nat) (e : Expr) :
    (evaluate (invoke limit fuel) e m).Leaves Machine.Grounded :=
  ((grounds_kept limit).evaluate ((grounds_kept limit).invoke fuel) e trivial
    ⟨rfl, h⟩).leaves fun _ _ _ fits => fits.2

theorem Machine.Grounded.executeAll {m : Machine} (h : m.Grounded) (limit fuel : Nat)
    (ss : List Stmt) : (executeAll (invoke limit fuel) fuel ss m).Leaves Machine.Grounded :=
  ((grounds_kept limit).executeAll ((grounds_kept limit).invoke fuel) ss trivial
    ⟨rfl, h⟩).leaves fun _ _ _ fits => fits.2

namespace World

private theorem nested_initial : World.initial.store.Nested := by
  intro scope
  left
  by_cases present : scope.index < World.initial.store.frames.size
  · obtain rfl : scope = World.initial.library :=
      congrArg Scope.mk (Nat.lt_one_iff.mp present)
    rfl
  · rw [Store.frame_of_absent _ (Nat.not_lt.mp present)]
    rfl

theorem grounded_lasting : Lasting fun world => world.store.Grounded where
  initial := ⟨nested_initial, initial_each fun _ => .function trivial⟩
  newSession _ intact h := h.newChild intact.present
  clearLines h := h
  reset {world session} _ h := by
    have evolves := (Store.Evolves.clearAll (.refl world.store) session.captured).modify
      session.scope (f := Frame.clear) fun _ => rfl
    exact h.of_evolves evolves ((h.each.clearAll session.captured).clear session.scope)
  run {world session} _ _ report intact fits h ran := by
    obtain ⟨_, _, reached⟩ := (grounds_kept _).run (w := world.store.frames.size)
      (fun _ => ⟨rfl, h, fits.present⟩) ran
    exact (reached #[]).2.store

/-- At every moment of every session the scopes in hand are there. -/
theorem Hosts.grounded {world : World} {session : Session} {source : String} {m : Machine}
    (hosts : world.Hosts session) (passes : world.Passes session source m) : m.Grounded := by
  have store := grounded_lasting.of_hosts hosts
  obtain ⟨_, _, path⟩ := passes
  obtain ⟨_, _, fits, _⟩ := (grounds_kept _).along path trivial
    ⟨rfl, store, hosts.fits.2.present⟩ trivial
  exact fits.2

end World

end Ardoise
