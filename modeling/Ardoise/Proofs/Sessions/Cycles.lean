import Ardoise.Proofs.Sessions.Estates

/-!
# What a reset leaves in a circle

A scope keeps the one that it stands in, and those that the functions in its table
were declared in.  A reset empties the scope of the session and every scope in which
a function was declared.  A function that was given to a name further out stays bound
there, unless something was declared in that scope too, and leads back to it: such
rings are all that can be left in a circle.
-/

namespace Ardoise

/-! ## What keeps what -/

inductive Value.Contains (f : Function) : Value → Prop
  | here : Contains f (.function f)
  | element {elements : List Value} {value : Value} (member : value ∈ elements)
      (inside : Contains f value) : Contains f (.array elements)

private theorem Value.Holds.of_contains {F : Function → Prop} {f : Function} {value : Value}
    (h : value.Holds F) (inside : value.Contains f) : F f := by
  induction inside with
  | here =>
      cases h with
      | plain plain => cases plain
      | function has => exact has
  | element member _ ih =>
      cases h with
      | plain plain => cases plain
      | array each => exact ih (each _ member)

def Value.declaredIn? : Value → Option Scope
  | .function (.closure f) => some f.scope
  | _ => none

namespace Store

def Holds (s : Store) (a : Scope) (f : Closure) : Prop :=
  ∃ name value, (s.frame a).get? name = some value ∧ value.Contains (.closure f)

/-- One scope stands right inside the other, or holds a function that was declared there. -/
inductive Refers (s : Store) (a : Scope) : Scope → Prop
  | parent {b : Scope} (parent : s.parent? a = some b) : Refers s a b
  | function {f : Closure} (held : s.Holds a f) : Refers s a f.scope

def HoldsFrom (s : Store) (a b : Scope) : Prop :=
  ∃ f, s.Holds a f ∧ b ∈ s.chain f.scope

def HoldsFromInside (s : Store) (a b : Scope) : Prop :=
  ∃ f, s.Holds a f ∧ b ∈ (s.frame f.scope).outer

variable {s : Store} {a b c : Scope} {f : Closure}

theorem Holds.of_holdsOnly {F : Function → Prop} (h : s.Holds a f)
    (only : (s.frame a).HoldsOnly F) : F (.closure f) := by
  obtain ⟨name, value, found, inside⟩ := h
  exact (only name value found).of_contains inside

theorem Holds.ne_nil (h : s.Holds a f) : (s.frame a).bindings ≠ [] := fun empty =>
  h.of_holdsOnly (F := fun _ => False) (Frame.holdsOnly_of_empty empty)

theorem refers_of_declaredIn? {name : String}
    (found : ((s.frame a).get? name).bind Value.declaredIn? = some b) : s.Refers a b := by
  obtain ⟨value, bound, declared⟩ := Option.bind_eq_some_iff.mp found
  unfold Value.declaredIn? at declared
  split at declared
  · cases declared
    exact .function ⟨name, _, bound, .here⟩
  · cases declared

theorem exists_holds_of_holdsFrom (path : Relation.TransGen s.HoldsFrom a b) :
    ∃ f, s.Holds a f := by
  obtain ⟨c, ⟨f, held, _⟩, _⟩ := Relation.TransGen.head'_iff.mp path
  exact ⟨f, held⟩

theorem holdsFrom_of_inside (path : Relation.TransGen s.HoldsFromInside a b) :
    Relation.TransGen s.HoldsFrom a b := by
  refine Relation.TransGen.mono ?_ _ _ path
  rintro x y ⟨f, held, around⟩
  exact ⟨f, held, List.mem_cons_of_mem _ around⟩

namespace Nested

private theorem chain_subset_outer (nested : s.Nested) (around : b ∈ (s.frame a).outer) :
    s.chain b ⊆ (s.frame a).outer := by
  rcases nested a with root | ⟨outer, _, walk⟩
  · rw [root] at around
    cases around
  · rw [walk] at around ⊢
    exact (nested.suffix_of_mem_chain around).subset

private theorem refers_of_mem_chain (nested : s.Nested) (member : b ∈ s.chain a) :
    Relation.ReflTransGen s.Refers a b := by
  induction a using nested.wellFounded.induction with
  | _ a ih =>
      cases parent : s.parent? a with
      | none =>
          rw [nested.chain_of_root parent, List.mem_singleton] at member
          exact member ▸ .refl
      | some c =>
          rw [nested.chain_of_parent parent] at member
          rcases List.mem_cons.mp member with rfl | further
          · exact .refl
          · exact .head (.parent parent) (ih c parent further)

theorem holdsFrom_outwards (nested : s.Nested) (path : Relation.TransGen s.HoldsFrom a b)
    (member : c ∈ s.chain b) : Relation.TransGen s.HoldsFrom a c := by
  have further : ∀ {x}, s.HoldsFrom x b → s.HoldsFrom x c := fun ⟨f, held, around⟩ =>
    ⟨f, held, (nested.suffix_of_mem_chain around).subset member⟩
  cases path with
  | single last => exact .single (further last)
  | tail before last => exact .tail before (further last)

/-- A way from scope to scope goes outwards only, or makes use of a function on its way out. -/
theorem outwards_or_holdsFrom (nested : s.Nested) (path : Relation.TransGen s.Refers a b) :
    b ∈ (s.frame a).outer ∨ ∃ k ∈ s.chain a, Relation.TransGen s.HoldsFrom k b := by
  have parent_mem : ∀ {x y}, s.parent? x = some y → y ∈ (s.frame x).outer :=
    fun parent => List.mem_of_mem_head? parent
  induction path with
  | single step =>
      cases step with
      | parent parent => exact .inl (parent_mem parent)
      | function held => exact .inr ⟨a, List.mem_cons_self, .single ⟨_, held, List.mem_cons_self⟩⟩
  | @tail b c _ step ih =>
      rcases ih with around | ⟨k, member, kept⟩
      · cases step with
        | parent parent =>
            exact .inl (nested.chain_subset_outer around (.tail _ (parent_mem parent)))
        | function held =>
            exact .inr ⟨b, .tail _ around, .single ⟨_, held, List.mem_cons_self⟩⟩
      · refine .inr ⟨k, member, ?_⟩
        cases step with
        | parent parent => exact nested.holdsFrom_outwards kept (.tail _ (parent_mem parent))
        | function held => exact .tail kept ⟨_, held, List.mem_cons_self⟩

/-- A scope that can be reached from itself leads to one that keeps itself. -/
theorem exists_holdsFrom_of_cycle (nested : s.Nested) (cycle : Relation.TransGen s.Refers a a) :
    ∃ k ∈ s.chain a, Relation.TransGen s.HoldsFrom k k := by
  rcases nested.outwards_or_holdsFrom cycle with around | ⟨k, member, kept⟩
  · exact absurd (List.rel_of_pairwise_cons (nested.pairwise_chain a) around) (Nat.lt_irrefl _)
  · exact ⟨k, member, nested.holdsFrom_outwards kept member⟩

private theorem refers_of_holdsFrom (nested : s.Nested) (kept : Relation.TransGen s.HoldsFrom a b) :
    Relation.TransGen s.Refers a b := by
  have step : ∀ x y, s.HoldsFrom x y → Relation.TransGen s.Refers x y := by
    rintro x y ⟨f, held, around⟩
    exact .head' (.function held) (nested.refers_of_mem_chain around)
  exact Relation.TransGen.closed step _ _ kept

end Nested

end Store

/-! ## Sessions -/

def Session.Made (session : Session) (store : Store) (a : Scope) : Prop :=
  session.scope ∈ store.chain a

namespace World

variable {world : World} {session : Session} {a b : Scope} {f : Closure}

theorem estate_made_iff (fits : session.Fits world) (nested : world.store.Nested) (base : Nat) :
    (session.estate world base).Made world.store a ↔ session.Made world.store a := by
  have chain : world.store.chain session.scope = [session.scope, world.library] := by
    rw [Store.chain, fits.outer]
  constructor
  · rintro ⟨_, inner, walk, _⟩
    rw [Session.Made, ← Store.walk_outline, walk]
    simp [Session.estate]
  · intro made
    have present : a.index < world.store.frames.size := by
      by_contra absent
      rw [Session.Made, Store.chain, Store.frame_of_absent _ (Nat.not_lt.mp absent)] at made
      exact absent (List.mem_singleton.mp made ▸ fits.present)
    obtain ⟨inner, walk⟩ := nested.suffix_of_mem_chain made
    refine ⟨by simpa using present, inner, ?_, by simp⟩
    rw [Store.walk_outline, ← walk, chain]
    rfl

theorem chain_reset (world : World) (session : Session) (a : Scope) :
    (world.reset session).2.store.chain a = world.store.chain a := by
  rw [reset_store, ← Store.walk_outline, Store.outline_clearAll, Store.walk_outline]

theorem bindings_reset_of_mem (world : World) {session : Session}
    (member : a ∈ session.scope :: session.captured) :
    ((world.reset session).2.store.frame a).bindings = [] := by
  rw [reset_store]
  exact Store.bindings_clearAll_of_mem _ (by simpa [or_comm] using member)

theorem holds_of_reset (held : (world.reset session).2.store.Holds a f) :
    a ∉ session.scope :: session.captured ∧ world.store.Holds a f := by
  have beyond : a ∉ session.scope :: session.captured := fun member =>
    held.ne_nil (world.bindings_reset_of_mem member)
  refine ⟨beyond, ?_⟩
  rwa [reset_store, Store.Holds, Store.frame_clearAll_of_not_mem] at held
  simpa [or_comm] using beyond

theorem Intact.not_holds_library (intact : world.Intact) :
    ¬ world.store.Holds world.library f := by
  intro held
  have builtin : ∀ g, Function.builtin g g.arity ≠ .closure f := fun _ same => by cases same
  exact held.of_holdsOnly (intact.holdsOnly_library (F := (· ≠ .closure f)) builtin) rfl

theorem Hosts.made_of_holds (hosts : world.Hosts session) (made : session.Made world.store a)
    (around : b ∈ world.store.chain a) (held : world.store.Holds b f) :
    session.Made world.store b := by
  obtain ⟨intact, fits⟩ := hosts.fits
  have nested := hosts.nested
  rcases ((estate_made_iff fits nested 0).mpr made).outwards nested around with rfl | has
  · exact absurd held intact.not_holds_library
  · exact (estate_made_iff fits nested 0).mp has

theorem Hosts.held_of_reset (hosts : world.Hosts session)
    (made : session.Made (world.reset session).2.store a)
    (held : (world.reset session).2.store.Holds a f) :
    a ∉ session.scope :: session.captured ∧ session.Made (world.reset session).2.store f.scope ∧
      ((world.reset session).2.store.frame f.scope).bindings = [] := by
  obtain ⟨base, settled⟩ := hosts.settles
  have beyond := (holds_of_reset held).1
  have after : (session.estate (world.reset session).2 world.store.frames.size).Settled
      (world.reset session).2.store [] := by
    rw [reset_store]
    exact settled.clear
  have iff : ∀ {b}, (session.estate (world.reset session).2 world.store.frames.size).Made
      (world.reset session).2.store b ↔ session.Made (world.reset session).2.store b :=
    estate_made_iff hosts.reset.fits.2 hosts.reset.nested _
  have outside : ¬ (session.estate (world.reset session).2 world.store.frames.size).Has
      (world.reset session).2.store.outline a := by
    intro has
    rw [reset_store, Store.outline_clearAll] at has
    have own : a = session.scope := has.eq_root (Nat.le_of_eq (Store.length_outline _))
    exact beyond (own ▸ List.mem_cons_self)
  obtain ⟨made', own | ⟨_, empty⟩⟩ := held.of_holdsOnly (after.left a (iff.mpr made) outside)
  · exact ⟨beyond, iff.mp made', world.bindings_reset_of_mem (own ▸ List.mem_cons_self)⟩
  · exact ⟨beyond, iff.mp made', empty⟩

/-- After a reset, what leads from one holder of functions to another was declared inside it. -/
theorem Hosts.inside_of_holdsFrom (hosts : world.Hosts session)
    (made : session.Made (world.reset session).2.store a)
    (step : (world.reset session).2.store.HoldsFrom a b)
    (held : (world.reset session).2.store.Holds b f) :
    session.Made (world.reset session).2.store b ∧
      (world.reset session).2.store.HoldsFromInside a b := by
  obtain ⟨g, held', around⟩ := step
  obtain ⟨-, made', empty⟩ := hosts.held_of_reset made held'
  refine ⟨hosts.reset.made_of_holds made' around held, ?_⟩
  rcases List.mem_cons.mp around with rfl | inside
  · exact absurd empty held.ne_nil
  · exact ⟨g, held', inside⟩

private theorem Hosts.inside_of_path (hosts : world.Hosts session)
    (made : session.Made (world.reset session).2.store a)
    (path : Relation.TransGen (world.reset session).2.store.HoldsFrom a b)
    (held : (world.reset session).2.store.Holds b f) :
    session.Made (world.reset session).2.store b ∧
      Relation.TransGen (world.reset session).2.store.HoldsFromInside a b := by
  induction path generalizing f with
  | single last =>
      obtain ⟨made', inside⟩ := hosts.inside_of_holdsFrom made last held
      exact ⟨made', .single inside⟩
  | tail _ last ih =>
      have ⟨g, held', _⟩ := last
      obtain ⟨made', before⟩ := ih held'
      obtain ⟨made'', inside⟩ := hosts.inside_of_holdsFrom made' last held
      exact ⟨made'', .tail before inside⟩

/--
After a reset, a scope that the session made still holds functions only if none were
declared in it since the last reset, and these were declared in scopes that are empty
now.  Some scope can be reached from itself exactly if there is a ring of scopes, each
of which holds a function that was declared inside the next.  There is none if the
scopes that functions were declared inside of held none themselves, but for those that
the reset has emptied.
-/
theorem Hosts.cycles_of_reset (hosts : world.Hosts session) :
    let after := (world.reset session).2.store
    (∀ a f, session.Made after a → after.Holds a f →
      a ∉ session.scope :: session.captured ∧ session.Made after f.scope ∧
        (after.frame f.scope).bindings = []) ∧
    ((∃ a, session.Made after a ∧ Relation.TransGen after.Refers a a) ↔
      ∃ a, session.Made after a ∧ Relation.TransGen after.HoldsFromInside a a) ∧
    ((∀ a b f g, session.Made world.store a → world.store.Holds a f →
        b ∈ (world.store.frame f.scope).outer → world.store.Holds b g →
        b ∈ session.scope :: session.captured) →
      ∀ a, session.Made after a → ¬ Relation.TransGen after.Refers a a) := by
  intro after
  have nested : after.Nested := hosts.reset.nested
  have rings : (∃ a, session.Made after a ∧ Relation.TransGen after.Refers a a) ↔
      ∃ a, session.Made after a ∧ Relation.TransGen after.HoldsFromInside a a := by
    constructor
    · rintro ⟨a, made, cycle⟩
      obtain ⟨k, around, ring⟩ := nested.exists_holdsFrom_of_cycle cycle
      obtain ⟨f, held⟩ := Store.exists_holds_of_holdsFrom ring
      have made' : session.Made after k := hosts.reset.made_of_holds made around held
      exact ⟨k, hosts.inside_of_path made' ring held⟩
    · rintro ⟨a, made, ring⟩
      exact ⟨a, made, nested.refers_of_holdsFrom (Store.holdsFrom_of_inside ring)⟩
  refine ⟨fun _ _ => hosts.held_of_reset, rings, fun around a made cycle => ?_⟩
  obtain ⟨k, made, ring⟩ := rings.mp ⟨a, made, cycle⟩
  -- the next in the ring holds functions as well
  obtain ⟨b, ⟨f, held, inside⟩, further⟩ := Relation.TransGen.head'_iff.mp ring
  have next : Relation.TransGen after.HoldsFromInside b b := .tail' further ⟨f, held, inside⟩
  obtain ⟨g, held'⟩ := Store.exists_holds_of_holdsFrom (Store.holdsFrom_of_inside next)
  have outer : (after.frame f.scope).outer = (world.store.frame f.scope).outer :=
    List.tail_eq_of_cons_eq (chain_reset world session f.scope)
  rw [Session.Made, chain_reset] at made
  exact (holds_of_reset held').1
    (around k b f g made (holds_of_reset held).2 (outer ▸ inside) (holds_of_reset held').2)

/-- A function handed to another is held in the scope of the call, and all circles are broken. -/
theorem Hosts.cycles_of_reset_after_call :
    let source := "fonction id(x) retourner x fin \x7b fonction f() fin var a = [id(f)] \x7d"
    let desk := Desk.empty.openSession {}
    ∃ report, desk.world.run 9 (initial.newSession {}).1 source = some report ∧
      report.world.Hosts report.session ∧
      report.session.Made report.world.store ⟨2⟩ ∧ report.world.store.Refers ⟨3⟩ ⟨2⟩ ∧
      Relation.TransGen report.world.store.Refers ⟨2⟩ ⟨2⟩ ∧
      ∀ a, report.session.Made (report.world.reset report.session).2.store a →
        ¬ Relation.TransGen (report.world.reset report.session).2.store.Refers a a := by
  intro source desk
  have opened : Desk.empty.step 0 (.newSession {}) = some (desk, none) := rfl
  have found : desk.session? 0 = some (initial.newSession {}).1 := rfl
  have hosts : desk.world.Hosts (initial.newSession {}).1 :=
    .found (Desk.Reachable.empty.step opened) found
  have ran : (desk.world.run 9 (initial.newSession {}).1 source).map (fun report =>
      (report.world.store.outline, report.session.scope :: report.session.captured,
        ((report.world.store.frame ⟨2⟩).get? "f").bind Value.declaredIn?,
        ((report.world.store.frame ⟨3⟩).get? "x").bind Value.declaredIn?)) =
      some ([[], [⟨0⟩], [⟨1⟩, ⟨0⟩], [⟨1⟩, ⟨0⟩]], [⟨1⟩, ⟨2⟩, ⟨1⟩], some ⟨2⟩, some ⟨2⟩) := by
    decide +kernel
  obtain ⟨report, ended, facts⟩ := Option.map_eq_some_iff.mp ran
  simp only [Prod.mk.injEq] at facts
  obtain ⟨outline, emptied, own, handed⟩ := facts
  have hosts' : report.world.Hosts report.session := hosts.run ended
  have scope : report.session.scope = ⟨1⟩ := (List.cons.inj emptied).1
  have made : report.session.Made report.world.store ⟨2⟩ := by
    rw [Session.Made, ← Store.walk_outline, outline, scope]
    decide
  refine ⟨report, ended, hosts', made, Store.refers_of_declaredIn? handed,
    .single (Store.refers_of_declaredIn? own), hosts'.cycles_of_reset.2.2 ?_⟩
  intro a b f g _ _ around held
  -- the only scopes that others stand in are that of the session and the library
  have outer := List.tail_eq_of_cons_eq (Store.walk_outline report.world.store f.scope)
  rw [← outer, outline] at around
  have near : b = ⟨1⟩ ∨ b = ⟨0⟩ := by
    generalize f.scope.index = i at around
    rcases i with _ | _ | _ | _ | i
    · cases around
    · exact .inr (List.mem_singleton.mp around)
    · exact List.mem_pair.mp around
    · exact List.mem_pair.mp around
    · cases around
  rcases near with rfl | rfl
  · rw [emptied]
    exact List.mem_cons_self
  · have library : report.world.library = ⟨0⟩ := hosts'.fits.1.library
    exact absurd (library ▸ held) hosts'.fits.1.not_holds_library

/-- The outer block holds what was declared in the inner one, and is not emptied. -/
theorem Hosts.cycle_after_reset :
    let source := "\x7b var g = nul \x7b fonction f() fin g = f \x7d \x7d"
    let desk := Desk.empty.openSession {}
    ∃ report, desk.world.run 9 (initial.newSession {}).1 source = some report ∧
      report.diagnostic = none ∧ report.world.Hosts report.session ∧
      report.session.Made (report.world.reset report.session).2.store ⟨2⟩ ∧
      Relation.TransGen (report.world.reset report.session).2.store.Refers ⟨2⟩ ⟨2⟩ := by
  intro source desk
  have opened : Desk.empty.step 0 (.newSession {}) = some (desk, none) := rfl
  have found : desk.session? 0 = some (initial.newSession {}).1 := rfl
  have hosts : desk.world.Hosts (initial.newSession {}).1 :=
    .found (Desk.Reachable.empty.step opened) found
  have ran : (desk.world.run 9 (initial.newSession {}).1 source).map (fun report =>
      ((report.world.reset report.session).2.store.chain ⟨2⟩,
        (report.world.reset report.session).2.store.parent? ⟨3⟩,
        (((report.world.reset report.session).2.store.frame ⟨2⟩).get? "g").bind
          Value.declaredIn?, report.session.scope, report.diagnostic.isNone)) =
      some ([⟨2⟩, ⟨1⟩, ⟨0⟩], some ⟨2⟩, some ⟨3⟩, ⟨1⟩, true) := by
    decide +kernel
  obtain ⟨report, ended, facts⟩ := Option.map_eq_some_iff.mp ran
  simp only [Prod.mk.injEq] at facts
  obtain ⟨chain, parent, assigned, scope, well⟩ := facts
  refine ⟨report, ended, Option.isNone_iff_eq_none.mp well, hosts.run ended, ?_, ?_⟩
  · rw [Session.Made, chain, scope]
    decide
  · exact .head (Store.refers_of_declaredIn? assigned) (.single (.parent parent))

end World

end Ardoise
