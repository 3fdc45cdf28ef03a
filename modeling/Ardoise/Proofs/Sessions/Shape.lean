import Ardoise.Desk
import Ardoise.Proofs.Effects

/-!
# The library and the sessions keep their shape

Whatever runs, fails or is dropped, the library scope stays as it was built,
and every session keeps a scope of its own, placed directly inside the library
and open to assignment.  No session ever notes the library among the scopes to
be cleared: `Desk.Reachable.sound` says so of every desk that can come about.
-/

namespace Ardoise

/-! ## Stores that differ outside the library -/

/-- No scope of the first store was moved or sealed, and the library was not touched at all. -/
structure Store.Spares (library : Scope) (s t : Store) : Prop where
  size : s.frames.size ≤ t.frames.size
  library : t.frame library = s.frame library
  outer : ∀ a : Scope, a.index < s.frames.size → (t.frame a).outer = (s.frame a).outer
  isSealed : ∀ a : Scope, a.index < s.frames.size → (t.frame a).isSealed = (s.frame a).isSealed

namespace Store.Spares

variable {library : Scope} {r s t : Store}

theorem refl (s : Store) : Store.Spares library s s :=
  ⟨Nat.le_refl _, rfl, fun _ _ => rfl, fun _ _ => rfl⟩

theorem trans (first : Store.Spares library r s) (second : Store.Spares library s t) :
    Store.Spares library r t where
  size := Nat.le_trans first.size second.size
  library := second.library.trans first.library
  outer a present := by
    have present' : a.index < s.frames.size := Nat.lt_of_lt_of_le present first.size
    rw [second.outer a present', first.outer a present]
  isSealed a present := by
    have present' : a.index < s.frames.size := Nat.lt_of_lt_of_le present first.size
    rw [second.isSealed a present', first.isSealed a present]

theorem modify (s : Store) {scope : Scope} (apart : scope ≠ library) {f : Frame → Frame}
    (outer : ∀ frame, (f frame).outer = frame.outer)
    (isSealed : ∀ frame, (f frame).isSealed = frame.isSealed) :
    Store.Spares library s (s.modify scope f) where
  size := by simp [Store.modify]
  library := frame_modify_of_ne s f apart.symm
  outer a present := by
    by_cases same : a = scope
    · subst same
      rw [frame_modify_self s f present, outer]
    · rw [frame_modify_of_ne s f same]
  isSealed a present := by
    by_cases same : a = scope
    · subst same
      rw [frame_modify_self s f present, isSealed]
    · rw [frame_modify_of_ne s f same]

theorem bind (s : Store) {scope : Scope} (apart : scope ≠ library) (name : String)
    (value : Value) : Store.Spares library s (s.bind scope name value) :=
  modify s apart (fun _ => rfl) (fun _ => rfl)

theorem clear (s : Store) {scope : Scope} (apart : scope ≠ library) :
    Store.Spares library s (s.clear scope) :=
  modify s apart (fun _ => rfl) (fun _ => rfl)

theorem clearAll (s : Store) {scopes : List Scope} (apart : library ∉ scopes) :
    Store.Spares library s (s.clearAll scopes) := by
  induction scopes generalizing s with
  | nil => exact refl s
  | cons scope rest ih =>
      simp only [List.mem_cons, not_or] at apart
      exact (clear s (Ne.symm apart.1)).trans (ih (s.clear scope) apart.2)

theorem push (s : Store) (present : library.index < s.frames.size) (outer : List Scope) :
    Store.Spares library s (s.push outer).2 where
  size := by simp [Store.push]
  library := frame_push_of_lt s outer present
  outer a there := by rw [frame_push_of_lt s outer there]
  isSealed a there := by rw [frame_push_of_lt s outer there]

theorem assign {scope : Scope} {name : String} {value : Value}
    (isSealed : (s.frame library).isSealed = true)
    (h : s.assign scope name value = .ok t) : Store.Spares library s t := by
  unfold Store.assign at h
  split at h
  · cases h
  · rename_i holder _
    split at h
    · cases h
    · rename_i free
      cases h
      have apart : holder ≠ library := by
        rintro rfl
        exact free isSealed
      exact bind s apart name value

theorem define {scope : Scope} {name : String} {value : Value} (apart : scope ≠ library)
    (h : s.define scope name value = .ok t) : Store.Spares library s t := by
  unfold Store.define at h
  split at h
  · cases h
  · cases h
    exact bind s apart name value

end Store.Spares

/-! ## Runs -/

structure Machine.Guards (library : Scope) (m : Machine) : Prop where
  apart : m.scope ≠ library
  present : library.index < m.store.frames.size
  isSealed : (m.store.frame library).isSealed = true

structure Machine.Spares (library : Scope) (m n : Machine) : Prop where
  store : Store.Spares library m.store n.store
  scope : n.scope = m.scope
  captured : library ∈ n.captured → library ∈ m.captured

namespace Machine

variable {library : Scope} {m n : Machine}

theorem Guards.of_spares (guards : m.Guards library) (h : m.Spares library n) :
    n.Guards library where
  apart := h.scope ▸ guards.apart
  present := Nat.lt_of_lt_of_le guards.present h.store.size
  isSealed := by rw [h.store.library, guards.isSealed]

theorem Guards.enter (guards : m.Guards library) (outer : Scope) :
    (m.enter outer).Guards library where
  apart := by
    have present := guards.present
    rintro rfl
    simp [Machine.enter, Store.newChild, Store.push] at present
  present := by
    have present := guards.present
    simp only [Machine.enter, Store.newChild, Store.push, Array.size_push]
    omega
  isSealed := by
    have same := Store.frame_push_of_lt m.store (m.store.chain outer) guards.present
    simp only [Machine.enter, Store.newChild]
    rw [same, guards.isSealed]

theorem Spares.trans {k : Machine} (first : m.Spares library n) (second : n.Spares library k) :
    m.Spares library k :=
  ⟨first.store.trans second.store, second.scope.trans first.scope,
    fun member => first.captured (second.captured member)⟩

end Machine

/-- No run touches a library that is sealed and not current. -/
theorem effects_spares (library : Scope) :
    Effects (fun m n => m.Guards library → m.Spares library n)
      (fun m n => m.Guards library → m.Spares library n) where
  refl m _ := ⟨.refl _, rfl, id⟩
  trans first second guards := by
    have reached := first guards
    exact reached.trans (second (guards.of_spares reached))
  stmtTrans first second guards := by
    have reached := first guards
    exact reached.trans (second (guards.of_spares reached))
  lift h := h
  record m event _ := ⟨.refl _, rfl, id⟩
  print m line _ := ⟨.refl _, rfl, id⟩
  assign assigned guards := ⟨.assign guards.isSealed assigned, rfl, id⟩
  declare declared guards := ⟨.define guards.apart declared, rfl, id⟩
  capture m guards := by
    refine ⟨.refl _, rfl, fun member => ?_⟩
    simp only [List.mem_cons] at member
    rcases member with same | old
    · exact absurd same.symm guards.apart
    · exact old
  leave {m n} outer inner guards := by
    have opened := Store.Spares.push m.store guards.present (m.store.chain outer)
    have worked := inner (guards.enter outer)
    exact ⟨opened.trans worked.store, rfl, worked.captured⟩
  call inner guards := by
    have worked := inner ⟨guards.apart, guards.present, guards.isSealed⟩
    exact ⟨worked.store, worked.scope, worked.captured⟩

/-! ## Worlds and sessions -/

structure World.Intact (world : World) : Prop where
  library : world.library = World.initial.library
  present : world.library.index < world.store.frames.size
  frame : world.store.frame world.library = World.initial.store.frame World.initial.library

structure Session.Fits (world : World) (session : Session) : Prop where
  present : session.scope.index < world.store.frames.size
  apart : session.scope ≠ world.library
  outer : (world.store.frame session.scope).outer = [world.library]
  isSealed : (world.store.frame session.scope).isSealed = false
  captured : world.library ∉ session.captured

structure World.Spares (world next : World) : Prop where
  library : next.library = world.library
  store : Store.Spares world.library world.store next.store

namespace World

variable {world next : World} {session : Session}

theorem Spares.trans {last : World} (first : world.Spares next) (second : next.Spares last) :
    world.Spares last :=
  ⟨second.library.trans first.library, first.store.trans (first.library ▸ second.store)⟩

theorem Intact.isSealed (intact : world.Intact) :
    (world.store.frame world.library).isSealed = true := by
  rw [intact.frame]
  rfl

theorem Intact.outer (intact : world.Intact) :
    (world.store.frame world.library).outer = [] := by
  rw [intact.frame]
  rfl

theorem Intact.of_spares (intact : world.Intact) (h : world.Spares next) : next.Intact where
  library := h.library.trans intact.library
  present := h.library ▸ Nat.lt_of_lt_of_le intact.present h.store.size
  frame := by rw [h.library, h.store.library, intact.frame]

theorem intact_initial : World.initial.Intact :=
  ⟨rfl, by decide, rfl⟩

theorem Intact.guards (intact : world.Intact) (fits : session.Fits world)
    (journal : Array Event) : (world.machine session journal).Guards world.library :=
  ⟨fits.apart, intact.present, intact.isSealed⟩

end World

namespace Session.Fits

variable {world next : World} {session : Session}

theorem of_spares (fits : session.Fits world) (h : world.Spares next) : session.Fits next where
  present := Nat.lt_of_lt_of_le fits.present h.store.size
  apart := h.library ▸ fits.apart
  outer := by rw [h.store.outer _ fits.present, fits.outer, h.library]
  isSealed := by rw [h.store.isSealed _ fits.present, fits.isSealed]
  captured := h.library ▸ fits.captured

end Session.Fits

namespace World

variable {world : World} {session : Session}

theorem Intact.newSession (intact : world.Intact) (limits : Limits) :
    world.Spares (world.newSession limits).2 ∧
      (world.newSession limits).1.Fits (world.newSession limits).2 := by
  have pushed := Store.Spares.push world.store intact.present (world.store.chain world.library)
  refine ⟨⟨rfl, pushed⟩, ?_⟩
  have frame := Store.frame_push_self world.store (world.store.chain world.library)
  have present := intact.present
  constructor
  · simp [World.newSession, Store.newChild, Store.push]
  · intro same
    have index : world.store.frames.size = world.library.index := congrArg Scope.index same
    omega
  · refine (congrArg Frame.outer frame).trans ?_
    simp only [Frame.empty, Store.chain, intact.outer]
    rfl
  · exact congrArg Frame.isSealed frame
  · exact List.not_mem_nil

theorem reset_spares (fits : session.Fits world) : world.Spares (world.reset session).2 :=
  ⟨rfl, (Store.Spares.clearAll world.store fits.captured).trans (.clear _ fits.apart)⟩

theorem reset_fits (fits : session.Fits world) :
    (world.reset session).1.Fits (world.reset session).2 := by
  have kept := fits.of_spares (reset_spares fits)
  exact ⟨kept.present, kept.apart, kept.outer, kept.isSealed, List.not_mem_nil⟩

theorem report_spares {journal : Array Event} {machine : Machine} (fits : session.Fits world)
    (ran : (world.machine session journal).Spares world.library machine)
    (diagnostic : Option Diagnostic) :
    let report := World.report world.library session.limits session.scope machine diagnostic
    world.Spares report.world ∧ report.session.Fits report.world ∧
      report.session.limits = session.limits := by
  have spared : world.Spares ⟨machine.store, world.library, machine.lines, machine.closures⟩ :=
    ⟨rfl, ran.store⟩
  have kept := fits.of_spares spared
  have captured : world.library ∉ machine.captured := fun member =>
    fits.captured (ran.captured member)
  exact ⟨spared, ⟨kept.present, kept.apart, kept.outer, kept.isSealed, captured⟩, rfl⟩

private theorem runProgram_spares {fuel : Nat} {journal : Array Event} {program : Program}
    {report : Report} (intact : world.Intact) (fits : session.Fits world)
    (h : world.runProgram fuel session journal program = some report) :
    world.Spares report.world ∧ report.session.Fits report.world ∧
      report.session.limits = session.limits := by
  have ran := (effects_spares world.library).within_runProgram session.limits fuel program
    (world.machine session journal)
  simp only [World.runProgram] at h
  split at h
  · rename_i machine done
    rw [done] at ran
    cases h
    exact report_spares fits (ran (intact.guards fits journal)) none
  · rename_i fault machine failed
    rw [failed] at ran
    cases h
    exact report_spares fits (ran (intact.guards fits journal)) (some (.runtime fault))
  · cases h

/-- A run that ends, well or not, leaves the library and every other session alone. -/
theorem run_spares {fuel : Nat} {source : String} {report : Report} (intact : world.Intact)
    (fits : session.Fits world) (h : world.run fuel session source = some report) :
    world.Spares report.world ∧ report.session.Fits report.world ∧
      report.session.limits = session.limits := by
  have still : world.Spares world := ⟨rfl, .refl _⟩
  unfold World.run at h
  split at h
  · cases h
    exact ⟨still, fits, rfl⟩
  · split at h
    · cases h
      exact ⟨still, fits, rfl⟩
    · exact runProgram_spares intact fits h

theorem interpret_spares {fuel : Nat} {source : String} {report : Report} (intact : world.Intact)
    (fits : session.Fits world) (h : world.interpret fuel session source = some report) :
    world.Spares report.world ∧ report.session.Fits report.world ∧
      report.session.limits = session.limits := by
  have reset := reset_spares fits
  have ran := run_spares (intact.of_spares reset) (reset_fits fits) h
  exact ⟨reset.trans ran.1, ran.2⟩

end World

/-! ## Desks -/

namespace Desk

def Step.limits? : Step → Option Limits
  | .newSession limits => some limits
  | _ => none

def opened (history : List Step) : List Limits :=
  history.filterMap Step.limits?

/-- The desks that a history of steps, each of which ends, can lead to. -/
inductive Reachable : List Step → Desk → Prop
  | empty : Reachable [] Desk.empty
  | step {history : List Step} {desk next : Desk} {fuel : Nat} {step : Step}
      {diagnostic : Option Diagnostic} (before : Reachable history desk)
      (taken : desk.step fuel step = some (next, diagnostic)) :
      Reachable (history ++ [step]) next

structure Sound (limits : List Limits) (desk : Desk) : Prop where
  intact : desk.world.Intact
  size : desk.sessions.size = limits.length
  fits : ∀ {number : Nat} {session : Session}, desk.session? number = some session →
    session.Fits desk.world ∧ limits[number]? = some session.limits

variable {desk : Desk} {limits : List Limits}

private theorem sound_empty : Desk.empty.Sound [] := by
  refine ⟨World.intact_initial, rfl, ?_⟩
  intro number session found
  simp [Desk.session?, Desk.empty] at found

theorem session?_openSession (limits : Limits) {number : Nat} {session : Session}
    (found : (desk.openSession limits).session? number = some session) :
    number = desk.sessions.size ∧ session = (desk.world.newSession limits).1 ∨
      desk.session? number = some session := by
  simp only [Desk.session?, Desk.openSession, Array.getD_eq_getD_getElem?,
    Array.getElem?_push] at found
  split at found
  · rename_i last
    cases found
    exact .inl ⟨last, rfl⟩
  · exact .inr (by simpa [Desk.session?, Array.getD_eq_getD_getElem?] using found)

theorem Sound.openSession (sound : desk.Sound limits) (new : Limits) :
    (desk.openSession new).Sound (limits ++ [new]) := by
  obtain ⟨spared, fresh⟩ := sound.intact.newSession new
  refine ⟨sound.intact.of_spares spared, by simp [Desk.openSession, sound.size], ?_⟩
  intro number session found
  rcases session?_openSession new found with ⟨last, rfl⟩ | earlier
  · rw [last, sound.size]
    exact ⟨fresh, by simp [World.newSession]⟩
  · obtain ⟨fits, same⟩ := sound.fits earlier
    obtain ⟨there, _⟩ := List.getElem?_eq_some_iff.mp same
    rw [List.getElem?_append_left there]
    exact ⟨fits.of_spares spared, same⟩

theorem session?_store (world : World) {stored : Option Session} {number i : Nat}
    {session : Session}
    (found : Desk.session? ⟨world, desk.sessions.setIfInBounds number stored⟩ i = some session) :
    i = number ∧ stored = some session ∨ i ≠ number ∧ desk.session? i = some session := by
  simp only [Desk.session?, Array.getD_eq_getD_getElem?, Array.getElem?_setIfInBounds] at found
  split at found
  · rename_i same
    split at found
    · exact .inl ⟨same.symm, by simpa using found⟩
    · cases found
  · rename_i differs
    exact .inr ⟨Ne.symm differs,
      by simpa [Desk.session?, Array.getD_eq_getD_getElem?] using found⟩

theorem Sound.store {world : World} (sound : desk.Sound limits)
    (spared : desk.world.Spares world) (number : Nat) {stored : Option Session}
    (fits : ∀ session, stored = some session →
      session.Fits world ∧ limits[number]? = some session.limits) :
    Desk.Sound limits ⟨world, desk.sessions.setIfInBounds number stored⟩ := by
  refine ⟨sound.intact.of_spares spared, by simp [sound.size], ?_⟩
  intro other session found
  rcases session?_store world found with ⟨rfl, same⟩ | ⟨_, earlier⟩
  · exact fits session same
  · exact ⟨(sound.fits earlier).1.of_spares spared, (sound.fits earlier).2⟩

theorem interpret_eq_some {fuel number : Nat} {source : String} {next : Desk}
    {diagnostic : Option Diagnostic} {session : Session}
    (found : desk.session? number = some session) :
    desk.interpret fuel number source = some (next, diagnostic) ↔
      ∃ report, desk.world.interpret fuel session source = some report ∧
        next = ⟨report.world, desk.sessions.setIfInBounds number (some report.session)⟩ ∧
        diagnostic = report.diagnostic := by
  simp only [Desk.interpret, found]
  cases desk.world.interpret fuel session source with
  | none => simp
  | some report => simp [eq_comm]

theorem Sound.interpret {fuel number : Nat} {source : String} {next : Desk}
    {diagnostic : Option Diagnostic} (sound : desk.Sound limits)
    (h : desk.interpret fuel number source = some (next, diagnostic)) : next.Sound limits := by
  cases found : desk.session? number with
  | none =>
      simp only [Desk.interpret, found, Option.some.injEq, Prod.mk.injEq] at h
      exact h.1 ▸ sound
  | some session =>
      obtain ⟨report, ran, rfl, _⟩ := (interpret_eq_some found).mp h
      obtain ⟨fits, limits⟩ := sound.fits found
      obtain ⟨spared, fits', same⟩ := World.interpret_spares sound.intact fits ran
      refine sound.store spared number ?_
      rintro _ ⟨⟩
      exact ⟨fits', by rw [same, limits]⟩

theorem Sound.drop (sound : desk.Sound limits) (number : Nat) :
    (desk.drop number).Sound limits := by
  unfold Desk.drop
  split
  · exact sound
  · rename_i session found
    exact sound.store (World.reset_spares (sound.fits found).1) number (by simp)

theorem Sound.clearLines (sound : desk.Sound limits) :
    Desk.Sound limits { desk with world := desk.world.clearLines } := by
  refine ⟨⟨sound.intact.library, sound.intact.present, sound.intact.frame⟩, sound.size, ?_⟩
  intro number session found
  obtain ⟨fits, same⟩ := sound.fits found
  exact ⟨⟨fits.present, fits.apart, fits.outer, fits.isSealed, fits.captured⟩, same⟩

theorem Sound.step {history : List Step} {fuel : Nat} {step : Step} {next : Desk}
    {diagnostic : Option Diagnostic} (sound : desk.Sound (opened history))
    (h : desk.step fuel step = some (next, diagnostic)) :
    next.Sound (opened (history ++ [step])) := by
  rw [opened, List.filterMap_append]
  cases step with
  | newSession new =>
      cases h
      exact sound.openSession new
  | interpret number source =>
      rw [List.filterMap_cons_none rfl, List.filterMap_nil, List.append_nil]
      exact sound.interpret h
  | drop number =>
      cases h
      rw [List.filterMap_cons_none rfl, List.filterMap_nil, List.append_nil]
      exact sound.drop number
  | clearLines =>
      cases h
      rw [List.filterMap_cons_none rfl, List.filterMap_nil, List.append_nil]
      exact sound.clearLines

theorem Reachable.sound {history : List Step} (h : Reachable history desk) :
    desk.Sound (opened history) := by
  induction h with
  | empty => exact sound_empty
  | step _ taken ih => exact ih.step taken

end Desk

end Ardoise
