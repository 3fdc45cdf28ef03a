import Ardoise.Proofs.Sessions.Shape
import Ardoise.Proofs.Simulation.Evaluation

/-!
# Sessions do not disturb each other

Two sessions that have forgotten what they were told stand for each other: the
library and the sessions' own scopes are paired, and nothing else in the stores
can be reached.  So a text does in one of them what it does in the other, and in
particular what it does in a new session of a new world, whatever else happened
at the desk before.
-/

namespace Ardoise

/-! ## The library stands for itself -/

def Value.isBuiltin : Value → Bool
  | .function (.builtin _ _) => true
  | _ => false

private theorem Value.Matches.of_isBuiltin (p : Pairing) {v : Value} (h : v.isBuiltin = true) :
    v.Matches p v := by
  unfold Value.isBuiltin at h
  split at h
  · exact .function (.builtin _ _)
  · cases h

private theorem World.library_isBuiltin :
    (World.initial.store.frame World.initial.library).bindings.all (·.2.isBuiltin) = true := by
  decide +kernel

theorem World.Intact.bindings_match {world world' : World} (p : Pairing) (intact : world.Intact)
    (intact' : world'.Intact) :
    BindingsMatch p (world.store.frame world.library).bindings
      (world'.store.frame world'.library).bindings := by
  rw [intact.frame, intact'.frame]
  have builtin := World.library_isBuiltin
  generalize (World.initial.store.frame World.initial.library).bindings = bindings at builtin
  induction bindings with
  | nil => exact .nil
  | cons binding rest ih =>
      simp only [List.all_cons, Bool.and_eq_true] at builtin
      exact .cons ⟨rfl, .of_isBuiltin p builtin.1⟩ (ih builtin.2)

/-! ## Sessions that remember nothing -/

structure Session.Ready (world : World) (session : Session) : Prop where
  intact : world.Intact
  fits : session.Fits world
  blank : (world.store.frame session.scope).bindings = []

theorem Session.ready_reset {world : World} {session : Session} (intact : world.Intact)
    (fits : session.Fits world) :
    (world.reset session).1.Ready (world.reset session).2 where
  intact := intact.of_spares (World.reset_spares fits)
  fits := World.reset_fits fits
  blank := by
    have cleared := Store.Spares.clearAll world.store fits.captured
    have present := Nat.lt_of_lt_of_le fits.present cleared.size
    have frame := Store.frame_modify_self (world.store.clearAll session.captured) Frame.clear
      present
    exact congrArg Frame.bindings frame

def Pairing.between (b : Blur) (generous : Bool) {world world' : World}
    {session session' : Session} (ready : session.Ready world) (ready' : session'.Ready world') :
    Pairing where
  blur := b
  given := [(world.library, world'.library), (session.scope, session'.scope)]
  firstScope := world.store.frames.size
  firstScope' := world'.store.frames.size
  firstClosure := world.closures
  firstClosure' := world'.closures
  before := world.lines
  before' := world'.lines
  generous := generous
  given_lt := by
    simp [ready.intact.present, ready'.intact.present, ready.fits.present, ready'.fits.present]
  given_unique := by
    simp [ready.fits.apart, ready'.fits.apart, ready.fits.apart.symm, ready'.fits.apart.symm]

section

variable (b : Blur) (generous : Bool) {world world' : World} {session session' : Session}
  (ready : session.Ready world) (ready' : session'.Ready world')

private theorem Pairing.between_store :
    world.store.Matches (.between b generous ready ready') world'.store := by
  have libraries : (Pairing.between b generous ready ready').Scopes world.library
      world'.library := .given (by simp [Pairing.between])
  refine ⟨⟨0, rfl, rfl⟩, fun scopes => ?_⟩
  cases scopes with
  | given member =>
      simp only [Pairing.between, List.mem_cons, Prod.mk.injEq, List.not_mem_nil,
        or_false] at member
      rcases member with ⟨rfl, rfl⟩ | ⟨rfl, rfl⟩
      · refine ⟨?_, ?_, ready.intact.bindings_match _ ready'.intact⟩
        · rw [ready.intact.outer, ready'.intact.outer]
          exact .nil
        · rw [ready.intact.isSealed, ready'.intact.isSealed]
      · refine ⟨?_, ?_, ?_⟩
        · rw [ready.fits.outer, ready'.fits.outer]
          exact .cons libraries .nil
        · rw [ready.fits.isSealed, ready'.fits.isSealed]
        · rw [ready.blank, ready'.blank]
          exact .nil
  | opened k =>
      -- no scope is opened yet
      have absent := Store.frame_of_size_le world.store (Nat.le_add_right _ k)
      have absent' := Store.frame_of_size_le world'.store (Nat.le_add_right _ k)
      simpa only [Pairing.between, absent, absent'] using Frame.Matches.empty .nil

theorem Pairing.between_machine (journal journal' : Array Event) :
    (world.machine session journal).Matches (.between b generous ready ready')
      (world'.machine session' journal') where
  store := between_store b generous ready ready'
  scope := .given (by simp [World.machine, Pairing.between])
  depth := rfl
  lines := ⟨#[], by simp [World.machine, Pairing.between]⟩
  closures := .made 0

/-- Both runs end, or neither does; where the second has more fuel, it may end alone. -/
inductive ReportsMatch (p : Pairing) : Option Report → Option Report → Prop
  | ended {r r' : Report}
      (lines : ∃ printed, r.world.lines = p.before ++ printed ∧
        r'.world.lines = p.before' ++ printed)
      (diagnostic : r'.diagnostic = r.diagnostic.map (Diagnostic.blur p.blur)) :
      ReportsMatch p (some r) (some r')
  | unfinished (o : Option Report) (spent : o = none ∨ p.generous = true) :
      ReportsMatch p none o

theorem ReportsMatch.isSome_eq {p : Pairing} {o o' : Option Report} (h : ReportsMatch p o o')
    (strict : p.generous = false) : o.isSome = o'.isSome := by
  cases h with
  | ended _ _ => rfl
  | unfinished _ spent =>
      rcases spent with rfl | generous
      · rfl
      · simp [strict] at generous

theorem ReportsMatch.of_some {p : Pairing} {r : Report} {o : Option Report}
    (h : ReportsMatch p (some r) o) :
    ∃ r', o = some r' ∧ r'.diagnostic = r.diagnostic.map (Diagnostic.blur p.blur) ∧
      ∃ printed, r.world.lines = p.before ++ printed ∧ r'.world.lines = p.before' ++ printed := by
  cases h with
  | @ended _ r' lines diagnostic => exact ⟨r', rfl, diagnostic, lines⟩

theorem World.runProgram_matches (limits : session'.limits = session.limits) {fuel fuel' : Nat}
    (fuels : (Pairing.between b generous ready ready').Fuels fuel fuel')
    (journal journal' : Array Event) (program : Program) :
    ReportsMatch (.between b generous ready ready')
      (world.runProgram fuel session journal program)
      (world'.runProgram fuel' session' journal' (Stmt.blurAll b program)) := by
  have outcomes := simulates_runProgram session.limits fuels program _ _
    (Pairing.between_machine b generous ready ready' journal journal')
  simp only [World.runProgram, limits]
  generalize Ardoise.runProgram session.limits fuel program _ = outcome at outcomes
  change Outcome.Matches _ _ outcome (Ardoise.runProgram session.limits fuel'
    (Stmt.blurAll b program) (world'.machine session' journal')) at outcomes
  generalize Ardoise.runProgram session.limits fuel' _ _ = outcome' at outcomes
  cases outcomes with
  | done _ machines => exact .ended machines.lines rfl
  | failed fault machines => exact .ended machines.lines rfl
  | exhausted o spent =>
      exact .unfinished _ (spent.imp_left fun same => by rw [same])

/-- A text does the same in any two sessions that remember nothing. -/
theorem World.run_matches (limits : session'.limits = session.limits) {fuel fuel' : Nat}
    (fuels : (Pairing.between .sharp generous ready ready').Fuels fuel fuel') (source : String) :
    ReportsMatch (.between .sharp generous ready ready') (world.run fuel session source)
      (world'.run fuel' session' source) := by
  have still : ∃ printed, world.lines = world.lines ++ printed ∧
      world'.lines = world'.lines ++ printed := ⟨#[], by simp⟩
  simp only [World.run, limits]
  cases scan source with
  | error fault => exact .ended still rfl
  | ok tokens =>
      dsimp only
      cases parse session.limits.nesting tokens with
      | error fault => exact .ended still rfl
      | ok program =>
          have runs := World.runProgram_matches .sharp generous ready ready' limits fuels
            ((#[Event.scanned tokens.length].push (.parsed program.length)).push (.listed program))
            ((#[Event.scanned tokens.length].push (.parsed program.length)).push (.listed program))
            program
          rwa [Stmt.blurAll_sharp] at runs

end

namespace World

variable {world world' : World} {session session' : Session}

theorem interpret_matches (generous : Bool) (intact : world.Intact) (fits : session.Fits world)
    (intact' : world'.Intact) (fits' : session'.Fits world')
    (limits : session'.limits = session.limits) {fuel fuel' : Nat}
    (fuels : fuel = fuel' ∨ generous = true ∧ fuel ≤ fuel') (source : String) :
    ReportsMatch (.between .sharp generous (Session.ready_reset intact fits)
        (Session.ready_reset intact' fits'))
      (world.interpret fuel session source) (world'.interpret fuel' session' source) := by
  have ready := Session.ready_reset intact fits
  have ready' := Session.ready_reset intact' fits'
  exact World.run_matches generous ready ready' limits (.of fuels) source

private theorem interpret_isSome_eq (intact : world.Intact) (fits : session.Fits world)
    (intact' : world'.Intact) (fits' : session'.Fits world')
    (limits : session'.limits = session.limits) (fuel : Nat) (source : String) :
    (world.interpret fuel session source).isSome =
      (world'.interpret fuel session' source).isSome := by
  have reports := interpret_matches false intact fits intact' fits' limits
    (.inl (Eq.refl fuel)) source
  exact reports.isSome_eq rfl

theorem interpret_agrees_of_le (intact : world.Intact) (fits : session.Fits world)
    (intact' : world'.Intact) (fits' : session'.Fits world')
    (limits : session'.limits = session.limits) {fuel fuel' : Nat} (le : fuel ≤ fuel')
    {source : String} {r r' : Report} (ran : world.interpret fuel session source = some r)
    (ran' : world'.interpret fuel' session' source = some r') :
    (∃ printed, r.world.lines = world.lines ++ printed ∧
      r'.world.lines = world'.lines ++ printed) ∧ r.diagnostic = r'.diagnostic := by
  have reports := interpret_matches true intact fits intact' fits' limits (.inr ⟨rfl, le⟩) source
  rw [ran, ran'] at reports
  obtain ⟨_, ⟨⟩, diagnostic, lines⟩ := reports.of_some
  have same : Diagnostic.blur .sharp = id := funext Diagnostic.blur_sharp
  refine ⟨lines, ?_⟩
  rw [diagnostic, Pairing.between, same, Option.map_id]
  rfl

/-- What a text does in two sessions does not depend on how much fuel is left over, either. -/
theorem interpret_agrees (intact : world.Intact) (fits : session.Fits world)
    (intact' : world'.Intact) (fits' : session'.Fits world')
    (limits : session'.limits = session.limits) {fuel fuel' : Nat}
    {source : String} {r r' : Report} (ran : world.interpret fuel session source = some r)
    (ran' : world'.interpret fuel' session' source = some r') :
    (∃ printed, r.world.lines = world.lines ++ printed ∧
      r'.world.lines = world'.lines ++ printed) ∧ r.diagnostic = r'.diagnostic := by
  rcases Nat.le_total fuel fuel' with le | le
  · exact interpret_agrees_of_le intact fits intact' fits' limits le ran ran'
  · obtain ⟨⟨printed, lines', lines⟩, same⟩ :=
      interpret_agrees_of_le intact' fits' intact fits limits.symm le ran' ran
    exact ⟨⟨printed, lines, lines'⟩, same.symm⟩

end World

namespace Desk

variable {history : List Step} {desk : Desk} {number : Nat} {session : Session}

/--
Whatever was done at a desk before, a session that is open there answers to a
text as a new session with its limits does in a new world: it ends with the same
fuel, prints the same lines and gives the same diagnostic, if any.
-/
theorem interpret_as_in_new_world (reachable : Reachable history desk)
    (found : desk.session? number = some session) (source : String) :
    ∃ limits, (opened history)[number]? = some limits ∧
      (∀ fuel, (desk.interpret fuel number source).isSome =
        (Ardoise.interpret fuel limits source).isSome) ∧
      ∀ {fuel fuel' : Nat} {next : Desk} {diagnostic : Option Diagnostic} {report : Report},
        desk.interpret fuel number source = some (next, diagnostic) →
        Ardoise.interpret fuel' limits source = some report →
        next.world.lines = desk.world.lines ++ report.world.lines ∧
          diagnostic = report.diagnostic := by
  have sound := reachable.sound
  obtain ⟨fits, limits⟩ := sound.fits found
  obtain ⟨spared, fits'⟩ := World.intact_initial.newSession session.limits
  have intact' := World.intact_initial.of_spares spared
  refine ⟨session.limits, limits, ?_, ?_⟩
  · intro fuel
    have same := World.interpret_isSome_eq sound.intact fits intact' fits' rfl fuel source
    rw [Ardoise.interpret, ← same]
    simp only [Desk.interpret, found]
    cases desk.world.interpret fuel session source <;> rfl
  · intro fuel fuel' next diagnostic report ran ran'
    obtain ⟨ended, within, rfl, rfl⟩ := (interpret_eq_some found).mp ran
    obtain ⟨⟨printed, lines, lines'⟩, same⟩ :=
      World.interpret_agrees sound.intact fits intact' fits' rfl within ran'
    have empty : (World.initial.newSession session.limits).2.lines = #[] := rfl
    rw [empty, Array.empty_append] at lines'
    exact ⟨by rw [lines, lines'], same⟩

/-- The session was told of `a` and `f` by a text that failed, and knows neither any more. -/
theorem interpret_as_in_new_world_after_failure :
    let told := "var a = 1 fonction f() retourner a fin afficher f() afficher b"
    let asked := "afficher 2 afficher a"
    ∃ desk next report, Reachable [.newSession {}, .interpret 0 told] desk ∧
      desk.interpret 20 0 asked = some (next, report.diagnostic) ∧
      Ardoise.interpret 20 {} asked = some report ∧
      next.world.lines = desk.world.lines ++ report.world.lines := by
  intro told asked
  have first : (((Desk.empty.openSession {}).interpret 20 0 told).bind
      (·.1.session? 0)).isSome = true := by decide +kernel
  have fresh : (Ardoise.interpret 20 {} asked).isSome = true := by decide +kernel
  obtain ⟨session, found⟩ := Option.isSome_iff_exists.mp first
  obtain ⟨⟨desk, diagnostic⟩, taken, found⟩ := Option.bind_eq_some_iff.mp found
  have opening : Desk.empty.step 20 (.newSession {}) = some (Desk.empty.openSession {}, none) := rfl
  have telling : (Desk.empty.openSession {}).step 20 (.interpret 0 told) =
      some (desk, diagnostic) := taken
  have reachable := (Reachable.empty.step opening).step telling
  obtain ⟨limits, opened, ends, same⟩ := interpret_as_in_new_world reachable found asked
  cases opened
  obtain ⟨⟨next, diagnostic'⟩, ran⟩ := Option.isSome_iff_exists.mp ((ends 20).trans fresh)
  obtain ⟨report, ran'⟩ := Option.isSome_iff_exists.mp fresh
  obtain ⟨lines, rfl⟩ := same ran ran'
  exact ⟨desk, next, report, reachable, ran, ran', lines⟩

end Desk

end Ardoise
