import Ardoise.Proofs.Curtailed
import Ardoise.Proofs.Layout

/-!
# Calls in progress

The calls in progress at a moment are the calls among the tasks around it.  They
are what the machine counts, so there are never more of them than the limit
allows.  A run that the limit stops has printed what it prints without it, up to
the moment at which as many calls are in progress as are allowed.
-/

namespace Ardoise

theorem effects_depth :
    Effects (fun m n => n.depth = m.depth) (fun m n => n.depth = m.depth) where
  refl _ := rfl
  trans h h' := h'.trans h
  stmtTrans h h' := h'.trans h
  lift := id
  record _ _ := rfl
  print _ _ := rfl
  assign _ := rfl
  declare _ := rfl
  capture _ := rfl
  leave _ h := h
  call h := by simp [h]

namespace Moment

variable {limit : Nat} {x y : Moment}

theorem LeadsTo.depth_eq (step : LeadsTo limit x y) :
    y.machine.depth = x.machine.depth + if x.task.isCall then 1 else 0 := by
  cases calling : x.task.isCall with
  | false =>
      exact step.preserves_inside (P := fun m => m.depth = x.machine.depth) effects_depth
        (fun same h => same.trans h) (fun h => h) calling rfl
  | true =>
      cases step with
      | callBody admitted declared =>
          obtain ⟨-, rfl⟩ := guardDepth_done admitted
          obtain ⟨store, rfl, _⟩ := Run.declareAllIn_done declared
          rfl
      | _ => cases calling

theorem LeadsTo.depth_le (step : LeadsTo limit x y) (h : x.machine.depth ≤ limit) :
    y.machine.depth ≤ limit := by
  rw [step.depth_eq]
  cases calling : x.task.isCall with
  | false => exact h
  | true =>
      cases step with
      | callBody admitted declared => exact (guardDepth_done admitted).1
      | _ => cases calling

/-- The run from `x` on comes to `y` within the listed tasks, the innermost first. -/
inductive Inside (limit : Nat) (x : Moment) : List Moment → Moment → Prop
  | start : Inside limit x [] x
  | step {around : List Moment} {y z : Moment} (path : Inside limit x around y)
      (leads : LeadsTo limit y z) : Inside limit x (y :: around) z

def calls (around : List Moment) : Nat := around.countP (·.task.isCall)

@[simp] theorem calls_cons (y : Moment) (around : List Moment) :
    calls (y :: around) = calls around + if y.task.isCall then 1 else 0 :=
  List.countP_cons

theorem Inside.depth_eq {around : List Moment} (path : Inside limit x around y) :
    y.machine.depth = x.machine.depth + calls around := by
  induction path with
  | start => rfl
  | step _ leads ih =>
      rw [leads.depth_eq, ih, calls_cons, Nat.add_assoc]

theorem Inside.depth_le {around : List Moment} (path : Inside limit x around y)
    (h : x.machine.depth ≤ limit) : y.machine.depth ≤ limit := by
  induction path with
  | start => exact h
  | step _ leads ih => exact leads.depth_le ih

private theorem exists_inside (path : Relation.ReflTransGen (LeadsTo limit) x y) :
    ∃ around, Inside limit x around y := by
  induction path with
  | refl => exact ⟨[], .start⟩
  | tail _ leads ih =>
      obtain ⟨around, inside⟩ := ih
      exact ⟨_, inside.step leads⟩

/--
The run from `x` on comes to a call expression at `span`, and is about to call a
declared function from there, within as many calls as the limit allows.
-/
inductive FillsUp (limit : Nat) (x : Moment) (span : Span) : Prop
  | call {around : List Moment} {fuel fuel' : Nat} {m n : Machine} {argumentsSpan : Span}
      {callee : Expr} {arguments : List Expr} {f : Closure} {values : List Value}
      (path : Inside limit x
        (⟨fuel, .expression (.call span argumentsSpan callee arguments), m⟩ :: around)
        ⟨fuel', .call (.closure f) values span, n⟩)
      (full : calls around = limit)

/-- A function is called from a call expression, and a program is no call itself. -/
theorem fillsUp_of_path {fuel fuel' : Nat} {program : Program} {m n : Machine} {f : Closure}
    {values : List Value} {span : Span}
    (path : Relation.ReflTransGen (LeadsTo limit) ⟨fuel, .statements program, m⟩
      ⟨fuel', .call (.closure f) values span, n⟩)
    (idle : m.depth = 0) (full : limit ≤ n.depth) :
    FillsUp limit ⟨fuel, .statements program, m⟩ span := by
  obtain ⟨around, inside⟩ := exists_inside path
  have depth := inside.depth_eq
  have within := inside.depth_le (by simp only [idle]; exact Nat.zero_le limit)
  cases inside with
  | step path leads =>
      cases leads with
      | call found agree given =>
          refine .call (path.step (.call found agree given)) ?_
          simp only [idle, calls_cons, Task.isCall, Bool.false_eq_true, if_false] at depth within
          omega

end Moment

/-! ## Runs under two limits -/

namespace World

private theorem runProgram_curtailed {world : World} {session : Session} {higher : Nat}
    (le : session.limits.callDepth ≤ higher) {journal : Array Event} {program : Program}
    {fuel : Nat} {report report' : Report}
    (ran : world.runProgram fuel session journal program = some report)
    (ran' : world.runProgram fuel
      { session with limits := { session.limits with callDepth := higher } } journal program =
        some report') :
    (report.world.lines = report'.world.lines ∧ report.diagnostic = report'.diagnostic) ∨
    ∃ span,
      report.diagnostic = some (.runtime ⟨span, .callDepthExceeded session.limits.callDepth⟩) ∧
      report.world.lines.toList <+: report'.world.lines.toList ∧
      Moment.FillsUp session.limits.callDepth
        ⟨fuel, .statements program, world.machine session journal⟩ span := by
  have curtailed := curtailed_runProgram le fuel program (world.machine session journal)
  have machine_eq (limits : Limits) : world.machine { session with limits := limits } journal =
      world.machine session journal := rfl
  simp only [World.runProgram, machine_eq] at ran ran'
  generalize Ardoise.runProgram session.limits fuel program _ = o at ran curtailed
  generalize Ardoise.runProgram { session.limits with callDepth := higher } fuel program _ = o'
    at ran' curtailed
  cases curtailed with
  | same =>
      left
      cases o with
      | done => cases ran; cases ran'; exact ⟨rfl, rfl⟩
      | failed => cases ran; cases ran'; exact ⟨rfl, rfl⟩
      | exhausted => cases ran
  | @cut _ _ _ _ span _ _ path full further =>
      right
      cases ran
      refine ⟨span, rfl, ?_, Moment.fillsUp_of_path path rfl full⟩
      cases o' with
      | done => cases ran'; exact further
      | failed => cases ran'; exact further
      | exhausted => cases ran'

end World

def FillsUp (limits : Limits) (source : String) (span : Span) : Prop :=
  ∃ tokens program journal fuel, scan source = .ok tokens ∧
    parse limits.nesting tokens = .ok program ∧
    Moment.FillsUp limits.callDepth ⟨fuel, .statements program,
      (World.fresh limits).2.machine (World.fresh limits).1 journal⟩ span

private theorem interpret_of_refused {limits : Limits} {source : String}
    (refused : ∀ tokens program, scan source = .ok tokens →
      parse limits.nesting tokens ≠ .ok program) (higher fuel fuel' : Nat) {report report' : Report}
    (ran : interpret fuel limits source = some report)
    (ran' : interpret fuel' { limits with callDepth := higher } source = some report') :
    report.world.lines = report'.world.lines ∧ report.diagnostic = report'.diagnostic := by
  change (World.fresh limits).2.run fuel (World.fresh limits).1 source = _ at ran
  change (World.fresh limits).2.run fuel'
    { (World.fresh limits).1 with limits := { limits with callDepth := higher } } source = _ at ran'
  have same : (World.fresh limits).1.limits = limits := rfl
  cases scanned : scan source with
  | error fault =>
      simp only [World.run, scanned] at ran ran'
      cases ran
      cases ran'
      exact ⟨rfl, rfl⟩
  | ok tokens =>
      cases parsed : parse limits.nesting tokens with
      | error fault =>
          simp only [World.run, scanned, same, parsed] at ran ran'
          cases ran
          cases ran'
          exact ⟨rfl, rfl⟩
      | ok program => exact absurd parsed (refused tokens program scanned)

theorem interpret_curtailed_of_le {limits : Limits} {source : String} {higher fuel fuel' : Nat}
    {report report' : Report} (le : limits.callDepth ≤ higher)
    (ran : interpret fuel limits source = some report)
    (ran' : interpret fuel' { limits with callDepth := higher } source = some report') :
    (report.world.lines = report'.world.lines ∧ report.diagnostic = report'.diagnostic) ∨
    ∃ span, report.diagnostic = some (.runtime ⟨span, .callDepthExceeded limits.callDepth⟩) ∧
      report.world.lines.toList <+: report'.world.lines.toList ∧ FillsUp limits source span := by
  by_cases read : ∃ tokens program, scan source = .ok tokens ∧
      parse limits.nesting tokens = .ok program
  · obtain ⟨tokens, program, scanned, parsed⟩ := read
    obtain ⟨_, runs⟩ := interpret_eq_runProgram scanned parsed
    obtain ⟨_, runs'⟩ :=
      @interpret_eq_runProgram { limits with callDepth := higher } _ _ _ scanned parsed
    rw [runs fuel] at ran
    rw [runs' fuel'] at ran'
    -- the fuel of either run is enough for both
    obtain ⟨long, ran, diagnostic, lines⟩ :=
      runProgram_blurred (b := .sharp) (Nat.le_max_left fuel fuel') ran
    obtain ⟨long', ran', diagnostic', lines'⟩ :=
      runProgram_blurred (b := .sharp) (Nat.le_max_right fuel fuel') ran'
    have same : Diagnostic.blur .sharp = id := funext Diagnostic.blur_sharp
    rw [same, Option.map_id, id] at diagnostic diagnostic'
    rw [Stmt.blurAll_sharp] at ran ran'
    rw [← lines, ← lines', ← diagnostic, ← diagnostic']
    rcases World.runProgram_curtailed le ran ran' with equal | ⟨span, stopped, printed, full⟩
    · exact .inl equal
    · exact .inr ⟨span, stopped, printed, tokens, program, #[], _, scanned, parsed, full⟩
  · refine .inl (interpret_of_refused (fun tokens program scanned parsed => ?_) higher fuel fuel'
      ran ran')
    exact read ⟨tokens, program, scanned, parsed⟩

/--
Of two limits on the depth of calls, the lower one leaves a run as it is under the
higher one, or stops it at a call, after part of the output.  In no run more calls
are in progress than its limit allows, and a call leaves the counter as it was,
also when it fails.
-/
theorem interpret_curtailed :
    (∀ {limits : Limits} {source : String} {higher fuel fuel' : Nat} {report report' : Report},
      limits.callDepth ≤ higher → interpret fuel limits source = some report →
      interpret fuel' { limits with callDepth := higher } source = some report' →
      (report.world.lines = report'.world.lines ∧ report.diagnostic = report'.diagnostic) ∨
      ∃ span, report.diagnostic = some (.runtime ⟨span, .callDepthExceeded limits.callDepth⟩) ∧
        report.world.lines.toList <+: report'.world.lines.toList ∧ FillsUp limits source span) ∧
    (∀ (world : World) (session : Session) (journal : Array Event) (program : Program)
        (fuel : Nat) (around : List Moment) (y : Moment),
      Moment.Inside session.limits.callDepth
        ⟨fuel, .statements program, world.machine session journal⟩ around y →
      Moment.calls around ≤ session.limits.callDepth ∧ y.machine.depth = Moment.calls around) ∧
    ∀ (limit fuel : Nat) (f : Function) (arguments : List Value) (span : Span) (m : Machine),
      (invoke limit fuel f arguments span m).Leaves fun n => n.depth = m.depth := by
  refine ⟨interpret_curtailed_of_le, fun world session journal program fuel around y inside => ?_,
    effects_depth.within_invoke⟩
  have depth := inside.depth_eq
  have within := inside.depth_le (Nat.zero_le _)
  simp only [World.machine, Nat.zero_add] at depth
  exact ⟨depth ▸ within, depth⟩

/-- The third call is one too many for the lower limit, and the fourth for the higher one. -/
theorem interpret_curtailed_in_recursion :
    let source := "fonction f(n) afficher n f(n + 1) fin f(0)"
    let lower : Limits := { callDepth := 2 }
    ∃ report report', interpret 9 lower source = some report ∧
      interpret 9 { lower with callDepth := 3 } source = some report' ∧
      report.world.lines = #["0", "1"] ∧ report'.world.lines = #["0", "1", "2"] ∧
      ∃ span, report.diagnostic = some (.runtime ⟨span, .callDepthExceeded 2⟩) ∧
        FillsUp lower source span := by
  intro source lower
  have ran : (interpret 9 lower source).map (·.world.lines) = some #["0", "1"] := by
    decide +kernel
  have ran' : (interpret 9 { lower with callDepth := 3 } source).map (·.world.lines) =
      some #["0", "1", "2"] := by decide +kernel
  obtain ⟨report, ran, lines⟩ := Option.map_eq_some_iff.mp ran
  obtain ⟨report', ran', lines'⟩ := Option.map_eq_some_iff.mp ran'
  refine ⟨report, report', ran, ran', lines, lines', ?_⟩
  rcases interpret_curtailed.1 (by decide) ran ran' with ⟨same, _⟩ | ⟨span, stopped, _, full⟩
  · simp [lines, lines'] at same
  · exact ⟨span, stopped, full⟩

end Ardoise
