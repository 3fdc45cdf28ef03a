import Ardoise.Prompt
import Ardoise.Proofs.Parsing.RoundTrip
import Ardoise.Proofs.Parsing.Tracking
import Ardoise.Proofs.Sessions.CallDepth
import Ardoise.Proofs.Sessions.Hygiene

/-!
# The prompt and one text

Each line at the prompt is a program of its own, run by a machine of its own.
But the store stays, every program goes on to its end or fails, and the next
machine starts where this one has come to: in the same scope, with no call in
progress.  So the lines do, one after the other, what a text with all their
statements does in one run, up to the first line that fails.
-/

namespace Ardoise

/-! ## Programs go on to their end -/

namespace Run

def GoesOn (r : Run Flow) : Prop :=
  ∀ m n value, r m ≠ .done (.give value) n

variable {α : Type}

theorem goesOn_next : GoesOn (pure .next) := by
  rintro m n value ⟨⟩

private theorem goesOn_fail (span : Span) (fault : RuntimeFault) : GoesOn (fail span fault) := by
  rintro m n value ⟨⟩

theorem goesOn_bind {r : Run α} {f : α → Run Flow}
    (second : ∀ {m n a}, r m = .done a n → GoesOn (f a)) : GoesOn (r >>= f) := by
  intro m n value gave
  change Run.bind r f m = _ at gave
  unfold Run.bind at gave
  split at gave
  · rename_i first
    exact second first _ _ _ gave
  · cases gave
  · cases gave

theorem GoesOn.followed {r : Run Flow} {f : Flow → Run Flow} (first : GoesOn r)
    (rest : GoesOn (f .next)) : GoesOn (r >>= f) := by
  refine goesOn_bind fun {m n flow} ran => ?_
  cases flow with
  | next => exact rest
  | give value => exact absurd ran (first m n value)

theorem GoesOn.inside {r : Run Flow} (h : GoesOn r) (scope : Scope) : GoesOn (inside scope r) := by
  intro m n value gave
  simp only [Run.inside] at gave
  split at gave
  · rename_i ran
    cases gave
    exact h _ _ _ ran
  · cases gave
  · cases gave

theorem GoesOn.inChild {r : Run Flow} (h : GoesOn r) : GoesOn (inChild r) := by
  intro m
  exact goesOn_bind (r := newScope m.scope) (fun _ => h.inside _) m

end Run

open Run

private theorem goesOn_whileTurns (span : Span) (condition : Run Bool) {body : Run Flow}
    (goes : GoesOn body) (turns : Nat) : GoesOn (whileTurns span condition body turns) := by
  induction turns with
  | zero =>
      refine goesOn_bind fun {_ _ holds} _ => ?_
      cases holds with
      | true => exact goesOn_bind fun _ => goesOn_fail _ _
      | false => exact goesOn_next
  | succ turns ih =>
      refine goesOn_bind fun {_ _ holds} _ => ?_
      cases holds with
      | true => exact goes.followed ih
      | false => exact goesOn_next

private theorem goesOn_countTurns (step last : Float) {body : Float → Run Flow}
    (goes : ∀ current, GoesOn (body current)) (fuel : Nat) (current : Float) :
    GoesOn (countTurns step last body fuel current) := by
  induction fuel generalizing current with
  | zero => rintro m n value ⟨⟩
  | succ fuel ih =>
      unfold countTurns
      split
      · exact (goes current).followed (ih _)
      · exact goesOn_next

section

variable {i : Invoke} {fuel : Nat}

theorem goesOn_executeAll {ss : List Stmt} (each : ∀ s ∈ ss, GoesOn (execute i fuel s)) :
    GoesOn (executeAll i fuel ss) := by
  induction ss with
  | nil => exact goesOn_next
  | cons s rest ih =>
      rw [List.forall_mem_cons] at each
      exact each.1.followed (ih each.2)

theorem goesOn_body {body : List (Stmt × List Token)}
    (each : ∀ s ∈ body, GoesOn (execute i fuel s.1)) :
    GoesOn (inChild (executeAll i fuel (body.map Prod.fst))) :=
  (goesOn_executeAll (List.forall_mem_map.mpr each)).inChild

theorem StmtDerives.goesOn {limit n : Nat} {f : Bool} {s : Stmt} {ts : List Token}
    (h : StmtDerives limit f n s ts) (outside : f = false) : GoesOn (execute i fuel s) := by
  induction h with
  | give => cases outside
  | function | declare | print =>
      exact goesOn_bind fun _ => goesOn_bind fun _ => goesOn_bind fun _ => goesOn_next
  | expression => exact goesOn_bind fun _ => goesOn_bind fun _ => goesOn_next
  | block _ _ _ _ bodies =>
      exact goesOn_bind fun _ => goesOn_body fun s member => bodies s member outside
  | branch _ _ _ _ _ _ bodies =>
      refine goesOn_bind fun _ => goesOn_bind fun {_ _ holds} _ => ?_
      cases holds with
      | true => exact goesOn_body fun s member => bodies s member outside
      | false => exact goesOn_next
  | branchOtherwise _ _ _ _ _ _ _ _ bodies others =>
      refine goesOn_bind fun _ => goesOn_bind fun {_ _ holds} _ => ?_
      cases holds with
      | true => exact goesOn_body fun s member => bodies s member outside
      | false => exact goesOn_body fun s member => others s member outside
  | whileLoop _ _ _ _ _ _ bodies =>
      refine goesOn_bind fun _ => goesOn_whileTurns _ _ ?_ _
      exact goesOn_body fun s member => bodies s member outside
  | countLoop _ _ _ _ _ _ _ _ _ bodies =>
      refine goesOn_bind fun _ => goesOn_bind fun _ => goesOn_bind fun _ =>
        goesOn_countTurns _ _ (fun current => ?_) _ _
      rw [withCounter_eq_inChild]
      refine GoesOn.inChild (goesOn_bind fun _ => ?_)
      exact goesOn_executeAll (List.forall_mem_map.mpr fun s member => bodies s member outside)

end

theorem goesOn_of_parse {limit : Nat} {tokens : List Token} {program : Program}
    (parsed : parse limit tokens = .ok program) (limits : Limits) (fuel : Nat) :
    GoesOn (runProgram limits fuel program) := by
  obtain ⟨_, _, _, _, pieces, rfl, each, _⟩ := sequenced_of_parse parsed
  exact goesOn_executeAll (List.forall_mem_map.mpr fun s member => (each s member).goesOn rfl)

theorem runProgram_append (limits : Limits) (fuel : Nat) (first second : Program) (m : Machine) :
    runProgram limits fuel (first ++ second) m =
      match runProgram limits fuel first m with
      | .done .next n => runProgram limits fuel second n
      | ended => ended := by
  simp only [runProgram]
  induction first generalizing m with
  | nil => rfl
  | cons s rest ih =>
      simp only [List.cons_append, executeAll, bind, Run.bind]
      cases execute (invoke limits.callDepth fuel) fuel s m with
      | done flow n =>
          cases flow with
          | next => exact ih n
          | give value => rfl
      | failed fault n => rfl
      | exhausted => rfl

/-! ## What the prompt reports -/

def read? (limits : Limits) (source : String) : Option Program :=
  match scan source with
  | .error _ => none
  | .ok tokens => (parse limits.nesting tokens).toOption

theorem read?_eq_some_iff {limits : Limits} {source : String} {program : Program} :
    read? limits source = some program ↔
      ∃ tokens, scan source = .ok tokens ∧ parse limits.nesting tokens = .ok program := by
  cases scanned : scan source with
  | error fault => simp [read?, scanned]
  | ok tokens =>
      cases parsed : parse limits.nesting tokens <;>
        simp [read?, scanned, parsed, Except.toOption]

namespace Prompt

def reports (fuel : Nat) (prompt : Prompt) : List String → Option (List Report)
  | [] => some []
  | line :: rest => do
    let report ← prompt.world.clearLines.run fuel prompt.session (Text.trim line)
    let others ← reports fuel ⟨report.world, report.session⟩ rest
    return report :: others

def shown (line : String) (report : Report) : Written where
  output := unlines report.world.lines.toList
  errors :=
    match report.diagnostic with
    | some diagnostic => diagnostic.render (Text.trim line) ++ "\n"
    | none => ""

def transcript : List Written → Written
  | [] => ⟨invitation ++ farewell, ""⟩
  | here :: rest =>
      ⟨invitation ++ here.output ++ (transcript rest).output,
        here.errors ++ (transcript rest).errors⟩

/-- The reports are all that a dialogue shows. -/
theorem dialogue_eq_transcript (fuel : Nat) (prompt : Prompt) (lines : List String) :
    prompt.dialogue fuel (lines.map some) =
      (prompt.reports fuel lines).map fun reports =>
        transcript (List.zipWith shown lines reports) := by
  induction lines generalizing prompt with
  | nil => rfl
  | cons line rest ih =>
      simp only [List.map_cons, dialogue, answer, reports]
      cases prompt.world.clearLines.run fuel prompt.session (Text.trim line) with
      | none => rfl
      | some report =>
          simp only [Option.bind_eq_bind, Option.bind_some, Option.pure_def, ih]
          cases reports fuel ⟨report.world, report.session⟩ rest with
          | none => rfl
          | some others => rfl

end Prompt

namespace Report

def upToFailure : List Report → List Report
  | [] => []
  | report :: rest =>
    match report.diagnostic with
    | none => report :: upToFailure rest
    | some _ => [report]

def firstFailure? (reports : List Report) : Option Report :=
  reports.find? (·.diagnostic.isSome)

def linesOf (reports : List Report) : List String :=
  reports.flatMap (·.world.lines.toList)

/-- The report says of one run what the others say of its parts, up to the first that fails. -/
structure SumsUp (report : Report) (reports : List Report) : Prop where
  lines : report.world.lines.toList = linesOf (upToFailure reports)
  well : report.diagnostic = none ↔ ∀ line ∈ reports, line.diagnostic = none
  fault : ∀ {failing : Report}, firstFailure? reports = some failing →
    ∃ f g, failing.diagnostic = some (.runtime f) ∧ report.diagnostic = some (.runtime g) ∧
      f.fault = g.fault

private theorem SumsUp.of_placeless {report blurred : Report} {reports : List Report}
    (h : blurred.SumsUp reports) (lines : blurred.world.lines = report.world.lines)
    (diagnostic : blurred.diagnostic = report.diagnostic.map (Diagnostic.blur .placeless)) :
    report.SumsUp reports where
  lines := lines ▸ h.lines
  well := by
    rw [← h.well, diagnostic]
    simp
  fault first := by
    obtain ⟨f, g, ill, blurredIll, same⟩ := h.fault first
    rw [diagnostic, Option.map_eq_some_iff] at blurredIll
    obtain ⟨found, ill', hidden⟩ := blurredIll
    cases found with
    | lexical | grammar => cases hidden
    | runtime fault =>
        cases hidden
        exact ⟨f, fault, ill, ill', same.trans (RuntimeFault.blur_placeless fault.fault)⟩

end Report

/-! ## One line after the other -/

namespace Prompt

open Report

/-- The machine of a longer run has come to where the next line of the prompt will start. -/
structure Follows (p : Pairing) (limits : Limits) (prompt : Prompt) (n : Machine) : Prop where
  limits : prompt.session.limits = limits
  store : prompt.world.store.Matches p n.store
  scope : p.Scopes prompt.session.scope n.scope
  depth : n.depth = 0
  closures : p.Closures prompt.world.closures n.closures

variable {p : Pairing} {limits : Limits} {prompt : Prompt} {n : Machine} {fuel fuel' : Nat}

theorem Follows.machine (h : prompt.Follows p limits n) (journal : Array Event) :
    (prompt.world.clearLines.machine prompt.session journal).Matches (p.since #[] n.lines) n where
  store := h.store.since #[] n.lines
  scope := h.scope.since #[] n.lines
  depth := h.depth.symm
  lines := ⟨#[], by simp [World.machine, World.clearLines, Pairing.since]⟩
  closures := h.closures.since #[] n.lines

theorem lines_eq_of_matches {before : Array String} {m k : Machine}
    (h : m.Matches (p.since #[] before) k) : k.lines = before ++ m.lines := by
  obtain ⟨printed, lines, lines'⟩ := h.lines
  simpa [Pairing.since, lines] using lines'

theorem Follows.next {m k : Machine} (h : prompt.Follows p limits n) {before : Array String}
    (machines : m.Matches (p.since #[] before) k) (scope : k.scope = n.scope)
    (depth : k.depth = n.depth) (diagnostic : Option Diagnostic) :
    let report := World.report prompt.world.library limits prompt.session.scope m diagnostic
    Follows p limits ⟨report.world, report.session⟩ k where
  limits := rfl
  store := machines.store.since p.before p.before'
  scope := scope ▸ h.scope
  depth := depth.trans h.depth
  closures := machines.closures.since p.before p.before'

/-- The longer run fails where the line does, or it comes to where the next line starts. -/
theorem Follows.step (h : prompt.Follows p limits n) (generous : p.generous = true)
    (le : fuel ≤ fuel') {source : String} {program : Program} {report : Report}
    (reads : read? limits source = some program)
    (ran : prompt.world.clearLines.run fuel prompt.session source = some report) :
    ∃ k, k.lines = n.lines ++ report.world.lines ∧
      (report.diagnostic = none ∧
          runProgram limits fuel' (Stmt.blurAll p.blur program) n = .done .next k ∧
          Follows p limits ⟨report.world, report.session⟩ k ∨
        ∃ fault, report.diagnostic = some (.runtime fault) ∧
          runProgram limits fuel' (Stmt.blurAll p.blur program) n =
            .failed (blurFault p.blur fault) k) := by
  obtain ⟨tokens, scanned, parsed⟩ := read?_eq_some_iff.mp reads
  simp only [World.run, scanned, h.limits, parsed, World.runProgram] at ran
  generalize (#[Event.scanned tokens.length].push _).push _ = journal at ran
  have fuels : (p.since #[] n.lines).Fuels fuel fuel' := .of (.inr ⟨generous, le⟩)
  have outcomes := simulates_runProgram limits fuels program _ _ (h.machine journal)
  have goes := goesOn_of_parse parsed limits fuel
    (prompt.world.clearLines.machine prompt.session journal)
  have scopes := effects_names.within_runProgram limits fuel' (Stmt.blurAll p.blur program) n
  have depths := effects_depth.within_runProgram limits fuel' (Stmt.blurAll p.blur program) n
  change Outcome.Matches _ _ _ (runProgram limits fuel' (Stmt.blurAll p.blur program) n) at outcomes
  generalize runProgram limits fuel program _ = outcome at ran outcomes goes
  generalize runProgram limits fuel' _ n = outcome' at outcomes scopes depths
  cases outcomes with
  | @done flow flow' m k flows machines =>
      cases ran
      cases flows with
      | give values => exact absurd rfl (goes _ _)
      | next =>
          exact ⟨k, lines_eq_of_matches machines,
            .inl ⟨rfl, rfl, h.next machines scopes.1 depths none⟩⟩
  | @failed m k fault machines =>
      cases ran
      exact ⟨k, lines_eq_of_matches machines, .inr ⟨fault, rfl, rfl⟩⟩
  | exhausted => cases ran

theorem Follows.run (generous : p.generous = true) (le : fuel ≤ fuel') {lines : List String}
    {programs : List Program} {reports : List Report} (h : prompt.Follows p limits n)
    (read : (lines.mapM fun line => read? limits (Text.trim line)) = some programs)
    (ran : prompt.reports fuel lines = some reports) :
    ∃ k, k.lines.toList = n.lines.toList ++ linesOf (upToFailure reports) ∧
      ((∀ report ∈ reports, report.diagnostic = none) ∧
          runProgram limits fuel' (Stmt.blurAll p.blur programs.flatten) n = .done .next k ∨
        ∃ failing fault, firstFailure? reports = some failing ∧
          failing.diagnostic = some (.runtime fault) ∧
          runProgram limits fuel' (Stmt.blurAll p.blur programs.flatten) n =
            .failed (blurFault p.blur fault) k) := by
  induction lines generalizing prompt n programs reports with
  | nil =>
      cases read
      cases ran
      exact ⟨n, by simp [linesOf, upToFailure], .inl ⟨by simp, rfl⟩⟩
  | cons line lines ih =>
      simp only [List.mapM_cons, Prompt.reports, Option.bind_eq_bind, Option.bind_eq_some_iff,
        Option.pure_def, Option.some.injEq] at read ran
      obtain ⟨program, reads, programs, readRest, rfl⟩ := read
      obtain ⟨report, ran, reports, ranRest, rfl⟩ := ran
      simp only [List.flatten_cons, Stmt.blurAll_append, runProgram_append]
      obtain ⟨k, printed, ⟨well, done, follows⟩ | ⟨fault, ill, failed⟩⟩ :=
        h.step generous le reads ran
      · obtain ⟨k', printed', ended⟩ := ih follows readRest ranRest
        refine ⟨k', ?_, ?_⟩
        · simp [printed', printed, upToFailure, well, linesOf]
        · simpa [done, firstFailure?, well] using ended
      · refine ⟨k, ?_, .inr ⟨report, fault, ?_, ill, ?_⟩⟩
        · simp [printed, upToFailure, ill, linesOf]
        · simp [firstFailure?, ill]
        · simp [failed]

/-- A prompt for a session, which forgets what it was told before. -/
def ofSession (world : World) (session : Session) : Prompt :=
  ⟨(world.reset session).2, (world.reset session).1⟩

theorem start_eq_ofSession (limits : Limits) :
    start limits = ofSession (World.initial.newSession limits).2
      (World.initial.newSession limits).1 := rfl

section

variable {world : World} {session : Session} (intact : world.Intact) (fits : session.Fits world)
include intact fits

private theorem ofSession_follows :
    (ofSession world session).Follows
      (.between .placeless true (Session.ready_reset intact fits)
        (World.fresh_ready session.limits)) session.limits
      ((World.fresh session.limits).2.machine (World.fresh session.limits).1 #[]) := by
  have machines := Pairing.between_machine .placeless true (Session.ready_reset intact fits)
    (World.fresh_ready session.limits) #[] #[]
  exact ⟨rfl, machines.store, machines.scope, rfl, machines.closures⟩

/-- The programs of all the lines, without their spans, in one run of a new session. -/
theorem runs_as_one {lines : List String} {programs : List Program} {reports : List Report}
    (le : fuel ≤ fuel')
    (read : (lines.mapM fun line => read? session.limits (Text.trim line)) = some programs)
    (ran : (ofSession world session).reports fuel lines = some reports) :
    ∃ report, (World.fresh session.limits).2.runProgram fuel' (World.fresh session.limits).1 #[]
        (Stmt.blurAll .placeless programs.flatten) = some report ∧
      report.SumsUp reports := by
  have limits_eq : (World.fresh session.limits).1.limits = session.limits := rfl
  simp only [World.runProgram, limits_eq]
  obtain ⟨k, printed, ⟨well, done⟩ | ⟨failing, fault, first, ill, failed⟩⟩ :=
    (ofSession_follows intact fits).run rfl le read ran
  · change runProgram _ fuel' (Stmt.blurAll .placeless programs.flatten) _ = _ at done
    rw [done]
    refine ⟨_, rfl, printed, ⟨fun _ => well, fun _ => rfl⟩, fun {failing} first => ?_⟩
    have member := List.mem_of_find?_eq_some first
    have ill := List.find?_some first
    simp [well failing member] at ill
  · change runProgram _ fuel' (Stmt.blurAll .placeless programs.flatten) _ = _ at failed
    rw [failed]
    refine ⟨_, rfl, printed, ⟨fun none => ?_, fun well => ?_⟩, fun {other} first' => ?_⟩
    · cases none
    · have member := List.mem_of_find?_eq_some first
      simp [well failing member] at ill
    · cases first.symm.trans first'
      exact ⟨fault, _, ill, rfl, (RuntimeFault.blur_placeless fault.fault).symm⟩

end

/--
Whatever a session was told before, the lines of a dialogue with it do, one after
the other, what they do as one text in a new session.  If a line fails, so does
that text, in the same fault and after the same lines of output; the prompt alone
goes on.
-/
theorem dialogue_as_one_text {history : List Desk.Step} {desk : Desk} {number : Nat}
    {session : Session} (reachable : Desk.Reachable history desk)
    (found : desk.session? number = some session)
    {lines : List String} {programs : List Program} {source : String} {whole : Program}
    (read : (lines.mapM fun line => read? session.limits (Text.trim line)) = some programs)
    (readWhole : read? session.limits source = some whole)
    (same : Stmt.blurAll .placeless whole = Stmt.blurAll .placeless programs.flatten)
    {reports : List Report}
    (ran : (ofSession desk.world session).reports fuel lines = some reports) :
    (ofSession desk.world session).dialogue fuel (lines.map some) =
        some (transcript (List.zipWith shown lines reports)) ∧
      (interpret fuel session.limits source).isSome = true ∧
      ∀ {fuel' : Nat} {report : Report}, interpret fuel' session.limits source = some report →
        report.SumsUp reports := by
  have intact := reachable.sound.intact
  have fits := (reachable.sound.fits found).1
  obtain ⟨tokens, scanned, parsed⟩ := read?_eq_some_iff.mp readWhole
  obtain ⟨journal, runs⟩ := interpret_eq_runProgram scanned parsed
  refine ⟨by rw [dialogue_eq_transcript, ran]; rfl, ?_, ?_⟩
  · obtain ⟨one, ended, _⟩ := runs_as_one intact fits (Nat.le_refl fuel) read ran
    rw [runs, runProgram_blurred_isSome .placeless, same, ended]
    rfl
  · intro fuel' report ran'
    rw [runs] at ran'
    -- one run of the blurred program, with fuel enough for the text and for every line
    obtain ⟨blurred, ended, diagnostic, printed⟩ :=
      runProgram_blurred (b := .placeless) (Nat.le_max_right fuel fuel') ran'
    obtain ⟨one, ended', sum⟩ := runs_as_one intact fits (Nat.le_max_left fuel fuel') read ran
    rw [same, ended'] at ended
    cases ended
    exact sum.of_placeless printed diagnostic

/-- The third line fails in a function of the first; only the prompt comes to the last. -/
theorem dialogue_as_one_text_until_failure :
    let lines := ["fonction f() a = \"b\" afficher a c fin", "var a = \"a\"", " f() ", "afficher a"]
    let source := "function f() a = \"b\"\nprint a c end var a = \"a\" f() print a"
    ∃ programs whole reports report,
      (lines.mapM fun line => read? {} (Text.trim line)) = some programs ∧
      read? {} source = some whole ∧
      Stmt.blurAll .placeless whole = Stmt.blurAll .placeless programs.flatten ∧
      (start {}).reports 9 lines = some reports ∧ interpret 9 {} source = some report ∧
      reports.map (fun line => (line.world.lines.toList, line.diagnostic.isSome)) =
        [([], false), ([], false), (["b"], true), (["b"], false)] ∧
      report.SumsUp reports := by
  intro lines source
  have alike : ((lines.mapM fun line => read? {} (Text.trim line)).bind fun programs =>
      (read? {} source).map fun whole =>
        (Stmt.apartAll whole && Stmt.giveInside false whole && Stmt.allOperatorsFit whole &&
          Stmt.apartAll programs.flatten && Stmt.giveInside false programs.flatten &&
          Stmt.allOperatorsFit programs.flatten &&
          Stmt.tokensAll whole == Stmt.tokensAll programs.flatten)) = some true := by
    decide +kernel
  have outcomes : ((start {}).reports 9 lines).map (List.map fun line =>
      (line.world.lines.toList, line.diagnostic.isSome)) =
        some [([], false), ([], false), (["b"], true), (["b"], false)] := by
    decide +kernel
  simp only [Option.bind_eq_some_iff, Option.map_eq_some_iff, Bool.and_eq_true, beq_iff_eq]
    at alike
  obtain ⟨programs, read, whole, readWhole, legal⟩ := alike
  obtain ⟨⟨⟨⟨⟨⟨apart, gives⟩, fit⟩, apart'⟩, gives'⟩, fit'⟩, printed⟩ := legal
  obtain ⟨reports, ran, outcomes⟩ := Option.map_eq_some_iff.mp outcomes
  have same := Stmt.blurAll_eq_of_tokensAll_eq ⟨apart, gives, fit⟩ ⟨apart', gives', fit'⟩ printed
  have opening : Desk.empty.step 0 (.newSession {}) = some (Desk.empty.openSession {}, none) := rfl
  have reachable := Desk.Reachable.empty.step opening
  have found : (Desk.empty.openSession {}).session? 0 = some (World.initial.newSession {}).1 := rfl
  rw [start_eq_ofSession] at ran ⊢
  obtain ⟨_, ended, sums⟩ := dialogue_as_one_text reachable found read readWhole same ran
  obtain ⟨report, ran'⟩ := Option.isSome_iff_exists.mp ended
  exact ⟨programs, whole, reports, report, read, readWhole, same, ran, ran', outcomes, sums ran'⟩

end Prompt

end Ardoise
