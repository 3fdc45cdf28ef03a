import Ardoise.Proofs.Parsing.Parts
import Ardoise.Proofs.Sessions.Dialogue
import Ardoise.Proofs.Sessions.Pointing

/-!
# Where the prompt points

The prompt shows what is wrong with a line under that line.  But functions stay
from one line to the next, and their spans are those of the line that declared
them.  So a line that fails is reported at a stretch of itself, or at a stretch of
an earlier line, inside a function that was declared there; and in that case the
prompt shows the wrong text.
-/

namespace Ardoise

/-! ## Spans of functions -/

theorem Span.Marks.stop_le {span : Span} {source marked : String} (h : span.Marks source marked) :
    span.stop ≤ source.utf8ByteSize := by
  obtain ⟨before, after, rfl, _, stop, _⟩ := h
  rw [stop, String.utf8ByteSize_append (s := before ++ marked)]
  exact Nat.le_add_right _ _

private theorem Span.Covers.encloses {span inner : Span} {ts : List Token} (covers : span.Covers ts)
    (ordered : InOrder ts) (within : inner.Within ts) :
    span.start ≤ inner.start ∧ inner.stop ≤ span.stop := by
  obtain ⟨part, ⟨before, after, rfl⟩, first, last, starts, ends, rfl⟩ := within
  obtain ⟨first', last', starts', ends', rfl⟩ := covers
  have apart := List.pairwise_append.mp ordered.pairwise
  constructor
  · cases before with
    | nil => simp_all
    | cons token before =>
        have here : first ∈ part := List.mem_of_head? starts
        have inOrder := (List.pairwise_append.mp apart.1).2.2 token (by simp) first here
        cases starts'
        exact Nat.le_trans (ordered.proper first' (by simp)) inOrder
  · rcases List.eq_nil_or_concat after with rfl | ⟨after, token, rfl⟩
    · simp_all
    · have here : last ∈ part := List.mem_of_getLast? ends
      have inOrder := apart.2.2 last (List.mem_append_right _ here) token (by simp)
      rw [List.concat_eq_append, ← List.append_assoc, List.getLast?_concat] at ends'
      cases ends'
      exact Nat.le_trans inOrder (ordered.proper last' (by simp))

private theorem StmtDerives.covers_function {limit n : Nat} {f : Bool} {whole : Span} {name : Name}
    {parameters : List Name} {body : List Stmt} {ts : List Token} (ordered : InOrder ts)
    (h : StmtDerives limit f n (.function whole name parameters body) ts) : whole.Covers ts := by
  cases h with
  | @function _ _ _ parameters body keyword opening close last own ts =>
      exact (Span.covers_token keyword).upTo (Span.covers_token last) ordered

/-! ## What lines declare -/

def InFunctionOf (limits : Limits) (line : String) (span : Span) : Prop :=
  ∃ program whole name parameters body, read? limits (Text.trim line) = some program ∧
    (Stmt.function whole name parameters body).PartOf program ∧
    whole.start ≤ span.start ∧ span.stop ≤ whole.stop

def Stmt.Said (limits : Limits) (lines : List String) (s : Stmt) : Prop :=
  ∃ line ∈ lines, ∃ program, read? limits (Text.trim line) = some program ∧ s.PartOf program

private theorem Stmt.code_said (limits : Limits) (lines : List String) :
    Code (Said limits lines) (fun _ => True) where
  closed := by
    rintro s ⟨line, member, program, read, part⟩ inner inside
    exact ⟨line, member, program, read, closed_partOf program s part inner inside⟩
  expressions _ _ _ _ := trivial
  operands _ _ _ _ := trivial

theorem Stmt.Said.mono {limits : Limits} {lines more : List String} {s : Stmt}
    (h : s.Said limits lines) (fewer : lines ⊆ more) : s.Said limits more := by
  obtain ⟨line, member, rest⟩ := h
  exact ⟨line, fewer member, rest⟩

def Span.Taken (source : String) (span : Span) : Prop :=
  ∃ used rest, scan source = .ok (used ++ rest) ∧
    (∀ token ∈ used, token.kind ≠ .endOfInput) ∧ span.Within used

def Regime.spoken (limits : Limits) (before : List String) (line : String) : Regime where
  allows span := span.Taken (Text.trim line) ∨
    ∃ earlier ∈ before, span.Taken (Text.trim earlier) ∧ InFunctionOf limits earlier span
  counts := True

variable {limits : Limits} {before : List String} {line : String}

theorem allObey_of_read {program : Program} (read : read? limits (Text.trim line) = some program) :
    Stmt.AllObey (.spoken limits before line) program := by
  obtain ⟨tokens, scanned, parsed⟩ := read?_eq_some_iff.mp read
  obtain ⟨used, rest, rfl, proper, obey⟩ := obeys_of_parse (laidOut_of_scan scanned).inOrder parsed
  have stricter : (Regime.stretches used).Stricter (.spoken limits before line) :=
    ⟨fun within => .inl ⟨used, rest, scanned, proper, within⟩, id⟩
  exact Stmt.AllObey.mono stricter program obey

theorem Stmt.Said.obeys {whole : Span} {name : Name} {parameters : List Name} {body : List Stmt}
    (h : (Stmt.function whole name parameters body).Said limits before) (line : String) :
    (Stmt.function whole name parameters body).Obeys (.spoken limits before line) := by
  obtain ⟨earlier, member, program, read, part⟩ := h
  obtain ⟨tokens, scanned, parsed⟩ := read?_eq_some_iff.mp read
  obtain ⟨used, rest, rfl, proper, readFrom⟩ := readFrom_of_parse parsed
  obtain ⟨f, n, ts, inside, derives⟩ := readFrom _ part
  have ordered : InOrder ts := (laidOut_of_scan scanned).inOrder.of_infix
    (inside.trans (List.prefix_append used rest).isInfix)
  -- a span in the function is one of the line that the function stands in
  have stricter : (Regime.stretches ts).Stricter (.spoken limits before line) := by
    refine ⟨fun {span} within => .inr ⟨earlier, member, ?_, ?_⟩, id⟩
    · exact ⟨used, rest, scanned, proper, within.mono inside⟩
    · have bounds := (derives.covers_function ordered).encloses ordered within
      exact ⟨program, whole, name, parameters, body, read, part, bounds⟩
  exact Stmt.Obeys.mono stricter _ (derives.obeys ordered List.infix_rfl)

theorem Function.From.obeys {f : Function} (h : f.From (Stmt.Said limits before))
    (line : String) : f.From (Stmt.Obeys (.spoken limits before line)) := by
  cases h with
  | builtin f => exact .builtin f
  | closure named counted declared => exact .closure named counted (declared.obeys line)

/-! ## One line after the other -/

def Diagnostic.PointsInto (source : String) (diagnostic : Diagnostic) : Prop :=
  ∃ marked, diagnostic.span.Marks source marked ∧ diagnostic.PointsAt source marked

theorem Span.Taken.pointsInto {source : String} {fault : Located RuntimeFault}
    (h : fault.span.Taken source) : (Diagnostic.runtime fault).PointsInto source := by
  obtain ⟨used, rest, scanned, proper, within⟩ := h
  exact pointsAt_of_within scanned proper within

/-- A text that is no program changes nothing and is marked itself; any other text is run. -/
theorem World.run_cases {world : World} {session : Session} {fuel : Nat} {source : String}
    {report : Report} (ran : world.run fuel session source = some report) :
    (∃ diagnostic, diagnostic.PointsInto source ∧ report.world = world ∧
        report.session = session ∧ report.diagnostic = some diagnostic) ∨
      ∃ program journal, read? session.limits source = some program ∧
        world.runProgram fuel session journal program = some report := by
  simp only [run] at ran
  cases scanned : scan source with
  | error fault =>
      simp only [scanned, Option.some.injEq] at ran
      subst ran
      exact .inl ⟨.lexical fault, pointsAt_of_scan_error scanned, rfl, rfl, rfl⟩
  | ok tokens =>
      simp only [scanned] at ran
      cases parsed : parse session.limits.nesting tokens with
      | error fault =>
          simp only [parsed, Option.some.injEq] at ran
          subst ran
          exact .inl ⟨.grammar fault, pointsAt_of_parse_error scanned parsed, rfl, rfl, rfl⟩
      | ok program =>
          simp only [parsed] at ran
          exact .inr ⟨program, _, read?_eq_some_iff.mpr ⟨tokens, scanned, parsed⟩, ran⟩

private theorem World.runProgram_limits {world : World} {session : Session} {fuel : Nat}
    {journal : Array Event} {program : Program} {report : Report}
    (ran : world.runProgram fuel session journal program = some report) :
    report.session.limits = session.limits := by
  simp only [runProgram] at ran
  split at ran <;> cases ran <;> rfl

/-- The diagnostic marks the line, or code of a function that an earlier line declares. -/
def Diagnostic.Blames (limits : Limits) (before : List String) (line : String)
    (diagnostic : Diagnostic) : Prop :=
  diagnostic.PointsInto (Text.trim line) ∨
    ∃ earlier ∈ before, ∃ fault, diagnostic = .runtime fault ∧
      diagnostic.PointsInto (Text.trim earlier) ∧ InFunctionOf limits earlier fault.span

namespace Prompt

structure Heard (limits : Limits) (lines : List String) (prompt : Prompt) : Prop where
  same : prompt.session.limits = limits
  store : prompt.world.store.Each (Value.From (Stmt.Said limits lines))

variable {prompt : Prompt} {fuel : Nat} {report : Report} {diagnostic : Diagnostic}

private theorem heard_start (limits : Limits) : (start limits).Heard limits [] :=
  ⟨rfl, World.fresh_from _ limits⟩

theorem Heard.mono {lines more : List String} (h : prompt.Heard limits lines)
    (fewer : lines ⊆ more) : prompt.Heard limits more where
  same := h.same
  store := h.store.mono fun _ held => held.mono fun _ made => made.mono fun _ said =>
    said.mono fewer

theorem Heard.step (h : prompt.Heard limits before)
    (ran : prompt.world.clearLines.run fuel prompt.session (Text.trim line) = some report) :
    Heard limits (before ++ [line]) ⟨report.world, report.session⟩ := by
  have still := h.mono (List.subset_append_left before [line])
  rcases World.run_cases ran with ⟨_, _, world, session, _⟩ | ⟨program, journal, read, ran⟩
  · exact ⟨session ▸ still.same, world ▸ still.store⟩
  · rw [h.same] at read
    have each : ∀ s ∈ program, s.Said limits (before ++ [line]) := fun s member =>
      ⟨line, by simp, program, read, Stmt.partOf_of_mem member⟩
    have store : prompt.world.clearLines.store.Each (Value.From (Stmt.Said limits _)) := still.store
    have kept := World.runProgram_from (Stmt.code_said limits _) each store ran
    exact ⟨(World.runProgram_limits ran).trans h.same, kept⟩

theorem Heard.blames (h : prompt.Heard limits before)
    (ran : prompt.world.clearLines.run fuel prompt.session (Text.trim line) = some report)
    (failed : report.diagnostic = some diagnostic) : diagnostic.Blames limits before line := by
  rcases World.run_cases ran with ⟨_, points, _, _, failed'⟩ | ⟨program, journal, read, ran⟩
  · cases failed.symm.trans failed'
    exact .inl points
  · rw [h.same] at read
    have store : prompt.world.clearLines.store.Each
        (Value.From (Stmt.Obeys (.spoken limits before line))) :=
      h.store.mono fun _ held => held.mono fun _ made => made.obeys line
    have endsOn : EndsOn (Regime.spoken limits before line).terms
        (prompt.world.clearLines.runProgram fuel prompt.session journal program) :=
      World.runProgram_endsOn (Regime.suit _) (Stmt.allObey_iff.mp (allObey_of_read read)) store
        journal (.inl trivial)
    rw [ran] at endsOn
    cases endsOn with
    | well well => simp [well] at failed
    | faulty faulty allowed =>
        cases failed.symm.trans faulty
        rcases allowed with own | ⟨earlier, member, taken, inside⟩
        · exact .inl own.pointsInto
        · exact .inr ⟨earlier, member, _, rfl, taken.pointsInto, inside⟩

private theorem Heard.reports_blame {lines : List String} {all : List Report} {k : Nat}
    (h : prompt.Heard limits before) (ran : prompt.reports fuel lines = some all)
    (asked : lines[k]? = some line) (answered : all[k]? = some report)
    (failed : report.diagnostic = some diagnostic) :
    diagnostic.Blames limits (before ++ lines.take k) line := by
  induction lines generalizing prompt before all k with
  | nil => cases asked
  | cons first rest ih =>
      simp only [reports, Option.bind_eq_bind, Option.bind_eq_some_iff, Option.pure_def,
        Option.some.injEq] at ran
      obtain ⟨here, ran, others, ranRest, rfl⟩ := ran
      cases k with
      | zero =>
          cases asked
          cases answered
          rw [List.take_zero, List.append_nil]
          exact h.blames ran failed
      | succ k =>
          have later := ih (h.step ran) ranRest asked answered
          rwa [List.append_assoc, List.singleton_append, ← List.take_succ_cons] at later

/-! ## Any session -/

/-- The prompts know the same, up to the scopes and closures that they use for it. -/
structure Like (p : Pairing) (prompt prompt' : Prompt) : Prop where
  limits : prompt'.session.limits = prompt.session.limits
  store : prompt.world.store.Matches p prompt'.world.store
  scope : p.Scopes prompt.session.scope prompt'.session.scope
  closures : p.Closures prompt.world.closures prompt'.world.closures

section

variable {p : Pairing} {prompt' : Prompt}

theorem Like.machine (h : Like (p.since #[] #[]) prompt prompt') (journal : Array Event) :
    (prompt.world.clearLines.machine prompt.session journal).Matches (p.since #[] #[])
      (prompt'.world.clearLines.machine prompt'.session journal) where
  store := h.store
  scope := h.scope
  depth := rfl
  lines := ⟨#[], rfl, rfl⟩
  closures := h.closures

theorem Like.runProgram (sharp : p.blur = .sharp) (h : Like (p.since #[] #[]) prompt prompt')
    {journal : Array Event} {program : Program}
    (ran : prompt.world.clearLines.runProgram fuel prompt.session journal program = some report) :
    ∃ report', prompt'.world.clearLines.runProgram fuel prompt'.session journal program =
        some report' ∧ report'.diagnostic = report.diagnostic ∧
      Like (p.since #[] #[]) ⟨report.world, report.session⟩ ⟨report'.world, report'.session⟩ := by
  have outcomes := simulates_runProgram prompt.session.limits (.same (p := p.since #[] #[]) fuel)
    program _ _ (h.machine journal)
  have blur : (p.since #[] #[]).blur = .sharp := sharp
  rw [blur, Stmt.blurAll_sharp] at outcomes
  simp only [World.runProgram, h.limits] at ran ⊢
  generalize Ardoise.runProgram _ fuel program _ = outcome at ran outcomes
  generalize Ardoise.runProgram _ fuel program _ = outcome' at outcomes ⊢
  cases outcomes with
  | done _ machines =>
      cases ran
      exact ⟨_, rfl, rfl, rfl, machines.store, h.scope, machines.closures⟩
  | failed fault machines =>
      cases ran
      refine ⟨_, rfl, ?_, rfl, machines.store, h.scope, machines.closures⟩
      rw [blur]
      exact congrArg some (Diagnostic.blur_sharp (.runtime fault))
  | exhausted => cases ran

/-- Both prompts find the same wrong with a line, and know the same after it. -/
theorem Like.run (sharp : p.blur = .sharp) (h : Like (p.since #[] #[]) prompt prompt')
    {source : String}
    (ran : prompt.world.clearLines.run fuel prompt.session source = some report) :
    ∃ report', prompt'.world.clearLines.run fuel prompt'.session source = some report' ∧
      report'.diagnostic = report.diagnostic ∧
      Like (p.since #[] #[]) ⟨report.world, report.session⟩ ⟨report'.world, report'.session⟩ := by
  simp only [World.run, h.limits] at ran ⊢
  cases scanned : scan source with
  | error fault =>
      simp only [scanned] at ran ⊢
      cases ran
      exact ⟨_, rfl, rfl, h.limits, h.store, h.scope, h.closures⟩
  | ok tokens =>
      simp only [scanned] at ran ⊢
      cases parsed : parse prompt.session.limits.nesting tokens with
      | error fault =>
          simp only [parsed] at ran ⊢
          cases ran
          exact ⟨_, rfl, rfl, h.limits, h.store, h.scope, h.closures⟩
      | ok program =>
          simp only [parsed] at ran ⊢
          exact h.runProgram sharp ran

theorem Like.reports (sharp : p.blur = .sharp) (h : Like (p.since #[] #[]) prompt prompt')
    {lines : List String} {all : List Report} (ran : prompt.reports fuel lines = some all) :
    ∃ all', prompt'.reports fuel lines = some all' ∧
      all'.map (·.diagnostic) = all.map (·.diagnostic) := by
  induction lines generalizing prompt prompt' all with
  | nil =>
      cases ran
      exact ⟨[], rfl, rfl⟩
  | cons line rest ih =>
      simp only [Prompt.reports, Option.bind_eq_bind, Option.bind_eq_some_iff, Option.pure_def,
        Option.some.injEq] at ran ⊢
      obtain ⟨here, ran, others, ranRest, rfl⟩ := ran
      obtain ⟨here', ran', same, next⟩ := h.run sharp ran
      obtain ⟨others', ranRest', sameRest⟩ := ih next ranRest
      exact ⟨_, ⟨here', ran', others', ranRest', rfl⟩, by simp [same, sameRest]⟩

end

private theorem like_start {world : World} {session : Session} (intact : world.Intact)
    (fits : session.Fits world) :
    ∃ p : Pairing, p.blur = .sharp ∧
      Like (p.since #[] #[]) (ofSession world session) (start session.limits) := by
  have machines := Pairing.between_machine .sharp false (Session.ready_reset intact fits)
    (World.fresh_ready session.limits) #[] #[]
  exact ⟨_, rfl, rfl, machines.store.since #[] #[], machines.scope.since #[] #[],
    machines.closures.since #[] #[]⟩

/--
In a dialogue with any session, whatever was done at the desk before: a line that
fails is drawn with what is wrong under it.  What is marked is a stretch of that line,
or code of a function that one of the lines before it declares.
-/
theorem dialogue_blames {history : List Desk.Step} {desk : Desk} {number : Nat}
    {session : Session} (reachable : Desk.Reachable history desk)
    (found : desk.session? number = some session) {lines : List String} {all : List Report}
    (ran : (ofSession desk.world session).reports fuel lines = some all) :
    (ofSession desk.world session).dialogue fuel (lines.map some) =
        some (transcript (List.zipWith shown lines all)) ∧
      ∀ {k : Nat} {line : String} {report : Report} {diagnostic : Diagnostic},
        lines[k]? = some line → all[k]? = some report → report.diagnostic = some diagnostic →
        (shown line report).errors = diagnostic.render (Text.trim line) ++ "\n" ∧
          diagnostic.Blames session.limits (lines.take k) line := by
  refine ⟨by rw [dialogue_eq_transcript, ran]; rfl, ?_⟩
  intro k line report diagnostic asked answered failed
  refine ⟨by simp [shown, failed], ?_⟩
  obtain ⟨p, sharp, like⟩ := like_start reachable.sound.intact (reachable.sound.fits found).1
  obtain ⟨all', ran', same⟩ := like.reports sharp ran
  -- a new session fails at the same line, and holds nothing but what it was told
  have failed' : (all'.map (·.diagnostic))[k]? = some (some diagnostic) := by
    rw [same, List.getElem?_map, answered, Option.map_some, failed]
  rw [List.getElem?_map, Option.map_eq_some_iff] at failed'
  obtain ⟨report', answered', failed'⟩ := failed'
  exact (heard_start session.limits).reports_blame ran' asked answered' failed'

/-- The third line calls a function of the first, out of an array of the second. -/
theorem dialogue_blames_first_line :
    let lines := ["fonction f() retourner inconnue fin", "var t = [f]", " t[0]() "]
    let fault : Located RuntimeFault := ⟨⟨23, 31, 1⟩, .undefinedVariable "inconnue"⟩
    ∃ all report, (start {}).reports 9 lines = some all ∧ all[2]? = some report ∧
      report.diagnostic = some (.runtime fault) ∧
      (Diagnostic.runtime fault).Blames {} (lines.take 2) " t[0]() " := by
  intro lines fault
  have outcomes : ((start {}).reports 9 lines).bind (fun all => all[2]?.bind (·.diagnostic)) =
      some (.runtime fault) := by decide +kernel
  obtain ⟨all, ran, outcomes⟩ := Option.bind_eq_some_iff.mp outcomes
  obtain ⟨report, answered, failed⟩ := Option.bind_eq_some_iff.mp outcomes
  have opening : Desk.empty.step 0 (.newSession {}) = some (Desk.empty.openSession {}, none) := rfl
  have reachable := Desk.Reachable.empty.step opening
  have found : (Desk.empty.openSession {}).session? 0 = some (World.initial.newSession {}).1 := rfl
  rw [start_eq_ofSession] at ran ⊢
  obtain ⟨_, blames⟩ := dialogue_blames reachable found ran
  exact ⟨all, report, ran, answered, failed, (blames rfl answered failed).2⟩

/-- The line `f()` is too short for the span of the name that was not found. -/
theorem dialogue_points_past_line :
    let lines := ["fonction f() retourner inconnue fin", "f()"]
    let fault : Located RuntimeFault := ⟨⟨23, 31, 1⟩, .undefinedVariable "inconnue"⟩
    ((start {}).reports 9 lines).map (List.map (·.diagnostic)) =
        some [none, some (.runtime fault)] ∧
      ((start {}).dialogue 9 (lines.map some)).map (·.errors) =
        some ("Erreur à l'exécution: ligne 1, colonne 3\n\nf()\n   ^\n" ++
          "   La variable inconnue n'existe pas\n") ∧
      ∀ marked, ¬ fault.span.Marks (Text.trim "f()") marked := by
  refine ⟨by decide +kernel, by decide +kernel, fun marked marks => ?_⟩
  have short : (Text.trim "f()").utf8ByteSize = 3 := by decide +kernel
  have bound : 31 ≤ (Text.trim "f()").utf8ByteSize := marks.stop_le
  omega

end Prompt

end Ardoise
