import Ardoise.Proofs.Parsing.Agreement
import Ardoise.Proofs.Sessions.Isolation

/-!
# How a program is laid out does not matter

Blanks, comments, the language and letter case of the keywords: none of these
reach the kinds of the tokens.  Two texts with tokens of the same kinds are
refused for want of the same thing or run alike.  Both programs have the same
blurred form, and each runs like that form.
-/

namespace Ardoise

def World.fresh (limits : Limits) : Session × World :=
  let (session, world) := World.initial.newSession limits
  world.reset session

theorem World.fresh_ready (limits : Limits) :
    (World.fresh limits).1.Ready (World.fresh limits).2 := by
  obtain ⟨spared, fits⟩ := World.intact_initial.newSession limits
  exact Session.ready_reset (World.intact_initial.of_spares spared) fits

theorem interpret_eq_runProgram {limits : Limits} {source : String} {tokens : List Token}
    {program : Program} (scanned : scan source = .ok tokens)
    (parsed : parse limits.nesting tokens = .ok program) :
    ∃ journal, ∀ fuel, interpret fuel limits source =
      (World.fresh limits).2.runProgram fuel (World.fresh limits).1 journal program := by
  refine ⟨(#[Event.scanned tokens.length].push (.parsed program.length)).push (.listed program),
    fun fuel => ?_⟩
  change (World.fresh limits).2.run fuel (World.fresh limits).1 source = _
  have limits_eq : (World.fresh limits).1.limits = limits := rfl
  simp only [World.run, scanned, limits_eq, parsed]

theorem World.runProgram_diagnostic {fuel : Nat} {world : World} {session : Session}
    {journal : Array Event} {program : Program} {report : Report}
    (ran : world.runProgram fuel session journal program = some report) :
    report.diagnostic = none ∨ ∃ fault, report.diagnostic = some (.runtime fault) := by
  simp only [World.runProgram] at ran
  split at ran
  · cases ran
    exact .inl rfl
  · rename_i fault _ _
    cases ran
    exact .inr ⟨fault, rfl⟩
  · cases ran

/-- Where it ends, a run prints the lines that the run of the blurred program prints. -/
theorem runProgram_blurred {b : Blur} {limits : Limits} {journal : Array Event}
    {program : Program} {fuel fuel' : Nat} {report : Report} (le : fuel ≤ fuel')
    (ran : (World.fresh limits).2.runProgram fuel (World.fresh limits).1 journal program =
      some report) :
    ∃ blurred, (World.fresh limits).2.runProgram fuel' (World.fresh limits).1 #[]
        (Stmt.blurAll b program) = some blurred ∧
      blurred.diagnostic = report.diagnostic.map (Diagnostic.blur b) ∧
      blurred.world.lines = report.world.lines := by
  have ready := World.fresh_ready limits
  have reports := World.runProgram_matches b true ready ready rfl (.of (.inr ⟨rfl, le⟩)) journal #[]
    program
  rw [ran] at reports
  obtain ⟨blurred, ran', diagnostic, printed, lines, lines'⟩ := reports.of_some
  exact ⟨blurred, ran', diagnostic, lines'.trans lines.symm⟩

theorem runProgram_blurred_isSome (b : Blur) (limits : Limits) (journal : Array Event)
    (program : Program) (fuel : Nat) :
    ((World.fresh limits).2.runProgram fuel (World.fresh limits).1 journal program).isSome =
      ((World.fresh limits).2.runProgram fuel (World.fresh limits).1 #[]
        (Stmt.blurAll b program)).isSome := by
  have ready := World.fresh_ready limits
  exact (World.runProgram_matches b false ready ready rfl (.of (.inl rfl)) journal #[]
    program).isSome_eq rfl

/-- Both runs end well, or both in the same fault up to the spelling of logical operators. -/
inductive SameEnd : Option Diagnostic → Option Diagnostic → Prop
  | well : SameEnd none none
  | faulty {f g : Located RuntimeFault} (same : f.fault.blur .wordless = g.fault.blur .wordless) :
      SameEnd (some (.runtime f)) (some (.runtime g))

private theorem SameEnd.of_map_eq {x y : Option Diagnostic}
    (ends : x = none ∨ ∃ fault, x = some (.runtime fault))
    (ends' : y = none ∨ ∃ fault, y = some (.runtime fault))
    (same : x.map (Diagnostic.blur .wordless) = y.map (Diagnostic.blur .wordless)) :
    SameEnd x y := by
  rcases ends with rfl | ⟨f, rfl⟩
  · rcases ends' with rfl | ⟨g, rfl⟩
    · exact .well
    · cases same
  · rcases ends' with rfl | ⟨g, rfl⟩
    · cases same
    · simp only [Option.map_some, Diagnostic.blur, Option.some.injEq, Diagnostic.runtime.injEq,
        blurFault, Located.mk.injEq] at same
      exact .faulty same.2

/--
Two texts whose tokens are of the same kinds are both refused for want of the
same thing, or read as programs that are the same but for spans and the spelling
of operators.  In a new session these need the same fuel, print the same lines
and end alike.
-/
theorem interpret_of_same_kinds (limits : Limits) {source source' : String}
    {tokens tokens' : List Token} (scanned : scan source = .ok tokens)
    (scanned' : scan source' = .ok tokens')
    (kinds : tokens.map Token.kind = tokens'.map Token.kind) :
    (∃ fault fault', parse limits.nesting tokens = .error fault ∧
      parse limits.nesting tokens' = .error fault' ∧
      fault.fault.expected = fault'.fault.expected) ∨
    ∃ program program', parse limits.nesting tokens = .ok program ∧
      parse limits.nesting tokens' = .ok program' ∧
      Stmt.blurAll .wordless program = Stmt.blurAll .wordless program' ∧
      (∀ fuel, (interpret fuel limits source).isSome = (interpret fuel limits source').isSome) ∧
      ∀ {fuel fuel' : Nat} {report report' : Report},
        interpret fuel limits source = some report →
        interpret fuel' limits source' = some report' →
        report.world.lines = report'.world.lines ∧
          SameEnd report.diagnostic report'.diagnostic := by
  have views : tokens.map (Token.view fun _ => "") = tokens'.map (Token.view fun _ => "") := by
    have paired := congrArg (List.map fun kind => (kind, "")) kinds
    rw [List.map_map, List.map_map] at paired
    exact paired
  rcases parse_alike limits.nesting views with refused | ⟨program, program', parsed, parsed', same⟩
  · exact .inl refused
  · change Stmt.blurAll .wordless program = Stmt.blurAll .wordless program' at same
    obtain ⟨journal, runs⟩ := interpret_eq_runProgram scanned parsed
    obtain ⟨journal', runs'⟩ := interpret_eq_runProgram scanned' parsed'
    refine .inr ⟨program, program', parsed, parsed', same, ?_, ?_⟩
    · intro fuel
      have ends := runProgram_blurred_isSome .wordless limits journal program fuel
      have ends' := runProgram_blurred_isSome .wordless limits journal' program' fuel
      rw [runs fuel, runs' fuel, ends, ends', same]
    · intro fuel fuel' report report' ran ran'
      rw [runs fuel] at ran
      rw [runs' fuel'] at ran'
      -- one run of the blurred program, with fuel enough for either, stands between the two
      obtain ⟨blurred, first, diagnostic, lines⟩ :=
        runProgram_blurred (b := .wordless) (Nat.le_max_left fuel fuel') ran
      obtain ⟨blurred', second, diagnostic', lines'⟩ :=
        runProgram_blurred (b := .wordless) (Nat.le_max_right fuel fuel') ran'
      rw [same, second] at first
      cases first
      refine ⟨lines.symm.trans lines', ?_⟩
      exact .of_map_eq (World.runProgram_diagnostic ran) (World.runProgram_diagnostic ran')
        (diagnostic.symm.trans diagnostic')

/-- Both print the one line and stop at the operator, which the texts spell differently. -/
theorem interpret_of_same_kinds_in_two_languages :
    let french := "afficher vrai afficher vrai et nul"
    let english := "PRINT true  // twice\nprint TRUE\nand null"
    ∃ tokens tokens' report report', scan french = .ok tokens ∧ scan english = .ok tokens' ∧
      tokens.map Token.kind = tokens'.map Token.kind ∧
      interpret 9 {} french = some report ∧ interpret 9 {} english = some report' ∧
      report.world.lines = report'.world.lines ∧
      SameEnd report.diagnostic report'.diagnostic := by
  intro french english
  have kinds : (scan french).map (List.map Token.kind) =
      (scan english).map (List.map Token.kind) := by decide +kernel
  have proper : (scan french).isOk = true := by decide +kernel
  have ended : (interpret 9 {} french).isSome = true := by decide +kernel
  have ended' : (interpret 9 {} english).isSome = true := by decide +kernel
  have accepted : (scan french).toOption.bind (fun tokens => (parse 256 tokens).toOption.map
      List.length) = some 2 := by decide +kernel
  obtain ⟨report, ran⟩ := Option.isSome_iff_exists.mp ended
  obtain ⟨report', ran'⟩ := Option.isSome_iff_exists.mp ended'
  cases scanned : scan french with
  | error fault => simp [scanned, Except.isOk, Except.toBool] at proper
  | ok tokens =>
      cases scanned' : scan english with
      | error fault => simp [scanned, scanned', Except.map] at kinds
      | ok tokens' =>
          simp only [scanned, scanned', Except.map, Except.ok.injEq] at kinds
          rcases interpret_of_same_kinds {} scanned scanned' kinds with
            ⟨fault, fault', refused, _⟩ | ⟨program, program', _, _, _, _, same⟩
          · change parse 256 tokens = .error fault at refused
            simp [scanned, Except.toOption, refused] at accepted
          · exact ⟨tokens, tokens', report, report', rfl, rfl, kinds, ran, ran', same ran ran'⟩

end Ardoise
