import Ardoise.Proofs.Parsing.Composition
import Ardoise.Proofs.Parsing.Spans
import Ardoise.Proofs.Scanning.Tiling
import Ardoise.Proofs.Sessions.Endings

/-!
# Where diagnostics point

Whatever goes wrong with a text, in whichever session, the diagnostic marks a
stretch of that same text.  A text that does not scan is marked at its first bad
characters, one that does not parse at one token, and one that fails while it runs
at a stretch of tokens.  A session is reset before each run, so no function that
an earlier text declared is left to report a span of that text.
-/

namespace Ardoise

/-! ## Tokens that are laid out over a text -/

namespace LaidOut

variable {source : String} {tokens : List Token}

theorem inOrder (laid : LaidOut source tokens) : InOrder tokens where
  pairwise := laid.pairwise
  proper token member := by
    obtain ⟨marked, marks⟩ := laid.marks token member
    exact marks.start_le_stop

theorem start_lt_stop_or (laid : LaidOut source tokens) {token : Token}
    (member : token ∈ tokens) :
    token.span.start < token.span.stop ∨
      token.kind = .endOfInput ∧ token.span.start = source.utf8ByteSize := by
  obtain ⟨proper, last, rfl, behind, each⟩ := laid.ended
  rcases List.mem_append.mp member with inner | atEnd
  · exact .inl (each token inner).2
  · rw [List.mem_singleton.mp atEnd]
    exact .inr ⟨rfl, behind⟩

theorem finalToken_mem (laid : LaidOut source tokens) : Parser.finalToken tokens ∈ tokens := by
  obtain ⟨proper, last, rfl, _, _⟩ := laid.ended
  simp [Parser.finalToken, Token.endAt]

end LaidOut

theorem Span.Within.ends {span : Span} {ts : List Token} (within : span.Within ts) :
    ∃ (i j : Nat) (first last : Token), i ≤ j ∧ ts[i]? = some first ∧ ts[j]? = some last ∧
      span = ⟨first.span.start, last.span.stop, first.span.line⟩ := by
  obtain ⟨part, ⟨before, after, rfl⟩, first, last, starts, ends, same⟩ := within
  have some : part ≠ [] := by
    rintro rfl
    cases starts
  have positive := List.length_pos_iff.mpr some
  have inside : ∀ k < part.length, (before ++ part ++ after)[before.length + k]? = part[k]? := by
    intro k bound
    rw [List.append_assoc, List.getElem?_append_right (by omega),
      List.getElem?_append_left (by omega), Nat.add_sub_cancel_left]
  rw [List.head?_eq_getElem?, ← inside 0 positive] at starts
  rw [List.getLast?_eq_getElem?, ← inside (part.length - 1) (by omega)] at ends
  exact ⟨_, _, first, last, by omega, starts, ends, same⟩

private theorem LaidOut.marks_of_stretch {source : String} {tokens : List Token}
    (laid : LaidOut source tokens) {i j : Nat} {first last : Token} (ordered : i ≤ j)
    (starts : tokens[i]? = some first) (ends : tokens[j]? = some last)
    (proper : first.kind ≠ .endOfInput) :
    ∃ marked, marked ≠ "" ∧
      Span.Marks ⟨first.span.start, last.span.stop, first.span.line⟩ source marked := by
  have here := List.mem_of_getElem? starts
  have there := List.mem_of_getElem? ends
  have nonempty : first.span.start < first.span.stop := by
    rcases laid.start_lt_stop_or here with shorter | ⟨atEnd, _⟩
    · exact shorter
    · exact absurd atEnd proper
  have reach : first.span.stop ≤ last.span.stop := by
    rcases Nat.lt_or_eq_of_le ordered with before | rfl
    · obtain ⟨bound, rfl⟩ := List.getElem?_eq_some_iff.mp starts
      obtain ⟨bound', rfl⟩ := List.getElem?_eq_some_iff.mp ends
      have apart := List.pairwise_iff_getElem.mp laid.pairwise i j bound bound' before
      exact Nat.le_trans apart (laid.inOrder.proper _ there)
    · cases starts.symm.trans ends
      exact Nat.le_refl _
  obtain ⟨_, marks⟩ := laid.marks first here
  obtain ⟨_, marks'⟩ := laid.marks last there
  obtain ⟨joint, joined⟩ := marks.upTo marks' (by omega)
  have same : first.span.upTo last.span = ⟨first.span.start, last.span.stop, first.span.line⟩ := by
    rw [Span.upTo, Nat.max_eq_left (by omega)]
  rw [same] at joined
  exact ⟨joint, joined.start_lt_stop_iff.mp (Nat.lt_of_lt_of_le nonempty reach), joined⟩

/-! ## Runs -/

/--
What the diagnostic marks in the text: some characters that make no token, one
token, or the tokens from one to the same or a later one.  Nothing is marked only
where a token is missing behind the last character.
-/
def Diagnostic.PointsAt (source marked : String) : Diagnostic → Prop
  | .lexical _ => marked ≠ ""
  | .grammar fault => ∃ tokens, scan source = .ok tokens ∧ ∃ token ∈ tokens,
      fault.span = token.span ∧
      (marked = "" → token.kind = .endOfInput ∧ fault.span.start = source.utf8ByteSize)
  | .runtime fault => marked ≠ "" ∧ ∃ tokens, scan source = .ok tokens ∧
      ∃ (i j : Nat) (first last : Token), i ≤ j ∧
        tokens[i]? = some first ∧ tokens[j]? = some last ∧
        fault.span = ⟨first.span.start, last.span.stop, first.span.line⟩

variable {source : String} {tokens : List Token}

theorem pointsAt_of_scan_error {fault : Located LexicalFault}
    (refused : scan source = .error fault) :
    ∃ marked, fault.span.Marks source marked ∧
      (Diagnostic.lexical fault).PointsAt source marked := by
  obtain ⟨marked, some, marks⟩ := marks_of_scan_error refused
  exact ⟨marked, marks, some⟩

theorem pointsAt_of_parse_error {limit : Nat} {fault : Located GrammarFault}
    (scanned : scan source = .ok tokens) (refused : parse limit tokens = .error fault) :
    ∃ marked, fault.span.Marks source marked ∧
      (Diagnostic.grammar fault).PointsAt source marked := by
  have laid := laidOut_of_scan scanned
  obtain ⟨token, member, same⟩ := span_of_parse_error refused
  have member : token ∈ tokens := by
    rcases List.mem_append.mp member with inner | final
    · exact inner
    · rw [List.mem_singleton.mp final]
      exact laid.finalToken_mem
  obtain ⟨marked, marks⟩ := laid.marks token member
  refine ⟨marked, same ▸ marks, tokens, scanned, token, member, same, ?_⟩
  intro nothing
  rcases laid.start_lt_stop_or member with shorter | ⟨atEnd, behind⟩
  · exact absurd nothing (marks.start_lt_stop_iff.mp shorter)
  · exact ⟨atEnd, same ▸ behind⟩

/-- The end is not among the tokens that were parsed, so the fault of a run marks something. -/
theorem pointsAt_of_within {used rest : List Token} {fault : Located RuntimeFault}
    (scanned : scan source = .ok (used ++ rest))
    (proper : ∀ token ∈ used, token.kind ≠ .endOfInput) (within : fault.span.Within used) :
    ∃ marked, fault.span.Marks source marked ∧
      (Diagnostic.runtime fault).PointsAt source marked := by
  obtain ⟨i, j, first, last, ordered, starts, ends, same⟩ := within.ends
  have whole : ∀ {k : Nat} {token : Token}, used[k]? = some token →
      (used ++ rest)[k]? = some token := by
    intro k token found
    rw [List.getElem?_append_left (List.getElem?_eq_some_iff.mp found).1, found]
  obtain ⟨marked, some, marks⟩ := (laidOut_of_scan scanned).marks_of_stretch ordered
    (whole starts) (whole ends) (proper first (List.mem_of_getElem? starts))
  exact ⟨marked, same ▸ marks, some, _, scanned, i, j, first, last, ordered, whole starts,
    whole ends, same⟩

private theorem World.pointsAt_of_interpret {world : World} {session : Session} {fuel : Nat}
    {report : Report} {diagnostic : Diagnostic} (intact : world.Intact)
    (fits : session.Fits world) (ran : world.interpret fuel session source = some report)
    (failed : report.diagnostic = some diagnostic) :
    ∃ marked, diagnostic.span.Marks source marked ∧ diagnostic.PointsAt source marked := by
  cases scanned : scan source with
  | error fault =>
      simp only [interpret, run, scanned, Option.some.injEq] at ran
      subst ran
      cases failed
      exact pointsAt_of_scan_error scanned
  | ok tokens =>
      cases parsed : parse session.limits.nesting tokens with
      | error fault =>
          have parsed' : parse (world.reset session).1.limits.nesting tokens = .error fault :=
            parsed
          simp only [interpret, run, scanned, parsed', Option.some.injEq] at ran
          subst ran
          cases failed
          exact pointsAt_of_parse_error scanned parsed
      | ok program =>
          obtain ⟨used, rest, rfl, proper, obeys⟩ :=
            obeys_of_parse (laidOut_of_scan scanned).inOrder parsed
          have endsOn : EndsOn (Regime.stretches used).terms
              (world.interpret fuel session source) :=
            interpret_endsOn intact fits scanned parsed (Regime.suit _)
              (Stmt.allObey_iff.mp obeys) (.inl trivial)
          rw [ran] at endsOn
          cases endsOn with
          | well well => simp [well] at failed
          | faulty faulty within =>
              cases failed.symm.trans faulty
              exact pointsAt_of_within scanned proper within

namespace Desk

variable {history : List Step} {desk next : Desk} {number fuel : Nat} {diagnostic : Diagnostic}

/--
A text that fails, in any session and after whatever was run before, is reported at a
stretch of itself: characters, one token or a row of tokens.
-/
theorem interpret_points (reachable : Reachable history desk)
    (ran : desk.interpret fuel number source = some (next, some diagnostic)) :
    ∃ marked, diagnostic.span.Marks source marked ∧ diagnostic.PointsAt source marked := by
  cases found : desk.session? number with
  | none => simp [Desk.interpret, found] at ran
  | some session =>
      obtain ⟨report, reported, _, failed⟩ := (interpret_eq_some found).mp ran
      have sound := reachable.sound
      exact World.pointsAt_of_interpret sound.intact (sound.fits found).1 reported failed.symm

/--
A product that is found wrong when its function is called, behind a text that takes
two lines and a letter that takes two bytes.
-/
theorem interpret_points_in_called_function :
    let told := "fonction f(a) retourner a + vrai fin f(1)"
    let asked := "var s = \"é\n\"\nfonction g(a) retourner s * (a - 1) fin afficher g(2)"
    let fault : Located RuntimeFault := ⟨⟨38, 49, 3⟩, .numbersRequired "multipliés" "chaîne"⟩
    ∃ desk next, Reachable [.newSession {}, .interpret 0 told] desk ∧
      desk.interpret 20 0 asked = some (next, some (.runtime fault)) ∧
      ∃ marked, fault.span.Marks asked marked ∧
        (Diagnostic.runtime fault).PointsAt asked marked := by
  intro told asked fault
  have both : ((Desk.empty.openSession {}).interpret 20 0 told).bind
      (fun reply => (reply.1.interpret 20 0 asked).map (·.2)) = some (some (.runtime fault)) := by
    decide +kernel
  obtain ⟨⟨desk, diagnostic⟩, taken, both⟩ := Option.bind_eq_some_iff.mp both
  obtain ⟨⟨next, _⟩, ran, rfl⟩ := Option.map_eq_some_iff.mp both
  have opening : Desk.empty.step 20 (.newSession {}) = some (Desk.empty.openSession {}, none) := rfl
  have telling : (Desk.empty.openSession {}).step 20 (.interpret 0 told) =
      some (desk, diagnostic) := taken
  have reachable := (Reachable.empty.step opening).step telling
  exact ⟨desk, next, reachable, ran, interpret_points reachable ran⟩

end Desk

end Ardoise
