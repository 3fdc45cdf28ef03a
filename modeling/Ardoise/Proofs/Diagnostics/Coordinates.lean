import Ardoise.Proofs.Diagnostics.Excerpts
import Ardoise.Proofs.Scanning.Tiling

/-!
# Coordinates

An editor knows places by line and column, a span by offsets.  The coordinates of
a marker, read back in the text, give the offsets of the span they were made from.
Where a span does not stand on boundaries of the text, what is shown is what would
be shown for the nearest one that does.
-/

namespace Ardoise

/-! ## Reading coordinates back -/

def bytesAlong : Nat → List Char → Option Nat
  | 0, _ => some 0
  | _ + 1, [] => none
  | columns + 1, c :: rest =>
      if c = '\n' then none else (bytesAlong columns rest).map (c.utf8Size + ·)

def bytesDown (columns : Nat) : Nat → List Char → Option Nat
  | 0, text => bytesAlong columns text
  | _ + 1, [] => none
  | breaks + 1, c :: rest =>
      (bytesDown columns (if c = '\n' then breaks else breaks + 1) rest).map (c.utf8Size + ·)

/--
The offset that a line and a column denote, both counted from one, if the text has
them.  The column behind the last character of a line denotes the end of the line.
-/
def offsetAt? (text : List Char) : (line column : Nat) → Option Nat
  | line + 1, column + 1 => bytesDown column line text
  | _, _ => none

private theorem bytesAlong_append {cs : List Char} (one : '\n' ∉ cs) (rest : List Char) :
    bytesAlong cs.length (cs ++ rest) = some (byteSize cs) := by
  induction cs with
  | nil => rfl
  | cons c cs ih =>
      rw [List.mem_cons, not_or] at one
      rw [List.length_cons, List.cons_append, bytesAlong, if_neg (Ne.symm one.1), ih one.2,
        byteSize_cons]
      rfl

theorem bytesDown_append (before rest : List Char) :
    bytesDown (lastLine before).length (before.count '\n') (before ++ rest) =
      some (byteSize before) := by
  induction before with
  | nil =>
      rw [lastLine_eq_self List.not_mem_nil, List.count_nil, bytesDown]
      rfl
  | cons c cs ih =>
      by_cases breaks : '\n' ∈ c :: cs
      · -- the last line is that of the tail, as there is a break in front of it
        have last : lastLine (c :: cs) = lastLine cs := by
          by_cases inside : '\n' ∈ cs
          · exact lastLine_append_of_mem inside [c]
          · obtain rfl : '\n' = c := (List.mem_cons.mp breaks).resolve_right inside
            exact (lastLine_append_of_not_mem inside ['\n']).trans (lastLine_eq_self inside).symm
        obtain ⟨count, counted⟩ := Nat.exists_eq_succ_of_ne_zero
          (List.count_pos_iff.mpr breaks).ne'
        have left : (if c = '\n' then count else count + 1) = cs.count '\n' := by
          rw [List.count_cons] at counted
          split <;> simp_all
        rw [last, counted, List.cons_append, bytesDown, left, ih, byteSize_cons]
        rfl
      · rw [lastLine_eq_self breaks, List.count_eq_zero.mpr breaks]
        exact bytesAlong_append breaks rest

/-! ## Markers -/

theorem Span.Marks.exists_split {span : Span} {source marked : String}
    (h : span.Marks source marked) :
    ∃ before after : List Char, source.toList = before ++ marked.toList ++ after ∧
      span = ⟨byteSize before, byteSize (before ++ marked.toList), 1 + before.count '\n'⟩ := by
  obtain ⟨before, after, rfl, start, stop, line⟩ := h
  refine ⟨before.toList, after.toList, by rw [String.toList_append, String.toList_append], ?_⟩
  rw [← String.toList_append, byteSize_toList, byteSize_toList, ← start, ← stop, ← line]

namespace Diagnostic

def movedTo (span : Span) : Diagnostic → Diagnostic
  | lexical fault => lexical { fault with span := span }
  | grammar fault => grammar { fault with span := span }
  | runtime fault => runtime { fault with span := span }

@[simp] theorem span_movedTo (diagnostic : Diagnostic) (span : Span) :
    (diagnostic.movedTo span).span = span := by
  cases diagnostic <;> rfl

@[simp] theorem title_movedTo (diagnostic : Diagnostic) (span : Span) :
    (diagnostic.movedTo span).title = diagnostic.title := by
  cases diagnostic <;> rfl

@[simp] theorem message_movedTo (diagnostic : Diagnostic) (span : Span) :
    (diagnostic.movedTo span).message = diagnostic.message := by
  cases diagnostic <;> rfl

variable {diagnostic : Diagnostic} {source : String}

/-- What is shown depends on the offsets of the span only through the excerpt. -/
theorem marker_movedTo {span : Span} (line : span.line = diagnostic.span.line)
    (same : Excerpt.locate source.toList span = Excerpt.locate source.toList diagnostic.span) :
    (diagnostic.movedTo span).marker source = diagnostic.marker source := by
  simp only [marker, span_movedTo, message_movedTo, line, same]

private theorem render_movedTo {span : Span} (line : span.line = diagnostic.span.line)
    (same : Excerpt.locate source.toList span = Excerpt.locate source.toList diagnostic.span) :
    (diagnostic.movedTo span).render source = diagnostic.render source := by
  simp only [render, span_movedTo, title_movedTo, message_movedTo, line, same]

private theorem marker_of_locate {before marked onward : List Char}
    (located : Excerpt.locate source.toList diagnostic.span = ⟨lastLine before, marked, onward⟩) :
    diagnostic.marker source =
      ⟨diagnostic.span.line, (lastLine before).length + 1,
        diagnostic.span.line + marked.count '\n', (lastLine (before ++ marked)).length + 1,
        diagnostic.message⟩ := by
  have column : (if '\n' ∈ marked then 0 else (lastLine before).length) +
      (marked.reverse.takeWhile (· ≠ '\n')).length = (lastLine (before ++ marked)).length := by
    have same : (marked.reverse.takeWhile (· ≠ '\n')).length = (lastLine marked).length :=
      List.length_reverse.symm
    rw [same]
    split
    · rename_i breaks
      rw [lastLine_append_of_mem breaks, Nat.zero_add]
    · rename_i one
      rw [lastLine_append_of_not_mem one, lastLine_eq_self one, List.length_append]
  simp only [marker, located, Excerpt.column, column]

/-- The coordinates of a stretch of the text denote its ends. -/
theorem offsetAt?_marker {marked : String} (marks : diagnostic.span.Marks source marked) :
    offsetAt? source.toList (diagnostic.marker source).startLine
        (diagnostic.marker source).startColumn = some diagnostic.span.start ∧
      offsetAt? source.toList (diagnostic.marker source).endLine
        (diagnostic.marker source).endColumn = some diagnostic.span.stop := by
  obtain ⟨before, after, split, same⟩ := marks.exists_split
  have located := Excerpt.locate_eq split (1 + before.count '\n')
  rw [← same] at located
  rw [marker_of_locate located, same, split]
  simp only [Nat.add_comm 1, Nat.add_right_comm _ 1, ← List.count_append]
  refine ⟨?_, ?_⟩
  · rw [List.append_assoc]
    exact bytesDown_append before _
  · exact bytesDown_append (before ++ marked.toList) after

/--
A marker is faithful: its coordinates denote the offsets of the span, wherever the
span starts and stops in the text.  And a span that does not stand on boundaries, or
is reversed, is shown as the one whose offsets are the nearest boundaries below, with
an end that is not before the start; all that is shown is cut out between boundaries.
-/
theorem marker_faithful (diagnostic : Diagnostic) (source : String) :
    let marker := diagnostic.marker source
    let text := source.toList
    (∀ marked, diagnostic.span.Marks source marked →
      offsetAt? text marker.startLine marker.startColumn = some diagnostic.span.start ∧
      offsetAt? text marker.endLine marker.endColumn = some diagnostic.span.stop) ∧
    ∃ start stop,
      IsGreatest {offset | IsBoundary text offset ∧ offset ≤ diagnostic.span.start} start ∧
      IsGreatest {offset | IsBoundary text offset ∧ offset ≤ diagnostic.span.stop} stop ∧
      let settled : Span := ⟨start, max stop start, diagnostic.span.line⟩
      (∃ lineStart lineStop,
        (Excerpt.locate text diagnostic.span).CutFrom text settled lineStart lineStop) ∧
      (diagnostic.movedTo settled).marker source = marker ∧
      (diagnostic.movedTo settled).render source = diagnostic.render source := by
  intro marker text
  refine ⟨fun marked marks => offsetAt?_marker marks, ?_⟩
  obtain ⟨before, marked, after, split, start, stop, located⟩ :=
    Excerpt.exists_split text diagnostic.span
  refine ⟨_, _, isGreatest_byteSize_splitBytes text _, isGreatest_byteSize_splitBytes text _, ?_⟩
  rw [← stop, ← start]
  have same := Excerpt.locate_eq split diagnostic.span.line
  rw [← located] at same
  refine ⟨?_, marker_movedTo rfl same, render_movedTo rfl same⟩
  rw [located]
  exact Excerpt.exists_cutFrom split diagnostic.span.line

/-- From a letter of two bytes over a line break to the end of the text. -/
theorem marker_faithful_over_lines :
    let source := "x\n é\nç"
    let fault : Located RuntimeFault := ⟨⟨3, 8, 2⟩, .infiniteLoop⟩
    let marker := (runtime fault).marker source
    marker = ⟨2, 2, 3, 2, fault.fault.message⟩ ∧ fault.span.Marks source "é\nç" ∧
      offsetAt? source.toList marker.startLine marker.startColumn = some 3 ∧
      offsetAt? source.toList marker.endLine marker.endColumn = some 8 := by
  intro source fault marker
  have marks : fault.span.Marks source "é\nç" :=
    ⟨"x\n ", "", by decide, by decide, by decide, by decide⟩
  have faithful := marker_faithful (.runtime fault) source
  exact ⟨by decide +kernel, marks, faithful.1 _ marks⟩

end Diagnostic

end Ardoise
