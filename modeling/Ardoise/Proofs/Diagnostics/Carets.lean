import Ardoise.Proofs.Diagnostics.Excerpts
import Ardoise.Session

/-!
# Carets

The fourth line of a diagnostic has carets under characters of the third, which is
the line of the text that the span starts in.  They mark what the span covers of
that line.  The line is shown without its end, but the carets are counted up to the
line feed: a span that takes in the carriage return of the line's end has one caret
behind the last character.
-/

namespace Ardoise

/-! ## Line ends -/

/-- A line end comes next: a line feed, or a carriage return with a line feed. -/
def AtLineEnd (cs : List Char) : Prop := ['\n'] <+: cs ∨ ['\r', '\n'] <+: cs

instance (cs : List Char) : Decidable (AtLineEnd cs) := inferInstanceAs (Decidable (_ ∨ _))

def upToLineEnd : List Char → List Char
  | [] => []
  | c :: rest => if AtLineEnd (c :: rest) then [] else c :: upToLineEnd rest

/-- All lines end in one of the two ways: no carriage return stands elsewhere. -/
def ProperLineEnds (text : List Char) : Prop :=
  ∀ i < text.length, text[i]? = some '\r' → text[i + 1]? = some '\n'

instance (text : List Char) : Decidable (ProperLineEnds text) :=
  inferInstanceAs (Decidable (∀ i < text.length, _))

variable {c : Char} {cs rest : List Char}

theorem ProperLineEnds.of_append (h : ProperLineEnds (cs ++ rest)) : ProperLineEnds rest := by
  intro i inside back
  have shifted : ∀ k, (cs ++ rest)[cs.length + k]? = rest[k]? := fun k => by
    rw [List.getElem?_append_right (Nat.le_add_right _ _), Nat.add_sub_cancel_left]
  have next := h (cs.length + i) (by rw [List.length_append]; omega) (by rw [shifted, back])
  rwa [Nat.add_assoc, shifted] at next

theorem ProperLineEnds.next (h : ProperLineEnds (cs ++ '\r' :: rest)) : ['\n'] <+: rest := by
  have follows := h.of_append 0 (Nat.succ_pos _) rfl
  cases rest with
  | nil => cases follows
  | cons c rest =>
      cases follows
      exact List.prefix_append ['\n'] rest

theorem atLineEnd_cons : AtLineEnd (c :: rest) ↔ c = '\n' ∨ c = '\r' ∧ ['\n'] <+: rest := by
  simp [AtLineEnd, List.cons_prefix_cons, eq_comm]

theorem upToLineEnd_of_not_atLineEnd (h : ¬ AtLineEnd (c :: rest)) :
    upToLineEnd (c :: rest) = c :: upToLineEnd rest := by
  rw [upToLineEnd, if_neg h]

theorem upToLineEnd_of_atLineEnd (h : AtLineEnd cs) : upToLineEnd cs = [] := by
  cases cs with
  | nil => rfl
  | cons c rest => rw [upToLineEnd, if_pos h]

theorem firstLine_cons (other : c ≠ '\n') (rest : List Char) :
    firstLine (c :: rest) = c :: firstLine rest := by
  have one : '\n' ∉ [c] := by simpa using other.symm
  exact firstLine_append_of_not_mem one rest

theorem firstLine_eq_upToLineEnd (ends : ProperLineEnds cs) :
    '\r' ∉ upToLineEnd cs ∧
      (firstLine cs = upToLineEnd cs ∨ firstLine cs = upToLineEnd cs ++ ['\r']) := by
  induction cs with
  | nil => exact ⟨List.not_mem_nil, .inl rfl⟩
  | cons c cs ih =>
      by_cases feed : c = '\n'
      · subst feed
        rw [upToLineEnd_of_atLineEnd (atLineEnd_cons.mpr (.inl rfl))]
        exact ⟨List.not_mem_nil, .inl rfl⟩
      by_cases back : c = '\r'
      · subst back
        have next : ['\n'] <+: cs := ProperLineEnds.next (show ProperLineEnds ([] ++ _) from ends)
        rw [upToLineEnd_of_atLineEnd (atLineEnd_cons.mpr (.inr ⟨rfl, next⟩))]
        obtain ⟨more, rfl⟩ := next
        exact ⟨List.not_mem_nil, .inr rfl⟩
      · have goesOn : ¬ AtLineEnd (c :: cs) := by
          rw [atLineEnd_cons]
          exact not_or.mpr ⟨feed, fun h => back h.1⟩
        have tail : ProperLineEnds ([c] ++ cs) := ends
        obtain ⟨plain, split⟩ := ih tail.of_append
        rw [upToLineEnd_of_not_atLineEnd goesOn, firstLine_cons feed]
        refine ⟨by simpa using ⟨Ne.symm back, plain⟩, ?_⟩
        exact split.imp (congrArg (c :: ·)) (congrArg (c :: ·))

theorem upToLineEnd_eq_firstLine (none : '\r' ∉ firstLine cs) : upToLineEnd cs = firstLine cs := by
  induction cs with
  | nil => rfl
  | cons c cs ih =>
      by_cases feed : c = '\n'
      · subst feed
        exact upToLineEnd_of_atLineEnd (atLineEnd_cons.mpr (.inl rfl))
      · rw [firstLine_cons feed, List.mem_cons, not_or] at none
        have goesOn : ¬ AtLineEnd (c :: cs) := by
          rw [atLineEnd_cons]
          exact not_or.mpr ⟨feed, fun h => none.1 h.1.symm⟩
        rw [upToLineEnd_of_not_atLineEnd goesOn, firstLine_cons feed, ih none.2]

private theorem firstLine_eq_take (cs ds : List Char) :
    firstLine cs = (firstLine (cs ++ ds)).take cs.length := by
  by_cases breaks : '\n' ∈ cs
  · have shorter : (firstLine cs).length ≤ cs.length := (List.takeWhile_prefix _).length_le
    rw [firstLine_append_of_mem breaks, List.take_of_length_le shorter]
  · rw [firstLine_append_of_not_mem breaks, firstLine_eq_self breaks, List.take_left]

/-- The first line of a stretch, of which the line end may take in a carriage return. -/
theorem firstLine_eq_take_upToLineEnd {marked after : List Char}
    (ends : ProperLineEnds (marked ++ after)) :
    let under := (upToLineEnd (marked ++ after)).take marked.length
    '\r' ∉ under ∧ (firstLine marked = under ∨
      firstLine marked = under ++ ['\r'] ∧ under = upToLineEnd (marked ++ after)) := by
  intro under
  obtain ⟨plain, line⟩ := firstLine_eq_upToLineEnd ends
  refine ⟨fun member => plain (List.mem_of_mem_take member), ?_⟩
  rw [firstLine_eq_take marked after]
  rcases line with same | more
  · exact .inl (by rw [same])
  · rcases Nat.lt_or_ge (upToLineEnd (marked ++ after)).length marked.length with beyond | within
    · have whole : under = upToLineEnd (marked ++ after) := List.take_of_length_le beyond.le
      refine .inr ⟨?_, whole⟩
      rw [more, whole, List.take_of_length_le (List.length_append.trans_le beyond)]
    · exact .inl (by rw [more, List.take_append_of_le_length within])

/-! ## The line that is shown -/

/-- A line up to a place in it has no carriage return, unless that place is within its end. -/
theorem not_mem_lastLine_of_not_atLineEnd {before : List Char}
    (ends : ProperLineEnds (before ++ rest)) (inside : ¬ AtLineEnd rest) :
    '\r' ∉ lastLine before := by
  intro member
  obtain ⟨head, split, _⟩ := lastLine_split before
  obtain ⟨front, back, parts⟩ := List.append_of_mem member
  have whole : before ++ rest = head ++ front ++ '\r' :: (back ++ rest) := by
    rw [split, parts]
    simp
  have next := (whole ▸ ends).next
  cases back with
  | nil => exact inside (.inl next)
  | cons c back =>
      rw [List.cons_append, List.cons_prefix_cons] at next
      have breaks : '\n' ∈ lastLine before := by
        rw [parts, ← next.1]
        simp
      exact not_mem_lastLine before breaks

private theorem line_eq {before : List Char} (marked : List Char)
    (ends : ProperLineEnds (before ++ rest)) (inside : ¬ AtLineEnd rest) :
    Excerpt.line ⟨lastLine before, marked, firstLine rest⟩ =
      lastLine before ++ upToLineEnd rest := by
  obtain ⟨plain, split⟩ := firstLine_eq_upToLineEnd ends.of_append
  have clean : '\r' ∉ lastLine before ++ upToLineEnd rest := by
    rw [List.mem_append, not_or]
    exact ⟨not_mem_lastLine_of_not_atLineEnd ends inside, plain⟩
  have kept : (lastLine before ++ upToLineEnd rest).rdropWhile (· = '\r') =
      lastLine before ++ upToLineEnd rest := by
    refine List.rdropWhile_eq_self_iff.mpr fun some => ?_
    simpa using ne_of_mem_of_not_mem (List.getLast_mem some) clean
  change (lastLine before ++ firstLine rest).rdropWhile (· = '\r') = _
  rcases split with same | more
  · rw [same, kept]
  · rw [more, ← List.append_assoc, List.rdropWhile_concat_pos _ _ _ (by simp), kept]

/-! ## The block -/

private theorem not_mem_toDigits (n : Nat) : '\n' ∉ Nat.toDigits 10 n := by
  intro member
  have digit := Nat.isDigit_of_mem_toDigits (by decide) (by decide) member
  exact absurd digit (by decide)

theorem splitOn_line (one : '\n' ∉ cs) (rest : List Char) :
    (cs ++ '\n' :: rest).splitOn '\n' = cs :: rest.splitOn '\n' := by
  refine List.splitOnP_append_cons_of_forall_mem (fun c member => ?_) '\n' (by simp) rest
  simpa using ne_of_mem_of_not_mem member one

theorem Excerpt.not_mem_line (text : List Char) (span : Span) : '\n' ∉ (locate text span).line := by
  obtain ⟨before, marked, after, _, _, _, located⟩ := exists_split text span
  rw [located]
  intro member
  have inside : '\n' ∈ lastLine before ++ firstLine (marked ++ after) :=
    (List.rdropWhile_prefix _ _).subset member
  rcases List.mem_append.mp inside with front | back
  · exact not_mem_lastLine _ front
  · exact not_mem_firstLine _ back

namespace Diagnostic

private theorem not_mem_title (diagnostic : Diagnostic) : '\n' ∉ diagnostic.title.toList := by
  cases diagnostic <;> simp [title]

private theorem splitOn_render (diagnostic : Diagnostic) (source : String) :
    let excerpt := Excerpt.locate source.toList diagnostic.span
    ∃ heading message, (diagnostic.render source).toList.splitOn '\n' =
      heading :: [] :: excerpt.line ::
        (List.replicate excerpt.column ' ' ++ List.replicate (max excerpt.underline 1) '^') ::
        message := by
  intro excerpt
  let heading := diagnostic.title ++ ": ligne " ++ toString diagnostic.span.line ++
    ", colonne " ++ toString excerpt.column
  let carets := List.replicate excerpt.column ' ' ++ List.replicate (max excerpt.underline 1) '^'
  let message := List.replicate excerpt.column ' ' ++ diagnostic.message.toList
  have block : (diagnostic.render source).toList =
      heading.toList ++ '\n' :: ([] ++ '\n' ::
        (excerpt.line ++ '\n' :: (carets ++ '\n' :: message))) := by
    simp [render, heading, carets, message, excerpt]
  have one : '\n' ∉ heading.toList := by
    simp [heading, not_mem_title, not_mem_toDigits]
  have two : '\n' ∉ carets := by simp [carets]
  refine ⟨heading.toList, message.splitOn '\n', ?_⟩
  rw [block, splitOn_line one, splitOn_line List.not_mem_nil,
    splitOn_line (Excerpt.not_mem_line _ _), splitOn_line two]

private theorem carets_eq {marked after : List Char} (some : marked ≠ [])
    (inside : ¬ AtLineEnd (marked ++ after)) :
    max (firstLine marked).length 1 = (firstLine marked).length := by
  obtain ⟨c, rest, rfl⟩ := List.exists_cons_of_ne_nil some
  have other : c ≠ '\n' := fun feed => inside (atLineEnd_cons.mpr (.inl feed))
  rw [firstLine_cons other, List.length_cons]
  omega

/--
The carets stand under what the span covers of the line that is shown, up to its line
end.  If the span takes in the carriage return of that end, one more stands behind it.
-/
theorem render_carets {diagnostic : Diagnostic} {source : String} {before marked after : List Char}
    (split : source.toList = before ++ marked ++ after)
    (start : diagnostic.span.start = byteSize before)
    (stop : diagnostic.span.stop = byteSize (before ++ marked)) (some : marked ≠ [])
    (inside : ¬ AtLineEnd (marked ++ after)) (ends : ProperLineEnds source.toList) :
    let line := lastLine before ++ upToLineEnd (marked ++ after)
    let column := (lastLine before).length
    let under := (upToLineEnd (marked ++ after)).take marked.length
    ∃ heading carets message,
      (diagnostic.render source).toList.splitOn '\n' =
        heading :: [] :: line :: (List.replicate column ' ' ++ List.replicate carets '^') ::
          message ∧
      column + under.length ≤ line.length ∧ (line.drop column).take under.length = under ∧
      ('\r' ∉ firstLine marked → carets = under.length ∧ under = upToLineEnd marked) ∧
      ('\r' ∈ firstLine marked →
        carets = under.length + 1 ∧ column + under.length = line.length) := by
  intro line column under
  have ends' : ProperLineEnds (before ++ (marked ++ after)) := by
    rwa [← List.append_assoc, ← split]
  have located : Excerpt.locate source.toList diagnostic.span =
      ⟨lastLine before, marked, firstLine (marked ++ after)⟩ := by
    rw [← Excerpt.locate_eq split diagnostic.span.line, ← start, ← stop]
  obtain ⟨heading, message, lines⟩ := splitOn_render diagnostic source
  rw [located, line_eq marked ends' inside] at lines
  have drawn : max (Excerpt.underline ⟨lastLine before, marked, firstLine (marked ++ after)⟩) 1 =
      (firstLine marked).length := carets_eq some inside
  rw [drawn] at lines
  have rest : line.drop column = upToLineEnd (marked ++ after) := List.drop_left
  have whole : line.length = column + (upToLineEnd (marked ++ after)).length := List.length_append
  have part : under <+: upToLineEnd (marked ++ after) := List.take_prefix _ _
  refine ⟨heading, _, message, lines, ?_, ?_, ?_⟩
  · rw [whole]
    exact Nat.add_le_add_left part.length_le column
  · rw [rest]
    exact (List.prefix_iff_eq_take.mp part).symm
  obtain ⟨plain, shown⟩ := firstLine_eq_take_upToLineEnd ends'.of_append
  rcases shown with same | ⟨more, full⟩
  · rw [same]
    refine ⟨fun none => ⟨rfl, ?_⟩, fun member => absurd member plain⟩
    rw [upToLineEnd_eq_firstLine (by rwa [same]), same]
  · rw [more, List.length_append]
    refine ⟨fun none => absurd (by simp) none, fun _ => ⟨rfl, ?_⟩⟩
    rw [whole]
    exact congrArg (column + ·) (congrArg List.length full)

/-- Before the line end, and over it. -/
theorem render_carets_at_line_end :
    let source := "x\r\né = \"ab\r\nc\""
    let short : Located RuntimeFault := ⟨⟨8, 11, 2⟩, .infiniteLoop⟩
    let long : Located RuntimeFault := ⟨⟨8, 15, 2⟩, .infiniteLoop⟩
    ProperLineEnds source.toList ∧
      (∃ heading message, ((runtime short).render source).toList.splitOn '\n' =
        heading :: [] :: "é = \"ab".toList :: "    ^^^".toList :: message) ∧
      ∃ heading message, ((runtime long).render source).toList.splitOn '\n' =
        heading :: [] :: "é = \"ab".toList :: "    ^^^^".toList :: message := by
  intro source short long
  have ends : ProperLineEnds source.toList := by decide +kernel
  obtain ⟨heading, carets, message, lines, _, _, fits, _⟩ :=
    @render_carets (.runtime short) source "x\r\né = ".toList "\"ab".toList "\r\nc\"".toList
      (by decide +kernel) (by decide +kernel) (by decide +kernel) (by decide +kernel)
      (by decide +kernel) ends
  obtain ⟨heading', carets', message', lines', _, _, _, more⟩ :=
    @render_carets (.runtime long) source "x\r\né = ".toList "\"ab\r\nc\"".toList []
      (by decide +kernel) (by decide +kernel) (by decide +kernel) (by decide +kernel)
      (by decide +kernel) ends
  rw [(fits (by decide +kernel)).1] at lines
  rw [(more (by decide +kernel)).1] at lines'
  exact ⟨ends, ⟨heading, message, lines.trans (by congr 1)⟩, heading', message',
    lines'.trans (by congr 1)⟩

/-- The carets go further than the line. -/
theorem render_caret_behind_line :
    let source := "afficher \"a\r\nb\" + 1"
    let fault : Located RuntimeFault := ⟨⟨9, 19, 1⟩, .addToText "nombre"⟩
    let lines := ((runtime fault).render source).toList.splitOn '\n'
    (interpret 1 {} source).bind Report.diagnostic = some (.runtime fault) ∧
      ProperLineEnds source.toList ∧
      lines[2]? = some "afficher \"a".toList ∧ lines[3]? = some "         ^^^".toList := by
  decide +kernel

end Diagnostic

end Ardoise
