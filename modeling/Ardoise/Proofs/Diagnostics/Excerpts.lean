import Ardoise.Diagnostic
import Mathlib.Data.List.DropRight
import Mathlib.Order.Bounds.Defs

/-!
# Excerpts

An excerpt is made of stretches of its text: what stands before the span on its
first line, what the span marks, and the rest of that line.  Each of them runs
from one boundary between characters to another.  A span that does not stand on
boundaries is resolved as the one that does and lies next below.
-/

namespace Ardoise

/-! ## Bytes -/

@[simp] theorem byteSize_nil : byteSize [] = 0 := rfl

@[simp] theorem byteSize_cons (c : Char) (cs : List Char) :
    byteSize (c :: cs) = c.utf8Size + byteSize cs := by
  have shifted : ∀ (cs : List Char) (n : Nat),
      cs.foldl (fun size c => size + c.utf8Size) n = n + byteSize cs := by
    intro cs
    induction cs with
    | nil => exact fun _ => rfl
    | cons d ds ih =>
        intro n
        rw [byteSize, List.foldl_cons, List.foldl_cons, ih, ih]
        omega
  rw [byteSize, List.foldl_cons, shifted, Nat.zero_add]

@[simp] theorem byteSize_append (cs ds : List Char) :
    byteSize (cs ++ ds) = byteSize cs + byteSize ds := by
  induction cs with
  | nil => simp
  | cons c cs ih => simp [ih, Nat.add_assoc]

private theorem byteSize_eq_utf8ByteSize (cs : List Char) :
    byteSize cs = (String.ofList cs).utf8ByteSize := by
  induction cs with
  | nil => rfl
  | cons c cs ih =>
      rw [byteSize_cons, ih, String.ofList_cons, String.utf8ByteSize_append,
        String.utf8ByteSize_singleton]

theorem byteSize_toList (s : String) : byteSize s.toList = s.utf8ByteSize := by
  rw [byteSize_eq_utf8ByteSize, String.ofList_toList]

/-! ## Boundaries -/

theorem splitBytes_append (n : Nat) (cs : List Char) :
    (splitBytes n cs).1 ++ (splitBytes n cs).2 = cs := by
  induction cs generalizing n with
  | nil => rfl
  | cons c cs ih =>
      rw [splitBytes]
      split
      · exact congrArg (c :: ·) (ih _)
      · rfl

theorem byteSize_splitBytes_le (n : Nat) (cs : List Char) : byteSize (splitBytes n cs).1 ≤ n := by
  induction cs generalizing n with
  | nil => exact Nat.zero_le n
  | cons c cs ih =>
      rw [splitBytes]
      split
      · have rest := ih (n - c.utf8Size)
        simp only [byteSize_cons]
        omega
      · exact Nat.zero_le n

theorem splitBytes_zero (cs : List Char) : splitBytes 0 cs = ([], cs) := by
  cases cs with
  | nil => rfl
  | cons c cs => rw [splitBytes, if_neg (Nat.not_le.mpr (Char.utf8Size_pos c))]

theorem splitBytes_byteSize_add (before rest : List Char) (n : Nat) :
    splitBytes (byteSize before + n) (before ++ rest) =
      (before ++ (splitBytes n rest).1, (splitBytes n rest).2) := by
  induction before with
  | nil => simp
  | cons c cs ih =>
      have fits : c.utf8Size ≤ byteSize (c :: cs) + n := by
        rw [byteSize_cons]
        omega
      have left : byteSize (c :: cs) + n - c.utf8Size = byteSize cs + n := by
        rw [byteSize_cons]
        omega
      rw [List.cons_append, splitBytes, if_pos fits, left, ih]
      rfl

theorem splitBytes_byteSize (before rest : List Char) :
    splitBytes (byteSize before) (before ++ rest) = (before, rest) := by
  have whole := splitBytes_byteSize_add before rest 0
  rwa [splitBytes_zero, List.append_nil] at whole

/-- The offset stands between two characters of the text, or at one of its ends. -/
def IsBoundary (text : List Char) (offset : Nat) : Prop :=
  ∃ before after, text = before ++ after ∧ offset = byteSize before

/-- Offsets are lowered to the nearest boundary. -/
theorem isGreatest_byteSize_splitBytes (text : List Char) (n : Nat) :
    IsGreatest {offset | IsBoundary text offset ∧ offset ≤ n}
      (byteSize (splitBytes n text).1) := by
  refine ⟨⟨⟨_, _, (splitBytes_append n text).symm, rfl⟩, byteSize_splitBytes_le n text⟩, ?_⟩
  rintro offset ⟨⟨before, after, rfl, rfl⟩, le⟩
  obtain ⟨more, rfl⟩ := Nat.exists_eq_add_of_le le
  rw [splitBytes_byteSize_add, byteSize_append]
  exact Nat.le_add_right _ _

def Slice (text : List Char) (first last : Nat) (part : List Char) : Prop :=
  ∃ before after, text = before ++ part ++ after ∧ first = byteSize before ∧
    last = byteSize (before ++ part)

/-! ## Lines -/

def firstLine (cs : List Char) : List Char := cs.takeWhile (· ≠ '\n')

def lastLine (cs : List Char) : List Char := cs.rtakeWhile (· ≠ '\n')

theorem not_mem_firstLine (cs : List Char) : '\n' ∉ firstLine cs :=
  fun member => by simpa using List.mem_takeWhile_imp member

theorem not_mem_lastLine (cs : List Char) : '\n' ∉ lastLine cs :=
  fun member => by simpa using List.mem_rtakeWhile_imp member

theorem firstLine_eq_self {cs : List Char} (one : '\n' ∉ cs) : firstLine cs = cs := by
  refine List.takeWhile_eq_self_iff.mpr fun c member => ?_
  simpa using ne_of_mem_of_not_mem member one

theorem lastLine_eq_self {cs : List Char} (one : '\n' ∉ cs) : lastLine cs = cs := by
  refine List.rtakeWhile_eq_self_iff.mpr fun c member => ?_
  simpa using ne_of_mem_of_not_mem member one

theorem firstLine_split (cs : List Char) :
    ∃ rest, cs = firstLine cs ++ rest ∧ (rest = [] ∨ ∃ more, rest = '\n' :: more) := by
  induction cs with
  | nil => exact ⟨[], rfl, .inl rfl⟩
  | cons c cs ih =>
      by_cases breaks : c = '\n'
      · subst breaks
        exact ⟨_, rfl, .inr ⟨cs, rfl⟩⟩
      · obtain ⟨rest, split, ends⟩ := ih
        refine ⟨rest, ?_, ends⟩
        rw [firstLine, List.takeWhile_cons_of_pos (by simpa using breaks), List.cons_append]
        exact congrArg (c :: ·) split

theorem lastLine_eq_reverse (cs : List Char) : lastLine cs = (firstLine cs.reverse).reverse := rfl

theorem lastLine_split (cs : List Char) :
    ∃ rest, cs = rest ++ lastLine cs ∧ (rest = [] ∨ ∃ more, rest = more ++ ['\n']) := by
  obtain ⟨rest, split, ends⟩ := firstLine_split cs.reverse
  refine ⟨rest.reverse, ?_, ?_⟩
  · rw [lastLine_eq_reverse, ← List.reverse_append, ← split, List.reverse_reverse]
  · rcases ends with rfl | ⟨more, rfl⟩
    · exact .inl rfl
    · exact .inr ⟨more.reverse, List.reverse_cons⟩

theorem firstLine_append_of_mem {cs : List Char} (breaks : '\n' ∈ cs) (ds : List Char) :
    firstLine (cs ++ ds) = firstLine cs := by
  induction cs with
  | nil => cases breaks
  | cons c cs ih =>
      simp only [firstLine, List.cons_append, List.takeWhile_cons]
      split
      · rename_i other
        have inside : '\n' ∈ cs := by
          rcases List.mem_cons.mp breaks with rfl | inside
          · simp at other
          · exact inside
        exact congrArg (c :: ·) (ih inside)
      · rfl

theorem firstLine_append_of_not_mem {cs : List Char} (one : '\n' ∉ cs) (ds : List Char) :
    firstLine (cs ++ ds) = cs ++ firstLine ds := by
  refine List.takeWhile_append_of_pos fun c member => ?_
  simpa using ne_of_mem_of_not_mem member one

theorem lastLine_append_of_mem {ds : List Char} (breaks : '\n' ∈ ds) (cs : List Char) :
    lastLine (cs ++ ds) = lastLine ds := by
  rw [lastLine_eq_reverse, List.reverse_append,
    firstLine_append_of_mem (List.mem_reverse.mpr breaks), lastLine_eq_reverse]

theorem lastLine_append_of_not_mem {ds : List Char} (one : '\n' ∉ ds) (cs : List Char) :
    lastLine (cs ++ ds) = lastLine cs ++ ds := by
  rw [lastLine_eq_reverse, List.reverse_append,
    firstLine_append_of_not_mem (by simpa using one), List.reverse_append, List.reverse_reverse,
    lastLine_eq_reverse]

private theorem min_byteSize_firstLine (cs ds : List Char) :
    min (byteSize cs) (byteSize (firstLine (cs ++ ds))) = byteSize (firstLine cs) := by
  by_cases breaks : '\n' ∈ cs
  · obtain ⟨rest, split, _⟩ := firstLine_split cs
    have longer : byteSize cs = byteSize (firstLine cs) + byteSize rest := by
      rw [← byteSize_append, ← split]
    rw [firstLine_append_of_mem breaks]
    omega
  · rw [firstLine_append_of_not_mem breaks, firstLine_eq_self breaks, byteSize_append]
    omega

/-! ## Spans in a text -/

namespace Excerpt

variable {text before marked after : List Char}

theorem locate_eq (split : text = before ++ marked ++ after) (line : Nat) :
    locate text ⟨byteSize before, byteSize (before ++ marked), line⟩ =
      ⟨lastLine before, marked, firstLine (marked ++ after)⟩ := by
  have front := splitBytes_byteSize before (marked ++ after)
  have rest : byteSize (before ++ marked) - byteSize before = byteSize marked := by
    rw [byteSize_append]
    omega
  rw [split, List.append_assoc]
  simp only [locate, front, rest, splitBytes_byteSize]
  rfl

/-- Every span resolves as one on boundaries: its offsets are lowered, and its end is raised. -/
theorem exists_split (text : List Char) (span : Span) :
    ∃ before marked after, text = before ++ marked ++ after ∧
      byteSize before = byteSize (splitBytes span.start text).1 ∧
      byteSize (before ++ marked) =
        max (byteSize (splitBytes span.stop text).1) (byteSize (splitBytes span.start text).1) ∧
      locate text span = ⟨lastLine before, marked, firstLine (marked ++ after)⟩ := by
  obtain ⟨before, rest, found⟩ : ∃ before rest, splitBytes span.start text = (before, rest) :=
    ⟨_, _, rfl⟩
  have whole : before ++ rest = text := by simpa [found] using splitBytes_append span.start text
  obtain ⟨marked, after, found'⟩ :
      ∃ marked after, splitBytes (span.stop - byteSize before) rest = (marked, after) :=
    ⟨_, _, rfl⟩
  have inner : marked ++ after = rest := by
    simpa [found'] using splitBytes_append (span.stop - byteSize before) rest
  refine ⟨before, marked, after, by rw [List.append_assoc, inner, whole], by rw [found], ?_, ?_⟩
  · rw [found]
    rcases Nat.le_total span.stop (byteSize before) with reversed | ordered
    · have below := byteSize_splitBytes_le span.stop text
      rw [Nat.sub_eq_zero_of_le reversed, splitBytes_zero] at found'
      cases found'
      rw [List.append_nil, Nat.max_eq_right (Nat.le_trans below reversed)]
    · obtain ⟨more, reach⟩ := Nat.exists_eq_add_of_le ordered
      rw [reach, Nat.add_sub_cancel_left] at found'
      rw [reach, ← whole, splitBytes_byteSize_add, found', byteSize_append]
      exact (Nat.max_eq_left (Nat.le_add_right _ _)).symm
  · simp only [locate, found, found', inner]
    rfl

/--
The parts of an excerpt are cut out of the text at boundaries: at the ends of the
span, and at those of the line that it starts in.
-/
structure CutFrom (text : List Char) (span : Span) (excerpt : Excerpt) (lineStart lineStop : Nat) :
    Prop where
  before : Slice text lineStart span.start excerpt.before
  marked : Slice text span.start span.stop excerpt.marked
  line : Slice text lineStart lineStop (excerpt.before ++ excerpt.onward)
  underlined : Slice text span.start (min span.stop lineStop) (firstLine excerpt.marked)
  /-- The line that the span ends in, if that is a later one. -/
  ending : ∃ offset, Slice text offset span.stop (lastLine excerpt.marked)
  unbroken : '\n' ∉ excerpt.before ++ excerpt.onward
  opened : lineStart = 0 ∨ Slice text (lineStart - 1) lineStart ['\n']
  closed : lineStop = byteSize text ∨ Slice text lineStop (lineStop + 1) ['\n']

theorem exists_cutFrom (split : text = before ++ marked ++ after) (line : Nat) :
    ∃ lineStart lineStop,
      CutFrom text ⟨byteSize before, byteSize (before ++ marked), line⟩
        ⟨lastLine before, marked, firstLine (marked ++ after)⟩ lineStart lineStop := by
  obtain ⟨head, headed, opens⟩ := lastLine_split before
  obtain ⟨tail, tailed, closes⟩ := firstLine_split (marked ++ after)
  obtain ⟨rest, firsts, _⟩ := firstLine_split marked
  obtain ⟨others, lasts, _⟩ := lastLine_split marked
  have around : text = before ++ firstLine (marked ++ after) ++ tail := by
    rw [split, List.append_assoc, List.append_assoc, ← tailed]
  refine ⟨byteSize head, byteSize (before ++ firstLine (marked ++ after)), ?_⟩
  constructor
  case before =>
    refine ⟨head, marked ++ after, ?_, rfl, by rw [← headed]⟩
    rw [← headed, split, List.append_assoc]
  case marked => exact ⟨before, after, split, rfl, rfl⟩
  case line =>
    refine ⟨head, tail, ?_, rfl, ?_⟩
    · rw [← List.append_assoc head, ← headed, around]
    · rw [← List.append_assoc, ← headed]
  case underlined =>
    refine ⟨before, rest ++ after, ?_, rfl, ?_⟩
    · rw [List.append_assoc, ← List.append_assoc _ rest, ← firsts, split, List.append_assoc]
    · simp only [byteSize_append, Nat.add_min_add_left, min_byteSize_firstLine]
  case ending =>
    refine ⟨_, before ++ others, after, ?_, rfl, ?_⟩
    · rw [List.append_assoc before, ← lasts, split]
    · rw [List.append_assoc, ← lasts]
  case unbroken =>
    rw [List.mem_append, not_or]
    exact ⟨not_mem_lastLine _, not_mem_firstLine _⟩
  case opened =>
    rcases opens with rfl | ⟨more, rfl⟩
    · exact .inl rfl
    · refine .inr ⟨more, lastLine before ++ (marked ++ after), ?_, ?_, rfl⟩
      · rw [← List.append_assoc, ← headed, split, List.append_assoc]
      · rw [byteSize_append]
        rfl
  case closed =>
    rcases closes with rfl | ⟨more, rfl⟩
    · exact .inl (by rw [around, List.append_nil])
    · refine .inr ⟨before ++ firstLine (marked ++ after), more, ?_, rfl, ?_⟩
      · rw [List.append_assoc _ ['\n']]
        exact around
      · rw [byteSize_append _ ['\n']]
        rfl

end Excerpt

end Ardoise
