import Ardoise.Proofs.Scanning.Spacing

/-!
# Where scanning breaks off

Scanning fails at one place of the text.  What stands before that place scans by
itself, since cutting a text short changes none of the tokens that end before the
cut.  At the place there is a quote that nothing closes, or a character that has no
meaning outside strings and comments; in the latter case nothing that might follow
would make a difference.
-/

namespace Ardoise

namespace Lexer

/-! ## Longer texts -/

private theorem ne_slash_of_enclosed {c : Char} (h : Enclosed c) : c ≠ '/' := by
  rintro rfl
  exact h.2.2 (by decide)

/-- No token starts with a character that stands only between quotes. -/
theorem readToken_of_enclosed {c : Char} (h : Enclosed c) (text : List Char) :
    readToken c text = .error (.unexpectedCharacter c) := by
  cases read : readToken c text with
  | ok cut =>
      obtain ⟨d, taken, split⟩ := List.exists_cons_of_ne_nil (readToken_taken read)
      have whole := readToken_append read
      rw [split, List.cons_append, List.cons.injEq] at whole
      have isLexeme := lexeme_readToken read
      rw [split, whole.1] at isLexeme
      exact absurd h isLexeme.not_enclosed_head
  | error fault =>
      rcases readToken_error read with ⟨quote, _⟩ | ⟨_, rfl⟩
      · simp [h.1] at quote
      · rfl

theorem Piece.append {space lexeme rest : List Char} {kind : Kind} {c : Char}
    (piece : Piece space lexeme rest kind) (member : c ∈ rest) (enclosed : Enclosed c)
    (more : List Char) : Piece space lexeme (rest ++ more) kind where
  spacing := piece.spacing
  isLexeme := piece.isLexeme
  longest := by
    intro longer some front kind'
    rcases List.prefix_or_prefix_of_prefix front (List.prefix_append rest more) with
      inside | beyond
    · exact piece.longest longer some inside kind'
    · exact piece.isLexeme.not_append (beyond.subset member) enclosed
  noComment := by
    intro slashes
    have enough : ['/', '/'].length ≤ (lexeme ++ rest).length := by
      have one := List.length_pos_iff.mpr piece.isLexeme.ne_nil
      have other := List.length_pos_of_mem member
      simp only [List.length_append, List.length_cons, List.length_nil]
      omega
    rw [← List.append_assoc] at slashes
    exact piece.noComment
      (List.prefix_of_prefix_length_le slashes (List.prefix_append _ more) enough)

/-! ## The place of a fault -/

def Breaks (c : Char) (after : List Char) (fault : LexicalFault) : Prop :=
  (isQuote c = true ∧ c ∉ after ∧ fault = .unterminatedText c) ∨
    ((Enclosed c ∧ isBlank c = false) ∧ fault = .unexpectedCharacter c)

namespace Fails

variable {place : Place} {text : List Char} {fault : Located LexicalFault}

theorem breaks (h : Fails place text fault) :
    ∃ before c after, text = before ++ c :: after ∧ (∃ tokens, Tiles place before tokens) ∧
      fault.span = faultSpan (place.after before) c after fault.fault ∧
      Breaks c after fault.fault := by
  induction h with
  | @here place gap rest c fault skipped read =>
      have tiles := Tiles.of_spacing (spacing_of_skipGap skipped) place
      refine ⟨gap, c, rest, rfl, ⟨_, tiles⟩, rfl, ?_⟩
      rcases readToken_error read with unclosed | ⟨enclosed, cause⟩
      · exact .inl unclosed
      · exact .inr ⟨⟨enclosed, isBlank_skipGap skipped⟩, cause⟩
  | @later place gap rest c cut fault skipped read _ ih =>
      obtain ⟨before, d, after, split, ⟨tokens, tiles⟩, span, cause⟩ := ih
      have piece := (Piece.of_read skipped read).of_start (split ▸ List.prefix_append _ _)
      refine ⟨gap ++ (cut.taken ++ before), d, after, ?_, ⟨_, .cons piece tiles⟩, ?_, cause⟩
      · rw [← readToken_append read, split]
        simp
      · rw [span, Place.after_append, Place.after_append]

theorem append {c : Char} (h : Fails place text fault)
    (unexpected : fault.fault = .unexpectedCharacter c) (more : List Char) :
    Fails place (text ++ more) fault := by
  induction h with
  | @here place gap rest d fault skipped read =>
      rcases readToken_error read with ⟨_, _, rfl⟩ | ⟨enclosed, rfl⟩
      · cases unexpected
      have opens : startsComment (d :: (rest ++ more)) = false := by
        by_contra found
        exact ne_slash_of_enclosed enclosed (startsComment_cons (by simpa using found)).1
      have skipped' : skipGap false place (gap ++ d :: (rest ++ more)) =
          (place.after gap, d :: (rest ++ more)) := by
        rw [skipGap_spacing (spacing_of_skipGap skipped)]
        simp [skipGap, isBlank_skipGap skipped, opens]
      rw [List.append_assoc, List.cons_append]
      exact .here skipped' (readToken_of_enclosed enclosed _)
  | @later place gap rest d cut fault skipped read tail ih =>
      obtain ⟨before, e, after, split, _, _, cause⟩ := tail.breaks
      rcases cause with ⟨_, _, cause⟩ | ⟨⟨enclosed, _⟩, _⟩
      · rw [cause] at unexpected
        cases unexpected
      have piece := (Piece.of_read skipped read).append (by simp [split]) enclosed more
      have whole := Fails.cons piece (ih unexpected)
      rwa [← List.append_assoc, ← List.append_assoc, List.append_assoc gap,
        readToken_append read] at whole

end Fails

end Lexer

/-! ## Faults of a text -/

def Foreign (c : Char) : Prop :=
  c ∉ [' ', '\t', '\r', '\n'] ∧ c.isAlpha = false ∧ c.isDigit = false ∧
    c ∉ ['_', '"', '\''] ∧ c ∉ Symbol.characters

private theorem Lexer.foreign_of_enclosed {c : Char} (h : Enclosed c) (blank : isBlank c = false) :
    Foreign c := by
  obtain ⟨quote, other, symbol⟩ := h
  simp only [isWordPart, startsWord, isDigit, Bool.or_eq_false_iff] at other
  obtain ⟨⟨⟨lower, upper⟩, underscore⟩, digit⟩ := other
  refine ⟨fun member => ?_, ?_, digit, ?_, symbol⟩
  · simp [isBlank_of_mem member] at blank
  · have upper' : c.isUpper = false := by
      change decide ('A' ≤ c ∧ c ≤ 'Z') = false
      rw [Bool.decide_and, upper]
    exact Bool.or_eq_false_iff.mpr ⟨upper', lower⟩
  · simp only [isQuote, Bool.or_eq_false_iff, decide_eq_false_iff_not] at quote underscore
    simp [quote, underscore]

/--
Scanning the text fails at the character `c`.  What stands before it scans up to
there.  The character is foreign, and then the fault is its own and stays whatever is
appended to the text; or it is a quote that does not occur again, and then the fault
is about all that is left.
-/
structure BreaksOff (source before : String) (c : Char) (after : String)
    (fault : Located LexicalFault) : Prop where
  split : source = before ++ String.singleton c ++ after
  start : fault.span.start = before.utf8ByteSize
  line : fault.span.line = 1 + before.toList.count '\n'
  scanned : ∃ proper,
    scan before =
      .ok (proper ++ [.endAt ⟨fault.span.start, fault.span.start, fault.span.line⟩]) ∧
    ∀ token ∈ proper, token.kind ≠ .endOfInput
  cause :
    (fault.fault = .unexpectedCharacter c ∧ Foreign c ∧
      fault.span.stop = fault.span.start + c.utf8Size ∧
      ∀ more, scan (source ++ more) = .error fault) ∨
    (fault.fault = .unterminatedText c ∧ c ∈ ['"', '\''] ∧ c ∉ after.toList ∧
      fault.span.stop = source.utf8ByteSize)

theorem breaksOff_of_scan_error {source : String} {fault : Located LexicalFault}
    (failed : scan source = .error fault) :
    ∃ before c after, BreaksOff source before c after fault := by
  have fails := Lexer.fails_of_scan failed
  obtain ⟨before, c, after, split, ⟨tokens, tiles⟩, span, cause⟩ := fails.breaks
  obtain ⟨proper, rfl, each⟩ := tiles.eq_append_end
  have whole : source = String.ofList before ++ String.singleton c ++ String.ofList after := by
    rw [← String.toList_inj, split]
    simp
  have start : fault.span.start = (String.ofList before).utf8ByteSize := by
    rw [span]
    cases fault.fault <;>
      simp [Lexer.faultSpan, Place.spanTo, Place.offset_after, Place.origin]
  have line : fault.span.line = 1 + before.count '\n' := by
    rw [span]
    cases fault.fault <;> simp [Lexer.faultSpan, Place.spanTo, Place.line_after, Place.origin]
  refine ⟨String.ofList before, c, String.ofList after, whole, start, ?_, ⟨proper, ?_, ?_⟩, ?_⟩
  · rw [line, String.toList_ofList]
  · have scanned : scan (String.ofList before) = .ok _ :=
      Lexer.Tiles.scanFrom_eq (by rwa [String.toList_ofList])
    rw [scanned, start, line]
    simp [Place.spanTo, Place.offset_after, Place.line_after, Place.origin]
  · exact fun token member => (each token member).1
  rcases cause with ⟨quote, missing, cause⟩ | ⟨⟨enclosed, blank⟩, cause⟩
  · refine .inr ⟨cause, by simpa [Lexer.isQuote] using quote, by simpa using missing, ?_⟩
    rw [span, cause, whole]
    simp [Lexer.faultSpan, Place.spanTo, Place.offset_after, Place.origin, Place.next,
      Nat.add_assoc]
  · refine .inl ⟨cause, Lexer.foreign_of_enclosed enclosed blank, ?_, fun more => ?_⟩
    · rw [span, cause]
      rfl
    · refine Lexer.Fails.scanFrom_eq ?_
      rw [String.toList_append]
      exact fails.append cause more.toList

/-- A foreign character behind a comment and a string with another, and a string left open. -/
theorem breaksOff_of_scan_error_both_ways :
    let foreign : Located LexicalFault := ⟨⟨16, 17, 3⟩, .unexpectedCharacter '@'⟩
    let unclosed : Located LexicalFault := ⟨⟨4, 9, 1⟩, .unterminatedText '\''⟩
    (scan "// #\nx = 'é\n#' @ y" = .error foreign ∧
      ∃ before c after, BreaksOff "// #\nx = 'é\n#' @ y" before c after foreign) ∧
    scan "1/2 'é\"\n" = .error unclosed ∧
      ∃ before c after, BreaksOff "1/2 'é\"\n" before c after unclosed := by
  intro foreign unclosed
  have failed : scan "// #\nx = 'é\n#' @ y" = .error foreign := by decide +kernel
  have failed' : scan "1/2 'é\"\n" = .error unclosed := by decide +kernel
  exact ⟨⟨failed, breaksOff_of_scan_error failed⟩, failed', breaksOff_of_scan_error failed'⟩

end Ardoise
