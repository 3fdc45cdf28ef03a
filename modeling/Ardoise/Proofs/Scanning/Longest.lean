import Ardoise.Proofs.Scanning.Lexemes

/-!
# The longest lexeme is what is read

How a token is written tells its kind, and a text has at most one longest lexeme
at its head.  Reading gives a longest lexeme wherever there is a lexeme at all, so
it gives that one, whatever may stand behind it.  Reading fails only at a string
that is not closed, and at a character that no token starts with.
-/

namespace Ardoise

/-! ## Symbols and keywords -/

private theorem Symbol.read?_text (symbol : Symbol) :
    read? symbol.text.toList = some (symbol, []) := by
  cases symbol <;> rfl

def Symbol.characters : List Char :=
  ['(', ')', '\x7b', '\x7d', '[', ']', ',', '.', ';', '-', '+', '*', '/', '!', '=', '<', '>']

private theorem Symbol.text_subset (symbol : Symbol) : symbol.text.toList ⊆ characters := by
  cases symbol <;> decide

private theorem Symbol.read?_ne_none {c : Char} (h : c ∈ characters) (rest : List Char) :
    read? (c :: rest) ≠ none := by
  intro missed
  unfold read? at missed
  split at missed
  case h_22 =>
    -- Each character alone is read by some clause, and all of them have been ruled out.
    simp only [characters, List.mem_cons, List.not_mem_nil, or_false] at h
    rcases h with rfl | rfl | rfl | rfl | rfl | rfl | rfl | rfl | rfl | rfl | rfl | rfl | rfl |
      rfl | rfl | rfl | rfl <;> solve_by_elim
  all_goals cases missed

private theorem Keyword.find?_spelling (keyword : Keyword) :
    ∀ spelling ∈ keyword.spellings,
      all.find? (fun other => other.spellings.contains spelling) = some keyword := by
  cases keyword <;> decide

private theorem Keyword.ofWord?_of_isSpelled {keyword : Keyword} {word : List Char}
    (h : keyword.IsSpelled word) : ofWord? (String.ofList word) = some keyword :=
  find?_spelling keyword _ (isSpelled_iff.mp h)

private theorem Keyword.ofWord?_of_not_isSpelled {word : List Char}
    (h : ∀ keyword : Keyword, ¬ keyword.IsSpelled word) :
    ofWord? (String.ofList word) = none := by
  refine List.find?_eq_none.mpr fun keyword _ => ?_
  have missed := h keyword
  rw [isSpelled_iff] at missed
  simpa using missed

/-! ## A lexeme by itself -/

namespace Lexer

theorem isWordPart_of_isWord {word : List Char} (h : IsWord word) :
    ∀ d ∈ word, isWordPart d = true := by
  obtain ⟨c, more, rfl, starts, parts⟩ := h
  exact List.forall_mem_cons.mpr ⟨by simp [isWordPart, starts], parts⟩

theorem readToken_of_isWord {c : Char} {cs : List Char} (h : IsWord (c :: cs)) :
    readToken c cs = .ok ⟨(readWord (c :: cs)).kind, c :: cs, []⟩ := by
  have parts := isWordPart_of_isWord h
  obtain ⟨_, _, ⟨⟩, starts, _⟩ := h
  simp only [readToken, isQuote_of_startsWord starts, isDigit_of_startsWord starts, starts,
    Bool.false_eq_true, if_false, if_true, readWord, List.takeWhile_eq_self_iff.mpr parts,
    List.dropWhile_eq_nil_iff.mpr parts]

theorem readWord_kind_of_isWord {word : List Char} (h : IsWord word) :
    (readWord word).kind =
      ((Keyword.ofWord? (String.ofList word)).map Kind.keyword).getD
        (.identifier (String.ofList word)) := by
  simp only [readWord, List.takeWhile_eq_self_iff.mpr (isWordPart_of_isWord h)]
  split <;> simp [*]

theorem readText_append_quote {quote : Char} {content : List Char} (closed : quote ∉ content)
    (rest : List Char) :
    readText quote (content ++ quote :: rest) =
      .ok ⟨.text (String.ofList content), quote :: (content ++ [quote]), rest⟩ := by
  have inside : ∀ d ∈ content, decide (d ≠ quote) = true := by
    intro d member
    exact decide_eq_true fun same => closed (same ▸ member)
  simp only [readText, List.takeWhile_append_of_pos inside, List.dropWhile_append_of_pos inside]
  simp

private theorem readNumber_of_isDigits {digits : List Char} (h : IsDigits digits) :
    readNumber digits = ⟨.number (numberValue digits []), digits, []⟩ := by
  simp only [readNumber, List.takeWhile_eq_self_iff.mpr h.2, List.dropWhile_eq_nil_iff.mpr h.2]

private theorem readNumber_of_fraction {whole fraction : List Char} (h : IsDigits whole)
    (h' : IsDigits fraction) :
    readNumber (whole ++ '.' :: fraction) =
      ⟨.number (numberValue whole fraction), whole ++ '.' :: fraction, []⟩ := by
  obtain ⟨d, more, rfl⟩ := List.exists_cons_of_ne_nil h'.1
  have point : ¬ isDigit '.' = true := by decide
  simp only [readNumber, List.takeWhile_append_of_pos h.2, List.dropWhile_append_of_pos h.2,
    List.takeWhile_cons_of_neg point, List.dropWhile_cons_of_neg point, List.append_nil,
    h'.2 d List.mem_cons_self, if_true, List.takeWhile_eq_self_iff.mpr h'.2,
    List.dropWhile_eq_nil_iff.mpr h'.2]

theorem readToken_of_lexeme {kind : Kind} {c : Char} {cs : List Char}
    (h : Lexeme kind (c :: cs)) : readToken c cs = .ok ⟨kind, c :: cs, []⟩ := by
  generalize same : c :: cs = lexeme at h
  cases h with
  | symbol symbol =>
      have other : isQuote c = false ∧ isDigit c = false ∧ startsWord c = false := by
        cases symbol <;> cases same <;> decide
      simp only [readToken, other, Bool.false_eq_true, if_false, readSymbol, same,
        Symbol.read?_text]
  | keyword isWord spelled =>
      subst same
      rw [readToken_of_isWord isWord, readWord_kind_of_isWord isWord,
        Keyword.ofWord?_of_isSpelled spelled]
      rfl
  | identifier isWord free =>
      subst same
      rw [readToken_of_isWord isWord, readWord_kind_of_isWord isWord,
        Keyword.ofWord?_of_not_isSpelled free]
      rfl
  | @text quote content quotes closed =>
      cases same
      have isQuote : isQuote c = true := by simpa [isQuote] using quotes
      simp only [readToken, isQuote, if_true]
      exact readText_append_quote closed []
  | whole isDigits =>
      have digit := isDigit_of_isDigits_append isDigits (same.trans (List.append_nil _).symm)
      simp only [readToken, isQuote_of_isDigit digit, digit, Bool.false_eq_true, if_false, if_true,
        same, readNumber_of_isDigits isDigits]
  | decimal isDigits isDigits' =>
      have digit := isDigit_of_isDigits_append isDigits same
      simp only [readToken, isQuote_of_isDigit digit, digit, Bool.false_eq_true, if_false, if_true,
        same, readNumber_of_fraction isDigits isDigits']

end Lexer

namespace Lexeme

variable {kind kind' : Kind} {cs : List Char}

theorem ne_nil (h : Lexeme kind cs) : cs ≠ [] := by
  cases h with
  | symbol symbol => cases symbol <;> decide
  | keyword isWord | identifier isWord =>
      obtain ⟨c, more, rfl, _⟩ := isWord
      exact List.cons_ne_nil c more
  | text => exact List.cons_ne_nil _ _
  | whole isDigits => exact isDigits.1
  | decimal => simp

/-- How a token is written tells its kind. -/
theorem kind_unique (h : Lexeme kind cs) (h' : Lexeme kind' cs) : kind = kind' := by
  obtain ⟨c, cs, rfl⟩ := List.exists_cons_of_ne_nil h.ne_nil
  have read := Lexer.readToken_of_lexeme h
  rw [Lexer.readToken_of_lexeme h'] at read
  cases read
  rfl

end Lexeme

theorem Longest.unique {kind kind' : Kind} {cs cs' rest rest' : List Char}
    (longest : Longest cs rest) (longest' : Longest cs' rest') (h : Lexeme kind cs)
    (h' : Lexeme kind' cs') (same : cs ++ rest = cs' ++ rest') :
    cs = cs' ∧ rest = rest' ∧ kind = kind' := by
  have lexemes : cs = cs' ∧ rest = rest' := by
    rcases List.append_eq_append_iff.mp same with ⟨more, rfl, rfl⟩ | ⟨more, rfl, rfl⟩
    · by_cases none : more = []
      · simp [none]
      · exact absurd h' (longest more none (List.prefix_append more rest') kind')
    · by_cases none : more = []
      · simp [none]
      · exact absurd h (longest' more none (List.prefix_append more rest) kind)
  obtain ⟨rfl, rfl⟩ := lexemes
  exact ⟨rfl, rfl, h.kind_unique h'⟩

/-! ## Characters that stand only in strings -/

namespace Lexer

def Enclosed (c : Char) : Prop :=
  isQuote c = false ∧ isWordPart c = false ∧ c ∉ Symbol.characters

theorem enclosed_of_blank {c : Char} (h : c ∈ [' ', '\t', '\r', '\n']) : Enclosed c := by
  simp only [List.mem_cons, List.not_mem_nil, or_false] at h
  rcases h with rfl | rfl | rfl | rfl <;> exact ⟨by decide, by decide, by decide⟩

theorem readToken_error {c : Char} {text : List Char} {fault : LexicalFault}
    (h : readToken c text = .error fault) :
    (isQuote c = true ∧ c ∉ text ∧ fault = .unterminatedText c) ∨
      (Enclosed c ∧ fault = .unexpectedCharacter c) := by
  unfold readToken at h
  split at h
  · rename_i quote
    simp only [readText] at h
    split at h
    · rename_i missed
      cases h
      refine .inl ⟨quote, fun member => ?_, rfl⟩
      have outside := List.dropWhile_eq_nil_iff.mp missed c member
      simp at outside
    · cases h
  rename_i quote
  split at h
  · cases h
  rename_i digit
  split at h
  · cases h
  rename_i starts
  unfold readSymbol at h
  split at h
  · cases h
  · rename_i missed
    cases h
    refine .inr ⟨⟨?_, ?_, fun member => Symbol.read?_ne_none member text missed⟩, rfl⟩
    · simpa using quote
    · simp [isWordPart, starts, digit]

end Lexer

namespace Lexeme

variable {kind kind' : Kind} {c : Char} {cs more : List Char}

theorem quoted (h : Lexeme kind cs) (member : c ∈ cs) (enclosed : Lexer.Enclosed c) :
    ∃ quote content, cs = quote :: (content ++ [quote]) ∧ Lexer.isQuote quote = true ∧
      quote ∉ content := by
  obtain ⟨_, other, outside⟩ := enclosed
  have notDigit : Lexer.isDigit c ≠ true := fun digit => by
    simp [Lexer.isWordPart, digit] at other
  cases h with
  | symbol symbol => exact absurd (symbol.text_subset member) outside
  | keyword isWord | identifier isWord =>
      have part := Lexer.isWordPart_of_isWord isWord c member
      simp [other] at part
  | text quotes closed => exact ⟨_, _, rfl, by simpa [Lexer.isQuote] using quotes, closed⟩
  | whole isDigits => exact absurd (isDigits.2 c member) notDigit
  | decimal isDigits isDigits' =>
      rcases List.mem_append.mp member with here | there
      · exact absurd (isDigits.2 c here) notDigit
      rcases List.mem_cons.mp there with rfl | there
      · exact absurd (by decide) outside
      · exact absurd (isDigits'.2 c there) notDigit

theorem not_enclosed_head (h : Lexeme kind (c :: cs)) : ¬ Lexer.Enclosed c := by
  intro enclosed
  obtain ⟨quote, content, same, isQuote, _⟩ := h.quoted List.mem_cons_self enclosed
  obtain ⟨rfl, _⟩ := List.cons.inj same
  simp [enclosed.1] at isQuote

theorem not_append (h : Lexeme kind cs) (member : c ∈ more) (enclosed : Lexer.Enclosed c) :
    ¬ Lexeme kind' (cs ++ more) := by
  intro longer
  obtain ⟨quote, content, same, isQuote, closed⟩ :=
    longer.quoted (List.mem_append_right cs member) enclosed
  obtain ⟨d, cs, rfl⟩ := List.exists_cons_of_ne_nil h.ne_nil
  rw [List.cons_append, List.cons.injEq] at same
  obtain ⟨rfl, same⟩ := same
  have form := Lexer.goesOn_of_lexeme h
  simp only [Lexer.GoesOn, isQuote, if_true] at form
  obtain ⟨content', rfl, _⟩ := form
  -- the quote that closes the shorter string stands inside the longer one
  obtain ⟨more, last, rfl⟩ :=
    (List.eq_nil_or_concat more).resolve_left (List.ne_nil_of_mem member)
  rw [List.concat_eq_append, ← List.append_assoc] at same
  rw [← List.append_inj_left' same rfl] at closed
  simp at closed

theorem slash_alone (h : Lexeme kind ('/' :: cs)) : cs = [] := by
  have other : Lexer.isQuote '/' = false ∧ Lexer.isDigit '/' = false ∧
      Lexer.startsWord '/' = false := by decide
  have form := Lexer.goesOn_of_lexeme h
  simp only [Lexer.GoesOn, other, Bool.false_eq_true, if_false] at form
  obtain ⟨symbol, same⟩ := form
  cases symbol <;> simp_all [Symbol.text]

end Lexeme

/-! ## A lexeme in front of a text -/

namespace Lexer

private theorem readToken_ok_of_lexeme {kind : Kind} {c : Char} {cs : List Char}
    (h : Lexeme kind (c :: cs)) (rest : List Char) :
    ∃ cut, readToken c (cs ++ rest) = .ok cut := by
  cases read : readToken c (cs ++ rest) with
  | ok cut => exact ⟨cut, rfl⟩
  | error fault =>
      rcases readToken_error read with ⟨quote, missing, _⟩ | ⟨enclosed, _⟩
      · have form := goesOn_of_lexeme h
        simp only [GoesOn, quote, if_true] at form
        obtain ⟨content, rfl, _⟩ := form
        simp at missing
      · exact absurd enclosed h.not_enclosed_head

/-- Reading stops at the end of a lexeme that no other goes beyond. -/
theorem readToken_of_longest {kind : Kind} {c : Char} {cs rest : List Char}
    (h : Lexeme kind (c :: cs)) (longest : Longest (c :: cs) rest) :
    readToken c (cs ++ rest) = .ok ⟨kind, c :: cs, rest⟩ := by
  obtain ⟨cut, read⟩ := readToken_ok_of_lexeme h rest
  obtain ⟨taken, behind, kinds⟩ :=
    (longest_readToken read).unique longest (lexeme_readToken read) h (readToken_append read)
  rw [read, ← taken, ← behind, ← kinds]

end Lexer

end Ardoise
