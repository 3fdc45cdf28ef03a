import Ardoise.Token

/-!
# Scanning

`scan` reads a whole text into tokens, the last of which stands for the end of
the text.  Blanks and comments separate tokens and are dropped.  Each token is
the longest that the text allows at its place, and a text is refused at the
first character that starts no token, or at a string that is never closed.
-/

namespace Ardoise

inductive LexicalFault where
  | unexpectedCharacter (c : Char)
  | unterminatedText (quote : Char)
  deriving DecidableEq

namespace Lexer

def isBlank (c : Char) : Bool :=
  c = ' ' || c = '\t' || c = '\r' || c = '\n'

def isDigit (c : Char) : Bool :=
  '0' ≤ c && c ≤ '9'

def startsWord (c : Char) : Bool :=
  ('a' ≤ c && c ≤ 'z') || ('A' ≤ c && c ≤ 'Z') || c = '_'

def isWordPart (c : Char) : Bool :=
  startsWord c || isDigit c

def isQuote (c : Char) : Bool :=
  c = '"' || c = '\''

def startsComment : List Char → Bool
  | '/' :: '/' :: _ => true
  | _ => false

/--
Leaves out blanks and comments.  A comment starts at two slashes and ends
before the next line break, or with the text; `inComment` tells whether the
first character stands in one.
-/
def skipGap (inComment : Bool) (place : Place) : List Char → Place × List Char
  | [] => (place, [])
  | c :: rest =>
    if inComment then
      skipGap (c ≠ '\n') (place.next c) rest
    else if isBlank c then
      skipGap false (place.next c) rest
    else if startsComment (c :: rest) then
      skipGap true (place.next c) rest
    else
      (place, c :: rest)

def digitValue (c : Char) : Nat := c.toNat - '0'.toNat

def decimalValue (digits : List Char) : Nat :=
  digits.foldl (fun value c => 10 * value + digitValue c) 0

def numberValue (whole fraction : List Char) : Float :=
  .ofScientific (decimalValue (whole ++ fraction)) true fraction.length

structure Cut where
  kind : Kind
  taken : List Char
  rest : List Char

def readWord (text : List Char) : Cut :=
  let word := text.takeWhile isWordPart
  let name := String.ofList word
  let kind :=
    match Keyword.ofWord? name with
    | some keyword => .keyword keyword
    | none => .identifier name
  ⟨kind, word, text.dropWhile isWordPart⟩

/-- Digits, then a point and more digits if at least one digit follows the point. -/
def readNumber (text : List Char) : Cut :=
  let whole := text.takeWhile isDigit
  let rest := text.dropWhile isDigit
  match rest with
  | '.' :: d :: after =>
    if isDigit d then
      let fraction := (d :: after).takeWhile isDigit
      ⟨.number (numberValue whole fraction), whole ++ '.' :: fraction,
        (d :: after).dropWhile isDigit⟩
    else
      ⟨.number (numberValue whole []), whole, rest⟩
  | _ => ⟨.number (numberValue whole []), whole, rest⟩

def readText (quote : Char) (text : List Char) : Except LexicalFault Cut :=
  let content := text.takeWhile (· ≠ quote)
  match text.dropWhile (· ≠ quote) with
  | [] => .error (.unterminatedText quote)
  | close :: after =>
    .ok ⟨.text (String.ofList content), quote :: content ++ [close], after⟩

def readSymbol (c : Char) (text : List Char) : Except LexicalFault Cut :=
  match Symbol.read? (c :: text) with
  | some (symbol, rest) => .ok ⟨.symbol symbol, symbol.text.toList, rest⟩
  | none => .error (.unexpectedCharacter c)

def readToken (c : Char) (text : List Char) : Except LexicalFault Cut :=
  if isQuote c then readText c text
  else if isDigit c then .ok (readNumber (c :: text))
  else if startsWord c then .ok (readWord (c :: text))
  else readSymbol c text

/-! ## Nothing is lost -/

private theorem readWord_append (text : List Char) :
    (readWord text).taken ++ (readWord text).rest = text :=
  List.takeWhile_append_dropWhile

theorem readNumber_append (text : List Char) :
    (readNumber text).taken ++ (readNumber text).rest = text := by
  have whole := List.takeWhile_append_dropWhile (p := isDigit) (l := text)
  simp only [readNumber]
  split
  · rename_i d after found
    split
    · simp only [List.append_assoc, List.cons_append, List.takeWhile_append_dropWhile]
      rw [← found, whole]
    · exact whole
  · exact whole

private theorem readText_append {quote : Char} {text : List Char} {cut : Cut}
    (h : readText quote text = .ok cut) : cut.taken ++ cut.rest = quote :: text := by
  simp only [readText] at h
  split at h
  · cases h
  · rename_i close after found
    cases h
    simp only [List.cons_append, List.append_assoc, List.nil_append]
    rw [← found, List.takeWhile_append_dropWhile]

theorem readSymbol_append {c : Char} {text : List Char} {cut : Cut}
    (h : readSymbol c text = .ok cut) : cut.taken ++ cut.rest = c :: text := by
  unfold readSymbol at h
  split at h
  · rename_i symbol rest found
    cases h
    exact Symbol.read?_append found
  · cases h

/-- The characters of a token and those after it are the text it was cut off. -/
theorem readToken_append {c : Char} {text : List Char} {cut : Cut}
    (h : readToken c text = .ok cut) : cut.taken ++ cut.rest = c :: text := by
  unfold readToken at h
  split at h
  · exact readText_append h
  split at h
  · cases h
    exact readNumber_append _
  split at h
  · cases h
    exact readWord_append _
  · exact readSymbol_append h

theorem readNumber_taken {c : Char} (text : List Char) (digit : isDigit c = true) :
    (readNumber (c :: text)).taken ≠ [] := by
  simp only [readNumber]
  split <;> try split
  all_goals simp [digit]

private theorem readWord_taken {c : Char} (text : List Char) (part : isWordPart c = true) :
    (readWord (c :: text)).taken ≠ [] := by
  simp [readWord, part]

private theorem readText_taken {quote : Char} {text : List Char} {cut : Cut}
    (h : readText quote text = .ok cut) : cut.taken ≠ [] := by
  simp only [readText] at h
  split at h
  · cases h
  · cases h
    simp

theorem readSymbol_taken {c : Char} {text : List Char} {cut : Cut}
    (h : readSymbol c text = .ok cut) : cut.taken ≠ [] := by
  unfold readSymbol at h
  split at h
  · rename_i symbol rest found
    cases h
    cases symbol <;> simp [Symbol.text]
  · cases h

theorem readToken_taken {c : Char} {text : List Char} {cut : Cut}
    (h : readToken c text = .ok cut) : cut.taken ≠ [] := by
  unfold readToken at h
  split at h
  · exact readText_taken h
  split at h
  · rename_i digit
    cases h
    exact readNumber_taken text digit
  split at h
  · rename_i first
    cases h
    exact readWord_taken text (by simp [isWordPart, first])
  · exact readSymbol_taken h

private theorem readToken_length {c : Char} {text : List Char} {cut : Cut}
    (h : readToken c text = .ok cut) : cut.rest.length ≤ text.length := by
  have whole := congrArg List.length (readToken_append h)
  have some_taken := List.length_pos_iff.mpr (readToken_taken h)
  simp only [List.length_append, List.length_cons] at whole
  omega

/-! ## Reading on -/

theorem skipGap_length (inComment : Bool) (place : Place) (text : List Char) :
    (skipGap inComment place text).2.length ≤ text.length := by
  induction text generalizing inComment place with
  | nil => simp [skipGap]
  | cons c rest ih =>
    simp only [skipGap]
    split
    · exact Nat.le_succ_of_le (ih _ _)
    split
    · exact Nat.le_succ_of_le (ih _ _)
    split
    · exact Nat.le_succ_of_le (ih _ _)
    · exact Nat.le_refl _

/-- The text that a lexical fault is about, when it is met at `place` before `c :: text`. -/
def faultSpan (place : Place) (c : Char) (text : List Char) : LexicalFault → Span
  | .unexpectedCharacter _ => place.spanTo (place.next c)
  | .unterminatedText _ => place.spanTo (place.after (c :: text))

def scanFrom (place : Place) (text : List Char) : Except (Located LexicalFault) (List Token) :=
  match _gap : skipGap false place text with
  | (start, []) => .ok [.endAt (start.spanTo start)]
  | (start, c :: rest) =>
    match _found : readToken c rest with
    | .error fault => .error ⟨faultSpan start c rest fault, fault⟩
    | .ok cut =>
      let stop := start.after cut.taken
      match scanFrom stop cut.rest with
      | .error fault => .error fault
      | .ok tokens => .ok (⟨cut.kind, String.ofList cut.taken, start.spanTo stop⟩ :: tokens)
termination_by text.length
decreasing_by
  have shorter := skipGap_length false place text
  rw [_gap] at shorter
  exact Nat.lt_of_le_of_lt (readToken_length _found) shorter

end Lexer

def scan (source : String) : Except (Located LexicalFault) (List Token) :=
  Lexer.scanFrom .origin source.toList

end Ardoise
