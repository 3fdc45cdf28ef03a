import Ardoise.Proofs.Scanning.Tiling
import Mathlib.Data.List.Chain
import Mathlib.Data.List.TakeWhile

/-!
# What stands in a text between its tokens, and what the tokens look like

A gap is made of blanks and comments, and the kind of a token says how the token
is written.  Neither refers to how a text is scanned.  Scanning splits a text into
gaps and tokens of these forms, where every token is as long as the text lets it
be.
-/

namespace Ardoise

/-! ## Gaps -/

def EndsLine (text : List Char) : Prop :=
  ∀ c ∈ text.head?, c = '\n'

/--
Blanks and comments, one after the other, with `rest` behind them.  A comment runs
up to the next line break, or to the end of the text.
-/
inductive Gap : List Char → List Char → Prop
  | none (rest : List Char) : Gap [] rest
  | blank {c : Char} {gap rest : List Char} (blank : c ∈ [' ', '\t', '\r', '\n'])
      (more : Gap gap rest) : Gap (c :: gap) rest
  | comment {body gap rest : List Char} (oneLine : '\n' ∉ body) (ends : EndsLine (gap ++ rest))
      (more : Gap gap rest) : Gap ('/' :: '/' :: body ++ gap) rest

namespace Lexer

theorem mem_of_isBlank {c : Char} (h : isBlank c = true) : c ∈ [' ', '\t', '\r', '\n'] := by
  simpa [isBlank, or_assoc] using h

theorem startsComment_cons {c : Char} {text : List Char} (h : startsComment (c :: text) = true) :
    c = '/' ∧ ∃ more, text = '/' :: more := by
  unfold startsComment at h
  split at h
  · rename_i more same
    cases same
    exact ⟨rfl, more, rfl⟩
  · cases h

def GapFrom (inComment : Bool) (gap rest : List Char) : Prop :=
  if inComment then
    ∃ line more, gap = line ++ more ∧ '\n' ∉ line ∧ EndsLine (more ++ rest) ∧ Gap more rest
  else Gap gap rest

theorem gapFrom_of_skipGap {inComment : Bool} {place : Place} {gap rest : List Char}
    (h : (skipGap inComment place (gap ++ rest)).2 = rest) : GapFrom inComment gap rest := by
  induction gap generalizing inComment place with
  | nil =>
      cases inComment with
      | false => exact .none rest
      | true =>
          cases rest with
          | nil => exact ⟨[], [], rfl, by simp, by simp [EndsLine], .none []⟩
          | cons c rest =>
              -- inside a comment a character is always taken
              have shorter := skipGap_length (c ≠ '\n') (place.next c) rest
              simp only [List.nil_append, skipGap, if_true] at h
              rw [h, List.length_cons] at shorter
              omega
  | cons c gap ih =>
      simp only [List.cons_append, skipGap] at h
      split at h
      · rename_i inside
        subst inside
        have after := ih h
        by_cases breaks : c = '\n'
        · simp only [breaks, ne_eq, not_true_eq_false, decide_false] at after
          exact ⟨[], c :: gap, rfl, by simp, by simp [EndsLine, breaks],
            .blank (by simp [breaks]) after⟩
        · simp only [breaks, ne_eq, not_false_eq_true, decide_true] at after
          obtain ⟨line, more, rfl, oneLine, ends, further⟩ := after
          exact ⟨c :: line, more, rfl, by simp [oneLine, Ne.symm breaks], ends, further⟩
      rename_i outside
      simp only [Bool.not_eq_true] at outside
      subst outside
      split at h
      · rename_i blank
        exact .blank (mem_of_isBlank blank) (ih h)
      split at h
      · rename_i opens
        obtain ⟨rfl, tail, starts⟩ := startsComment_cons opens
        obtain ⟨line, more, rfl, oneLine, ends, further⟩ := ih h
        -- the second slash is the first character of the line
        cases line with
        | nil =>
            rw [List.nil_append] at starts
            simp [EndsLine, starts] at ends
        | cons d line =>
            simp only [List.cons_append, List.cons.injEq] at starts
            rw [starts.1]
            simp only [List.mem_cons, not_or] at oneLine
            exact .comment oneLine.2 ends further
      · have longer := congrArg List.length h
        simp only [List.length_cons, List.length_append] at longer
        omega

end Lexer

/-! ## Lexemes -/

def IsDigits (cs : List Char) : Prop :=
  cs ≠ [] ∧ ∀ c ∈ cs, Lexer.isDigit c = true

def IsWord (cs : List Char) : Prop :=
  ∃ c more, cs = c :: more ∧ Lexer.startsWord c = true ∧ ∀ d ∈ more, Lexer.isWordPart d = true

def Keyword.IsSpelled (keyword : Keyword) (word : List Char) : Prop :=
  ∃ spelling ∈ keyword.spellings, word.map Char.toLower = spelling.toList.map Char.toLower

inductive Lexeme : Kind → List Char → Prop
  | symbol (symbol : Symbol) : Lexeme (.symbol symbol) symbol.text.toList
  | keyword {keyword : Keyword} {word : List Char} (isWord : IsWord word)
      (spelled : keyword.IsSpelled word) : Lexeme (.keyword keyword) word
  | identifier {word : List Char} (isWord : IsWord word)
      (free : ∀ keyword : Keyword, ¬ keyword.IsSpelled word) :
      Lexeme (.identifier (String.ofList word)) word
  | text {quote : Char} {content : List Char} (quotes : quote ∈ ['"', '\''])
      (closed : quote ∉ content) :
      Lexeme (.text (String.ofList content)) (quote :: content ++ [quote])
  | whole {digits : List Char} (isDigits : IsDigits digits) :
      Lexeme (.number (Lexer.numberValue digits [])) digits
  | decimal {whole fraction : List Char} (isDigits : IsDigits whole)
      (isDigits' : IsDigits fraction) :
      Lexeme (.number (Lexer.numberValue whole fraction)) (whole ++ '.' :: fraction)

/-- No token is written as the characters together with some of those that follow them. -/
def Longest (cs rest : List Char) : Prop :=
  ∀ more, more ≠ [] → more <+: rest → ∀ kind, ¬ Lexeme kind (cs ++ more)

/-! ## Words -/

theorem Keyword.toLower_spelling (keyword : Keyword) :
    ∀ spelling ∈ keyword.spellings, spelling.toList.map Char.toLower = spelling.toList := by
  cases keyword <;> decide

theorem Keyword.isSpelled_iff {keyword : Keyword} {word : List Char} :
    keyword.IsSpelled word ↔ (String.ofList word).toLower ∈ keyword.spellings := by
  have lower : (String.ofList word).toLower = String.ofList (word.map Char.toLower) := by
    rw [← String.toList_inj]
    change (String.map Char.toLower (String.ofList word)).toList = _
    simp
  rw [lower]
  constructor
  · rintro ⟨spelling, member, same⟩
    rw [same, keyword.toLower_spelling spelling member, String.ofList_toList]
    exact member
  · intro member
    refine ⟨_, member, ?_⟩
    rw [keyword.toLower_spelling _ member, String.toList_ofList]

private theorem Keyword.isSpelled_of_ofWord? {keyword : Keyword} {word : List Char}
    (h : ofWord? (String.ofList word) = some keyword) : keyword.IsSpelled word := by
  have found := List.find?_some h
  rw [isSpelled_iff]
  simpa using found

private theorem Keyword.not_isSpelled_of_ofWord? {word : List Char}
    (h : ofWord? (String.ofList word) = none) (keyword : Keyword) : ¬ keyword.IsSpelled word := by
  have missed := List.find?_eq_none.mp h keyword (mem_all keyword)
  rw [isSpelled_iff]
  simpa using missed

/-! ## The longest lexeme

A lexeme that goes on beyond what was read would start with the same character, which
tells how it has to go on.
-/

private theorem Symbol.length_le_of_read? {longer symbol : Symbol} {rest after : List Char}
    (h : read? (longer.text.toList ++ after) = some (symbol, rest)) :
    longer.text.toList.length ≤ symbol.text.toList.length := by
  have exact : ∀ other : Symbol, 0 < other.text.toList.length := fun other => by
    cases other <;> decide
  cases longer with
  | bangEqual | equalEqual | lessEqual | greaterEqual => cases h; rfl
  | _ => exact exact symbol

namespace Lexer

theorem isQuote_of_startsWord {c : Char} (h : startsWord c = true) : isQuote c = false := by
  simp only [isQuote, Bool.or_eq_false_iff, decide_eq_false_iff_not]
  constructor <;> rintro rfl <;> exact absurd h (by decide)

theorem isQuote_of_isDigit {c : Char} (h : isDigit c = true) : isQuote c = false := by
  simp only [isQuote, Bool.or_eq_false_iff, decide_eq_false_iff_not]
  constructor <;> rintro rfl <;> exact absurd h (by decide)

theorem isDigit_of_startsWord {c : Char} (h : startsWord c = true) : isDigit c = false := by
  simp only [startsWord, isDigit, Bool.or_eq_true, Bool.and_eq_true, decide_eq_true_eq,
    Bool.and_eq_false_iff, decide_eq_false_iff_not, Char.le_def, UInt32.le_iff_toNat_le] at h ⊢
  rcases h with (h | h) | rfl
  · simp at h ⊢; omega
  · simp at h ⊢; omega
  · decide

/-- How a lexeme goes on after its first character, where that tells its form. -/
def GoesOn (c : Char) (cs : List Char) : Prop :=
  if isQuote c then ∃ content, cs = content ++ [c] ∧ c ∉ content
  else if isDigit c then
    IsDigits (c :: cs) ∨
      ∃ whole fraction, c :: cs = whole ++ '.' :: fraction ∧ IsDigits whole ∧ IsDigits fraction
  else if startsWord c then ∀ d ∈ cs, isWordPart d = true
  else ∃ symbol : Symbol, c :: cs = symbol.text.toList

theorem goesOn_of_isWord {c : Char} {cs : List Char} (h : IsWord (c :: cs)) : GoesOn c cs := by
  obtain ⟨_, _, ⟨⟩, starts, parts⟩ := h
  simpa [GoesOn, isQuote_of_startsWord starts, isDigit_of_startsWord starts, starts] using parts

theorem isDigit_of_isDigits_append {c : Char} {cs digits more : List Char}
    (h : IsDigits digits) (same : c :: cs = digits ++ more) : isDigit c = true := by
  obtain ⟨some, each⟩ := h
  cases digits with
  | nil => exact absurd rfl some
  | cons d digits =>
      cases same
      exact each c List.mem_cons_self

theorem goesOn_of_lexeme {kind : Kind} {c : Char} {cs : List Char} (h : Lexeme kind (c :: cs)) :
    GoesOn c cs := by
  generalize same : c :: cs = lexeme at h
  cases h with
  | symbol symbol =>
      have other : isQuote c = false ∧ isDigit c = false ∧ startsWord c = false := by
        cases symbol <;> cases same <;> decide
      simp only [GoesOn, other, Bool.false_eq_true, if_false]
      exact ⟨symbol, same⟩
  | keyword isWord spelled => exact goesOn_of_isWord (same ▸ isWord)
  | identifier isWord free => exact goesOn_of_isWord (same ▸ isWord)
  | @text quote content quotes closed =>
      cases same
      have isQuote : isQuote c = true := by simpa [isQuote] using quotes
      simp only [GoesOn, isQuote, if_true]
      exact ⟨content, rfl, closed⟩
  | whole isDigits =>
      have digit := isDigit_of_isDigits_append isDigits (same.trans (List.append_nil _).symm)
      simp only [GoesOn, isQuote_of_isDigit digit, digit, Bool.false_eq_true, if_false, if_true]
      exact .inl (same ▸ isDigits)
  | @decimal whole fraction isDigits isDigits' =>
      have digit := isDigit_of_isDigits_append isDigits same
      simp only [GoesOn, isQuote_of_isDigit digit, digit, Bool.false_eq_true, if_false, if_true]
      exact .inr ⟨whole, fraction, same, isDigits, isDigits'⟩

private theorem stops_of_prefix_dropWhile {p : Char → Bool} {text more : List Char} {c : Char}
    (h : c :: more <+: text.dropWhile p) : p c = false := by
  obtain ⟨rest, whole⟩ := h
  have stops := List.head?_dropWhile_not p text
  rwa [← whole] at stops

private theorem longest_readWord {c : Char} (text : List Char) (starts : startsWord c = true) :
    Longest (readWord (c :: text)).taken (readWord (c :: text)).rest := by
  rintro (_ | ⟨d, more⟩) some follows kind lexeme
  · exact some rfl
  have part : isWordPart c = true := by simp [isWordPart, starts]
  simp only [readWord, List.takeWhile_cons, part, if_true, List.cons_append] at lexeme follows
  have parts := goesOn_of_lexeme lexeme
  simp only [GoesOn, isQuote_of_startsWord starts, isDigit_of_startsWord starts, starts,
    Bool.false_eq_true, if_false, if_true] at parts
  have goes := parts d (by simp)
  simp [stops_of_prefix_dropWhile follows] at goes

theorem readText_closed {c : Char} {text : List Char} {cut : Cut}
    (h : readText c text = .ok cut) :
    ∃ content, c ∉ content ∧ cut.kind = .text (String.ofList content) ∧
      cut.taken = c :: (content ++ [c]) := by
  simp only [readText] at h
  split at h
  · cases h
  rename_i close after found
  cases h
  have closes : close = c := by
    have stops := List.head?_dropWhile_not (fun d => decide (d ≠ c)) text
    rw [found] at stops
    simpa using stops
  subst closes
  exact ⟨_, fun inside => by simpa using List.mem_takeWhile_imp inside, rfl, rfl⟩

theorem longest_readText {c : Char} {text : List Char} {cut : Cut} (quote : isQuote c = true)
    (h : readText c text = .ok cut) : Longest cut.taken cut.rest := by
  rintro more some _ kind lexeme
  obtain ⟨content, _, _, taken⟩ := readText_closed h
  rw [taken, List.cons_append] at lexeme
  have form := goesOn_of_lexeme lexeme
  simp only [GoesOn, quote, if_true] at form
  obtain ⟨content', same, closed⟩ := form
  -- the first closing quote would stand inside the longer string
  obtain ⟨more, last, rfl⟩ := List.eq_nil_or_concat more |>.resolve_left some
  rw [List.concat_eq_append, ← List.append_assoc] at same
  rw [← List.append_inj_left' same rfl] at closed
  simp at closed

/-- What is longer than a lexeme at the head of a text goes on after the same character. -/
theorem goesOn_of_longer {c : Char} {text taken rest more : List Char} {kind : Kind}
    (split : taken ++ rest = c :: text) (some : taken ≠ []) (h : Lexeme kind (taken ++ more)) :
    ∃ tail, taken ++ more = c :: tail ∧ GoesOn c tail := by
  cases taken with
  | nil => exact absurd rfl some
  | cons d taken =>
      cases split
      exact ⟨taken ++ more, rfl, goesOn_of_lexeme h⟩

theorem longest_readSymbol {c : Char} {text : List Char} {cut : Cut} (quote : isQuote c = false)
    (digit : isDigit c = false) (word : startsWord c = false)
    (h : readSymbol c text = .ok cut) : Longest cut.taken cut.rest := by
  rintro more some ⟨after, split⟩ kind lexeme
  obtain ⟨tail, starts, form⟩ :=
    goesOn_of_longer (readSymbol_append h) (readSymbol_taken h) lexeme
  simp only [GoesOn, quote, digit, word, Bool.false_eq_true, if_false] at form
  obtain ⟨longer, same⟩ := form
  have whole : longer.text.toList ++ after = c :: text := by
    rw [← same, ← starts, List.append_assoc, split, readSymbol_append h]
  unfold readSymbol at h
  split at h
  · rename_i symbol rest found
    cases h
    rw [← whole] at found
    have shorter := Symbol.length_le_of_read? found
    rw [← same, ← starts, List.length_append] at shorter
    exact some (List.length_eq_zero_iff.mp (by simp only at shorter; omega))
  · cases h

theorem digits_append_inj {digits digits' more more' : List Char}
    (all : ∀ d ∈ digits, isDigit d = true) (all' : ∀ d ∈ digits', isDigit d = true)
    (stops : ∀ d ∈ more.head?, isDigit d = false) (stops' : ∀ d ∈ more'.head?, isDigit d = false)
    (same : digits ++ more = digits' ++ more') : digits = digits' ∧ more = more' := by
  have short {more : List Char} (stops : ∀ d ∈ more.head?, isDigit d = false) :
      more.takeWhile isDigit = [] := by
    cases more with
    | nil => rfl
    | cons d more => simp [stops d rfl]
  have first := congrArg (List.takeWhile isDigit) same
  rw [List.takeWhile_append_of_pos all, List.takeWhile_append_of_pos all', short stops,
    short stops', List.append_nil, List.append_nil] at first
  subst first
  exact ⟨rfl, List.append_cancel_left same⟩

/-- All digits that stand there are taken, and those after a point if there are any. -/
theorem readNumber_cases {c : Char} (text : List Char) (digit : isDigit c = true) :
    (∀ d ∈ (readNumber (c :: text)).rest.head?, isDigit d = false) ∧
      ((∃ whole fraction, IsDigits whole ∧ IsDigits fraction ∧
          (readNumber (c :: text)).kind = .number (numberValue whole fraction) ∧
          (readNumber (c :: text)).taken = whole ++ '.' :: fraction) ∨
        (IsDigits (readNumber (c :: text)).taken ∧
          (readNumber (c :: text)).kind =
            .number (numberValue (readNumber (c :: text)).taken []) ∧
          ∀ d more, (readNumber (c :: text)).rest = '.' :: d :: more → isDigit d = false)) := by
  have taken (d : Char) (more : List Char) (first : isDigit d = true) :
      IsDigits ((d :: more).takeWhile isDigit) :=
    ⟨by simp [first], fun e member => List.mem_takeWhile_imp member⟩
  have stops (more : List Char) : ∀ d ∈ (more.dropWhile isDigit).head?, isDigit d = false := by
    intro d next
    have outside := List.head?_dropWhile_not isDigit more
    rwa [Option.mem_def.mp next] at outside
  simp only [readNumber]
  split
  · rename_i d after found
    split
    · rename_i first
      exact ⟨stops _, .inl ⟨_, _, taken c text digit, taken d after first, rfl, rfl⟩⟩
    · rename_i first
      refine ⟨stops _, .inr ⟨taken c text digit, rfl, fun e more same => ?_⟩⟩
      rw [found] at same
      cases same
      simpa using first
  · rename_i other
    exact ⟨stops _, .inr ⟨taken c text digit, rfl, fun e more same => (other e more same).elim⟩⟩

private theorem longest_readNumber {c : Char} (text : List Char) (digit : isDigit c = true) :
    Longest (readNumber (c :: text)).taken (readNumber (c :: text)).rest := by
  rintro (_ | ⟨d, more⟩) some ⟨after, split⟩ kind lexeme
  · exact some rfl
  obtain ⟨tail, starts, form⟩ :=
    goesOn_of_longer (readNumber_append (c :: text)) (readNumber_taken text digit) lexeme
  simp only [GoesOn, isQuote_of_isDigit digit, digit, Bool.false_eq_true, if_false, if_true,
    ← starts] at form
  have point : isDigit '.' = false := by decide
  obtain ⟨ends, ⟨whole, fraction, digits, digits', _, taken⟩ | ⟨digits, _, noFraction⟩⟩ :=
    readNumber_cases text digit
  all_goals
    have stops : isDigit d = false := ends d (by rw [← split]; rfl)
    rcases form with ⟨_, each⟩ | ⟨whole', fraction', same, digits₁, digits₂⟩
    · have member := each d (by simp)
      simp [stops] at member
  · -- the digits after the point end before `d`
    rw [taken, List.append_assoc] at same
    obtain ⟨_, same⟩ := digits_append_inj digits.2 digits₁.2 (by simpa using point)
      (by simpa using point) same
    have member := digits₂.2 d (by
      rw [← (List.cons.inj same).2]
      simp)
    simp [stops] at member
  · -- then `d` is the point, and a digit follows it
    obtain ⟨_, same⟩ := digits_append_inj digits.2 digits₁.2 (by simpa using stops)
      (by simpa using point) same
    cases same
    cases more with
    | nil => exact digits₂.1 rfl
    | cons e more =>
        have member := digits₂.2 e List.mem_cons_self
        simp [noFraction e _ split.symm] at member

theorem longest_readToken {c : Char} {text : List Char} {cut : Cut}
    (h : readToken c text = .ok cut) : Longest cut.taken cut.rest := by
  unfold readToken at h
  split at h
  · rename_i quote
    exact longest_readText quote h
  rename_i quote
  split at h
  · rename_i digit
    cases h
    exact longest_readNumber text digit
  rename_i digit
  split at h
  · rename_i starts
    cases h
    exact longest_readWord text starts
  · rename_i word
    simp only [Bool.not_eq_true] at quote digit word
    exact longest_readSymbol quote digit word h

private theorem lexeme_readText {c : Char} {text : List Char} {cut : Cut} (quote : isQuote c = true)
    (h : readText c text = .ok cut) : Lexeme cut.kind cut.taken := by
  obtain ⟨content, closed, kind, taken⟩ := readText_closed h
  rw [kind, taken]
  exact .text (by simpa [isQuote] using quote) closed

private theorem lexeme_readWord {c : Char} (text : List Char) (starts : startsWord c = true) :
    Lexeme (readWord (c :: text)).kind (readWord (c :: text)).taken := by
  have part : isWordPart c = true := by simp [isWordPart, starts]
  have isWord : IsWord ((c :: text).takeWhile isWordPart) := by
    refine ⟨c, text.takeWhile isWordPart, by simp [part], starts, fun d member => ?_⟩
    exact List.mem_takeWhile_imp member
  simp only [readWord]
  split
  · rename_i keyword found
    exact .keyword isWord (Keyword.isSpelled_of_ofWord? found)
  · rename_i missed
    exact .identifier isWord (Keyword.not_isSpelled_of_ofWord? missed)

private theorem lexeme_readNumber {c : Char} (text : List Char) (digit : isDigit c = true) :
    Lexeme (readNumber (c :: text)).kind (readNumber (c :: text)).taken := by
  obtain ⟨_, ⟨whole, fraction, digits, digits', kind, taken⟩ | ⟨digits, kind, _⟩⟩ :=
    readNumber_cases text digit
  · rw [kind, taken]
    exact .decimal digits digits'
  · rw [kind]
    exact .whole digits

theorem lexeme_readToken {c : Char} {text : List Char} {cut : Cut}
    (h : readToken c text = .ok cut) : Lexeme cut.kind cut.taken := by
  unfold readToken at h
  split at h
  · rename_i quote
    exact lexeme_readText quote h
  split at h
  · rename_i digit
    cases h
    exact lexeme_readNumber text digit
  split at h
  · rename_i starts
    cases h
    exact lexeme_readWord text starts
  · unfold readSymbol at h
    split at h
    · cases h
      exact .symbol _
    · cases h

end Lexer

/-! ## A text and its tokens -/

def GapBetween (source : String) (start stop : Nat) : Prop :=
  ∃ before gap after : String, source = before ++ gap ++ after ∧
    start = before.utf8ByteSize ∧ stop = (before ++ gap).utf8ByteSize ∧
    Gap gap.toList after.toList

/--
The lexeme of the token is what its span marks in the text.  It is one of its kind,
as long as can be, and not where a comment starts.
-/
def Token.Sits (source : String) (token : Token) : Prop :=
  ∃ before after : String, source = before ++ token.lexeme ++ after ∧
    token.span = ⟨before.utf8ByteSize, (before ++ token.lexeme).utf8ByteSize,
      1 + before.toList.count '\n'⟩ ∧
    token.lexeme ≠ "" ∧ Lexeme token.kind token.lexeme.toList ∧
    Longest token.lexeme.toList after.toList ∧
    ¬ ['/', '/'] <+: (token.lexeme ++ after).toList

/--
The tokens follow each other in the text with gaps before, between and behind them.
The last token stands for the end of the text, and is the only one to do so.
-/
structure Tiled (source : String) (tokens : List Token) : Prop where
  ended : ∃ proper, tokens = proper ++ [.endAt ⟨source.utf8ByteSize, source.utf8ByteSize,
      1 + source.toList.count '\n'⟩] ∧
    ∀ token ∈ proper, token.kind ≠ .endOfInput ∧ token.Sits source
  ordered : tokens.Pairwise fun a b => a.span.stop ≤ b.span.start
  gaps : (Place.origin.spanTo .origin :: tokens.map Token.span).IsChain
    fun a b => GapBetween source a.stop b.start

namespace Lexer

theorem gapBetween_after {source : String} {place : Place} {before gap after : List Char}
    (start : place = Place.origin.after before) (split : source.toList = before ++ gap ++ after)
    (isGap : Gap gap after) :
    GapBetween source place.offset (place.after gap).offset := by
  have whole : source = String.ofList (before ++ gap ++ after) := by
    rw [← split, String.ofList_toList]
  subst start
  refine ⟨String.ofList before, String.ofList gap, String.ofList after, ?_, ?_, ?_, ?_⟩
  · rw [whole, String.ofList_append, String.ofList_append]
  · simp [Place.offset_after, Place.origin]
  · simp [Place.offset_after, Place.origin, String.utf8ByteSize_append]
  · simpa using isGap

theorem startsComment_skipGap (inComment : Bool) (place : Place) (text : List Char) :
    startsComment (skipGap inComment place text).2 = false := by
  induction text generalizing inComment place with
  | nil => rfl
  | cons c text ih =>
      simp only [skipGap]
      split
      · exact ih _ _
      split
      · exact ih _ _
      split
      · exact ih _ _
      · rename_i other
        simpa using other

theorem sits_of_readToken {source : String} {place : Place} {before text : List Char} {c : Char}
    {cut : Cut} (start : place = Place.origin.after before)
    (split : source.toList = before ++ cut.taken ++ cut.rest)
    (read : readToken c text = .ok cut) (behindGap : startsComment (c :: text) = false) :
    Token.Sits source
      ⟨cut.kind, String.ofList cut.taken, place.spanTo (place.after cut.taken)⟩ := by
  have whole : source = String.ofList (before ++ cut.taken ++ cut.rest) := by
    rw [← split, String.ofList_toList]
  subst start
  refine ⟨String.ofList before, String.ofList cut.rest, ?_, ?_, ?_, ?_, ?_, ?_⟩
  · rw [whole, String.ofList_append, String.ofList_append]
  · simp [Place.spanTo, Place.offset_after, Place.line_after, Place.origin,
      String.utf8ByteSize_append]
  · rw [Ne, ← String.ofList_nil, String.ofList_inj]
    exact readToken_taken read
  · simpa using lexeme_readToken read
  · simpa using longest_readToken read
  · rw [← String.ofList_append, readToken_append read, String.toList_ofList]
    rintro ⟨more, slashes⟩
    rw [← slashes] at behindGap
    cases behindGap

namespace Tiles

variable {place : Place} {text : List Char} {tokens : List Token} {source : String}
  {before : List Char}

theorem gaps (h : Tiles place text tokens) (start : place = Place.origin.after before)
    (split : source.toList = before ++ text) {span : Span} (stop : span.stop = place.offset) :
    (span :: tokens.map Token.span).IsChain fun a b => GapBetween source a.stop b.start := by
  induction h generalizing before span with
  | @ends place gap skipped =>
      have isGap : Gap gap [] :=
        @gapFrom_of_skipGap false place gap [] (by rw [List.append_nil, skipped])
      have gapped := gapBetween_after start (by simpa using split) isGap
      rw [← stop] at gapped
      exact List.isChain_cons_cons.mpr ⟨gapped, .singleton _⟩
  | @token place gap rest c cut tokens skipped read tail ih =>
      have isGap : Gap gap (c :: rest) :=
        @gapFrom_of_skipGap false place gap (c :: rest) (by rw [skipped])
      have gapped := gapBetween_after start (by simpa using split) isGap
      rw [← stop] at gapped
      have reached : (place.after gap).after cut.taken =
          Place.origin.after (before ++ gap ++ cut.taken) := by
        rw [start, Place.after_append, Place.after_append]
      have whole : source.toList = before ++ gap ++ cut.taken ++ cut.rest := by
        simp [split, ← readToken_append read]
      exact List.isChain_cons_cons.mpr ⟨gapped, ih reached whole rfl⟩

theorem sits (h : Tiles place text tokens) (start : place = Place.origin.after before)
    (split : source.toList = before ++ text) :
    ∀ token ∈ tokens, token.kind ≠ .endOfInput → token.Sits source := by
  induction h generalizing before with
  | ends => simp [Token.endAt]
  | @token place gap rest c cut tokens skipped read tail ih =>
      have behind : place.after gap = Place.origin.after (before ++ gap) := by
        rw [Place.after_append, start]
      have whole : source.toList = (before ++ gap) ++ cut.taken ++ cut.rest := by
        simp [split, ← readToken_append read]
      refine List.forall_mem_cons.mpr ⟨fun _ => ?_, ih ?_ whole⟩
      · have behindGap := startsComment_skipGap false place (gap ++ c :: rest)
        rw [skipped] at behindGap
        exact sits_of_readToken behind whole read behindGap
      · rw [Place.after_append, behind]

end Tiles
end Lexer

theorem lexeme_of_scan {source : String} {tokens : List Token} (scanned : scan source = .ok tokens)
    {token : Token} (member : token ∈ tokens) (proper : token.kind ≠ .endOfInput) :
    Lexeme token.kind token.lexeme.toList := by
  have sits := (Lexer.tiles_of_scan scanned).sits (Place.after_nil _).symm rfl
  obtain ⟨_, _, _, _, _, lexeme, _⟩ := sits token member proper
  exact lexeme

section

variable {source : String} {tokens : List Token} (scanned : scan source = .ok tokens)
  {token : Token} (member : token ∈ tokens)
include scanned member

theorem lexeme_of_scan_symbol {symbol : Symbol} (kind : token.kind = .symbol symbol) :
    token.lexeme = symbol.text := by
  have lexeme := lexeme_of_scan scanned member (by simp [kind])
  rw [kind] at lexeme
  generalize same : token.lexeme.toList = word at lexeme
  cases lexeme with
  | symbol => exact String.toList_inj.mp same

theorem isSpelled_of_scan {keyword : Keyword} (kind : token.kind = .keyword keyword) :
    keyword.IsSpelled token.lexeme.toList := by
  have lexeme := lexeme_of_scan scanned member (by simp [kind])
  rw [kind] at lexeme
  generalize token.lexeme.toList = word at lexeme
  cases lexeme with
  | keyword _ spelled => exact spelled

end

theorem tiled_of_scan {source : String} {tokens : List Token} (h : scan source = .ok tokens) :
    Tiled source tokens := by
  have tiles := Lexer.tiles_of_scan h
  obtain ⟨proper, split, each⟩ := tiles.eq_append_end
  have sits := tiles.sits (Place.after_nil _).symm rfl
  refine ⟨⟨proper, ?_, fun token member => ?_⟩, tiles.pairwise, ?_⟩
  · simpa [Place.spanTo, Place.offset_after, Place.line_after, Place.origin] using split
  · exact ⟨(each token member).1, sits token (by simp [split, member]) (each token member).1⟩
  · exact tiles.gaps (Place.after_nil _).symm rfl rfl

/-- A string over two lines with slashes in it, and a number that ends before a second point. -/
theorem tiled_of_scan_over_lines :
    let source := "// l'été\nVAR x_1='é\n// ' == 1.5.y/2 // x=1"
    let marked : List (String × Span) :=
      [("VAR", ⟨11, 14, 2⟩), ("x_1", ⟨15, 18, 2⟩), ("=", ⟨18, 19, 2⟩), ("'é\n// '", ⟨19, 27, 2⟩),
        ("==", ⟨28, 30, 3⟩), ("1.5", ⟨31, 34, 3⟩), (".", ⟨34, 35, 3⟩), ("y", ⟨35, 36, 3⟩),
        ("/", ⟨36, 37, 3⟩), ("2", ⟨37, 38, 3⟩), ("", ⟨45, 45, 3⟩)]
    ∃ tokens, scan source = .ok tokens ∧
      tokens.map (fun token => (token.lexeme, token.span)) = marked ∧ Tiled source tokens := by
  intro source marked
  have read : (scan source).toOption.map (List.map fun token => (token.lexeme, token.span)) =
      some marked := by decide +kernel
  cases scanned : scan source with
  | error fault =>
      rw [scanned] at read
      cases read
  | ok tokens =>
      rw [scanned] at read
      exact ⟨tokens, rfl, Option.some.inj read, tiled_of_scan scanned⟩

end Ardoise
