import Ardoise.Proofs.Scanning.Longest

/-!
# Scanning a text from its pieces

A text is made of pieces: some spacing, and a lexeme that does not go on into what
stands behind it.  Scanning a text that is put together in this way gives back its
pieces.  So tokens can be spaced in any way without changing what they are.
-/

namespace Ardoise

/-! ## Spacing -/

/-- Blanks and comments, where a line break closes each comment. -/
inductive Spacing : List Char → Prop
  | none : Spacing []
  | blank {c : Char} {more : List Char} (blank : c ∈ [' ', '\t', '\r', '\n'])
      (behind : Spacing more) : Spacing (c :: more)
  | comment {body more : List Char} (oneLine : '\n' ∉ body) (behind : Spacing more) :
      Spacing ('/' :: '/' :: (body ++ '\n' :: more))

/-- A gap in front of anything but a line break has no comment that is left open. -/
theorem Gap.spacing {gap rest : List Char} {c : Char} (h : Gap gap (c :: rest)) (other : c ≠ '\n') :
    Spacing gap := by
  generalize behind : c :: rest = text at h
  induction h with
  | none => exact .none
  | blank blank _ ih => exact .blank blank (ih behind)
  | @comment body gap text oneLine ends _ ih =>
      subst behind
      cases gap with
      | nil => exact absurd (ends c rfl) other
      | cons d gap =>
          obtain rfl : d = '\n' := ends d rfl
          cases ih rfl with
          | blank _ behind => exact .comment oneLine behind

namespace Lexer

theorem isBlank_of_mem {c : Char} (h : c ∈ [' ', '\t', '\r', '\n']) : isBlank c = true := by
  simpa [isBlank, or_assoc] using h

theorem skipGap_line {body : List Char} (oneLine : '\n' ∉ body) (place : Place) (text : List Char) :
    skipGap true place (body ++ '\n' :: text) =
      skipGap false (place.after (body ++ ['\n'])) text := by
  induction body generalizing place with
  | nil => simp [skipGap]
  | cons c body ih =>
      simp only [List.mem_cons, not_or] at oneLine
      simp [skipGap, Ne.symm oneLine.1, ih oneLine.2]

theorem skipGap_spacing {space : List Char} (h : Spacing space) (place : Place)
    (text : List Char) :
    skipGap false place (space ++ text) = skipGap false (place.after space) text := by
  induction h generalizing place with
  | none => rfl
  | blank blank _ ih => simp [skipGap, isBlank_of_mem blank, ih]
  | @comment body more oneLine _ ih =>
      have slash : isBlank '/' = false := by decide
      have goesOn : decide ('/' ≠ '\n') = true := by decide
      simp only [List.cons_append, List.append_assoc, skipGap, slash, startsComment, goesOn,
        Bool.false_eq_true, if_false, if_true]
      rw [skipGap_line oneLine, ih]
      simp [Place.after_append]

theorem isBlank_skipGap {inComment : Bool} {place start : Place} {text rest : List Char} {c : Char}
    (h : skipGap inComment place text = (start, c :: rest)) : isBlank c = false := by
  induction text generalizing inComment place with
  | nil => simp [skipGap] at h
  | cons d text ih =>
      simp only [skipGap] at h
      split at h
      · exact ih h
      split at h
      · exact ih h
      split at h
      · exact ih h
      · rename_i other _
        cases h
        simpa using other

theorem spacing_of_skipGap {place : Place} {space text : List Char} {c : Char}
    (skipped : skipGap false place (space ++ c :: text) = (place.after space, c :: text)) :
    Spacing space := by
  have isGap : Gap space (c :: text) :=
    @gapFrom_of_skipGap false place space (c :: text) (by rw [skipped])
  refine isGap.spacing ?_
  rintro rfl
  exact absurd (isBlank_skipGap skipped) (by decide)

theorem startsComment_iff {text : List Char} :
    startsComment text = true ↔ ['/', '/'] <+: text := by
  unfold startsComment
  split
  · simp
  · rename_i other
    simp only [Bool.false_eq_true, false_iff]
    rintro ⟨more, same⟩
    exact other more same.symm

/-! ## Pieces -/

structure Piece (space lexeme rest : List Char) (kind : Kind) : Prop where
  spacing : Spacing space
  isLexeme : Lexeme kind lexeme
  longest : Longest lexeme rest
  noComment : ¬ ['/', '/'] <+: lexeme ++ rest

namespace Piece

variable {place : Place} {space lexeme rest : List Char} {kind : Kind}

theorem of_read {c : Char} {text : List Char} {cut : Cut}
    (skipped : skipGap false place (space ++ c :: text) = (place.after space, c :: text))
    (read : readToken c text = .ok cut) : Piece space cut.taken cut.rest cut.kind := by
  refine ⟨spacing_of_skipGap skipped, lexeme_readToken read, longest_readToken read, ?_⟩
  have opens := startsComment_skipGap false place (space ++ c :: text)
  rw [skipped] at opens
  rw [readToken_append read, ← startsComment_iff]
  simp [opens]

theorem reads (piece : Piece space lexeme rest kind) (place : Place) :
    ∃ c text, lexeme ++ rest = c :: text ∧
      skipGap false place (space ++ c :: text) = (place.after space, c :: text) ∧
      readToken c text = .ok ⟨kind, lexeme, rest⟩ := by
  obtain ⟨spacing, isLexeme, longest, noComment⟩ := piece
  obtain ⟨c, cs, rfl⟩ := List.exists_cons_of_ne_nil isLexeme.ne_nil
  refine ⟨c, cs ++ rest, rfl, ?_, readToken_of_longest isLexeme longest⟩
  have blank : isBlank c = false := by
    by_contra found
    exact isLexeme.not_enclosed_head (enclosed_of_blank (mem_of_isBlank (by simpa using found)))
  have opens : startsComment (c :: (cs ++ rest)) = false := by
    rw [← Bool.not_eq_true, startsComment_iff]
    exact noComment
  rw [skipGap_spacing spacing]
  simp [skipGap, blank, opens]

theorem of_start {rest' : List Char} (piece : Piece space lexeme rest kind)
    (shorter : rest' <+: rest) : Piece space lexeme rest' kind where
  spacing := piece.spacing
  isLexeme := piece.isLexeme
  longest := fun more some front => piece.longest more some (front.trans shorter)
  noComment := fun slashes =>
    piece.noComment (slashes.trans ((List.prefix_append_right_inj lexeme).mpr shorter))

private theorem before_blank (spacing : Spacing space) (isLexeme : Lexeme kind lexeme)
    (blank : ∀ c ∈ rest.head?, c ∈ [' ', '\t', '\r', '\n']) : Piece space lexeme rest kind where
  spacing := spacing
  isLexeme := isLexeme
  longest := by
    rintro (_ | ⟨c, more⟩) some ⟨after, rfl⟩ kind'
    · exact absurd rfl some
    · exact isLexeme.not_append List.mem_cons_self (enclosed_of_blank (blank c rfl))
  noComment := by
    rintro ⟨more, slashes⟩
    obtain ⟨c, cs, rfl⟩ := List.exists_cons_of_ne_nil isLexeme.ne_nil
    simp only [List.cons_append, List.nil_append, List.cons.injEq] at slashes
    obtain ⟨rfl, slashes⟩ := slashes
    rw [isLexeme.slash_alone, List.nil_append] at slashes
    have second := blank '/' (by rw [← slashes]; rfl)
    simp at second

end Piece

theorem Tiles.of_spacing {space : List Char} (h : Spacing space) (place : Place) :
    Tiles place space [.endAt ((place.after space).spanTo (place.after space))] := by
  refine .ends ?_
  have skipped := skipGap_spacing h place []
  rwa [List.append_nil] at skipped

theorem Tiles.cons {place : Place} {space lexeme rest : List Char} {kind : Kind}
    {tokens : List Token} (piece : Piece space lexeme rest kind)
    (tail : Tiles ((place.after space).after lexeme) rest tokens) :
    Tiles place (space ++ (lexeme ++ rest))
      (⟨kind, String.ofList lexeme,
        (place.after space).spanTo ((place.after space).after lexeme)⟩ :: tokens) := by
  obtain ⟨c, text, same, skipped, read⟩ := piece.reads place
  rw [same]
  exact .token skipped read tail

theorem Fails.cons {place : Place} {space lexeme rest : List Char} {kind : Kind}
    {fault : Located LexicalFault} (piece : Piece space lexeme rest kind)
    (tail : Fails ((place.after space).after lexeme) rest fault) :
    Fails place (space ++ (lexeme ++ rest)) fault := by
  obtain ⟨c, text, same, skipped, read⟩ := piece.reads place
  rw [same]
  exact .later skipped read tail

/-- What is said of a text tells how it is scanned. -/
theorem Tiles.scanFrom_eq {place : Place} {text : List Char} {tokens : List Token}
    (h : Tiles place text tokens) : scanFrom place text = .ok tokens := by
  induction h with
  | ends skipped =>
      unfold scanFrom
      rw [skipped]
  | token skipped read tail ih =>
      unfold scanFrom
      rw [skipped]
      dsimp only
      rw [read]
      dsimp only
      rw [ih]

theorem Fails.scanFrom_eq {place : Place} {text : List Char} {fault : Located LexicalFault}
    (h : Fails place text fault) : scanFrom place text = .error fault := by
  induction h with
  | here skipped read =>
      unfold scanFrom
      rw [skipped]
      dsimp only
      rw [read]
  | later skipped read tail ih =>
      unfold scanFrom
      rw [skipped]
      dsimp only
      rw [read]
      dsimp only
      rw [ih]

end Lexer

/-! ## Spacing tokens anew -/

def StartsBlank (text : List Char) : Prop :=
  ∃ c ∈ text.head?, c ∈ [' ', '\t', '\r', '\n']

def spaced (lead : String) : List (String × String) → String
  | [] => lead
  | (lexeme, space) :: more => lead ++ (lexeme ++ spaced space more)

/-- `lead` may stand before lexemes, and each of `spaces` behind one of them. -/
structure Separates (lead : String) (spaces : List String) : Prop where
  spacing : ∀ space ∈ lead :: spaces, Spacing space.toList
  between : ∀ space ∈ spaces.dropLast, StartsBlank space.toList
  last : ∀ space ∈ spaces.getLast?, space = "" ∨ StartsBlank space.toList

namespace Separates

variable {lead space : String} {spaces : List String}

theorem tail (h : Separates lead (space :: spaces)) : Separates space spaces where
  spacing := fun other member => h.spacing other (List.mem_cons_of_mem lead member)
  between := by
    cases spaces with
    | nil => simp
    | cons next spaces => exact fun other member => h.between other (List.mem_cons_of_mem _ member)
  last := by
    cases spaces with
    | nil => simp
    | cons next spaces => exact h.last

private theorem head_blank {pieces : List (String × String)}
    (h : Separates lead (space :: pieces.map Prod.snd)) :
    ∀ c ∈ (spaced space pieces).toList.head?, c ∈ [' ', '\t', '\r', '\n'] := by
  intro c first
  cases pieces with
  | nil =>
      rcases h.last space rfl with rfl | ⟨d, starts, blank⟩
      · simp [spaced] at first
      · rw [spaced, starts] at first
        exact Option.some.inj first ▸ blank
  | cons piece more =>
      obtain ⟨d, starts, blank⟩ := h.between space (by simp)
      have nonempty : space.toList ≠ [] := by
        intro none
        simp [none] at starts
      rw [spaced, String.toList_append, List.head?_append_of_ne_nil _ nonempty, starts] at first
      exact Option.some.inj first ▸ blank

end Separates

def Token.written (token : Token) : Kind × String := (token.kind, token.lexeme)

private theorem Lexer.tiles_spaced {tokens : List Token} {pieces : List (String × String)}
    (lexemes : ∀ token ∈ tokens, Lexeme token.kind token.lexeme.toList)
    {lead : String} (same : pieces.map Prod.fst = tokens.map Token.lexeme)
    (separates : Separates lead (pieces.map Prod.snd)) (place : Place) :
    ∃ respaced, Tiles place (spaced lead pieces).toList respaced ∧
      respaced.map Token.written = tokens.map Token.written ++ [(.endOfInput, "")] := by
  induction pieces generalizing tokens lead place with
  | nil =>
      obtain rfl : tokens = [] := by simpa using same.symm
      exact ⟨_, .of_spacing (separates.spacing lead List.mem_cons_self) place, rfl⟩
  | cons piece pieces ih =>
      obtain ⟨lexeme, space⟩ := piece
      cases tokens with
      | nil => simp at same
      | cons token tokens =>
          obtain ⟨isLexeme, others⟩ := List.forall_mem_cons.mp lexemes
          simp only [List.map_cons, List.cons.injEq] at same
          obtain ⟨rfl, same⟩ := same
          have piece : Piece lead.toList token.lexeme.toList (spaced space pieces).toList
              token.kind :=
            .before_blank (separates.spacing lead List.mem_cons_self) isLexeme
              separates.head_blank
          obtain ⟨respaced, tiles, written⟩ := ih others same separates.tail
            ((place.after lead.toList).after token.lexeme.toList)
          have whole := Tiles.cons piece tiles
          rw [← String.toList_append, ← String.toList_append] at whole
          refine ⟨_, whole, ?_⟩
          simp [Token.written, written]

def properTokens (tokens : List Token) : List Token :=
  tokens.filter fun token => token.kind ≠ .endOfInput

/--
The lexemes of a text may be spaced in any other way that keeps a blank between
them: they are scanned as tokens of the same kinds.
-/
theorem scan_spaced {source : String} {tokens : List Token} (scanned : scan source = .ok tokens)
    {lead : String} {pieces : List (String × String)}
    (lexemes : pieces.map Prod.fst = (properTokens tokens).map Token.lexeme)
    (separates : Separates lead (pieces.map Prod.snd)) :
    ∃ respaced, scan (spaced lead pieces) = .ok respaced ∧
      respaced.map Token.written =
        (properTokens tokens).map Token.written ++ [(.endOfInput, "")] := by
  have isLexeme : ∀ token ∈ properTokens tokens, Lexeme token.kind token.lexeme.toList := by
    intro token member
    obtain ⟨member, proper⟩ := List.mem_filter.mp member
    exact lexeme_of_scan scanned member (by simpa using proper)
  obtain ⟨respaced, tiles, written⟩ := Lexer.tiles_spaced isLexeme lexemes separates .origin
  exact ⟨respaced, tiles.scanFrom_eq, written⟩

/-- Slashes stand in a string, between numbers and in comments. -/
theorem scan_spaced_with_comments :
    let pieces := [("x", " "), ("==", "\n\t"), ("1.5", " // un // '\n"), ("/", " "), ("'//'", "")]
    Separates "// é\n" (pieces.map Prod.snd) ∧
    spaced "// é\n" pieces = "// é\nx ==\n\t1.5 // un // '\n/ '//'" ∧
    ∃ tokens respaced, scan "x==1.5/'//'" = .ok tokens ∧
      (properTokens tokens).map Token.lexeme = pieces.map Prod.fst ∧
      scan "// é\nx ==\n\t1.5 // un // '\n/ '//'" = .ok respaced ∧
      respaced.map Token.written =
        (properTokens tokens).map Token.written ++ [(.endOfInput, "")] := by
  intro pieces
  have line : Spacing "// é\n".toList := @Spacing.comment [' ', 'é'] [] (by decide) .none
  have space : Spacing " ".toList := .blank (by decide) .none
  have breaks : Spacing "\n\t".toList := .blank (by decide) (.blank (by decide) .none)
  have behind : Spacing " // un // '\n".toList :=
    .blank (by decide) (@Spacing.comment " un // '".toList [] (by decide) .none)
  have separates : Separates "// é\n" (pieces.map Prod.snd) := by
    refine ⟨?_, ?_, ?_⟩
    · simpa [pieces] using ⟨line, space, breaks, behind, space, .none⟩
    · simp [pieces, StartsBlank]
    · simp [pieces]
  have read : (scan "x==1.5/'//'").toOption.map
      (fun tokens => (properTokens tokens).map Token.lexeme) = some (pieces.map Prod.fst) := by
    decide +kernel
  cases scanned : scan "x==1.5/'//'" with
  | error fault =>
      rw [scanned] at read
      cases read
  | ok tokens =>
      rw [scanned] at read
      have lexemes := Option.some.inj read
      obtain ⟨respaced, again, written⟩ := scan_spaced scanned lexemes.symm separates
      exact ⟨separates, rfl, tokens, respaced, rfl, lexemes, again, written⟩

end Ardoise
