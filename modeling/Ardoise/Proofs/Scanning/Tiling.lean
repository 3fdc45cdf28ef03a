import Ardoise.Token.Lexer

/-!
# Tokens tile the text

Scanning goes over a text once, from gap to token and from token to gap, up to
its end or to the place where it fails.  So the spans of the tokens mark
stretches of the text that follow each other, and the token for the end stands
behind the last character.
-/

namespace Ardoise

/-! ## Places and spans in a text -/

theorem Place.offset_after (place : Place) (cs : List Char) :
    (place.after cs).offset = place.offset + (String.ofList cs).utf8ByteSize := by
  induction cs generalizing place with
  | nil => rfl
  | cons c cs ih =>
      rw [after_cons, ih, String.ofList_cons, String.utf8ByteSize_append,
        String.utf8ByteSize_singleton, ← Nat.add_assoc]
      rfl

theorem Place.line_after (place : Place) (cs : List Char) :
    (place.after cs).line = place.line + cs.count '\n' := by
  induction cs generalizing place with
  | nil => rfl
  | cons c cs ih =>
      rw [after_cons, ih, List.count_cons]
      simp only [next, beq_iff_eq]
      split <;> omega

private theorem Place.offset_lt_after (place : Place) {cs : List Char} (some : cs ≠ []) :
    place.offset < (place.after cs).offset := by
  have positive : (String.ofList cs).utf8ByteSize ≠ 0 := by
    rw [Ne, String.utf8ByteSize_eq_zero_iff, ← String.ofList_nil, String.ofList_inj]
    exact some
  rw [offset_after]
  omega

/--
The span is that of `marked`, which is a stretch of the text: it starts and stops
between characters, and its line is counted from the line breaks before it.
-/
def Span.Marks (span : Span) (source marked : String) : Prop :=
  ∃ before after : String, source = before ++ marked ++ after ∧
    span.start = before.utf8ByteSize ∧ span.stop = (before ++ marked).utf8ByteSize ∧
    span.line = 1 + before.toList.count '\n'

namespace Span

theorem marks_spanTo {source : String} {place : Place} {before marked after : List Char}
    (start : place = Place.origin.after before)
    (split : source.toList = before ++ marked ++ after) :
    (place.spanTo (place.after marked)).Marks source (String.ofList marked) := by
  have whole : source = String.ofList (before ++ marked ++ after) := by
    rw [← split, String.ofList_toList]
  subst start
  refine ⟨String.ofList before, String.ofList after, ?_, ?_, ?_, ?_⟩
  · rw [whole, String.ofList_append, String.ofList_append]
  · simp [Place.spanTo, Place.offset_after, Place.origin]
  · simp [Place.spanTo, Place.offset_after, Place.origin, String.utf8ByteSize_append]
  · simp [Place.spanTo, Place.line_after, Place.origin, String.toList_ofList]

theorem Marks.start_le_stop {span : Span} {source marked : String} (h : span.Marks source marked) :
    span.start ≤ span.stop := by
  obtain ⟨before, after, _, start, stop, _⟩ := h
  rw [start, stop, String.utf8ByteSize_append]
  omega

theorem Marks.start_lt_stop_iff {span : Span} {source marked : String}
    (h : span.Marks source marked) : span.start < span.stop ↔ marked ≠ "" := by
  obtain ⟨before, after, _, start, stop, _⟩ := h
  rw [start, stop, String.utf8ByteSize_append, Ne, ← String.utf8ByteSize_eq_zero_iff]
  omega

theorem Marks.upTo {first last : Span} {source marked marked' : String}
    (h : first.Marks source marked) (h' : last.Marks source marked')
    (ordered : first.start ≤ last.stop) : ∃ joint, (first.upTo last).Marks source joint := by
  obtain ⟨before, after, split, start, _, line⟩ := h
  obtain ⟨before', after', split', _, stop, _⟩ := h'
  have onePrefix : before.toList <+: source.toList := by
    rw [split, String.append_assoc, String.toList_append]
    exact List.prefix_append _ _
  have otherPrefix : (before' ++ marked').toList <+: source.toList := by
    rw [split', String.toList_append (s := before' ++ marked')]
    exact List.prefix_append _ _
  rw [start, stop] at ordered
  have inside : before.toList <+: (before' ++ marked').toList := by
    rcases List.prefix_or_prefix_of_prefix onePrefix otherPrefix with here | ⟨more, beyond⟩
    · exact here
    · -- nothing fits between the two
      have same : before = before' ++ marked' ++ String.ofList more := by
        rw [← String.toList_inj, String.toList_append, String.toList_ofList, beyond]
      have none : String.ofList more = "" := by
        rw [same, String.utf8ByteSize_append] at ordered
        exact String.utf8ByteSize_eq_zero_iff.mp (by omega)
      have reached : before = before' ++ marked' := by rw [same, none, String.append_empty]
      exact reached ▸ List.prefix_rfl
  obtain ⟨joint, joined⟩ := inside
  have whole : before ++ String.ofList joint = before' ++ marked' := by
    rw [← String.toList_inj, String.toList_append, String.toList_ofList, joined]
  refine ⟨String.ofList joint, before, after', by rw [whole, split'], start, ?_, line⟩
  rw [upTo_stop (by rw [start, stop]; exact ordered), whole, stop]

end Span

/-! ## What scanning does -/

namespace Lexer

private theorem skipGap_split (inComment : Bool) (place : Place) (text : List Char) :
    ∃ gap, text = gap ++ (skipGap inComment place text).2 ∧
      (skipGap inComment place text).1 = place.after gap := by
  induction text generalizing inComment place with
  | nil => exact ⟨[], rfl, rfl⟩
  | cons c rest ih =>
      simp only [skipGap]
      split
      · obtain ⟨gap, split, start⟩ := ih (c ≠ '\n') (place.next c)
        exact ⟨c :: gap, by rw [List.cons_append, ← split], by rw [Place.after_cons, ← start]⟩
      split
      · obtain ⟨gap, split, start⟩ := ih false (place.next c)
        exact ⟨c :: gap, by rw [List.cons_append, ← split], by rw [Place.after_cons, ← start]⟩
      split
      · obtain ⟨gap, split, start⟩ := ih true (place.next c)
        exact ⟨c :: gap, by rw [List.cons_append, ← split], by rw [Place.after_cons, ← start]⟩
      · exact ⟨[], rfl, rfl⟩

theorem eq_append_of_skipGap {place start : Place} {text rest : List Char}
    (h : skipGap false place text = (start, rest)) :
    ∃ gap, text = gap ++ rest ∧ start = place.after gap := by
  have split := skipGap_split false place text
  rwa [h] at split

private theorem readNumber_kind (text : List Char) : (readNumber text).kind ≠ .endOfInput := by
  simp only [readNumber]
  split
  · split <;> simp
  · simp

private theorem readWord_kind (text : List Char) : (readWord text).kind ≠ .endOfInput := by
  simp only [readWord]
  split <;> simp

private theorem readText_kind {quote : Char} {text : List Char} {cut : Cut}
    (h : readText quote text = .ok cut) : cut.kind ≠ .endOfInput := by
  simp only [readText] at h
  split at h <;> cases h
  simp

private theorem readSymbol_kind {c : Char} {text : List Char} {cut : Cut}
    (h : readSymbol c text = .ok cut) : cut.kind ≠ .endOfInput := by
  unfold readSymbol at h
  split at h <;> cases h
  simp

private theorem readToken_kind {c : Char} {text : List Char} {cut : Cut}
    (h : readToken c text = .ok cut) : cut.kind ≠ .endOfInput := by
  unfold readToken at h
  split at h
  · exact readText_kind h
  split at h
  · cases h
    exact readNumber_kind _
  split at h
  · cases h
    exact readWord_kind _
  · exact readSymbol_kind h

inductive Tiles : Place → List Char → List Token → Prop
  | ends {place : Place} {gap : List Char}
      (skipped : skipGap false place gap = (place.after gap, [])) :
      Tiles place gap [.endAt ((place.after gap).spanTo (place.after gap))]
  | token {place : Place} {gap rest : List Char} {c : Char} {cut : Cut} {tokens : List Token}
      (skipped : skipGap false place (gap ++ c :: rest) = (place.after gap, c :: rest))
      (read : readToken c rest = .ok cut)
      (tail : Tiles ((place.after gap).after cut.taken) cut.rest tokens) :
      Tiles place (gap ++ c :: rest)
        (⟨cut.kind, String.ofList cut.taken,
          (place.after gap).spanTo ((place.after gap).after cut.taken)⟩ :: tokens)

inductive Fails : Place → List Char → Located LexicalFault → Prop
  | here {place : Place} {gap rest : List Char} {c : Char} {fault : LexicalFault}
      (skipped : skipGap false place (gap ++ c :: rest) = (place.after gap, c :: rest))
      (read : readToken c rest = .error fault) :
      Fails place (gap ++ c :: rest) ⟨faultSpan (place.after gap) c rest fault, fault⟩
  | later {place : Place} {gap rest : List Char} {c : Char} {cut : Cut}
      {fault : Located LexicalFault}
      (skipped : skipGap false place (gap ++ c :: rest) = (place.after gap, c :: rest))
      (read : readToken c rest = .ok cut)
      (tail : Fails ((place.after gap).after cut.taken) cut.rest fault) :
      Fails place (gap ++ c :: rest) fault

def Describes (place : Place) (text : List Char) :
    Except (Located LexicalFault) (List Token) → Prop
  | .ok tokens => Tiles place text tokens
  | .error fault => Fails place text fault

theorem scanFrom_describes (place : Place) (text : List Char) :
    Describes place text (scanFrom place text) := by
  fun_induction scanFrom place text with
  | case1 place text start skipped =>
      obtain ⟨gap, rfl, rfl⟩ := eq_append_of_skipGap skipped
      rw [List.append_nil] at skipped ⊢
      exact Tiles.ends skipped
  | case2 place text start c rest skipped fault read =>
      obtain ⟨gap, rfl, rfl⟩ := eq_append_of_skipGap skipped
      exact Fails.here skipped read
  | case3 place text start c rest skipped cut read stop fault failed ih =>
      obtain ⟨gap, rfl, rfl⟩ := eq_append_of_skipGap skipped
      rw [failed] at ih
      exact Fails.later skipped read ih
  | case4 place text start c rest skipped cut read stop tokens scanned ih =>
      obtain ⟨gap, rfl, rfl⟩ := eq_append_of_skipGap skipped
      rw [scanned] at ih
      exact Tiles.token skipped read ih

/-! ## Where the tokens stand -/

namespace Tiles

variable {place : Place} {text : List Char} {tokens : List Token}

theorem eq_append_end (h : Tiles place text tokens) :
    ∃ proper, tokens = proper ++ [.endAt ((place.after text).spanTo (place.after text))] ∧
      ∀ token ∈ proper, token.kind ≠ .endOfInput ∧ token.span.start < token.span.stop := by
  induction h with
  | ends => exact ⟨[], rfl, by simp⟩
  | @token place gap rest c cut tokens skipped read tail ih =>
      obtain ⟨proper, rfl, each⟩ := ih
      have stop : ((place.after gap).after cut.taken).after cut.rest =
          place.after (gap ++ c :: rest) := by
        rw [← Place.after_append, readToken_append read, ← Place.after_append]
      rw [stop]
      refine ⟨_ :: proper, rfl, List.forall_mem_cons.mpr ⟨⟨readToken_kind read, ?_⟩, each⟩⟩
      exact Place.offset_lt_after _ (readToken_taken read)

private theorem offset_le_start (h : Tiles place text tokens) :
    ∀ token ∈ tokens, place.offset ≤ token.span.start := by
  induction h with
  | @ends place gap skipped =>
      simp only [List.mem_singleton, forall_eq, Token.endAt, Place.spanTo, Place.offset_after]
      omega
  | @token place gap rest c cut tokens skipped read tail ih =>
      refine List.forall_mem_cons.mpr ⟨?_, fun token member => ?_⟩
      · simp only [Place.spanTo, Place.offset_after]
        omega
      · have later := ih token member
        rw [Place.offset_after, Place.offset_after] at later
        omega

theorem pairwise (h : Tiles place text tokens) :
    tokens.Pairwise fun a b => a.span.stop ≤ b.span.start := by
  induction h with
  | ends => exact List.pairwise_singleton _ _
  | token skipped read tail ih =>
      exact List.pairwise_cons.mpr ⟨fun token member => tail.offset_le_start token member, ih⟩

theorem marks {source : String} {before : List Char} (h : Tiles place text tokens)
    (start : place = Place.origin.after before) (split : source.toList = before ++ text) :
    ∀ token ∈ tokens, ∃ marked, token.span.Marks source marked := by
  induction h generalizing before with
  | @ends place gap skipped =>
      have behind : place.after gap = Place.origin.after (before ++ gap) := by
        rw [Place.after_append, start]
      have whole : source.toList = (before ++ gap) ++ [] ++ [] := by simp [split]
      exact List.forall_mem_singleton.mpr ⟨_, Span.marks_spanTo behind whole⟩
  | @token place gap rest c cut tokens skipped read tail ih =>
      have behind : place.after gap = Place.origin.after (before ++ gap) := by
        rw [Place.after_append, start]
      have whole : source.toList = (before ++ gap) ++ cut.taken ++ cut.rest := by
        simp [split, ← readToken_append read]
      refine List.forall_mem_cons.mpr ⟨⟨_, Span.marks_spanTo behind whole⟩, ih ?_ whole⟩
      rw [Place.after_append, behind]

end Tiles

theorem Fails.marks {place : Place} {text : List Char} {fault : Located LexicalFault}
    {source : String} {before : List Char} (h : Fails place text fault)
    (start : place = Place.origin.after before) (split : source.toList = before ++ text) :
    ∃ marked, marked ≠ "" ∧ fault.span.Marks source marked := by
  induction h generalizing before with
  | @here place gap rest c fault skipped read =>
      have behind : place.after gap = Place.origin.after (before ++ gap) := by
        rw [Place.after_append, start]
      have nonempty : ∀ cs, String.ofList (c :: cs) ≠ "" := fun cs => by
        rw [Ne, ← String.ofList_nil, String.ofList_inj]
        exact nofun
      cases fault with
      | unexpectedCharacter =>
          have whole : source.toList = (before ++ gap) ++ [c] ++ rest := by simp [split]
          exact ⟨_, nonempty _, Span.marks_spanTo behind whole⟩
      | unterminatedText =>
          have whole : source.toList = (before ++ gap) ++ (c :: rest) ++ [] := by simp [split]
          exact ⟨_, nonempty _, Span.marks_spanTo behind whole⟩
  | @later place gap rest c cut fault skipped read tail ih =>
      have whole : source.toList = (before ++ gap ++ cut.taken) ++ cut.rest := by
        simp [split, ← readToken_append read]
      refine ih ?_ whole
      rw [Place.after_append, Place.after_append, start]

theorem tiles_of_scan {source : String} {tokens : List Token} (h : scan source = .ok tokens) :
    Tiles .origin source.toList tokens := by
  have described := scanFrom_describes .origin source.toList
  change Describes _ _ (scan source) at described
  rwa [h] at described

theorem fails_of_scan {source : String} {fault : Located LexicalFault}
    (h : scan source = .error fault) : Fails .origin source.toList fault := by
  have described := scanFrom_describes .origin source.toList
  change Describes _ _ (scan source) at described
  rwa [h] at described

end Lexer

structure LaidOut (source : String) (tokens : List Token) : Prop where
  marks : ∀ token ∈ tokens, ∃ marked, token.span.Marks source marked
  pairwise : tokens.Pairwise fun a b => a.span.stop ≤ b.span.start
  ended : ∃ proper last, tokens = proper ++ [.endAt last] ∧ last.start = source.utf8ByteSize ∧
    ∀ token ∈ proper, token.kind ≠ .endOfInput ∧ token.span.start < token.span.stop

theorem laidOut_of_scan {source : String} {tokens : List Token} (h : scan source = .ok tokens) :
    LaidOut source tokens := by
  have tiles := Lexer.tiles_of_scan h
  obtain ⟨proper, split, each⟩ := tiles.eq_append_end
  refine ⟨tiles.marks (Place.after_nil _).symm rfl, tiles.pairwise, proper, _, split, ?_, each⟩
  simp [Place.spanTo, Place.offset_after, Place.origin]

theorem marks_of_scan_error {source : String} {fault : Located LexicalFault}
    (h : scan source = .error fault) : ∃ marked, marked ≠ "" ∧ fault.span.Marks source marked :=
  (Lexer.fails_of_scan h).marks (Place.after_nil _).symm rfl

end Ardoise
