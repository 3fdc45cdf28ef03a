import Ardoise.Proofs.Parsing.Allowance
import Mathlib.Logic.ExistsUnique

/-!
# What a fault depends on

The parser looks at no token before it has taken all that stand in front of it.
What it does up to a token is therefore the same whatever follows this token, and so
is the fault when the token is refused.  A target that cannot be assigned to is only
refused after the value has been read, and is left out here.
-/

namespace Ardoise

def Token.refusal (token : Token) (expected : Expected) : Located GrammarFault :=
  ⟨token.span, .ofLexeme token.lexeme expected⟩

namespace Parser

variable {α : Type} {ahead : Prop}

/-! ## The token that is refused -/

/-- What is refused is the next token, unless there is nothing to assign to. -/
def BlamesNext (s : Setting) : Reply α → Prop
  | .refused fault stopped => fault.fault.expected ≠ .assignmentTarget →
      fault = (stopped.tokens.headD s.final).refusal fault.fault.expected
  | _ => True

theorem BlamesNext.lower {s : Setting} {reply : Reply α} (h : BlamesNext s reply) :
    BlamesNext s (lower reply) := by
  cases reply with
  | refused => exact h
  | parsed | exhausted => trivial

theorem blamesNext_refuse (expected : Expected) (s : Setting) (c : Cursor) :
    BlamesNext s (refuse expected s c : Reply α) := by
  intro _
  change Token.refusal _ expected = Token.refusal _ (GrammarFault.ofLexeme _ expected).expected
  rw [GrammarFault.ofLexeme_expected]

theorem Prolonged.blamesNext {p q : Parser α} (h : Prolonged ahead p q) (s : Setting) (c : Cursor) :
    BlamesNext s (p s c) := by
  induction h generalizing c with
  | exhausted | pure => trivial
  | refuse expected => exact blamesNext_refuse expected s c
  | refuseTarget token => exact fun other => absurd (GrammarFault.ofLexeme_expected _ _) other
  | advance =>
      obtain ⟨tokens, n⟩ := c
      cases tokens <;> trivial
  | peek _ ih => exact ih _ c
  | deepen _ ih =>
      rcases Nat.lt_or_ge c.nesting s.limit with room | full
      · rw [deepen_bind_of_lt room]
        exact ih _
      · rw [deepen_bind_of_le full]
        exact blamesNext_refuse _ s _
  | @bind _ _ _ p q f g _ _ ih ih' =>
      have first := ih c
      change BlamesNext s (Parser.bind p f s c)
      unfold Parser.bind
      generalize p s c = reply at first
      cases reply with
      | parsed a next => exact ih' a next
      | refused => exact first
      | exhausted => trivial
  | @nested _ _ p q _ ih =>
      rcases Nat.lt_or_ge c.nesting s.limit with room | full
      · rw [nested_of_lt p room]
        exact (ih _).lower
      · rw [nested_of_le p full]
        exact blamesNext_refuse _ s _
  | @balanced _ _ p q _ ih =>
      have inner := ih c
      unfold Parser.balanced
      generalize p s c = reply at inner
      cases reply with
      | refused => exact inner
      | parsed | exhausted => trivial

/-! ## Two texts with a common beginning -/

section Common

variable (token : Token) (rest rest' : List Token)

def Shares (c c' : Cursor) : Prop :=
  c.nesting = c'.nesting ∧
    ∃ before, c.tokens = before ++ token :: rest ∧ c'.tokens = before ++ token :: rest'

def Past (n : Nat) : Reply α → Prop
  | .parsed _ next => next.tokens.length ≤ n
  | .refused _ stopped => stopped.tokens.length ≤ n
  | .exhausted => True

/-- Two replies are the same, unless the first one is given after taking `token`. -/
inductive SameUpTo : Reply α → Reply α → Prop
  | parsed (a : α) {c c' : Cursor} (h : Shares token rest rest' c c') :
      SameUpTo (.parsed a c) (.parsed a c')
  | refused (fault : Located GrammarFault) {c c' : Cursor} (h : Shares token rest rest' c c') :
      SameUpTo (.refused fault c) (.refused fault c')
  | past {reply : Reply α} (reply' : Reply α) (h : Past rest.length reply) : SameUpTo reply reply'

end Common

variable {token : Token} {rest rest' : List Token}

theorem Past.lower {n : Nat} {reply : Reply α} (h : Past n reply) : Past n (lower reply) := by
  cases reply <;> exact h

theorem LeavesEnd.past {c : Cursor} {n : Nat} {reply : Reply α} (h : LeavesEnd c reply)
    (behind : c.tokens.length ≤ n) : Past n reply := by
  cases reply with
  | parsed => exact Nat.le_trans (Takes.length h) behind
  | refused => exact Nat.le_trans (Takes.length h) behind
  | exhausted => trivial

theorem Shares.headD {c c' : Cursor} (h : Shares token rest rest' c c') (final final' : Token) :
    c.tokens.headD final = c'.tokens.headD final' := by
  obtain ⟨_, before, tokens, tokens'⟩ := h
  rw [tokens, tokens']
  cases before <;> rfl

theorem Shares.deeper {c c' : Cursor} (h : Shares token rest rest' c c') :
    Shares token rest rest' { c with nesting := c.nesting + 1 }
      { c' with nesting := c'.nesting + 1 } :=
  ⟨congrArg (· + 1) h.1, h.2⟩

theorem Shares.refuse {c c' : Cursor} (h : Shares token rest rest' c c') (expected : Expected)
    (s s' : Setting) :
    SameUpTo token rest rest' (refuse expected s c : Reply α) (refuse expected s' c') := by
  change SameUpTo _ _ _ (.refused ((c.tokens.headD s.final).refusal expected) c)
    (.refused ((c'.tokens.headD s'.final).refusal expected) c')
  rw [h.headD s.final s'.final]
  exact .refused _ h

theorem Shares.advance {c c' : Cursor} (h : Shares token rest rest' c c') (s s' : Setting) :
    SameUpTo token rest rest' (advance s c) (advance s' c') := by
  obtain ⟨tokens, n⟩ := c
  obtain ⟨tokens', n'⟩ := c'
  obtain ⟨levels, before, split, split'⟩ := h
  dsimp only at levels split split'
  subst levels split split'
  cases before with
  | nil => exact .past _ (Nat.le_refl rest.length)
  | cons first before => exact .parsed first ⟨rfl, before, rfl, rfl⟩

theorem SameUpTo.lower {reply reply' : Reply α} (h : SameUpTo token rest rest' reply reply') :
    SameUpTo token rest rest' (lower reply) (lower reply') := by
  cases h with
  | parsed a shares => exact .parsed a ⟨congrArg (· - 1) shares.1, shares.2⟩
  | refused fault shares => exact .refused fault ⟨congrArg (· - 1) shares.1, shares.2⟩
  | past _ behind => exact .past _ behind.lower

/-- What a parser does up to a token is the same whatever follows it. -/
theorem Prolonged.sameUpTo {p q : Parser α} (h : Prolonged ahead p q) {s s' : Setting}
    (limit : s.limit = s'.limit) {c c' : Cursor} (shares : Shares token rest rest' c c') :
    SameUpTo token rest rest' (p s c) (p s' c') := by
  induction h generalizing c c' with
  | exhausted => exact .past _ trivial
  | pure a => exact .parsed a shares
  | refuse expected => exact shares.refuse expected s s'
  | refuseTarget equals => exact .refused _ shares
  | advance => exact shares.advance s s'
  | @peek _ _ f g _ ih =>
      change SameUpTo _ _ _ (f (c.tokens.headD s.final) s c) (f (c'.tokens.headD s'.final) s' c')
      rw [shares.headD s.final s'.final]
      exact ih _ shares
  | deepen _ ih =>
      rcases Nat.lt_or_ge c.nesting s.limit with room | full
      · have room' : c'.nesting < s'.limit := by rwa [← shares.1, ← limit]
        rw [deepen_bind_of_lt room, deepen_bind_of_lt room']
        exact ih shares.deeper
      · have full' : s'.limit ≤ c'.nesting := by rwa [← shares.1, ← limit]
        rw [deepen_bind_of_le full, deepen_bind_of_le full', limit]
        exact shares.deeper.refuse _ s s'
  | @bind _ _ _ p q f g _ second ih ih' =>
      change SameUpTo _ _ _ (Parser.bind p f s c) (Parser.bind p f s' c')
      unfold Parser.bind
      have first := ih shares
      generalize p s c = reply at first
      generalize p s' c' = reply' at first
      cases first with
      | parsed a after => exact ih' a after
      | refused fault after => exact .refused fault after
      | past _ behind =>
          -- Nothing is known of the second text here, and nothing need be.
          cases reply with
          | parsed a next => exact .past _ (((second a).leavesEnd False.elim).past behind)
          | refused => exact .past _ behind
          | exhausted => exact .past _ trivial
  | @nested _ _ p q _ ih =>
      rcases Nat.lt_or_ge c.nesting s.limit with room | full
      · have room' : c'.nesting < s'.limit := by rwa [← shares.1, ← limit]
        rw [nested_of_lt p room, nested_of_lt p room']
        exact (ih shares.deeper).lower
      · have full' : s'.limit ≤ c'.nesting := by rwa [← shares.1, ← limit]
        rw [nested_of_le p full, nested_of_le p full', limit]
        exact shares.deeper.refuse _ s s'
  | @balanced _ _ p q _ ih =>
      have inner := ih shares
      unfold Parser.balanced
      generalize p s c = reply at inner
      generalize p s' c' = reply' at inner
      cases inner with
      | parsed a after => exact .parsed a ⟨shares.1, after.2⟩
      | refused fault after => exact .refused fault after
      | past _ behind =>
          refine .past _ ?_
          cases reply <;> exact behind

end Parser

/-! ## Faults of a text -/

def RaisedAt (limit : Nat) (tokens : List Token) (fault : Located GrammarFault) (k : Nat) : Prop :=
  k ≤ tokens.length ∧
    ∃ stopped, parseReply limit tokens = .refused fault stopped ∧ stopped.tokens = tokens.drop k

private theorem parseReply_sameUpTo (limit : Nat) {tokens tokens' before rest rest' : List Token}
    {token : Token} (split : tokens = before ++ token :: rest)
    (split' : tokens' = before ++ token :: rest') :
    Parser.SameUpTo token rest rest' (parseReply limit tokens) (parseReply limit tokens') := by
  -- The two runs start with different allowances, so both are given one large enough.
  have room : tokens.length < tokens.length + tokens'.length + 1 := by omega
  have room' : tokens'.length < tokens.length + tokens'.length + 1 := by omega
  have shares : Parser.Shares token rest rest' ⟨tokens, 0⟩ ⟨tokens', 0⟩ :=
    ⟨rfl, before, split, split'⟩
  rw [← program_eq_parseReply limit room, ← program_eq_parseReply limit room']
  refine (Parser.prolonged_program (Nat.le_refl _)).sameUpTo ?_ shares
  rfl

namespace RaisedAt

variable {limit : Nat} {tokens tokens' : List Token} {fault : Located GrammarFault} {k k' : Nat}

theorem parse_eq (h : RaisedAt limit tokens fault k) : parse limit tokens = .error fault := by
  obtain ⟨_, stopped, refused, _⟩ := h
  exact (Reply.result_eq_error _).mpr ⟨stopped, refused⟩

theorem unique (h : RaisedAt limit tokens fault k) (h' : RaisedAt limit tokens fault k') :
    k = k' := by
  obtain ⟨within, stopped, refused, left⟩ := h
  obtain ⟨within', stopped', refused', left'⟩ := h'
  rw [refused] at refused'
  cases refused'
  have lengths := congrArg List.length (left.symm.trans left')
  rw [List.length_drop, List.length_drop] at lengths
  omega

theorem proper (h : RaisedAt limit tokens fault k) :
    ∀ token ∈ tokens.take k, token.kind ≠ .endOfInput := by
  obtain ⟨within, stopped, refused, left⟩ := h
  have leaves := leavesEnd_parseReply limit tokens
  rw [refused] at leaves
  obtain ⟨used, split, -, proper⟩ := leaves
  have same : tokens.take k = used := by
    have whole : tokens.take k ++ tokens.drop k = used ++ stopped.tokens := by
      rw [List.take_append_drop]
      exact split
    rw [left] at whole
    exact List.append_cancel_right whole
  rwa [same]

theorem blames {token : Token} (h : RaisedAt limit tokens fault k) (here : tokens[k]? = some token)
    (other : fault.fault.expected ≠ .assignmentTarget) :
    fault = token.refusal fault.fault.expected := by
  obtain ⟨within, stopped, refused, left⟩ := h
  have blamed : Parser.BlamesNext ⟨limit, Parser.finalToken tokens⟩ (parseReply limit tokens) :=
    (Parser.prolonged_program (Nat.le_refl _)).blamesNext _ _
  rw [refused] at blamed
  have next := blamed other
  rwa [left, List.headD_eq_head?_getD, List.head?_drop, here] at next

/-- A fault is the same in every text that is the same up to the token in front of it. -/
theorem of_take_eq (h : RaisedAt limit tokens fault k) (inside : k < tokens.length)
    (same : tokens'.take (k + 1) = tokens.take (k + 1)) : RaisedAt limit tokens' fault k := by
  obtain ⟨_, stopped, refused, left⟩ := h
  have split : tokens = tokens.take k ++ tokens[k] :: tokens.drop (k + 1) := by
    rw [← List.drop_eq_getElem_cons inside, List.take_append_drop]
  have split' : tokens' = tokens.take k ++ tokens[k] :: tokens'.drop (k + 1) := by
    rw [List.append_cons, List.take_append_getElem, ← same, List.take_append_drop]
  have agree := parseReply_sameUpTo limit split split'
  rw [refused] at agree
  generalize replied : parseReply limit tokens' = reply' at agree
  cases agree with
  | @refused _ _ stopped' shares =>
      obtain ⟨_, before, here, there⟩ := shares
      rw [left, List.drop_eq_getElem_cons inside, List.self_eq_append_left] at here
      have size : (tokens.take k).length = k := List.length_take_of_le (Nat.le_of_lt inside)
      refine ⟨?_, stopped', replied, ?_⟩
      · rw [split', List.length_append, size]
        exact Nat.le_add_right k _
      · calc stopped'.tokens
          _ = tokens[k] :: tokens'.drop (k + 1) := by rw [there, here, List.nil_append]
          _ = (tokens.take k ++ tokens[k] :: tokens'.drop (k + 1)).drop k :=
            (List.drop_left' size).symm
          _ = tokens'.drop k := congrArg (List.drop k) split'.symm
  | past _ behind =>
      have short : stopped.tokens.length ≤ (tokens.drop (k + 1)).length := behind
      rw [left, List.length_drop, List.length_drop] at short
      omega

end RaisedAt

private theorem exists_raisedAt {limit : Nat} {tokens : List Token} {fault : Located GrammarFault}
    (fails : parse limit tokens = .error fault) : ∃ k, RaisedAt limit tokens fault k := by
  obtain ⟨stopped, refused⟩ := (Reply.result_eq_error _).mp fails
  have leaves := leavesEnd_parseReply limit tokens
  rw [refused] at leaves
  obtain ⟨used, split, -, -⟩ := leaves
  dsimp only at split
  refine ⟨used.length, ?_, stopped, refused, ?_⟩
  · rw [split, List.length_append]
    exact Nat.le_add_right _ _
  · rw [split, List.drop_left]

/--
A fault is settled by the tokens up to the one that is refused.  Parsing stops in front
of one token, or behind the last; it has taken those before it, none of which is the
end of the text.  The fault is that of this token, unless there is nothing to assign to,
and every other text that starts with the same tokens, this one included, has it too.
-/
theorem parse_error_settled {limit : Nat} {tokens : List Token} {fault : Located GrammarFault}
    (fails : parse limit tokens = .error fault) :
    (∃! k, RaisedAt limit tokens fault k) ∧
    ∀ k, RaisedAt limit tokens fault k →
      (∀ token ∈ tokens.take k, token.kind ≠ .endOfInput) ∧
      ∀ token, tokens[k]? = some token →
        (fault.fault.expected ≠ .assignmentTarget →
          fault = token.refusal fault.fault.expected) ∧
        ∀ tokens' : List Token, tokens'.take (k + 1) = tokens.take (k + 1) →
          RaisedAt limit tokens' fault k ∧ parse limit tokens' = .error fault := by
  obtain ⟨k, raised⟩ := exists_raisedAt fails
  refine ⟨⟨k, raised, fun k' raised' => raised'.unique raised⟩, fun k raised => ?_⟩
  refine ⟨raised.proper, fun token here => ⟨raised.blames here, fun tokens' same => ?_⟩⟩
  have inside : k < tokens.length := (List.getElem?_eq_some_iff.mp here).1
  have raised' := raised.of_take_eq inside same
  exact ⟨raised', raised'.parse_eq⟩

/-- Two arguments without a comma are refused, whether the call is closed or the text ends. -/
theorem parse_error_settled_in_call :
    ∃ (before : List Token) (token : Token),
      parse 9 (before ++ [token]) = .error (token.refusal .argumentsEnd) ∧
      RaisedAt 9 (before ++ [token]) (token.refusal .argumentsEnd) before.length ∧
      ∀ after, parse 9 (before ++ token :: after) = .error (token.refusal .argumentsEnd) := by
  let name : Token := ⟨.identifier "f", "f", ⟨0, 1, 1⟩⟩
  let opening : Token := ⟨.symbol .leftParen, "(", ⟨1, 2, 1⟩⟩
  let first : Token := ⟨.keyword .vrai, "vrai", ⟨2, 6, 1⟩⟩
  let second : Token := ⟨.keyword .faux, "faux", ⟨7, 11, 1⟩⟩
  have raised : RaisedAt 9 [name, opening, first, second] (second.refusal .argumentsEnd) 3 :=
    ⟨by decide, _, rfl, rfl⟩
  obtain ⟨_, settled⟩ := parse_error_settled raised.parse_eq
  refine ⟨[name, opening, first], second, raised.parse_eq, raised, fun after => ?_⟩
  exact (((settled 3 raised).2 second rfl).2 _ rfl).2

end Ardoise
