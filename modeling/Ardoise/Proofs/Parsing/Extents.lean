import Ardoise.Proofs.Parsing.Parts

/-!
# The extents of expressions

An expression is read from tokens that follow each other, the parentheses around it
included.  Its span need not run over all of them.  A call takes the span of its
callee, and so leaves out its own arguments; an expression that ends in a call, with
no brackets around it, leaves them out as well.  An assignment starts at the name,
and leaves out the parentheses in front of it.  Apart from that, every span starts
with the first token of its expression and ends with the last one.
-/

namespace Ardoise

/-- The tokens that an expression was read from, of which its span shows the middle ones. -/
structure Extent where
  /-- The parentheses in front of a name that is assigned to. -/
  lead : List Token
  shown : List Token
  /-- The arguments of the calls that the expression ends in. -/
  trail : List Token

def Extent.tokens (x : Extent) : List Token :=
  x.lead ++ x.shown ++ x.trail

@[simp] theorem Extent.tokens_mk (lead shown trail : List Token) :
    (Extent.mk lead shown trail).tokens = lead ++ shown ++ trail := rfl

theorem InOrder.shown {x : Extent} (ordered : InOrder x.tokens) : InOrder x.shown :=
  ordered.of_infix ⟨x.lead, x.trail, rfl⟩

/--
The expression is read from the tokens of the extent, and each of its parts from some of
them.  Only the value of an assignment can be an assignment that no brackets enclose, so
no other part has parentheses in front of what its span shows.
-/
inductive Reads : Expr → Extent → Prop
  | literal {token : Token} {value : Literal} (kind : Parser.literal? token.kind = some value) :
      Reads (.literal token.span value) ⟨[], [token], []⟩
  | name {token : Token} {text : String} (kind : token.kind = .identifier text) :
      Reads (.lookup token.span ⟨text, token.span⟩) ⟨[], [token], []⟩
  | parenthesised {e : Expr} {x : Extent} {opening close : Token}
      (opens : opening.kind = .symbol .leftParen) (inner : Reads e x)
      (closes : close.kind = .symbol .rightParen) :
      Reads (e.widen (opening.span.upTo close.span)) ⟨[], opening :: x.tokens ++ [close], []⟩
  | array {elements : List (Expr × Extent)} {opening close : Token} {ts : List Token}
      (opens : opening.kind = .symbol .leftBracket)
      (each : ∀ element ∈ elements, Reads element.1 element.2)
      (joined : Joined (elements.map (·.2.tokens)) ts)
      (closes : close.kind = .symbol .rightBracket) :
      Reads (.array (opening.span.upTo close.span) (elements.map Prod.fst))
        ⟨[], opening :: ts ++ [close], []⟩
  | call {callee : Expr} {shown trail : List Token} {arguments : List (Expr × Extent)}
      {opening close : Token} {ts : List Token} (called : Reads callee ⟨[], shown, trail⟩)
      (opens : opening.kind = .symbol .leftParen)
      (each : ∀ argument ∈ arguments, Reads argument.1 argument.2)
      (joined : Joined (arguments.map (·.2.tokens)) ts)
      (closes : close.kind = .symbol .rightParen) :
      Reads (.call callee.span (opening.span.upTo close.span) callee (arguments.map Prod.fst))
        ⟨[], shown, trail ++ (opening :: ts ++ [close])⟩
  | index {source position : Expr} {shown trail : List Token} {x : Extent}
      {opening close : Token} (indexed : Reads source ⟨[], shown, trail⟩)
      (opens : opening.kind = .symbol .leftBracket) (inner : Reads position x)
      (closes : close.kind = .symbol .rightBracket) :
      Reads (.index (source.span.upTo close.span) source position)
        ⟨[], shown ++ (trail ++ opening :: x.tokens) ++ [close], []⟩
  | unary {operand : Expr} {shown trail : List Token} {token : Token}
      (sign : token.kind.isSign = true) (inner : Reads operand ⟨[], shown, trail⟩) :
      Reads (.unary (token.span.upTo operand.span) token.kind operand) ⟨[], token :: shown, trail⟩
  | operation {level : Level} {op : Operator} {left right : Expr}
      {shown trail shown' trail' : List Token} {token : Token}
      (first : Reads left ⟨[], shown, trail⟩) (sign : level.operator? token.kind = some op)
      (second : Reads right ⟨[], shown', trail'⟩) :
      Reads (op.join token left right) ⟨[], shown ++ (trail ++ [token]) ++ shown', trail'⟩
  | assign {target : Name} {value : Expr} {lead shown trail before after : List Token}
      {token equals : Token} (opens : ∀ t ∈ before, t.kind = .symbol .leftParen)
      (named : target.IsAt [token]) (closes : ∀ t ∈ after, t.kind = .symbol .rightParen)
      (balanced : before.length = after.length) (sign : equals.kind = .symbol .equal)
      (given : Reads value ⟨lead, shown, trail⟩) :
      Reads (.assign (target.span.upTo value.span) target value)
        ⟨before, [token] ++ (after ++ equals :: lead) ++ shown, trail⟩

/-! ## From derivations -/

theorem Reads.exists_name {e : Expr} {x : Extent} (h : Reads e x) {span : Span} {name : Name}
    (same : e = .lookup span name) :
    ∃ before token after, x.tokens = before ++ token :: after ∧ name.IsAt [token] ∧
      before.length = after.length ∧ (∀ t ∈ before, t.kind = .symbol .leftParen) ∧
      ∀ t ∈ after, t.kind = .symbol .rightParen := by
  induction h generalizing span with
  | @name token text kind =>
      cases same
      exact ⟨[], token, [], rfl, ⟨token, rfl, kind, rfl⟩, rfl, by simp, by simp⟩
  | @parenthesised e x opening close opens inner closes ih =>
      cases e with
      | lookup old own =>
          cases same
          obtain ⟨before, token, after, split, named, balanced, opened, closed⟩ := ih rfl
          exact ⟨opening :: before, token, after ++ [close], by simp [split], named,
            by simp [balanced], List.forall_mem_cons.mpr ⟨opens, opened⟩,
            List.forall_mem_append.mpr ⟨closed, List.forall_mem_singleton.mpr closes⟩⟩
      | literal | assign | unary | binary | logical | call | array | index => cases same
  | @operation _ op => cases op <;> cases same
  | literal | array | call | index | unary | assign => cases same

def Rule.Reads (e : Expr) (used : List Token) : Rule → Prop
  | .suffixes left | .operations _ _ left =>
      ∀ shown trail, Ardoise.Reads left ⟨[], shown, trail⟩ →
        ∃ shown' trail', Ardoise.Reads e ⟨[], shown', trail'⟩ ∧
          shown' ++ trail' = shown ++ trail ++ used
  | .operators _ | .operand | .primary =>
      ∃ shown trail, Ardoise.Reads e ⟨[], shown, trail⟩ ∧ shown ++ trail = used
  | .expression | .assignment => ∃ x, Ardoise.Reads e x ∧ x.tokens = used

theorem Reads.exists_items {pieces : List (Expr × List Token)}
    (each : ∀ piece ∈ pieces, ∃ x, Reads piece.1 x ∧ x.tokens = piece.2) :
    ∃ items : List (Expr × Extent), items.map Prod.fst = pieces.map Prod.fst ∧
      items.map (·.2.tokens) = pieces.map Prod.snd ∧ ∀ item ∈ items, Reads item.1 item.2 := by
  induction pieces with
  | nil => exact ⟨[], rfl, rfl, nofun⟩
  | cons piece others ih =>
      obtain ⟨⟨x, reads, tokens⟩, rest⟩ := List.forall_mem_cons.mp each
      obtain ⟨items, trees, stretches, all⟩ := ih rest
      exact ⟨(piece.1, x) :: items, by simp [trees], by simp [stretches, tokens],
        List.forall_mem_cons.mpr ⟨reads, all⟩⟩

theorem Derives.reads {limit n : Nat} {rule : Rule} {e : Expr} {used : List Token}
    (h : Derives limit rule n e used) : rule.Reads e used := by
  induction h with
  | literal kind => exact ⟨_, [], .literal kind, rfl⟩
  | name kind => exact ⟨_, [], .name kind, rfl⟩
  | parenthesised opens inner closes ih =>
      obtain ⟨x, reads, rfl⟩ := ih
      exact ⟨_, [], .parenthesised opens reads closes, by simp⟩
  | array opens each joined closes ih =>
      obtain ⟨items, trees, stretches, all⟩ := Reads.exists_items ih
      rw [← trees]
      exact ⟨_, [], .array opens all (stretches ▸ joined) closes, by simp⟩
  | bare e | done e => exact fun shown trail left => ⟨shown, trail, left, by simp⟩
  | call room opens each joined closes rest ih ih' =>
      intro shown trail left
      obtain ⟨items, trees, stretches, all⟩ := Reads.exists_items ih
      rw [← trees] at ih'
      obtain ⟨shown', trail', reads, split⟩ :=
        ih' _ _ (.call left opens all (stretches ▸ joined) closes)
      exact ⟨shown', trail', reads, by simp [split]⟩
  | index room opens inner closes rest ih ih' =>
      intro shown trail left
      obtain ⟨x, position, rfl⟩ := ih
      obtain ⟨shown', trail', reads, split⟩ := ih' _ _ (.index left opens position closes)
      exact ⟨shown', trail', reads, by simp [split]⟩
  | postfixed primary rest ih ih' =>
      obtain ⟨shown, trail, first, rfl⟩ := ih
      exact ih' shown trail first
  | prefixed room sign operand ih =>
      obtain ⟨shown, trail, inner, rfl⟩ := ih
      exact ⟨_, _, .unary sign inner, by simp⟩
  | plain operand ih => exact ih
  | level operand rest ih ih' =>
      obtain ⟨shown, trail, first, rfl⟩ := ih
      exact ih' shown trail first
  | apply room operator operand rest ih ih' =>
      intro shown trail left
      obtain ⟨shown₂, trail₂, right, rfl⟩ := ih
      obtain ⟨shown', trail', reads, split⟩ :=
        ih' _ _ (.operation left operator right)
      exact ⟨shown', trail', reads, by simp [split]⟩
  | assign room left sign assigned ih ih' =>
      -- the span starts at the name, so the parentheses before it come to lead
      obtain ⟨shown, trail, name, rfl⟩ := ih
      obtain ⟨⟨lead, shown', trail'⟩, value, rfl⟩ := ih'
      obtain ⟨before, token, after, split, named, balanced, opens, closes⟩ := name.exists_name rfl
      refine ⟨_, .assign opens named closes balanced sign value, ?_⟩
      rw [Extent.tokens_mk, List.nil_append] at split
      simp [split]
  | unassigned operators ih =>
      obtain ⟨shown, trail, reads, rfl⟩ := ih
      exact ⟨_, reads, rfl⟩
  | nested room inner ih => exact ih

/-! ## The parts of an expression -/

theorem Reads.exists_part_of_joined {items : List (Expr × Extent)} {ts us : List Token}
    (each : ∀ item ∈ items, Reads item.1 item.2) (joined : Joined (items.map (·.2.tokens)) ts)
    (inside : ts <:+: us) :
    ∀ part ∈ items.map Prod.fst, ∃ y, Reads part y ∧ y.tokens <:+: us := by
  refine List.forall_mem_map.mpr fun item member => ⟨item.2, each item member, ?_⟩
  have piece := joined.infix _ (List.mem_map_of_mem member)
  exact piece.trans inside

private theorem Reads.exists_part {e : Expr} {x : Extent} (h : Reads e x) :
    ∀ part ∈ e.parts, ∃ y, Reads part y ∧ y.tokens <:+: x.tokens := by
  induction h with
  | literal | name => exact nofun
  | @parenthesised e x opening close opens inner closes ih =>
      rw [Expr.parts_widen]
      intro part member
      obtain ⟨y, reads, within⟩ := ih part member
      exact ⟨y, reads, within.trans ⟨[opening], [close], by simp⟩⟩
  | @array elements opening close ts opens each joined closes ih =>
      exact exists_part_of_joined each joined ⟨[opening], [close], by simp⟩
  | @call callee shown trail arguments opening close ts called opens each joined closes ih ih' =>
      refine List.forall_mem_cons.mpr ⟨⟨_, called, ⟨[], opening :: ts ++ [close], by simp⟩⟩, ?_⟩
      exact exists_part_of_joined each joined ⟨shown ++ trail ++ [opening], [close], by simp⟩
  | @index source position shown trail x opening close indexed opens inner closes =>
      refine List.forall_mem_cons.mpr
        ⟨⟨_, indexed, ⟨[], opening :: x.tokens ++ [close], by simp⟩⟩, ?_⟩
      exact List.forall_mem_singleton.mpr
        ⟨x, inner, ⟨shown ++ trail ++ [opening], [close], by simp⟩⟩
  | @unary operand shown trail token sign inner =>
      exact List.forall_mem_singleton.mpr ⟨_, inner, ⟨[token], [], by simp⟩⟩
  | @operation level op left right shown trail shown' trail' token first sign second =>
      rw [Operator.parts_join]
      refine List.forall_mem_cons.mpr
        ⟨⟨_, first, ⟨[], token :: shown' ++ trail', by simp⟩⟩, ?_⟩
      exact List.forall_mem_singleton.mpr ⟨_, second, ⟨shown ++ trail ++ [token], [], by simp⟩⟩
  | @assign target value lead shown trail before after token equals opens named closes balanced
      sign given =>
      exact List.forall_mem_singleton.mpr
        ⟨_, given, ⟨before ++ token :: after ++ [equals], [], by simp⟩⟩

theorem Reads.everywhere {e : Expr} {x : Extent} (h : Reads e x) :
    e.Everywhere fun node => ∃ y, Reads node y ∧ y.tokens <:+: x.tokens := by
  intro node path
  induction path with
  | refl => exact ⟨x, h, List.infix_rfl⟩
  | tail _ member ih =>
      obtain ⟨y, reads, within⟩ := ih
      obtain ⟨z, reads', within'⟩ := reads.exists_part _ member
      exact ⟨z, reads', within'.trans within⟩

/-! ## What the span shows -/

def Span.StartsWith (span : Span) (ts : List Token) : Prop :=
  ∃ first, ts.head? = some first ∧ span.start = first.span.start ∧ span.line = first.span.line

theorem Reads.startsWith {e : Expr} {x : Extent} (h : Reads e x) : e.span.StartsWith x.shown := by
  induction h with
  | @literal token | @name token => exact ⟨token, rfl, rfl, rfl⟩
  | @parenthesised _ _ opening =>
      rw [Expr.span_widen]
      exact ⟨opening, rfl, rfl, rfl⟩
  | @array _ opening => exact ⟨opening, rfl, rfl, rfl⟩
  | call _ _ _ _ _ ih => exact ih
  | index _ _ _ _ ih =>
      obtain ⟨first, starts, start, line⟩ := ih
      exact ⟨first, by simp [starts], start, line⟩
  | @unary _ _ _ token => exact ⟨token, rfl, rfl, rfl⟩
  | @operation _ op _ _ _ _ _ _ _ _ _ _ ih =>
      obtain ⟨first, starts, start, line⟩ := ih
      refine ⟨first, by simp [starts], ?_, ?_⟩ <;> cases op <;> assumption
  | @assign _ _ _ _ _ _ _ token _ _ named =>
      obtain ⟨_, ⟨⟩, _, place⟩ := named
      refine ⟨token, rfl, ?_, ?_⟩ <;> rw [← place] <;> rfl

theorem Reads.covers {e : Expr} {x : Extent} (h : Reads e x) (ordered : InOrder x.tokens) :
    e.span.Covers x.shown := by
  induction h with
  | literal | name => exact Span.covers_token _
  | @parenthesised e x opening close =>
      rw [Expr.span_widen]
      exact (Span.covers_token opening).upTo (Span.covers_token close) ordered.shown
  | @array _ opening close =>
      exact (Span.covers_token opening).upTo (Span.covers_token close) ordered.shown
  | @call _ _ _ _ opening close ts _ _ _ _ _ ih =>
      exact ih (ordered.of_infix ⟨[], opening :: ts ++ [close], by simp⟩)
  | @index _ _ shown trail x opening close _ _ _ _ ih =>
      have source := ih (ordered.of_infix ⟨[], opening :: x.tokens ++ [close], by simp⟩)
      exact source.upTo (Span.covers_token close) ordered.shown
  | @unary _ shown trail token _ _ ih =>
      have operand := ih (ordered.of_infix ⟨[token], [], by simp⟩)
      exact @Span.Covers.upTo _ _ [token] shown (Span.covers_token token) operand []
        ordered.shown
  | @operation _ op _ _ shown trail shown' trail' token _ _ _ ih ih' =>
      -- arguments that the left operand leaves out stand between the two ends all the same
      have left := ih (ordered.of_infix ⟨[], token :: shown' ++ trail', by simp⟩)
      have right := ih' (ordered.of_infix ⟨shown ++ trail ++ [token], [], by simp⟩)
      cases op <;> exact left.upTo right ordered.shown
  | @assign _ _ lead shown trail before after token equals _ named _ _ _ _ ih =>
      have value := ih (ordered.of_infix ⟨before ++ token :: after ++ [equals], [], by simp⟩)
      obtain ⟨_, ⟨⟩, _, place⟩ := named
      have name : Span.Covers _ [token] := place ▸ Span.covers_token token
      exact name.upTo value ordered.shown

/-! ## What the span leaves out -/

theorem Reads.lead {e : Expr} {x : Extent} (h : Reads e x) :
    x.lead = [] ∨ (∃ span target value, e = .assign span target value) ∧
      ∀ token ∈ x.lead, token.kind = .symbol .leftParen := by
  cases h with
  | assign opens => exact .inr ⟨⟨_, _, _, rfl⟩, opens⟩
  | literal | name | parenthesised | array | call | index | unary | operation => exact .inl rfl

def Bracketed (ts : List Token) : Prop :=
  ∃ opening inner close, ts = opening :: inner ++ [close] ∧
    opening.kind = .symbol .leftParen ∧ close.kind = .symbol .rightParen

theorem Bracketed.append {ts us : List Token} (h : Bracketed ts) (h' : Bracketed us) :
    Bracketed (ts ++ us) := by
  obtain ⟨opening, inner, close, rfl, opens, _⟩ := h
  obtain ⟨opening', inner', close', rfl, _, closes⟩ := h'
  exact ⟨opening, inner ++ close :: opening' :: inner', close', by simp, opens, closes⟩

theorem Reads.trail {e : Expr} {x : Extent} (h : Reads e x) :
    x.trail = [] ∨ Bracketed x.trail := by
  induction h with
  | literal | name | parenthesised | array | index => exact .inl rfl
  | @call _ _ trail _ opening close ts _ opens _ _ closes ih =>
      have own : Bracketed (opening :: ts ++ [close]) := ⟨opening, ts, close, rfl, opens, closes⟩
      rcases ih with nothing | before
      · dsimp only at nothing
        rw [nothing]
        exact .inr own
      · exact .inr (before.append own)
  | unary _ _ ih => exact ih
  | operation _ _ _ _ ih => exact ih
  | assign _ _ _ _ _ _ ih => exact ih

def Expr.isClosed : Expr → Bool
  | .literal _ _ | .lookup _ _ | .array _ _ | .index _ _ _ => true
  | .assign _ _ _ | .unary _ _ _ | .binary _ _ _ _ | .logical _ _ _ _ _ | .call _ _ _ _ => false

private theorem Reads.trail_of_isClosed {e : Expr} {x : Extent} (h : Reads e x)
    (closed : e.isClosed = true) : x.trail = [] := by
  cases h with
  | literal | name | parenthesised | array | index => rfl
  | @operation _ op => cases op <;> cases closed
  | call | unary | assign => cases closed

/-- Neither the parenthesis at its start nor those at its end are in the span of the assignment. -/
theorem assignment_shows_less_than_read :
    let opening : Token := ⟨.symbol .leftParen, "(", ⟨0, 1, 1⟩⟩
    let name : Token := ⟨.identifier "x", "x", ⟨1, 2, 1⟩⟩
    let close : Token := ⟨.symbol .rightParen, ")", ⟨2, 3, 1⟩⟩
    let equals : Token := ⟨.symbol .equal, "=", ⟨3, 4, 1⟩⟩
    let callee : Token := ⟨.identifier "f", "f", ⟨4, 5, 1⟩⟩
    let opening' : Token := ⟨.symbol .leftParen, "(", ⟨5, 6, 1⟩⟩
    let close' : Token := ⟨.symbol .rightParen, ")", ⟨6, 7, 1⟩⟩
    let tokens := [opening, name, close, equals, callee, opening', close']
    let e : Expr := .assign ⟨1, 5, 1⟩ ⟨"x", ⟨1, 2, 1⟩⟩
      (.call ⟨4, 5, 1⟩ ⟨5, 7, 1⟩ (.lookup ⟨4, 5, 1⟩ ⟨"f", ⟨4, 5, 1⟩⟩) [])
    (scan "(x)=f()").toOption = some (tokens ++ [⟨.endOfInput, "", ⟨7, 7, 1⟩⟩]) ∧
      parse 256 (tokens ++ [⟨.endOfInput, "", ⟨7, 7, 1⟩⟩]) = .ok [.expression e] ∧
      ∃ x, Reads e x ∧ x.tokens = tokens ∧ ¬ e.span.Covers x.tokens := by
  intro opening name close equals callee opening' close' tokens e
  have function : Reads (.lookup callee.span ⟨"f", callee.span⟩) ⟨[], [callee], []⟩ := .name rfl
  have value := @Reads.call _ _ _ [] opening' close' [] function rfl nofun .none rfl
  have whole := @Reads.assign ⟨"x", name.span⟩ _ [] [callee] _ [opening] [close] name equals
    (by simp [opening]) ⟨name, rfl, rfl, rfl⟩ (by simp [close]) rfl rfl value
  refine ⟨by decide +kernel, by cbv, _, whole, rfl, ?_⟩
  rintro ⟨first, last, starts, _, same⟩
  cases starts
  cases same

/-! ## Programs -/

private theorem Stmt.ReadFrom.exists_extent {limit : Nat} {tokens : List Token} {s : Stmt}
    (h : s.ReadFrom limit tokens) {e : Expr} (own : e ∈ s.expressions) :
    ∃ x, Reads e x ∧ x.tokens <:+: tokens := by
  obtain ⟨n, us, inside, derived | derived⟩ := h.derives own
  · obtain ⟨x, reads, rfl⟩ := derived.reads
    exact ⟨x, reads, inside⟩
  · obtain ⟨shown, trail, reads, rfl⟩ := derived.reads
    exact ⟨_, reads, inside⟩

/-- What the span of an expression shows of the tokens it was read from, and what it leaves out. -/
structure Expr.ShownBy (tokens : List Token) (e : Expr) (x : Extent) : Prop where
  reads : Reads e x
  inside : x.tokens <:+: tokens
  lead : x.lead = [] ∨ (∃ span target value, e = .assign span target value) ∧
    ∀ token ∈ x.lead, token.kind = .symbol .leftParen
  trail : x.trail = [] ∨ Bracketed x.trail
  closed : e.isClosed = true → x.trail = []
  starts : e.span.StartsWith x.shown
  covers : InOrder tokens → e.span.Covers x.shown

/--
Every expression of a program, at any depth, has a span that starts with the first token
it was read from, and that ends with the last one if the tokens are in order; but the
parentheses around a name that is assigned to are left out in front, and the arguments
of calls that an expression ends in are left out behind.
-/
theorem extents_of_parse {limit : Nat} {tokens : List Token} {program : Program}
    (parsed : parse limit tokens = .ok program) {s : Stmt} (part : s.PartOf program) {e : Expr}
    (own : e ∈ s.expressions) : e.Everywhere fun node => ∃ x, node.ShownBy tokens x := by
  obtain ⟨used, rest, rfl, _, reads⟩ := readFrom_of_parse parsed
  obtain ⟨x, whole, inside⟩ := (reads s part).exists_extent own
  intro node path
  obtain ⟨y, reads, within⟩ := whole.everywhere node path
  have inside : y.tokens <:+: used ++ rest :=
    (within.trans inside).trans (List.prefix_append used rest).isInfix
  exact ⟨y, reads, inside, reads.lead, reads.trail, reads.trail_of_isClosed, reads.startsWith,
    fun ordered => reads.covers (ordered.of_infix inside)⟩

/-- The sum ends with the callee, as its right operand does. -/
theorem extents_of_parse_call_last :
    let tokens : List Token := [⟨.identifier "a", "a", ⟨0, 1, 1⟩⟩, ⟨.symbol .plus, "+", ⟨1, 2, 1⟩⟩,
      ⟨.identifier "f", "f", ⟨2, 3, 1⟩⟩, ⟨.symbol .leftParen, "(", ⟨3, 4, 1⟩⟩,
      ⟨.symbol .rightParen, ")", ⟨4, 5, 1⟩⟩, ⟨.endOfInput, "", ⟨5, 5, 1⟩⟩]
    let sum : Expr := .binary ⟨0, 3, 1⟩ (.symbol .plus) (.lookup ⟨0, 1, 1⟩ ⟨"a", ⟨0, 1, 1⟩⟩)
      (.call ⟨2, 3, 1⟩ ⟨3, 5, 1⟩ (.lookup ⟨2, 3, 1⟩ ⟨"f", ⟨2, 3, 1⟩⟩) [])
    (scan "a+f()").toOption = some tokens ∧ parse 256 tokens = .ok [.expression sum] ∧
      InOrder tokens ∧ ∃ x, sum.ShownBy tokens x ∧ (Span.mk 0 3 1).Covers x.shown := by
  intro tokens sum
  have parsed : parse 256 tokens = .ok [.expression sum] := by cbv
  have ordered : InOrder tokens := ⟨by decide, by decide⟩
  have member : Stmt.expression sum ∈ [Stmt.expression sum] := List.mem_singleton_self _
  obtain ⟨x, shown⟩ := extents_of_parse parsed (Stmt.partOf_of_mem member)
    (List.mem_singleton_self sum) sum .refl
  exact ⟨by decide +kernel, parsed, ordered, x, shown, shown.covers ordered⟩

end Ardoise
