import Ardoise.Proofs.Parsing.Tracking
import Ardoise.Proofs.Regime

/-!
# Spans of trees

The spans in a program that was parsed run over stretches of its tokens: each
starts where a token starts, and ends where that token or a later one ends.  They
need not cover all the tokens of their node.  The span of a call is that of its
callee, and an assignment starts at the name, even if that is in parentheses.
-/

namespace Ardoise

/-! ## Stretches of tokens -/

structure InOrder (tokens : List Token) : Prop where
  pairwise : tokens.Pairwise fun a b => a.span.stop ≤ b.span.start
  proper : ∀ token ∈ tokens, token.span.start ≤ token.span.stop

theorem InOrder.of_infix {ts us : List Token} (h : InOrder us) (inside : ts <:+: us) :
    InOrder ts where
  pairwise := h.pairwise.sublist inside.sublist
  proper token member := h.proper token (inside.subset member)

namespace Span

def Covers (span : Span) (ts : List Token) : Prop :=
  ∃ first last, ts.head? = some first ∧ ts.getLast? = some last ∧
    span = ⟨first.span.start, last.span.stop, first.span.line⟩

def Within (span : Span) (ts : List Token) : Prop :=
  ∃ part, part <:+: ts ∧ span.Covers part

variable {span span' : Span} {ts us : List Token}

theorem covers_token (token : Token) : token.span.Covers [token] :=
  ⟨token, token, rfl, rfl, rfl⟩

theorem within_token {token : Token} (member : token ∈ ts) : token.span.Within ts := by
  obtain ⟨before, after, rfl⟩ := List.append_of_mem member
  exact ⟨[token], ⟨before, after, by simp⟩, covers_token token⟩

theorem Within.mono (h : span.Within ts) (inside : ts <:+: us) : span.Within us := by
  obtain ⟨part, within, covers⟩ := h
  exact ⟨part, within.trans inside, covers⟩

theorem Covers.upTo (h : span.Covers ts) (h' : span'.Covers us) {between : List Token}
    (ordered : InOrder (ts ++ between ++ us)) :
    (span.upTo span').Covers (ts ++ between ++ us) := by
  obtain ⟨first, _, starts, _, rfl⟩ := h
  obtain ⟨_, last, _, ends, rfl⟩ := h'
  have here : first ∈ ts ++ between := List.mem_append_left _ (List.mem_of_head? starts)
  have there : last ∈ us := List.mem_of_getLast? ends
  have apart := (List.pairwise_append.mp ordered.pairwise).2.2 first here last there
  have proper := ordered.proper first (List.mem_append_left _ here)
  have proper' := ordered.proper last (List.mem_append_right _ there)
  refine ⟨first, last, by simp [starts], by simp [ends], ?_⟩
  simp only [Span.upTo, Span.mk.injEq, true_and, and_true]
  omega

theorem Within.upTo (h : span.Within ts) (h' : span'.Within us) {between : List Token}
    (ordered : InOrder (ts ++ between ++ us)) :
    (span.upTo span').Within (ts ++ between ++ us) := by
  obtain ⟨part, ⟨before, after, rfl⟩, covers⟩ := h
  obtain ⟨part', ⟨before', after', rfl⟩, covers'⟩ := h'
  have inside : part ++ (after ++ between ++ before') ++ part' <:+:
      before ++ part ++ after ++ between ++ (before' ++ part' ++ after') :=
    ⟨before, after', by simp⟩
  exact ⟨_, inside, covers.upTo covers' (ordered.of_infix inside)⟩

theorem within_enclosed {opening close : Token} (ordered : InOrder (opening :: ts ++ [close])) :
    (opening.span.upTo close.span).Within (opening :: ts ++ [close]) :=
  ⟨_, List.infix_rfl, (covers_token opening).upTo (covers_token close) ordered⟩

end Span

theorem Joined.infix {pieces : List (List Token)} {ts : List Token} (h : Joined pieces ts) :
    ∀ piece ∈ pieces, piece <:+: ts := by
  induction h with
  | none => simp
  | one ts => simp
  | @more ts us others comma separator joined ih =>
      refine List.forall_mem_cons.mpr ⟨⟨[], comma :: us, by simp⟩, fun piece member => ?_⟩
      exact (ih piece member).trans ⟨ts ++ [comma], [], by simp⟩

/-! ## Expressions -/

def Regime.stretches (tokens : List Token) : Regime where
  allows span := span.Within tokens
  counts := True

/-- The expression stands in `ts`, and if it is a name, so does the name itself. -/
structure Expr.Placed (tokens : List Token) (e : Expr) (ts : List Token) : Prop where
  span : e.span.Within ts
  target (span : Span) (name : Name) : e = .lookup span name → name.span.Within ts
  obeys : e.Obeys (.stretches tokens)

def Rule.Places (tokens : List Token) (e : Expr) (used : List Token) : Rule → Prop
  | .suffixes left | .operations _ _ left =>
      ∀ ts, ts ++ used <:+: tokens → left.Placed tokens ts → e.Placed tokens (ts ++ used)
  | .expression | .assignment | .operators _ | .operand | .primary =>
      used <:+: tokens → e.Placed tokens used

section

variable {tokens : List Token}

theorem Expr.Placed.of_ne {e : Expr} {ts : List Token} (span : e.span.Within ts)
    (other : ∀ span name, e ≠ .lookup span name) (obeys : e.Obeys (.stretches tokens)) :
    e.Placed tokens ts where
  span := span
  target span name same := absurd same (other span name)
  obeys := obeys

theorem Expr.Placed.widen {e : Expr} {ts us : List Token} {span : Span}
    (h : e.Placed tokens ts) (inside : ts <:+: us) (within : span.Within us)
    (whole : us <:+: tokens) : (e.widen span).Placed tokens us where
  span := by
    rw [Expr.span_widen]
    exact within
  target span name same := by
    cases e with
    | lookup old own =>
        cases same
        exact (h.target old name rfl).mono inside
    | literal | assign | unary | binary | logical | call | array | index => cases same
  obeys := h.obeys.widen (within.mono whole)

theorem Expr.allObey_of_joined {pieces : List (Expr × List Token)} {ts : List Token}
    (joined : Joined (pieces.map Prod.snd) ts) (inside : ts <:+: tokens)
    (each : ∀ piece ∈ pieces, piece.2 <:+: tokens → piece.1.Placed tokens piece.2) :
    Expr.AllObey (.stretches tokens) (pieces.map Prod.fst) := by
  refine Expr.allObey_iff.mpr (List.forall_mem_map.mpr fun piece member => ?_)
  have part := joined.infix _ (List.mem_map_of_mem member)
  exact (each piece member (part.trans inside)).obeys

namespace Expr.Placed

variable {ts us : List Token}

theorem array {opening close : Token} {elements : List Expr} (ordered : InOrder tokens)
    (whole : opening :: ts ++ [close] <:+: tokens)
    (values : Expr.AllObey (.stretches tokens) elements) :
    (Expr.array (opening.span.upTo close.span) elements).Placed tokens
      (opening :: ts ++ [close]) := by
  have within := Span.within_enclosed (ordered.of_infix whole)
  exact .of_ne within nofun ⟨within.mono whole, values⟩

theorem call {callee : Expr} {opening close : Token} {arguments : List Expr}
    (ordered : InOrder tokens) (whole : ts ++ (opening :: us ++ [close]) <:+: tokens)
    (placed : callee.Placed tokens ts) (values : Expr.AllObey (.stretches tokens) arguments) :
    (Expr.call callee.span (opening.span.upTo close.span) callee arguments).Placed tokens
      (ts ++ (opening :: us ++ [close])) := by
  have brackets := (List.suffix_append ts _).isInfix.trans whole
  have within := (Span.within_enclosed (ordered.of_infix brackets)).mono brackets
  refine .of_ne ?_ nofun ⟨placed.obeys.span, within, placed.obeys, values⟩
  exact placed.span.mono (List.prefix_append ts _).isInfix

theorem index {source position : Expr} {opening close : Token} (ordered : InOrder tokens)
    (whole : ts ++ (opening :: us ++ [close]) <:+: tokens) (placed : source.Placed tokens ts)
    (inner : position.Placed tokens us) :
    (Expr.index (source.span.upTo close.span) source position).Placed tokens
      (ts ++ (opening :: us ++ [close])) := by
  rw [← List.append_assoc] at whole ⊢
  have within := placed.span.upTo (Span.within_token (List.mem_singleton_self close))
    (ordered.of_infix whole)
  exact .of_ne within nofun ⟨within.mono whole, placed.obeys, inner.obeys⟩

theorem unary {op : Kind} {operand : Expr} {token : Token} (ordered : InOrder tokens)
    (whole : token :: ts <:+: tokens) (placed : operand.Placed tokens ts) :
    (Expr.unary (token.span.upTo operand.span) op operand).Placed tokens (token :: ts) := by
  have within : (token.span.upTo operand.span).Within ([token] ++ [] ++ ts) :=
    (Span.within_token (by simp)).upTo placed.span (ordered.of_infix whole)
  exact .of_ne within nofun ⟨within.mono whole, placed.obeys⟩

/-- An assignment starts at the name itself, whatever parentheses stand around it. -/
theorem assign {span : Span} {target : Name} {value : Expr} {equals : Token}
    (ordered : InOrder tokens) (whole : ts ++ equals :: us <:+: tokens)
    (name : (Expr.lookup span target).Placed tokens ts) (given : value.Placed tokens us) :
    (Expr.assign (target.span.upTo value.span) target value).Placed tokens
      (ts ++ equals :: us) := by
  rw [← List.singleton_append, ← List.append_assoc] at whole ⊢
  have within := (name.target _ _ rfl).upTo given.span (ordered.of_infix whole)
  exact .of_ne within nofun ⟨within.mono whole, name.obeys.2, given.obeys⟩

end Expr.Placed

private theorem Operator.placed_join {op : Operator} {token : Token} {left right : Expr}
    {ts us : List Token} (ordered : InOrder tokens) (whole : ts ++ token :: us <:+: tokens)
    (first : left.Placed tokens ts) (second : right.Placed tokens us) :
    (op.join token left right).Placed tokens (ts ++ token :: us) := by
  rw [← List.singleton_append, ← List.append_assoc] at whole ⊢
  have within := first.span.upTo second.span (ordered.of_infix whole)
  have allowed := within.mono whole
  cases op with
  | binary => exact .of_ne within nofun ⟨allowed, first.obeys, second.obeys⟩
  | logical => exact .of_ne within nofun ⟨allowed, first.obeys, second.obeys⟩

theorem Derives.places {limit : Nat} {rule : Rule} {n : Nat} {e : Expr} {used : List Token}
    (ordered : InOrder tokens) (h : Derives limit rule n e used) : rule.Places tokens e used := by
  induction h with
  | @literal n token value kind =>
      intro whole
      have within : token.span.Within [token] := Span.within_token (by simp)
      exact .of_ne within nofun (within.mono whole)
  | @name n token text kind =>
      intro whole
      have within : token.span.Within [token] := Span.within_token (by simp)
      refine ⟨within, ?_, within.mono whole, within.mono whole⟩
      rintro _ _ ⟨⟩
      exact within
  | @parenthesised n e opening close ts opens inner closes ih =>
      intro whole
      have inside : ts <:+: opening :: ts ++ [close] := ⟨[opening], [close], by simp⟩
      have within := Span.within_enclosed (ordered.of_infix whole)
      exact (ih (inside.trans whole)).widen inside within whole
  | @array n elements opening close ts opens each joined closes ih =>
      intro whole
      have inside : ts <:+: tokens := List.IsInfix.trans ⟨[opening], [close], by simp⟩ whole
      exact .array ordered whole (Expr.allObey_of_joined joined inside ih)
  | bare e | done e =>
      intro ts _ placed
      rwa [List.append_nil]
  | @call n callee e arguments opening close ts us room opens each joined closes rest ih ih' =>
      intro front whole placed
      have split : front ++ (opening :: ts ++ close :: us) =
          front ++ (opening :: ts ++ [close]) ++ us := by simp
      rw [split] at whole ⊢
      have part := (List.prefix_append _ us).isInfix.trans whole
      have inside : ts <:+: tokens :=
        List.IsInfix.trans ⟨front ++ [opening], [close], by simp⟩ part
      have values := Expr.allObey_of_joined joined inside ih
      exact ih' _ whole (placed.call ordered part values)
  | @index n source position e opening close ts us room opens inner closes rest ih ih' =>
      intro front whole placed
      have split : front ++ (opening :: ts ++ close :: us) =
          front ++ (opening :: ts ++ [close]) ++ us := by simp
      rw [split] at whole ⊢
      have part := (List.prefix_append _ us).isInfix.trans whole
      have inside : ts <:+: tokens :=
        List.IsInfix.trans ⟨front ++ [opening], [close], by simp⟩ part
      exact ih' _ whole (placed.index ordered part (ih inside))
  | @postfixed n first e ts us primary rest ih ih' =>
      intro whole
      exact ih' ts whole (ih ((List.prefix_append _ us).isInfix.trans whole))
  | @prefixed n token e ts room sign operand ih =>
      intro whole
      exact .unary ordered whole (ih ((List.suffix_cons token ts).isInfix.trans whole))
  | plain operand ih => exact ih
  | @level n level tighter first e ts us operand rest ih ih' =>
      intro whole
      exact ih' ts whole (ih ((List.prefix_append _ us).isInfix.trans whole))
  | @apply n level tighter op token left right e ts us room operator operand rest ih ih' =>
      intro front whole placed
      have split : front ++ (token :: ts ++ us) = front ++ token :: ts ++ us := by simp
      rw [split] at whole ⊢
      have part := (List.prefix_append _ us).isInfix.trans whole
      have right := ih (List.IsInfix.trans ⟨front ++ [token], [], by simp⟩ part)
      exact ih' _ whole (Operator.placed_join ordered part placed right)
  | @assign n span target value equals ts us room left sign assigned ih ih' =>
      intro whole
      have name := ih ((List.prefix_append _ _).isInfix.trans whole)
      have given := ih' (List.IsInfix.trans ⟨ts ++ [equals], [], by simp⟩ whole)
      exact .assign ordered whole name given
  | unassigned operators ih => exact ih
  | nested room inner ih => exact ih

/-! ## Statements -/

theorem Name.IsAt.within {name : Name} {ts : List Token} (h : name.IsAt ts) :
    name.span.Within ts := by
  obtain ⟨token, rfl, _, same⟩ := h
  rw [same]
  exact Span.within_token (by simp)

theorem Stmt.allObey_of_pieces {pieces : List (Stmt × List Token)}
    (inside : (pieces.map Prod.snd).flatten <:+: tokens)
    (each : ∀ piece ∈ pieces, piece.2 <:+: tokens → piece.1.Obeys (.stretches tokens)) :
    Stmt.AllObey (.stretches tokens) (pieces.map Prod.fst) := by
  refine Stmt.allObey_iff.mpr (List.forall_mem_map.mpr fun piece member => each piece member ?_)
  have part : piece.2 <:+: (pieces.map Prod.snd).flatten := by
    obtain ⟨before, after, rfl⟩ := List.append_of_mem member
    exact ⟨(before.map Prod.snd).flatten, (after.map Prod.snd).flatten, by simp⟩
  exact part.trans inside

theorem Derives.obeys {limit n : Nat} {e : Expr} {ts : List Token} (ordered : InOrder tokens)
    (h : Derives limit .expression n e ts) (inside : ts <:+: tokens) :
    e.Obeys (.stretches tokens) :=
  (h.places ordered inside).obeys

theorem StmtDerives.obeys {limit : Nat} {f : Bool} {n : Nat} {s : Stmt} {ts : List Token}
    (ordered : InOrder tokens) (h : StmtDerives limit f n s ts) (inside : ts <:+: tokens) :
    s.Obeys (.stretches tokens) := by
  induction h with
  | @function f n name parameters body keyword opening close last own ts _ _ named _ names joined
      _ each _ ih =>
      have named := named.within.mono (List.IsInfix.trans ⟨[keyword],
        opening :: ts ++ close :: (body.map Prod.snd).flatten ++ [last], by simp⟩ inside)
      have listed : ts <:+: tokens := List.IsInfix.trans ⟨keyword :: own ++ [opening],
        close :: (body.map Prod.snd).flatten ++ [last], by simp⟩ inside
      refine ⟨named, List.forall_mem_map.mpr fun parameter member => ?_, ?_⟩
      · have piece := joined.infix _ (List.mem_map_of_mem member)
        exact (names parameter member).within.mono (piece.trans listed)
      · exact Stmt.allObey_of_pieces (List.IsInfix.trans
          ⟨keyword :: own ++ opening :: ts ++ [close], [last], by simp⟩ inside) ih
  | @give n value keyword ts _ given =>
      exact given.obeys ordered (List.IsInfix.trans ⟨[keyword], [], by simp⟩ inside)
  | @declare f n name value keyword equals own ts _ named _ declared =>
      have named := named.within.mono
        (List.IsInfix.trans ⟨[keyword], equals :: ts, by simp⟩ inside)
      have given : ts <:+: tokens :=
        List.IsInfix.trans ⟨keyword :: own ++ [equals], [], by simp⟩ inside
      exact ⟨named, declared.obeys ordered given⟩
  | @branch f n condition body span keyword middle last ts _ _ tested _ each _ ih
  | @whileLoop f n condition body span keyword middle last ts _ _ tested _ each _ ih =>
      have first : ts <:+: tokens := List.IsInfix.trans
        ⟨[keyword], middle :: (body.map Prod.snd).flatten ++ [last], by simp⟩ inside
      exact ⟨tested.obeys ordered first, Stmt.allObey_of_pieces (List.IsInfix.trans
        ⟨keyword :: ts ++ [middle], [last], by simp⟩ inside) ih⟩
  | @branchOtherwise f n condition body other span span' keyword middle turn last ts _ _ tested _
      each _ alternative _ ih ih' =>
      have first : ts <:+: tokens := List.IsInfix.trans ⟨[keyword],
        middle :: (body.map Prod.snd).flatten ++ turn :: (other.map Prod.snd).flatten ++ [last],
        by simp⟩ inside
      have second : (body.map Prod.snd).flatten <:+: tokens := List.IsInfix.trans
        ⟨keyword :: ts ++ [middle], turn :: (other.map Prod.snd).flatten ++ [last], by simp⟩ inside
      have third : (other.map Prod.snd).flatten <:+: tokens := List.IsInfix.trans
        ⟨keyword :: ts ++ middle :: (body.map Prod.snd).flatten ++ [turn], [last], by simp⟩ inside
      exact ⟨tested.obeys ordered first, Stmt.allObey_of_pieces second ih,
        Stmt.allObey_of_pieces third ih'⟩
  | @countLoop f n counter first final body span keyword between conjunction last own ts us leading
      _ _ named _ lower _ upper each _ ih =>
      have named := named.within.mono (List.IsInfix.trans ⟨[keyword], between :: ts ++
        conjunction :: us ++ leading ++ (body.map Prod.snd).flatten ++ [last], by simp⟩ inside)
      have first := lower.places ordered (List.IsInfix.trans ⟨keyword :: own ++ [between],
        conjunction :: us ++ leading ++ (body.map Prod.snd).flatten ++ [last], by simp⟩ inside)
      have second := upper.places ordered (List.IsInfix.trans
        ⟨keyword :: own ++ between :: ts ++ [conjunction],
          leading ++ (body.map Prod.snd).flatten ++ [last], by simp⟩ inside)
      exact ⟨trivial, named, first.obeys, second.obeys, Stmt.allObey_of_pieces
        (List.IsInfix.trans ⟨keyword :: own ++ between :: ts ++ conjunction :: us ++ leading,
          [last], by simp⟩ inside) ih⟩
  | @print f n value keyword ts _ printed =>
      exact printed.obeys ordered (List.IsInfix.trans ⟨[keyword], [], by simp⟩ inside)
  | @block f n body opening close _ _ each _ ih =>
      exact Stmt.allObey_of_pieces (List.IsInfix.trans ⟨[opening], [close], by simp⟩ inside) ih
  | expression inner => exact inner.obeys ordered inside

end

/-- The spans of a program run over stretches of the tokens it was parsed from. -/
theorem obeys_of_parse {limit : Nat} {tokens : List Token} {program : Program}
    (ordered : InOrder tokens) (parsed : parse limit tokens = .ok program) :
    ∃ used rest, tokens = used ++ rest ∧ (∀ token ∈ used, token.kind ≠ .endOfInput) ∧
      Stmt.AllObey (.stretches used) program := by
  obtain ⟨used, rest, rfl, proper, pieces, rfl, each, rfl⟩ := sequenced_of_parse parsed
  refine ⟨_, rest, rfl, proper, Stmt.allObey_of_pieces List.infix_rfl ?_⟩
  have front := ordered.of_infix (List.prefix_append _ rest).isInfix
  exact fun piece member inside => (each piece member).obeys front inside

end Ardoise
