import Ardoise.Proofs.Parsing.Printing
import Ardoise.Proofs.Parsing.Spans
import Ardoise.Proofs.Provenance
import Ardoise.Proofs.Scanning.Lexemes

/-!
# The parts of a program

What stands in a program that was parsed, however deep, was read from tokens of
its own, which follow each other among those of the program.  The operators of its
expressions are written there: each of the ten binary operators by its sign, and
each of the others by its sign or its word.
-/

namespace Ardoise

/-! ## Statements -/

def Stmt.PartOf (s : Stmt) (program : Program) : Prop :=
  ∃ whole ∈ program, Relation.ReflTransGen (fun t part => part ∈ Stmt.parts t) whole s

theorem Stmt.partOf_of_mem {s : Stmt} {program : Program} (member : s ∈ program) :
    s.PartOf program :=
  ⟨s, member, .refl⟩

theorem Stmt.closed_partOf (program : Program) : Stmt.Closed (·.PartOf program) :=
  fun _ ⟨whole, member, path⟩ _ inner => ⟨whole, member, path.tail inner⟩

theorem Stmt.Closed.of_partOf {S : Stmt → Prop} (closed : Stmt.Closed S) {program : Program}
    (each : ∀ s ∈ program, S s) {s : Stmt} (part : s.PartOf program) : S s := by
  obtain ⟨whole, member, path⟩ := part
  induction path with
  | refl => exact each whole member
  | tail _ inner ih => exact closed _ ih _ inner

def Stmt.ReadFrom (limit : Nat) (tokens : List Token) (s : Stmt) : Prop :=
  ∃ f n ts, ts <:+: tokens ∧ StmtDerives limit f n s ts

theorem Stmt.readFrom_of_pieces {limit n : Nat} {f : Bool} {tokens : List Token}
    {pieces : List (Stmt × List Token)}
    (each : ∀ piece ∈ pieces, StmtDerives limit f n piece.1 piece.2)
    (inside : (pieces.map Prod.snd).flatten <:+: tokens) :
    ∀ s ∈ pieces.map Prod.fst, s.ReadFrom limit tokens := by
  refine List.forall_mem_map.mpr fun piece member => ?_
  have part := List.infix_of_mem_flatten (List.mem_map_of_mem (f := Prod.snd) member)
  exact ⟨f, n, piece.2, part.trans inside, each piece member⟩

theorem Stmt.closed_readFrom (limit : Nat) (tokens : List Token) :
    Stmt.Closed (ReadFrom limit tokens) := by
  rintro s ⟨f, n, ts, inside, derives⟩
  cases derives with
  | give | declare | print | expression => exact nofun
  | @function _ _ name _ body keyword opening close last own ts _ _ _ _ _ _ _ each _ =>
      exact readFrom_of_pieces each (List.IsInfix.trans
        ⟨keyword :: own ++ opening :: ts ++ [close], [last], by simp⟩ inside)
  | @branch _ _ _ body _ keyword middle last ts _ _ _ _ each _
  | @whileLoop _ _ _ body _ keyword middle last ts _ _ _ _ each _ =>
      exact readFrom_of_pieces each (List.IsInfix.trans
        ⟨keyword :: ts ++ [middle], [last], by simp⟩ inside)
  | @branchOtherwise _ _ _ body other _ _ keyword middle turn last ts _ _ _ _ each _ each' _ =>
      refine List.forall_mem_append.mpr ⟨readFrom_of_pieces each (List.IsInfix.trans
        ⟨keyword :: ts ++ [middle], turn :: (other.map Prod.snd).flatten ++ [last], by simp⟩
        inside),
        readFrom_of_pieces each' (List.IsInfix.trans
        ⟨keyword :: ts ++ middle :: (body.map Prod.snd).flatten ++ [turn], [last], by simp⟩ inside)⟩
  | @countLoop _ _ _ _ _ body _ keyword between conjunction last own ts us leading _ _ _ _ _ _ _
      each _ =>
      exact readFrom_of_pieces each (List.IsInfix.trans
        ⟨keyword :: own ++ between :: ts ++ conjunction :: us ++ leading, [last], by simp⟩ inside)
  | @block _ _ body opening close _ _ each _ =>
      exact readFrom_of_pieces each (List.IsInfix.trans ⟨[opening], [close], by simp⟩ inside)

/-- All that stands in a program was read from its tokens, of which the last is left over. -/
theorem readFrom_of_parse {limit : Nat} {tokens : List Token} {program : Program}
    (parsed : parse limit tokens = .ok program) :
    ∃ used rest, tokens = used ++ rest ∧ (∀ token ∈ used, token.kind ≠ .endOfInput) ∧
      ∀ s : Stmt, s.PartOf program → s.ReadFrom limit used := by
  obtain ⟨used, rest, split, proper, pieces, rfl, each, rfl⟩ := sequenced_of_parse parsed
  refine ⟨_, rest, split, proper, fun s part => ?_⟩
  exact (Stmt.closed_readFrom limit _).of_partOf
    (Stmt.readFrom_of_pieces each List.infix_rfl) part

/-! ## Operators -/

namespace Expr

def Everywhere (P : Expr → Prop) (e : Expr) : Prop :=
  ∀ part, Relation.ReflTransGen (fun whole part => part ∈ parts whole) e part → P part

variable {P : Expr → Prop} {e part : Expr}

theorem Everywhere.here (h : e.Everywhere P) : P e := h e .refl

theorem Everywhere.inside (h : e.Everywhere P) (member : part ∈ e.parts) : part.Everywhere P :=
  fun further path => h further (path.head member)

theorem Everywhere.intro (here : P e) (inside : ∀ part ∈ e.parts, part.Everywhere P) :
    e.Everywhere P := by
  intro further path
  cases path.cases_head with
  | inl same => exact same ▸ here
  | inr step =>
      obtain ⟨part, member, path⟩ := step
      exact inside part member further path

theorem parts_widen (e : Expr) (span : Span) : (e.widen span).parts = e.parts := by
  cases e <;> rfl

/-- If the expression is an operation, its operator is of the right sort and one of the tokens. -/
def OperatorIn (tokens : List Token) : Expr → Prop
  | .unary _ op _ => op.isSign = true ∧ ∃ token ∈ tokens, token.kind = op
  | .binary _ op _ _ => op.isBinary = true ∧ ∃ token ∈ tokens, token.kind = op
  | .logical _ op spelling _ _ =>
      op.isLogical = true ∧ ∃ token ∈ tokens, token.kind = op ∧ token.lexeme = spelling
  | .literal _ _ | .lookup _ _ | .assign _ _ _ | .call _ _ _ _ | .array _ _ | .index _ _ _ => True

theorem OperatorIn.widen {tokens : List Token} (h : e.OperatorIn tokens) (span : Span) :
    (e.widen span).OperatorIn tokens := by
  cases e <;> exact h

def WrittenIn (tokens : List Token) (e : Expr) : Prop :=
  e.Everywhere (·.OperatorIn tokens)

end Expr

namespace Operator

theorem operatorIn_join {level : Level} {op : Operator} {token : Token} {tokens : List Token}
    (operator : level.operator? token.kind = some op) (member : token ∈ tokens)
    (left right : Expr) : (op.join token left right).OperatorIn tokens := by
  cases op with
  | binary => exact ⟨(Level.operator?_eq_binary.mp operator).1, token, member, rfl⟩
  | logical => exact ⟨(Level.operator?_eq_logical.mp operator).1, token, member, rfl, rfl⟩

theorem parts_join (op : Operator) (token : Token) (left right : Expr) :
    (op.join token left right).parts = [left, right] := by
  cases op <;> rfl

end Operator

/--
A property that expressions have for what the tokens say which they are read from: each
case asks for it of an expression on its own, not of its parts.
-/
structure Warranted (tokens : List Token) (P : Expr → Prop) : Prop where
  literal : ∀ token ∈ tokens, ∀ value, Parser.literal? token.kind = some value →
    P (.literal token.span value)
  name : ∀ token ∈ tokens, ∀ text, token.kind = .identifier text →
    P (.lookup token.span ⟨text, token.span⟩)
  assign : ∀ span target, P (.lookup span target) → ∀ span value, P (.assign span target value)
  unary : ∀ token ∈ tokens, token.kind.isSign = true →
    ∀ span operand, P (.unary span token.kind operand)
  join : ∀ token ∈ tokens, ∀ (level : Level) op, level.operator? token.kind = some op →
    ∀ left right, P (op.join token left right)
  call : ∀ span argumentsSpan callee arguments, P (.call span argumentsSpan callee arguments)
  array : ∀ span elements, P (.array span elements)
  index : ∀ span source position, P (.index span source position)
  widen : ∀ e span, P e → P (e.widen span)

theorem Expr.Everywhere.widen {P : Expr → Prop} {tokens : List Token} {e : Expr}
    (warranted : Warranted tokens P) (h : e.Everywhere P) (span : Span) :
    (e.widen span).Everywhere P := by
  refine .intro (warranted.widen e span h.here) fun part member => ?_
  rw [parts_widen] at member
  exact h.inside member

def Rule.Grants (P : Expr → Prop) (tokens : List Token) (e : Expr) (used : List Token) :
    Rule → Prop
  | .suffixes left | .operations _ _ left =>
      used ⊆ tokens → left.Everywhere P → e.Everywhere P
  | .expression | .assignment | .operators _ | .operand | .primary =>
      used ⊆ tokens → e.Everywhere P

theorem Expr.everywhere_of_joined {P : Expr → Prop} {tokens ts : List Token}
    {pieces : List (Expr × List Token)} (joined : Joined (pieces.map Prod.snd) ts)
    (inside : ts ⊆ tokens)
    (each : ∀ piece ∈ pieces, piece.2 ⊆ tokens → piece.1.Everywhere P) :
    ∀ e ∈ pieces.map Prod.fst, e.Everywhere P := by
  refine List.forall_mem_map.mpr fun piece member => each piece member ?_
  have part := joined.infix _ (List.mem_map_of_mem member)
  exact List.Subset.trans part.subset inside

theorem Derives.grants {limit n : Nat} {rule : Rule} {e : Expr} {used tokens : List Token}
    {P : Expr → Prop} (warranted : Warranted tokens P) (h : Derives limit rule n e used) :
    rule.Grants P tokens e used := by
  induction h with
  | literal kind =>
      intro inside
      exact .intro (warranted.literal _ (inside List.mem_cons_self) _ kind) (by simp [Expr.parts])
  | name kind =>
      intro inside
      exact .intro (warranted.name _ (inside List.mem_cons_self) _ kind) (by simp [Expr.parts])
  | parenthesised opens inner closes ih =>
      intro inside
      simp only [List.cons_append, List.cons_subset, List.append_subset] at inside
      exact (ih inside.2.1).widen warranted _
  | array opens each joined closes ih =>
      intro inside
      simp only [List.cons_append, List.cons_subset, List.append_subset] at inside
      exact .intro (warranted.array _ _) (Expr.everywhere_of_joined joined inside.2.1 ih)
  | bare | done => exact fun _ left => left
  | call room opens each joined closes rest ih ih' =>
      intro inside left
      simp only [List.cons_append, List.cons_subset, List.append_subset] at inside
      refine ih' inside.2.2.2 (.intro (warranted.call _ _ _ _)
        (List.forall_mem_cons.mpr ⟨left, ?_⟩))
      exact Expr.everywhere_of_joined joined inside.2.1 ih
  | index room opens inner closes rest ih ih' =>
      intro inside left
      simp only [List.cons_append, List.cons_subset, List.append_subset] at inside
      refine ih' inside.2.2.2 (.intro (warranted.index _ _ _)
        (List.forall_mem_cons.mpr ⟨left, ?_⟩))
      exact List.forall_mem_singleton.mpr (ih inside.2.1)
  | postfixed primary rest ih ih' =>
      intro inside
      rw [List.append_subset] at inside
      exact ih' inside.2 (ih inside.1)
  | prefixed room sign operand ih =>
      intro inside
      rw [List.cons_subset] at inside
      refine .intro (warranted.unary _ inside.1 sign _ _) ?_
      exact List.forall_mem_singleton.mpr (ih inside.2)
  | level operand rest ih ih' =>
      intro inside
      rw [List.append_subset] at inside
      exact ih' inside.2 (ih inside.1)
  | apply room operator operand rest ih ih' =>
      intro inside left
      simp only [List.cons_append, List.cons_subset, List.append_subset] at inside
      refine ih' inside.2.2 (.intro (warranted.join _ inside.1 _ _ operator _ _) ?_)
      rw [Operator.parts_join]
      exact List.forall_mem_cons.mpr ⟨left, List.forall_mem_singleton.mpr (ih inside.2.1)⟩
  | assign room left sign assigned ih ih' =>
      intro inside
      simp only [List.append_subset, List.cons_subset] at inside
      refine .intro (warranted.assign _ _ (ih inside.1).here _ _) ?_
      exact List.forall_mem_singleton.mpr (ih' inside.2.2)
  | plain operand ih => exact ih
  | unassigned operators ih => exact ih
  | nested room inner ih => exact ih

private theorem warranted_operatorIn (tokens : List Token) :
    Warranted tokens (·.OperatorIn tokens) where
  literal _ _ _ _ := trivial
  name _ _ _ _ := trivial
  assign _ _ _ _ _ := trivial
  unary token member sign _ _ := ⟨sign, token, member, rfl⟩
  join _ member _ _ operator left right := Operator.operatorIn_join operator member left right
  call _ _ _ _ := trivial
  array _ _ := trivial
  index _ _ _ := trivial
  widen _ span h := h.widen span

theorem Stmt.ReadFrom.derives {limit : Nat} {tokens : List Token} {s : Stmt}
    (h : s.ReadFrom limit tokens) {e : Expr} (own : e ∈ s.expressions) :
    ∃ n us, us <:+: tokens ∧ (Derives limit .expression n e us ∨
      Derives limit (.operators Level.arithmetic) n e us) := by
  obtain ⟨f, n, ts, inside, derives⟩ := h
  have whole {us : List Token} (part : us <:+: ts) {value : Expr}
      (derived : Derives limit .expression n value us) (same : e ∈ [value]) :
      ∃ n us, us <:+: tokens ∧ (Derives limit .expression n e us ∨
        Derives limit (.operators Level.arithmetic) n e us) := by
    cases List.mem_singleton.mp same
    exact ⟨n, us, part.trans inside, .inl derived⟩
  cases derives with
  | function | block => cases own
  | @give _ _ keyword _ _ value | @print _ _ _ keyword _ _ value =>
      exact whole ⟨[keyword], [], by simp⟩ value own
  | @declare _ _ _ _ keyword equals name _ _ _ _ value =>
      exact whole ⟨keyword :: name ++ [equals], [], by simp⟩ value own
  | @branch _ _ _ body _ keyword middle last _ _ _ condition
  | @whileLoop _ _ _ body _ keyword middle last _ _ _ condition =>
      exact whole ⟨[keyword], middle :: (body.map Prod.snd).flatten ++ [last], by simp⟩
        condition own
  | @branchOtherwise _ _ _ body other _ _ keyword middle turn last _ _ _ condition =>
      exact whole ⟨[keyword], middle :: (body.map Prod.snd).flatten ++
        turn :: (other.map Prod.snd).flatten ++ [last], by simp⟩ condition own
  | @countLoop _ _ _ _ _ body _ keyword between conjunction last name us us' leading _ _ _ _ lower
      _ upper =>
      rcases List.mem_cons.mp own with rfl | final
      · have part : us <:+: tokens := List.IsInfix.trans ⟨keyword :: name ++ [between],
          conjunction :: us' ++ leading ++ (body.map Prod.snd).flatten ++ [last], by simp⟩ inside
        exact ⟨n, us, part, .inr lower⟩
      · cases List.mem_singleton.mp final
        have part : us' <:+: tokens := List.IsInfix.trans
          ⟨keyword :: name ++ between :: us ++ [conjunction],
            leading ++ (body.map Prod.snd).flatten ++ [last], by simp⟩ inside
        exact ⟨n, us', part, .inr upper⟩
  | expression value => exact whole List.infix_rfl value own

theorem Stmt.ReadFrom.everywhere {limit : Nat} {tokens : List Token} {P : Expr → Prop}
    (warranted : Warranted tokens P) {s : Stmt} (h : s.ReadFrom limit tokens) :
    ∀ e ∈ s.expressions, e.Everywhere P := by
  intro e own
  obtain ⟨n, us, inside, derived | derived⟩ := h.derives own
  · exact derived.grants warranted inside.subset
  · exact derived.grants warranted inside.subset

theorem Stmt.ReadFrom.mono {limit : Nat} {used tokens : List Token} {s : Stmt}
    (h : s.ReadFrom limit used) (inside : used <:+: tokens) : s.ReadFrom limit tokens := by
  obtain ⟨f, n, ts, part, derives⟩ := h
  exact ⟨f, n, ts, part.trans inside, derives⟩

/-- A program and its expressions, written with the tokens it was parsed from. -/
theorem code_of_parse {limit : Nat} {tokens : List Token} {program : Program}
    (parsed : parse limit tokens = .ok program) :
    Code (·.PartOf program) (·.WrittenIn tokens) where
  closed := Stmt.closed_partOf program
  expressions s part := by
    obtain ⟨used, rest, rfl, _, reads⟩ := readFrom_of_parse parsed
    exact ((reads s part).mono (List.prefix_append used rest).isInfix).everywhere
      (warranted_operatorIn _)
  operands e written part member := written.inside member

end Ardoise
