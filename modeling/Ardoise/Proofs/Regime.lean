import Ardoise.Proofs.Provenance

/-!
# What is kept from programs to runs

A regime says which spans a program may have, and whether it may count.  The terms
of a regime permit the faults at these spans, and code that obeys the regime suits
them.  So every fault of a run points at a span that the regime allows; and a run
that may not count ends within its fuel, if that exceeds the calls that can be in
progress at once.
-/

namespace Ardoise

structure Regime where
  /-- The spans that faults may point at. -/
  allows : Span → Prop
  /-- Whether there may be counting loops. -/
  counts : Prop

mutual

def Expr.Obeys (r : Regime) : Expr → Prop
  | .literal span _ => r.allows span
  | .lookup span name => r.allows span ∧ r.allows name.span
  | .assign span target value => r.allows span ∧ r.allows target.span ∧ value.Obeys r
  | .unary span _ operand => r.allows span ∧ operand.Obeys r
  | .binary span _ left right => r.allows span ∧ left.Obeys r ∧ right.Obeys r
  | .logical span _ _ left right => r.allows span ∧ left.Obeys r ∧ right.Obeys r
  | .call span argumentsSpan callee arguments =>
      r.allows span ∧ r.allows argumentsSpan ∧ callee.Obeys r ∧ Expr.AllObey r arguments
  | .array span elements => r.allows span ∧ Expr.AllObey r elements
  | .index span source position => r.allows span ∧ source.Obeys r ∧ position.Obeys r

def Expr.AllObey (r : Regime) : List Expr → Prop
  | [] => True
  | e :: rest => e.Obeys r ∧ Expr.AllObey r rest

end

theorem Expr.Obeys.span {r : Regime} {e : Expr} (h : e.Obeys r) : r.allows e.span := by
  cases e with
  | literal => exact h
  | lookup | assign | unary | binary | logical | call | array | index => exact h.1

theorem Expr.allObey_iff {r : Regime} {es : List Expr} :
    Expr.AllObey r es ↔ ∀ e ∈ es, e.Obeys r := by
  induction es with
  | nil => simp [Expr.AllObey]
  | cons e rest ih => simp [Expr.AllObey, ih]

theorem Expr.Obeys.widen {r : Regime} {span : Span} {e : Expr} (h : e.Obeys r)
    (allowed : r.allows span) : (e.widen span).Obeys r := by
  cases e with
  | literal => exact allowed
  | lookup | assign | unary | binary | logical | call | array | index => exact ⟨allowed, h.2⟩

mutual

def Stmt.Obeys (r : Regime) : Stmt → Prop
  | .expression value | .print _ value | .give _ value => value.Obeys r
  | .declare _ name value => r.allows name.span ∧ value.Obeys r
  | .block ⟨_, body⟩ => Stmt.AllObey r body
  | .branch _ condition ⟨_, body⟩ none => condition.Obeys r ∧ Stmt.AllObey r body
  | .branch _ condition ⟨_, body⟩ (some ⟨_, other⟩) =>
      condition.Obeys r ∧ Stmt.AllObey r body ∧ Stmt.AllObey r other
  | .whileLoop _ condition ⟨_, body⟩ => condition.Obeys r ∧ Stmt.AllObey r body
  | .countLoop _ counter first last ⟨_, body⟩ =>
      r.counts ∧ r.allows counter.span ∧ first.Obeys r ∧ last.Obeys r ∧ Stmt.AllObey r body
  | .function _ name parameters body =>
      r.allows name.span ∧ (∀ parameter ∈ parameters, r.allows parameter.span) ∧
        Stmt.AllObey r body

def Stmt.AllObey (r : Regime) : List Stmt → Prop
  | [] => True
  | s :: rest => s.Obeys r ∧ Stmt.AllObey r rest

end

theorem Stmt.allObey_iff {r : Regime} {ss : List Stmt} :
    Stmt.AllObey r ss ↔ ∀ s ∈ ss, s.Obeys r := by
  induction ss with
  | nil => simp [Stmt.AllObey]
  | cons s rest ih => simp [Stmt.AllObey, ih]

structure Regime.Stricter (r r' : Regime) : Prop where
  allows : ∀ {span : Span}, r.allows span → r'.allows span
  counts : r.counts → r'.counts

mutual

theorem Expr.Obeys.mono {r r' : Regime} (stricter : r.Stricter r') :
    (e : Expr) → e.Obeys r → e.Obeys r'
  | .literal _ _, h => stricter.allows h
  | .lookup _ _, ⟨span, name⟩ => ⟨stricter.allows span, stricter.allows name⟩
  | .assign _ _ value, ⟨span, target, given⟩ =>
      ⟨stricter.allows span, stricter.allows target, Expr.Obeys.mono stricter value given⟩
  | .unary _ _ operand, ⟨span, inner⟩ =>
      ⟨stricter.allows span, Expr.Obeys.mono stricter operand inner⟩
  | .binary _ _ left right, ⟨span, first, second⟩
  | .logical _ _ _ left right, ⟨span, first, second⟩ =>
      ⟨stricter.allows span, Expr.Obeys.mono stricter left first,
        Expr.Obeys.mono stricter right second⟩
  | .call _ _ callee arguments, ⟨span, parentheses, called, given⟩ =>
      ⟨stricter.allows span, stricter.allows parentheses, Expr.Obeys.mono stricter callee called,
        Expr.AllObey.mono stricter arguments given⟩
  | .array _ elements, ⟨span, each⟩ =>
      ⟨stricter.allows span, Expr.AllObey.mono stricter elements each⟩
  | .index _ source position, ⟨span, first, second⟩ =>
      ⟨stricter.allows span, Expr.Obeys.mono stricter source first,
        Expr.Obeys.mono stricter position second⟩

theorem Expr.AllObey.mono {r r' : Regime} (stricter : r.Stricter r') :
    (es : List Expr) → Expr.AllObey r es → Expr.AllObey r' es
  | [], _ => trivial
  | e :: rest, ⟨first, others⟩ =>
      ⟨Expr.Obeys.mono stricter e first, Expr.AllObey.mono stricter rest others⟩

end

mutual

theorem Stmt.Obeys.mono {r r' : Regime} (stricter : r.Stricter r') :
    (s : Stmt) → s.Obeys r → s.Obeys r'
  | .expression value, h | .print _ value, h | .give _ value, h => Expr.Obeys.mono stricter value h
  | .declare _ _ value, ⟨name, given⟩ =>
      ⟨stricter.allows name, Expr.Obeys.mono stricter value given⟩
  | .block ⟨_, body⟩, h => Stmt.AllObey.mono stricter body h
  | .branch _ condition ⟨_, body⟩ none, ⟨tested, inner⟩
  | .whileLoop _ condition ⟨_, body⟩, ⟨tested, inner⟩ =>
      ⟨Expr.Obeys.mono stricter condition tested, Stmt.AllObey.mono stricter body inner⟩
  | .branch _ condition ⟨_, body⟩ (some ⟨_, other⟩), ⟨tested, inner, otherwise⟩ =>
      ⟨Expr.Obeys.mono stricter condition tested, Stmt.AllObey.mono stricter body inner,
        Stmt.AllObey.mono stricter other otherwise⟩
  | .countLoop _ _ first last ⟨_, body⟩, ⟨counts, counter, lower, upper, inner⟩ =>
      ⟨stricter.counts counts, stricter.allows counter, Expr.Obeys.mono stricter first lower,
        Expr.Obeys.mono stricter last upper, Stmt.AllObey.mono stricter body inner⟩
  | .function _ _ _ body, ⟨name, parameters, inner⟩ =>
      ⟨stricter.allows name, fun parameter member => stricter.allows (parameters parameter member),
        Stmt.AllObey.mono stricter body inner⟩

theorem Stmt.AllObey.mono {r r' : Regime} (stricter : r.Stricter r') :
    (ss : List Stmt) → Stmt.AllObey r ss → Stmt.AllObey r' ss
  | [], _ => trivial
  | s :: rest, ⟨first, others⟩ =>
      ⟨Stmt.Obeys.mono stricter s first, Stmt.AllObey.mono stricter rest others⟩

end

/-! ## Runs -/

namespace Regime

variable (r : Regime)

theorem code : Code (Stmt.Obeys r) (Expr.Obeys r) where
  closed s h := by
    cases s with
    | expression | print | declare | give => exact nofun
    | block body => exact Stmt.allObey_iff.mp h
    | branch span condition body otherwise =>
        cases otherwise with
        | none => exact Stmt.allObey_iff.mp h.2
        | some other =>
            exact List.forall_mem_append.mpr
              ⟨Stmt.allObey_iff.mp h.2.1, Stmt.allObey_iff.mp h.2.2⟩
    | whileLoop => exact Stmt.allObey_iff.mp h.2
    | countLoop => exact Stmt.allObey_iff.mp h.2.2.2.2
    | function => exact Stmt.allObey_iff.mp h.2.2
  expressions s h := by
    cases s with
    | expression | print | give => exact List.forall_mem_singleton.mpr h
    | declare => exact List.forall_mem_singleton.mpr h.2
    | branch span condition body otherwise =>
        cases otherwise <;> exact List.forall_mem_singleton.mpr h.1
    | whileLoop => exact List.forall_mem_singleton.mpr h.1
    | countLoop =>
        exact List.forall_mem_cons.mpr ⟨h.2.2.1, List.forall_mem_singleton.mpr h.2.2.2.1⟩
    | block | function => exact nofun
  operands e h := by
    cases e with
    | literal | lookup => exact nofun
    | assign => exact List.forall_mem_singleton.mpr h.2.2
    | unary => exact List.forall_mem_singleton.mpr h.2
    | binary | logical | index =>
        exact List.forall_mem_cons.mpr ⟨h.2.1, List.forall_mem_singleton.mpr h.2.2⟩
    | call => exact List.forall_mem_cons.mpr ⟨h.2.2.1, Expr.allObey_iff.mp h.2.2.2⟩
    | array => exact Expr.allObey_iff.mp h.2

def terms : Terms := ⟨fun fault => r.allows fault.span, r.counts⟩

theorem suit : r.terms.Suit (Stmt.Obeys r) (Expr.Obeys r) where
  toCode := r.code
  raised e h fault raises := by
    cases raises with
    | undefined => exact h.2
    | undefinedTarget | readOnly => exact h.2.1
    | unary | binary | notCallable => exact h.1
    | logicalLeft | notAnArray => exact h.2.1.span
    | logicalRight | indexNotNumber | element => exact h.2.2.span
    | arity => exact h.2.1
    | call stops => cases stops <;> exact h.1
  stopped s h fault raises := by
    cases raises with
    | declare | function => exact h.1
    | parameter member => exact h.2.1 _ member
    | @branch _ _ _ otherwise => cases otherwise <;> exact h.1.span
    | condition | infinite => exact h.1.span
    | first => exact h.2.2.1.span
    | last => exact h.2.2.2.1.span
  counts _ _ _ _ _ h := h.1

end Regime

end Ardoise
