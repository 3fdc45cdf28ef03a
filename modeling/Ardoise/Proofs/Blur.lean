import Ardoise.Value
import Ardoise.Diagnostic

/-!
# Programs up to where and how they are written

Trees and faults carry spans, and logical operators carry their spelling.  A
`Blur` says what is kept of either; two trees are the same up to it when their
blurred forms are equal.  Names and literals are kept by every blur.
-/

namespace Ardoise

structure Blur where
  span : Span → Span
  spelling : String → String

namespace Blur

def sharp : Blur := ⟨id, id⟩

/-- Keeps no span, and of a spelling only what is given. -/
def unplaced (spelling : String → String) : Blur := ⟨fun _ => .nowhere, spelling⟩

def placeless : Blur := unplaced id

def wordless : Blur := unplaced fun _ => ""

@[simp] theorem sharp_span (span : Span) : sharp.span span = span := rfl

@[simp] theorem sharp_spelling (spelling : String) : sharp.spelling spelling = spelling := rfl

@[simp] theorem unplaced_span (spelling : String → String) (span : Span) :
    (unplaced spelling).span span = .nowhere := rfl

@[simp] theorem unplaced_spelling (spelling : String → String) (word : String) :
    (unplaced spelling).spelling word = spelling word := rfl

@[simp] theorem placeless_span (span : Span) : placeless.span span = .nowhere := rfl

@[simp] theorem placeless_spelling (spelling : String) :
    placeless.spelling spelling = spelling := rfl

end Blur

def Name.blur (b : Blur) (name : Name) : Name := ⟨name.text, b.span name.span⟩

@[simp] theorem Name.blur_text (b : Blur) (name : Name) : (name.blur b).text = name.text := rfl

mutual

def Expr.blur (b : Blur) : Expr → Expr
  | .literal span value => .literal (b.span span) value
  | .lookup span name => .lookup (b.span span) (name.blur b)
  | .assign span target value => .assign (b.span span) (target.blur b) (value.blur b)
  | .unary span op operand => .unary (b.span span) op (operand.blur b)
  | .binary span op left right => .binary (b.span span) op (left.blur b) (right.blur b)
  | .logical span op spelling left right =>
      .logical (b.span span) op (b.spelling spelling) (left.blur b) (right.blur b)
  | .call span argumentsSpan callee arguments =>
      .call (b.span span) (b.span argumentsSpan) (callee.blur b) (Expr.blurAll b arguments)
  | .array span elements => .array (b.span span) (Expr.blurAll b elements)
  | .index span source position =>
      .index (b.span span) (source.blur b) (position.blur b)

def Expr.blurAll (b : Blur) : List Expr → List Expr
  | [] => []
  | e :: rest => e.blur b :: Expr.blurAll b rest

end

namespace Expr

theorem blurAll_eq_map (b : Blur) (es : List Expr) : blurAll b es = es.map (blur b) := by
  induction es with
  | nil => rfl
  | cons e rest ih => simp [blurAll, ih]

@[simp] theorem length_blurAll (b : Blur) (es : List Expr) :
    (blurAll b es).length = es.length := by
  simp [blurAll_eq_map]

@[simp] theorem span_blur (b : Blur) (e : Expr) : (e.blur b).span = b.span e.span := by
  cases e <;> simp [blur, span]

theorem blur_widen (b : Blur) (span : Span) (e : Expr) :
    (e.widen span).blur b = (e.blur b).widen (b.span span) := by
  cases e <;> simp [blur, widen]

end Expr

mutual

def Stmt.blur (b : Blur) : Stmt → Stmt
  | .expression value => .expression (value.blur b)
  | .print span value => .print (b.span span) (value.blur b)
  | .declare span name value => .declare (b.span span) (name.blur b) (value.blur b)
  | .block ⟨span, body⟩ => .block ⟨b.span span, Stmt.blurAll b body⟩
  | .branch span condition ⟨bodySpan, body⟩ none =>
      .branch (b.span span) (condition.blur b) ⟨b.span bodySpan, Stmt.blurAll b body⟩ none
  | .branch span condition ⟨bodySpan, body⟩ (some ⟨otherSpan, other⟩) =>
      .branch (b.span span) (condition.blur b) ⟨b.span bodySpan, Stmt.blurAll b body⟩
        (some ⟨b.span otherSpan, Stmt.blurAll b other⟩)
  | .whileLoop span condition ⟨bodySpan, body⟩ =>
      .whileLoop (b.span span) (condition.blur b) ⟨b.span bodySpan, Stmt.blurAll b body⟩
  | .countLoop span counter first last ⟨bodySpan, body⟩ =>
      .countLoop (b.span span) (counter.blur b) (first.blur b) (last.blur b)
        ⟨b.span bodySpan, Stmt.blurAll b body⟩
  | .function span name parameters body =>
      .function (b.span span) (name.blur b) (parameters.map (Name.blur b)) (Stmt.blurAll b body)
  | .give span value => .give (b.span span) (value.blur b)

def Stmt.blurAll (b : Blur) : List Stmt → List Stmt
  | [] => []
  | s :: rest => s.blur b :: Stmt.blurAll b rest

end

theorem Stmt.blurAll_append (b : Blur) (first second : List Stmt) :
    Stmt.blurAll b (first ++ second) = Stmt.blurAll b first ++ Stmt.blurAll b second := by
  induction first with
  | nil => rfl
  | cons s rest ih => simp [Stmt.blurAll, ih]

/-- The only faults that quote the program are those of logical operators. -/
def RuntimeFault.blur (b : Blur) : RuntimeFault → RuntimeFault
  | logicalLeftNotBoolean operator found => logicalLeftNotBoolean (b.spelling operator) found
  | logicalRightNotBoolean operator found => logicalRightNotBoolean (b.spelling operator) found
  | other => other

theorem RuntimeFault.blur_placeless (fault : RuntimeFault) : fault.blur .placeless = fault := by
  cases fault <;> rfl

def blurFault (b : Blur) (fault : Located RuntimeFault) : Located RuntimeFault :=
  ⟨b.span fault.span, fault.fault.blur b⟩

def Diagnostic.blur (b : Blur) : Diagnostic → Diagnostic
  | .lexical fault => .lexical fault
  | .grammar fault => .grammar fault
  | .runtime fault => .runtime (blurFault b fault)

/-! ## One blur after another -/

def Blur.after (b c : Blur) : Blur := ⟨b.span ∘ c.span, b.spelling ∘ c.spelling⟩

@[simp] theorem Blur.after_span (b c : Blur) (span : Span) :
    (b.after c).span span = b.span (c.span span) := rfl

@[simp] theorem Blur.after_spelling (b c : Blur) (spelling : String) :
    (b.after c).spelling spelling = b.spelling (c.spelling spelling) := rfl

@[simp] theorem Name.blur_blur (b c : Blur) (name : Name) :
    (name.blur c).blur b = name.blur (b.after c) := rfl

mutual

theorem Expr.blur_blur (b c : Blur) : (e : Expr) → (e.blur c).blur b = e.blur (b.after c)
  | .literal .. => rfl
  | .lookup .. => rfl
  | .assign _ _ value => by simp [Expr.blur, Expr.blur_blur b c value]
  | .unary _ _ operand => by simp [Expr.blur, Expr.blur_blur b c operand]
  | .binary _ _ left right => by
      simp [Expr.blur, Expr.blur_blur b c left, Expr.blur_blur b c right]
  | .logical _ _ _ left right => by
      simp [Expr.blur, Expr.blur_blur b c left, Expr.blur_blur b c right]
  | .call _ _ callee arguments => by
      simp [Expr.blur, Expr.blur_blur b c callee, Expr.blurAll_blurAll b c arguments]
  | .array _ elements => by simp [Expr.blur, Expr.blurAll_blurAll b c elements]
  | .index _ source position => by
      simp [Expr.blur, Expr.blur_blur b c source, Expr.blur_blur b c position]

theorem Expr.blurAll_blurAll (b c : Blur) : (es : List Expr) →
    Expr.blurAll b (Expr.blurAll c es) = Expr.blurAll (b.after c) es
  | [] => rfl
  | e :: rest => by
      simp [Expr.blurAll, Expr.blur_blur b c e, Expr.blurAll_blurAll b c rest]

end

mutual

theorem Stmt.blur_blur (b c : Blur) : (s : Stmt) → (s.blur c).blur b = s.blur (b.after c)
  | .expression value => by simp [Stmt.blur, value.blur_blur b c]
  | .print _ value => by simp [Stmt.blur, value.blur_blur b c]
  | .declare _ _ value => by simp [Stmt.blur, value.blur_blur b c]
  | .block ⟨_, body⟩ => by simp [Stmt.blur, Stmt.blurAll_blurAll b c body]
  | .branch _ condition ⟨_, body⟩ none => by
      simp [Stmt.blur, condition.blur_blur b c, Stmt.blurAll_blurAll b c body]
  | .branch _ condition ⟨_, body⟩ (some ⟨_, other⟩) => by
      simp [Stmt.blur, condition.blur_blur b c, Stmt.blurAll_blurAll b c body,
        Stmt.blurAll_blurAll b c other]
  | .whileLoop _ condition ⟨_, body⟩ => by
      simp [Stmt.blur, condition.blur_blur b c, Stmt.blurAll_blurAll b c body]
  | .countLoop _ _ first last ⟨_, body⟩ => by
      simp [Stmt.blur, first.blur_blur b c, last.blur_blur b c, Stmt.blurAll_blurAll b c body]
  | .function _ _ parameters body => by
      simp [Stmt.blur, Stmt.blurAll_blurAll b c body]
  | .give _ value => by simp [Stmt.blur, value.blur_blur b c]

theorem Stmt.blurAll_blurAll (b c : Blur) : (ss : List Stmt) →
    Stmt.blurAll b (Stmt.blurAll c ss) = Stmt.blurAll (b.after c) ss
  | [] => rfl
  | s :: rest => by
      simp [Stmt.blurAll, Stmt.blur_blur b c s, Stmt.blurAll_blurAll b c rest]

end

/-! ## Nothing is lost where everything is kept -/

@[simp] theorem Name.blur_sharp (name : Name) : name.blur .sharp = name := rfl

private theorem Name.map_blur_sharp (names : List Name) : names.map (Name.blur .sharp) = names := by
  induction names with
  | nil => rfl
  | cons name rest ih => simp [ih]

mutual

theorem Expr.blur_sharp : (e : Expr) → e.blur .sharp = e
  | .literal .. => rfl
  | .lookup .. => rfl
  | .assign _ _ value => by simp [Expr.blur, Expr.blur_sharp value]
  | .unary _ _ operand => by simp [Expr.blur, Expr.blur_sharp operand]
  | .binary _ _ left right => by simp [Expr.blur, Expr.blur_sharp left, Expr.blur_sharp right]
  | .logical _ _ _ left right => by
      simp [Expr.blur, Expr.blur_sharp left, Expr.blur_sharp right]
  | .call _ _ callee arguments => by
      simp [Expr.blur, Expr.blur_sharp callee, Expr.blurAll_sharp arguments]
  | .array _ elements => by simp [Expr.blur, Expr.blurAll_sharp elements]
  | .index _ source position => by
      simp [Expr.blur, Expr.blur_sharp source, Expr.blur_sharp position]

theorem Expr.blurAll_sharp : (es : List Expr) → Expr.blurAll .sharp es = es
  | [] => rfl
  | e :: rest => by simp [Expr.blurAll, Expr.blur_sharp e, Expr.blurAll_sharp rest]

end

mutual

theorem Stmt.blur_sharp : (s : Stmt) → s.blur .sharp = s
  | .expression value => by simp [Stmt.blur, Expr.blur_sharp value]
  | .print _ value => by simp [Stmt.blur, Expr.blur_sharp value]
  | .declare _ _ value => by simp [Stmt.blur, Expr.blur_sharp value]
  | .block ⟨_, body⟩ => by simp [Stmt.blur, Stmt.blurAll_sharp body]
  | .branch _ condition ⟨_, body⟩ none => by
      simp [Stmt.blur, Expr.blur_sharp condition, Stmt.blurAll_sharp body]
  | .branch _ condition ⟨_, body⟩ (some ⟨_, other⟩) => by
      simp [Stmt.blur, Expr.blur_sharp condition, Stmt.blurAll_sharp body,
        Stmt.blurAll_sharp other]
  | .whileLoop _ condition ⟨_, body⟩ => by
      simp [Stmt.blur, Expr.blur_sharp condition, Stmt.blurAll_sharp body]
  | .countLoop _ _ first last ⟨_, body⟩ => by
      simp [Stmt.blur, Expr.blur_sharp first, Expr.blur_sharp last, Stmt.blurAll_sharp body]
  | .function _ _ parameters body => by
      simp [Stmt.blur, Name.map_blur_sharp parameters, Stmt.blurAll_sharp body]
  | .give _ value => by simp [Stmt.blur, Expr.blur_sharp value]

theorem Stmt.blurAll_sharp : (ss : List Stmt) → Stmt.blurAll .sharp ss = ss
  | [] => rfl
  | s :: rest => by simp [Stmt.blurAll, Stmt.blur_sharp s, Stmt.blurAll_sharp rest]

end

theorem blurFault_sharp (fault : Located RuntimeFault) : blurFault .sharp fault = fault := by
  obtain ⟨span, fault⟩ := fault
  cases fault <;> rfl

theorem Diagnostic.blur_sharp (diagnostic : Diagnostic) : diagnostic.blur .sharp = diagnostic := by
  cases diagnostic with
  | lexical fault => rfl
  | grammar fault => rfl
  | runtime fault => rw [Diagnostic.blur, blurFault_sharp]

end Ardoise
