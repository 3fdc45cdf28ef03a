import Ardoise.Proofs.Holdings
import Ardoise.Proofs.Moments

/-!
# Where functions and faults come from

A function is one of the library, or it was made by a statement that declares it,
and it keeps the number of its parameters.  So all functions that a run of some
statements comes to, in variables, in arrays, as arguments or as results, are
declared by these statements or by those they are made of, if this was so at the
start.  That holds also of what a run leaves behind that fails.

A fault is raised by an expression or a statement of that code, and each can raise
few faults of its own.  `Terms` are what is asked of the end of a run: which faults
may stop it, and whether it may go on for ever.  A run of code whose own faults are
within the terms keeps them, and does not go on for ever if nothing in it counts
and its fuel exceeds the calls that can be in progress at once.
-/

namespace Ardoise

/-! ## Code -/

def Stmt.parts : Stmt → List Stmt
  | .block ⟨_, body⟩ | .branch _ _ ⟨_, body⟩ none | .whileLoop _ _ ⟨_, body⟩
  | .countLoop _ _ _ _ ⟨_, body⟩ | .function _ _ _ body => body
  | .branch _ _ ⟨_, body⟩ (some ⟨_, other⟩) => body ++ other
  | .expression _ | .print _ _ | .declare _ _ _ | .give _ _ => []

def Stmt.Closed (S : Stmt → Prop) : Prop :=
  ∀ s, S s → ∀ part ∈ s.parts, S part

def Expr.parts : Expr → List Expr
  | .literal _ _ | .lookup _ _ => []
  | .assign _ _ e | .unary _ _ e => [e]
  | .binary _ _ left right | .logical _ _ _ left right | .index _ left right => [left, right]
  | .call _ _ callee arguments => callee :: arguments
  | .array _ elements => elements

def Stmt.expressions : Stmt → List Expr
  | .expression e | .print _ e | .declare _ _ e | .give _ e | .branch _ e _ _
  | .whileLoop _ e _ => [e]
  | .countLoop _ _ first last _ => [first, last]
  | .block _ | .function .. => []

/-- Statements and expressions with all that stands in them. -/
structure Code (S : Stmt → Prop) (E : Expr → Prop) : Prop where
  closed : Stmt.Closed S
  expressions : ∀ s, S s → ∀ e ∈ s.expressions, E e
  operands : ∀ e, E e → ∀ part ∈ e.parts, E part

theorem forall_mem_pair {α : Type} {P : α → Prop} {a b : α} :
    (∀ x ∈ [a, b], P x) ↔ P a ∧ P b := by
  simp

/-! ## Functions -/

inductive Function.From (S : Stmt → Prop) : Function → Prop
  | builtin (f : Builtin) : From S (.builtin f f.arity)
  | closure {f : Closure} {span : Span} {name : Name} (named : f.name = name.text)
      (counted : f.arity = f.parameters.length)
      (declared : S (.function span name f.parameters f.body)) : From S (.closure f)

theorem Function.From.mono {S T : Stmt → Prop} (weaker : ∀ s, S s → T s) {f : Function}
    (h : f.From S) : f.From T := by
  cases h with
  | builtin f => exact .builtin f
  | closure named counted declared => exact .closure named counted (weaker _ declared)

inductive Value.Holds (F : Function → Prop) : Value → Prop
  | plain {value : Value} (plain : value.Plain) : Holds F value
  | array {elements : List Value} (each : ∀ value ∈ elements, Holds F value) :
      Holds F (.array elements)
  | function {f : Function} (has : F f) : Holds F (.function f)

abbrev Value.From (S : Stmt → Prop) : Value → Prop := Value.Holds (Function.From S)

theorem Value.Holds.mono {F G : Function → Prop} (weaker : ∀ f, F f → G f) {value : Value}
    (h : value.Holds F) : value.Holds G := by
  induction h with
  | plain plain => exact .plain plain
  | array _ ih => exact .array ih
  | function has => exact .function (weaker _ has)

inductive Flow.From (S : Stmt → Prop) : Flow → Prop
  | next : From S .next
  | give {value : Value} (made : value.From S) : From S (.give value)

theorem Flow.From.result {S : Stmt → Prop} {flow : Flow} (h : flow.From S) :
    flow.result.From S := by
  cases h with
  | next => exact .plain .void
  | give made => exact made

/-! ## Faults -/

inductive StopsCall (span : Span) : Located RuntimeFault → Prop
  | refused {f : Builtin} {argument : Value} {reason : String}
      (refuses : f.apply [argument] = .refuses reason) :
      StopsCall span ⟨span, .library f.name reason⟩
  | tooDeep (limit : Nat) : StopsCall span ⟨span, .callDepthExceeded limit⟩

/-- The faults that the expression itself may raise, rather than what stands in it. -/
inductive Expr.Raises : Expr → Located RuntimeFault → Prop
  | undefined {span : Span} {name : Name} :
      Raises (.lookup span name) ⟨name.span, .undefinedVariable name.text⟩
  | undefinedTarget {span : Span} {target : Name} {value : Expr} :
      Raises (.assign span target value) ⟨target.span, .undefinedVariable target.text⟩
  | readOnly {span : Span} {target : Name} {value : Expr} :
      Raises (.assign span target value) ⟨target.span, .readOnly target.text⟩
  | unary {span : Span} {op : Kind} {operand : Expr} {a : Value} {fault : RuntimeFault}
      (fails : a.unary op = .error fault) : Raises (.unary span op operand) ⟨span, fault⟩
  | binary {span : Span} {op : Kind} {left right : Expr} {a b : Value} {fault : RuntimeFault}
      (fails : a.binary op b = .error fault) : Raises (.binary span op left right) ⟨span, fault⟩
  | logicalLeft {span : Span} {op : Kind} {spelling : String} {left right : Expr}
      (found : String) : Raises (.logical span op spelling left right)
        ⟨left.span, .logicalLeftNotBoolean spelling found⟩
  | logicalRight {span : Span} {op : Kind} {spelling : String} {left right : Expr}
      (found : String) : Raises (.logical span op spelling left right)
        ⟨right.span, .logicalRightNotBoolean spelling found⟩
  | notCallable {span argumentsSpan : Span} {callee : Expr} {arguments : List Expr}
      (found : String) :
      Raises (.call span argumentsSpan callee arguments) ⟨span, .notCallable found⟩
  | arity {span argumentsSpan : Span} {callee : Expr} {arguments : List Expr} {expected : Nat}
      (other : expected ≠ arguments.length) : Raises (.call span argumentsSpan callee arguments)
        ⟨argumentsSpan, .arityMismatch expected arguments.length⟩
  | call {span argumentsSpan : Span} {callee : Expr} {arguments : List Expr}
      {fault : Located RuntimeFault} (stops : StopsCall span fault) :
      Raises (.call span argumentsSpan callee arguments) fault
  | notAnArray {span : Span} {source position : Expr} (found : String) :
      Raises (.index span source position) ⟨source.span, .notAnArray found⟩
  | indexNotNumber {span : Span} {source position : Expr} (found : String) :
      Raises (.index span source position) ⟨position.span, .indexNotNumber found⟩
  | element {span : Span} {source position : Expr} {elements : List Value} {index : Float}
      {fault : RuntimeFault} (fails : elementAt elements index = .error fault) :
      Raises (.index span source position) ⟨position.span, fault⟩

/--
The faults that the statement itself may raise.  The parameters of a function are
declared when it is called.
-/
inductive Stmt.Raises : Stmt → Located RuntimeFault → Prop
  | declare {span : Span} {name : Name} {value : Expr} :
      Raises (.declare span name value) ⟨name.span, .redeclaration name.text⟩
  | function {span : Span} {name : Name} {parameters : List Name} {body : List Stmt} :
      Raises (.function span name parameters body) ⟨name.span, .redeclaration name.text⟩
  | parameter {span : Span} {name : Name} {parameters : List Name} {body : List Stmt}
      {parameter : Name} (member : parameter ∈ parameters) :
      Raises (.function span name parameters body)
        ⟨parameter.span, .redeclaration parameter.text⟩
  | branch {span : Span} {condition : Expr} {body : Block Stmt} {otherwise : Option (Block Stmt)}
      (found : String) :
      Raises (.branch span condition body otherwise) ⟨condition.span, .conditionNotBoolean found⟩
  | condition {span : Span} {condition : Expr} {body : Block Stmt} (found : String) :
      Raises (.whileLoop span condition body) ⟨condition.span, .conditionNotBoolean found⟩
  | infinite {span : Span} {condition : Expr} {body : Block Stmt} :
      Raises (.whileLoop span condition body) ⟨condition.span, .infiniteLoop⟩
  | first {span : Span} {counter : Name} {first last : Expr} {body : Block Stmt}
      (found : String) : Raises (.countLoop span counter first last body)
        ⟨first.span, .loopBoundNotNumber .first found⟩
  | last {span : Span} {counter : Name} {first last : Expr} {body : Block Stmt}
      (found : String) : Raises (.countLoop span counter first last body)
        ⟨last.span, .loopBoundNotNumber .last found⟩

namespace Store

variable {store : Store} {scope : Scope} {name : String} {value : Value} {fault : RuntimeFault}

private theorem fault_of_get (h : store.get scope name = .error fault) :
    fault = .undefinedVariable name := by
  unfold get at h
  split at h <;> cases h
  rfl

private theorem fault_of_assign (h : store.assign scope name value = .error fault) :
    fault = .undefinedVariable name ∨ fault = .readOnly name := by
  unfold assign at h
  split at h
  · cases h
    exact .inl rfl
  split at h <;> cases h
  exact .inr rfl

private theorem fault_of_define (h : store.define scope name value = .error fault) :
    fault = .redeclaration name := by
  unfold define at h
  split at h <;> cases h
  rfl

end Store

/-! ## Terms -/

/-- What is asked of the end of a run. -/
structure Terms where
  permits : Located RuntimeFault → Prop
  /-- Whether a run may go on for ever. -/
  endless : Prop

def Terms.none : Terms := ⟨fun _ => True, True⟩

/-- Code that raises no faults but those which the terms permit. -/
structure Terms.Suit (t : Terms) (S : Stmt → Prop) (E : Expr → Prop) : Prop extends Code S E where
  raised : ∀ e, E e → ∀ fault, e.Raises fault → t.permits fault
  stopped : ∀ s, S s → ∀ fault, s.Raises fault → t.permits fault
  counts : ∀ span counter first last body, S (.countLoop span counter first last body) → t.endless

theorem Code.suits_none {S : Stmt → Prop} {E : Expr → Prop} (code : Code S E) :
    Terms.none.Suit S E :=
  ⟨code, fun _ _ _ _ => trivial, fun _ _ _ _ => trivial, fun _ _ _ _ _ _ => trivial⟩

variable {t : Terms} {S : Stmt → Prop} {E : Expr → Prop} {depth : Nat}

/-! ## Runs -/

structure Machine.From (S : Stmt → Prop) (depth : Nat) (m : Machine) : Prop where
  depth : m.depth = depth
  store : m.store.Each (Value.From S)

/--
What the run leaves in the store comes from the statements, and so does its result;
it ends on the terms.
-/
def Outcome.Keeps {α : Type} (t : Terms) (S : Stmt → Prop) (depth : Nat) (Q : α → Prop) :
    Outcome α → Prop
  | .done a m => m.From S depth ∧ Q a
  | .failed fault m => m.store.Each (Value.From S) ∧ t.permits fault
  | .exhausted => t.endless

namespace Run

variable {α β : Type} {P : α → Prop} {Q : β → Prop}

def Keeps (t : Terms) (S : Stmt → Prop) (depth : Nat) (Q : α → Prop) (x : Run α) : Prop :=
  ∀ m : Machine, m.From S depth → (x m).Keeps t S depth Q

theorem keeps_pure {a : α} (h : P a) : Keeps t S depth P (pure a) :=
  fun _ machine => ⟨machine, h⟩

theorem Keeps.bind {x : Run α} {f : α → Run β} (first : Keeps t S depth P x)
    (second : ∀ a, P a → Keeps t S depth Q (f a)) : Keeps t S depth Q (x >>= f) := by
  intro m machine
  have outcome := first m machine
  change (Run.bind x f m).Keeps t S depth Q
  unfold Run.bind
  generalize x m = o at outcome
  cases o with
  | done a n => exact second a outcome.2 n outcome.1
  | failed fault n => exact outcome
  | exhausted => exact outcome

theorem keeps_fail {span : Span} {fault : RuntimeFault} (permitted : t.permits ⟨span, fault⟩) :
    Keeps t S depth P (fail span fault) :=
  fun _ machine => ⟨machine.store, permitted⟩

theorem keeps_ofExcept {span : Span} {x : Except RuntimeFault α} (good : ∀ a, x = .ok a → P a)
    (permitted : ∀ fault, x = .error fault → t.permits ⟨span, fault⟩) :
    Keeps t S depth P (ofExcept span x) := by
  cases x with
  | ok a => exact keeps_pure (good a rfl)
  | error fault => exact keeps_fail (permitted fault rfl)

theorem keeps_record (event : Event) : Keeps t S depth (fun _ => True) (record event) :=
  fun _ machine => ⟨⟨machine.depth, machine.store⟩, trivial⟩

theorem keeps_print (line : String) : Keeps t S depth (fun _ => True) (print line) :=
  fun _ machine => ⟨⟨machine.depth, machine.store⟩, trivial⟩

private theorem keeps_lookup {name : Name}
    (permitted : t.permits ⟨name.span, .undefinedVariable name.text⟩) :
    Keeps t S depth (Value.From S) (lookup name) := by
  intro m machine
  unfold lookup
  split
  · rename_i found
    exact ⟨machine, machine.store.get found⟩
  · rename_i missing
    rw [Store.fault_of_get missing]
    exact ⟨machine.store, permitted⟩

private theorem keeps_assign {name : Name} {value : Value} (made : value.From S)
    (undefined : t.permits ⟨name.span, .undefinedVariable name.text⟩)
    (readOnly : t.permits ⟨name.span, .readOnly name.text⟩) :
    Keeps t S depth (fun _ => True) (assign name value) := by
  intro m machine
  unfold assign
  split
  · rename_i assigned
    exact ⟨⟨machine.depth, machine.store.assign made assigned⟩, trivial⟩
  · rename_i refused
    refine ⟨machine.store, ?_⟩
    rcases Store.fault_of_assign refused with rfl | rfl
    · exact undefined
    · exact readOnly

theorem keeps_declareIn (scope : Scope) {name : Name} {value : Value} (made : value.From S)
    (permitted : t.permits ⟨name.span, .redeclaration name.text⟩) :
    Keeps t S depth (fun _ => True) (declareIn scope name value) := by
  intro m machine
  unfold declareIn
  split
  · rename_i defined
    exact ⟨⟨machine.depth, machine.store.define made defined⟩, trivial⟩
  · rename_i refused
    rw [Store.fault_of_define refused]
    exact ⟨machine.store, permitted⟩

theorem keeps_declare {name : Name} {value : Value} (made : value.From S)
    (permitted : t.permits ⟨name.span, .redeclaration name.text⟩) :
    Keeps t S depth (fun _ => True) (declare name value) :=
  fun m machine => keeps_declareIn m.scope made permitted m machine

theorem keeps_declareAllIn (scope : Scope) {names : List Name} {values : List Value}
    (made : ∀ value ∈ values, value.From S)
    (permitted : ∀ name ∈ names, t.permits ⟨name.span, .redeclaration name.text⟩) :
    Keeps t S depth (fun _ => True) (declareAllIn scope (names.zip values)) := by
  induction names generalizing values with
  | nil => exact keeps_pure trivial
  | cons name names ih =>
      cases values with
      | nil => exact keeps_pure trivial
      | cons value values =>
          rw [List.forall_mem_cons] at made permitted
          exact (keeps_declareIn scope made.1 permitted.1).bind fun _ _ => ih made.2 permitted.2

theorem keeps_newScope (outer : Scope) : Keeps t S depth (fun _ => True) (newScope outer) :=
  fun _ machine => ⟨⟨machine.depth, machine.store.push _⟩, trivial⟩

theorem Keeps.inside {x : Run α} (h : Keeps t S depth P x) (scope : Scope) :
    Keeps t S depth P (inside scope x) := by
  intro m machine
  have outcome := h { m with scope := scope } ⟨machine.depth, machine.store⟩
  simp only [Run.inside]
  generalize x { m with scope := scope } = o at outcome
  cases o with
  | done a n => exact ⟨⟨outcome.1.depth, outcome.1.store⟩, outcome.2⟩
  | failed fault n => exact outcome
  | exhausted => exact outcome

theorem Keeps.inChild {x : Run α} (h : Keeps t S depth P x) : Keeps t S depth P (inChild x) :=
  fun m machine => ((keeps_newScope m.scope).bind fun scope _ => h.inside scope) m machine

theorem Keeps.duringCall {x : Run α} (h : Keeps t S (depth + 1) P x) :
    Keeps t S depth P (duringCall x) := by
  intro m machine
  have outcome := h { m with depth := m.depth + 1 }
    ⟨congrArg Nat.succ machine.depth, machine.store⟩
  simp only [Run.duringCall]
  generalize x { m with depth := m.depth + 1 } = o at outcome
  cases o with
  | done a n => exact ⟨⟨congrArg Nat.pred outcome.1.depth, outcome.1.store⟩, outcome.2⟩
  | failed fault n => exact outcome
  | exhausted => exact outcome

theorem keeps_closeOver {span : Span} {name : Name} {parameters : List Name} {body : List Stmt}
    (declared : S (.function span name parameters body)) :
    Keeps t S depth (Value.From S) (closeOver name.text parameters body) :=
  fun _ machine =>
    ⟨⟨machine.depth, machine.store⟩, .function (.closure rfl rfl declared)⟩

end Run

open Run

def Invoke.Keeps (t : Terms) (S : Stmt → Prop) (depth : Nat) (i : Invoke) : Prop :=
  ∀ f values span, f.From S → (∀ value ∈ values, value.From S) → f.arity = values.length →
    (∀ fault, StopsCall span fault → t.permits fault) →
    Run.Keeps t S depth (Value.From S) (i f values span)

/-! ## Expressions -/

theorem keeps_asBoolean {span : Span} {fault : String → RuntimeFault}
    (permitted : ∀ found, t.permits ⟨span, fault found⟩) (value : Value) :
    Keeps t S depth (fun _ => True) (asBoolean span fault value) := by
  unfold asBoolean
  split
  · exact keeps_pure trivial
  · exact keeps_fail (permitted _)

theorem keeps_asNumber {span : Span} {fault : String → RuntimeFault}
    (permitted : ∀ found, t.permits ⟨span, fault found⟩) (value : Value) :
    Keeps t S depth (fun _ => True) (asNumber span fault value) := by
  unfold asNumber
  split
  · exact keeps_pure trivial
  · exact keeps_fail (permitted _)

private theorem keeps_asFunction {span argumentsSpan : Span} {received : Nat} {value : Value}
    (made : value.From S) (uncallable : ∀ found, t.permits ⟨span, .notCallable found⟩)
    (mismatch : ∀ expected, expected ≠ received →
      t.permits ⟨argumentsSpan, .arityMismatch expected received⟩) :
    Keeps t S depth (fun f => f.From S ∧ f.arity = received)
      (asFunction span argumentsSpan received value) := by
  cases made with
  | plain plain => cases plain <;> exact keeps_fail (uncallable _)
  | array each => exact keeps_fail (uncallable _)
  | function made =>
      simp only [asFunction]
      split
      · rename_i agree
        exact keeps_pure ⟨made, agree⟩
      · rename_i other
        exact keeps_fail (mismatch _ other)

private theorem keeps_asElements {span : Span} {value : Value} (made : value.From S)
    (permitted : ∀ found, t.permits ⟨span, .notAnArray found⟩) :
    Keeps t S depth (fun values => ∀ value ∈ values, value.From S) (asElements span value) := by
  cases made with
  | plain plain => cases plain <;> exact keeps_fail (permitted _)
  | array each => exact keeps_pure each
  | function made => exact keeps_fail (permitted _)

mutual

theorem keeps_evaluate {i : Invoke} (suit : t.Suit S E) (calls : i.Keeps t S depth) :
    (e : Expr) → E e → Run.Keeps t S depth (Value.From S) (evaluate i e)
  | .literal _ value, _ => keeps_pure (.plain (.ofLiteral value))
  | .lookup _ name, h => keeps_lookup (suit.raised _ h _ .undefined)
  | .assign _ target value, h => by
      have operand := List.forall_mem_singleton.mp (suit.operands _ h)
      simp only [evaluate]
      refine (keeps_evaluate suit calls value operand).bind fun v made => ?_
      refine (keeps_assign made ?_ ?_).bind fun _ _ => keeps_pure made
      · exact suit.raised _ h _ .undefinedTarget
      · exact suit.raised _ h _ .readOnly
  | .unary span op operand, h => by
      have inner := List.forall_mem_singleton.mp (suit.operands _ h)
      simp only [evaluate]
      exact (keeps_evaluate suit calls operand inner).bind fun _ _ => keeps_ofExcept
        (fun _ applied => .plain (Value.plain_of_unary applied))
        fun _ fails => suit.raised _ h _ (.unary fails)
  | .binary span op left right, h => by
      obtain ⟨first, second⟩ := forall_mem_pair.mp (suit.operands _ h)
      simp only [evaluate]
      refine (keeps_evaluate suit calls left first).bind fun _ _ => ?_
      exact (keeps_evaluate suit calls right second).bind fun _ _ => keeps_ofExcept
        (fun _ applied => .plain (Value.plain_of_binary applied))
        fun _ fails => suit.raised _ h _ (.binary fails)
  | .logical _ op spelling left right, h => by
      obtain ⟨first, second⟩ := forall_mem_pair.mp (suit.operands _ h)
      simp only [evaluate]
      refine (keeps_evaluate suit calls left first).bind fun _ _ => ?_
      refine (keeps_asBoolean (fun found => suit.raised _ h _ (.logicalLeft found)) _).bind
        fun a _ => ?_
      split
      · exact keeps_pure (.plain (.boolean a))
      · refine (keeps_evaluate suit calls right second).bind fun _ _ => ?_
        exact (keeps_asBoolean (fun found => suit.raised _ h _ (.logicalRight found)) _).bind
          fun b _ => keeps_pure (.plain (.boolean b))
  | .call span argumentsSpan callee arguments, h => by
      obtain ⟨first, others⟩ := List.forall_mem_cons.mp (suit.operands _ h)
      simp only [evaluate]
      refine (keeps_evaluate suit calls callee first).bind fun _ made => ?_
      refine (keeps_asFunction made (fun found => suit.raised _ h _ (.notCallable found))
        fun _ other => suit.raised _ h _ (.arity other)).bind fun f isFunction => ?_
      refine (keeps_evaluateAll suit calls arguments others).bind fun values given => ?_
      exact calls f values span isFunction.1 given.1 (isFunction.2.trans given.2.symm)
        fun _ stops => suit.raised _ h _ (.call stops)
  | .array _ elements, h => by
      simp only [evaluate]
      exact (keeps_evaluateAll suit calls elements (suit.operands _ h)).bind fun _ given =>
        keeps_pure (.array given.1)
  | .index _ source position, h => by
      obtain ⟨first, second⟩ := forall_mem_pair.mp (suit.operands _ h)
      simp only [evaluate]
      refine (keeps_evaluate suit calls source first).bind fun _ made => ?_
      refine (keeps_asElements made fun found => suit.raised _ h _ (.notAnArray found)).bind
        fun elements each => ?_
      refine (keeps_evaluate suit calls position second).bind fun _ _ => ?_
      refine (keeps_asNumber (fun found => suit.raised _ h _ (.indexNotNumber found)) _).bind
        fun index _ => ?_
      exact keeps_ofExcept (fun value found => each value (mem_of_elementAt found))
        fun _ fails => suit.raised _ h _ (.element fails)

theorem keeps_evaluateAll {i : Invoke} (suit : t.Suit S E) (calls : i.Keeps t S depth) :
    (es : List Expr) → (∀ e ∈ es, E e) → Run.Keeps t S depth
      (fun values => (∀ value ∈ values, value.From S) ∧ values.length = es.length)
      (evaluateAll i es)
  | [], _ => keeps_pure ⟨by simp, rfl⟩
  | e :: rest, h => by
      rw [List.forall_mem_cons] at h
      simp only [evaluateAll]
      refine (keeps_evaluate suit calls e h.1).bind fun value made => ?_
      refine (keeps_evaluateAll suit calls rest h.2).bind fun values given => keeps_pure ?_
      exact ⟨List.forall_mem_cons.mpr ⟨made, given.1⟩, congrArg Nat.succ given.2⟩

end

section

variable {i : Invoke} (suit : t.Suit S E) (calls : i.Keeps t S depth)
include suit calls

theorem keeps_evaluateCondition {condition : Expr} (h : E condition)
    (permitted : ∀ found, t.permits ⟨condition.span, .conditionNotBoolean found⟩) :
    Run.Keeps t S depth (fun _ => True) (evaluateCondition i condition) :=
  (keeps_evaluate suit calls condition h).bind fun _ _ => keeps_asBoolean permitted _

theorem keeps_evaluateBound {bound : Bound} {e : Expr} (h : E e)
    (permitted : ∀ found, t.permits ⟨e.span, .loopBoundNotNumber bound found⟩) :
    Run.Keeps t S depth (fun _ => True) (evaluateBound i bound e) :=
  (keeps_evaluate suit calls e h).bind fun _ _ => keeps_asNumber permitted _

end

/-! ## Statements -/

private theorem keeps_whileTurns {span : Span} (permitted : t.permits ⟨span, .infiniteLoop⟩)
    {condition : Run Bool} {body : Run Flow}
    (conditions : Keeps t S depth (fun _ => True) condition)
    (bodies : Keeps t S depth (Flow.From S) body) (turns : Nat) :
    Keeps t S depth (Flow.From S) (whileTurns span condition body turns) := by
  induction turns with
  | zero =>
      simp only [whileTurns]
      refine conditions.bind fun _ _ => ?_
      split
      · exact (keeps_record _).bind fun _ _ => keeps_fail permitted
      · exact keeps_pure .next
  | succ turns ih =>
      simp only [whileTurns]
      refine conditions.bind fun _ _ => ?_
      split
      · refine bodies.bind fun flow made => ?_
        cases made with
        | next => exact ih
        | give made => exact keeps_pure (.give made)
      · exact keeps_pure .next

private theorem keeps_countTurns (counts : t.endless) (step last : Float) {body : Float → Run Flow}
    (bodies : ∀ current, Keeps t S depth (Flow.From S) (body current)) (fuel : Nat)
    (current : Float) : Keeps t S depth (Flow.From S) (countTurns step last body fuel current) := by
  induction fuel generalizing current with
  | zero => exact fun _ _ => counts
  | succ fuel ih =>
      simp only [countTurns]
      split
      · refine (bodies current).bind fun flow made => ?_
        cases made with
        | next => exact ih _
        | give made => exact keeps_pure (.give made)
      · exact keeps_pure .next

theorem keeps_withCounter (counter : Name) {body : Run Flow}
    (bodies : Keeps t S depth (Flow.From S) body) (current : Float) :
    Keeps t S depth (Flow.From S) (withCounter counter body current) := by
  intro m machine
  have declared : Run.declareIn (m.enter m.scope).scope counter (.number current)
      { m with store := (m.store.newChild m.scope).2 } = .done () { m with
        store := (m.store.newChild m.scope).2.bind (m.enter m.scope).scope counter.text
          (.number current) } := by
    simp only [Run.declareIn, Machine.enter, Store.define_newChild]
  unfold withCounter
  rw [Run.newScope_bind, Run.bind_done declared]
  exact bodies.inside _ _ ⟨machine.depth, (machine.store.push _).bind (.plain (.number current))⟩

mutual

theorem keeps_execute {i : Invoke} (suit : t.Suit S E) (calls : i.Keeps t S depth) (fuel : Nat) :
    (s : Stmt) → S s → Run.Keeps t S depth (Flow.From S) (execute i fuel s)
  | .expression value, h => by
      have own := List.forall_mem_singleton.mp (suit.expressions _ h)
      simp only [execute]
      refine (keeps_record _).bind fun _ _ => ?_
      exact (keeps_evaluate suit calls value own).bind fun _ _ => keeps_pure .next
  | .print _ value, h => by
      have own := List.forall_mem_singleton.mp (suit.expressions _ h)
      simp only [execute]
      refine (keeps_record _).bind fun _ _ => ?_
      refine (keeps_evaluate suit calls value own).bind fun _ _ => ?_
      exact (keeps_print _).bind fun _ _ => keeps_pure .next
  | .declare _ name value, h => by
      have own := List.forall_mem_singleton.mp (suit.expressions _ h)
      simp only [execute]
      refine (keeps_record _).bind fun _ _ => ?_
      refine (keeps_evaluate suit calls value own).bind fun _ made => ?_
      exact (keeps_declare made (suit.stopped _ h _ .declare)).bind fun _ _ => keeps_pure .next
  | .block ⟨_, body⟩, h => by
      simp only [execute]
      exact (keeps_record _).bind fun _ _ =>
        (keeps_executeAll suit calls fuel body (suit.closed _ h)).inChild
  | .branch _ condition ⟨_, body⟩ none, h => by
      have own := List.forall_mem_singleton.mp (suit.expressions _ h)
      have test := keeps_evaluateCondition suit calls own fun found =>
        suit.stopped _ h _ (.branch found)
      simp only [execute]
      refine (keeps_record _).bind fun _ _ => test.bind fun _ _ => ?_
      split
      · exact (keeps_executeAll suit calls fuel body (suit.closed _ h)).inChild
      · exact keeps_pure .next
  | .branch _ condition ⟨_, body⟩ (some ⟨_, otherwise⟩), h => by
      have own := List.forall_mem_singleton.mp (suit.expressions _ h)
      have test := keeps_evaluateCondition suit calls own fun found =>
        suit.stopped _ h _ (.branch found)
      have parts := List.forall_mem_append.mp (suit.closed _ h)
      simp only [execute]
      refine (keeps_record _).bind fun _ _ => test.bind fun _ _ => ?_
      split
      · exact (keeps_executeAll suit calls fuel body parts.1).inChild
      · exact (keeps_executeAll suit calls fuel otherwise parts.2).inChild
  | .whileLoop _ condition ⟨_, body⟩, h => by
      have own := List.forall_mem_singleton.mp (suit.expressions _ h)
      have test := keeps_evaluateCondition suit calls own fun found =>
        suit.stopped _ h _ (.condition found)
      simp only [execute]
      refine (keeps_record _).bind fun _ _ => ?_
      exact keeps_whileTurns (suit.stopped _ h _ .infinite) test
        (keeps_executeAll suit calls fuel body (suit.closed _ h)).inChild maxTurns
  | .countLoop _ counter first last ⟨_, body⟩, h => by
      obtain ⟨lower, upper⟩ := forall_mem_pair.mp (suit.expressions _ h)
      simp only [execute]
      refine (keeps_record _).bind fun _ _ => ?_
      refine (keeps_evaluateBound suit calls lower fun found =>
        suit.stopped _ h _ (.first found)).bind fun a _ => ?_
      refine (keeps_evaluateBound suit calls upper fun found =>
        suit.stopped _ h _ (.last found)).bind fun b _ => ?_
      exact keeps_countTurns (suit.counts _ _ _ _ _ h) _ _ (keeps_withCounter counter
        (keeps_executeAll suit calls fuel body (suit.closed _ h))) fuel a
  | .function _ name parameters body, h => by
      simp only [execute]
      refine (keeps_record _).bind fun _ _ => ?_
      refine (keeps_closeOver h).bind fun _ made => ?_
      exact (keeps_declare made (suit.stopped _ h _ .function)).bind fun _ _ => keeps_pure .next
  | .give _ value, h => by
      have own := List.forall_mem_singleton.mp (suit.expressions _ h)
      simp only [execute]
      refine (keeps_record _).bind fun _ _ => ?_
      exact (keeps_evaluate suit calls value own).bind fun _ made => keeps_pure (.give made)

theorem keeps_executeAll {i : Invoke} (suit : t.Suit S E) (calls : i.Keeps t S depth)
    (fuel : Nat) : (ss : List Stmt) → (∀ s ∈ ss, S s) →
    Run.Keeps t S depth (Flow.From S) (executeAll i fuel ss)
  | [], _ => keeps_pure .next
  | s :: rest, h => by
      rw [List.forall_mem_cons] at h
      simp only [executeAll]
      refine (keeps_execute suit calls fuel s h.1).bind fun flow made => ?_
      cases made with
      | next => exact keeps_executeAll suit calls fuel rest h.2
      | give made => exact keeps_pure (.give made)

end

/-! ## Calls -/

private theorem keeps_invokeBuiltin (f : Builtin) {values : List Value} (single : values.length = 1)
    {span : Span} (permitted : ∀ fault, StopsCall span fault → t.permits fault) :
    Run.Keeps t S depth (Value.From S) (invokeBuiltin f values span) := by
  obtain ⟨value, rfl⟩ := List.length_eq_one_iff.mp single
  unfold invokeBuiltin
  split
  · rename_i answer
    exact keeps_pure (.plain (Builtin.plain_of_apply answer))
  · exact (keeps_print _).bind fun _ _ => keeps_pure (.plain .void)
  · rename_i refuses
    exact keeps_fail (permitted _ (.refused refuses))

private theorem keeps_guardDepth (limit : Nat) (name : String) {span : Span}
    (permitted : ∀ fault, StopsCall span fault → t.permits fault) :
    Run.Keeps t S depth (fun _ => depth < limit) (guardDepth limit name span) := by
  intro m machine
  rcases Nat.lt_or_ge m.depth limit with shallow | full
  · rw [guardDepth_of_lt shallow]
    exact ⟨machine, machine.depth ▸ shallow⟩
  · rw [guardDepth_of_le full]
    exact ⟨machine.store, permitted _ (.tooDeep limit)⟩

/-- Either the run may go on for ever, or the fuel outlasts the calls still to come. -/
def Terms.Affords (t : Terms) (limit fuel depth : Nat) : Prop :=
  t.endless ∨ depth ≤ limit ∧ limit < fuel + depth

theorem keeps_invoke (suit : t.Suit S E) (limit fuel : Nat) (affords : t.Affords limit fuel depth) :
    (invoke limit fuel).Keeps t S depth := by
  induction fuel generalizing depth with
  | zero =>
      intro f values span _ _ _ _ m _
      rcases affords with endless | ⟨low, high⟩
      · exact endless
      · omega
  | succ fuel ih =>
      intro f values span made given agree permitted
      simp only [invoke]
      refine (keeps_record _).bind fun _ _ => ?_
      cases made with
      | builtin f =>
          have single : f.arity = 1 := by cases f <;> rfl
          exact keeps_invokeBuiltin f (agree.symm.trans single) permitted
      | @closure f _ _ _ _ declared =>
          simp only [invokeClosure]
          refine (keeps_guardDepth limit f.name permitted).bind fun _ shallow => ?_
          refine (keeps_newScope f.scope).bind fun scope _ => ?_
          refine (keeps_declareAllIn scope given fun _ member =>
            suit.stopped _ declared _ (.parameter member)).bind fun _ _ => ?_
          -- the body runs one call deeper, on one unit of fuel less
          have left : t.Affords limit fuel (depth + 1) := by
            rcases affords with endless | ⟨_, high⟩
            · exact .inl endless
            · exact .inr ⟨shallow, by omega⟩
          have body := keeps_executeAll suit (ih left) fuel f.body (suit.closed _ declared)
          exact (body.inside scope).duringCall.bind fun flow made => keeps_pure made.result

theorem keeps_runProgram (suit : t.Suit S E) (limits : Limits) {fuel : Nat} {program : Program}
    (each : ∀ s ∈ program, S s) (enough : t.endless ∨ limits.callDepth < fuel) :
    Run.Keeps t S 0 (Flow.From S) (runProgram limits fuel program) :=
  keeps_executeAll suit
    (keeps_invoke suit _ _ (enough.imp_right fun more => ⟨Nat.zero_le _, more⟩)) fuel program each

/-! ## Moments -/

def Task.From (S : Stmt → Prop) (E : Expr → Prop) : Task → Prop
  | .expression e => E e
  | .expressions es => ∀ e ∈ es, E e
  | .statement s => S s
  | .statements ss => ∀ s ∈ ss, S s
  | .whileTurns condition body _ => E condition ∧ ∀ s ∈ body, S s
  | .countTurns _ _ _ body _ _ => ∀ s ∈ body, S s
  | .call f values _ => f.From S ∧ (∀ value ∈ values, value.From S) ∧ f.arity = values.length

structure Moment.From (S : Stmt → Prop) (E : Expr → Prop) (x : Moment) : Prop where
  task : x.task.From S E
  store : x.machine.store.Each (Value.From S)

theorem Run.Keeps.of_done {α : Type} {Q : α → Prop} {x : Run α} {m n : Machine} {a : α}
    (h : Keeps t S m.depth Q x) (done : x m = .done a n)
    (store : m.store.Each (Value.From S)) : n.store.Each (Value.From S) ∧ Q a := by
  have outcome := h m ⟨rfl, store⟩
  rw [done] at outcome
  exact ⟨outcome.1.store, outcome.2⟩

namespace Moment

variable {limit : Nat} {x y : Moment}

/-- The parts of a task are part of the same code, and the store holds no other functions. -/
theorem LeadsTo.comes_from (code : Code S E) (step : LeadsTo limit x y) (h : x.From S E) :
    y.From S E := by
  obtain ⟨task, store⟩ := h
  have suit := code.suits_none
  have calls (fuel : Nat) {depth : Nat} : (invoke limit fuel).Keeps .none S depth :=
    keeps_invoke suit limit fuel (.inl trivial)
  have expressions (fuel : Nat) {depth : Nat} {e : Expr} (own : E e) :
      Run.Keeps .none S depth (Value.From S) (evaluate (invoke limit fuel) e) :=
    keeps_evaluate suit (calls fuel) e own
  have conditions (fuel : Nat) {depth : Nat} {e : Expr} (own : E e) :
      Run.Keeps .none S depth (fun _ => True) (evaluateCondition (invoke limit fuel) e) :=
    keeps_evaluateCondition suit (calls fuel) own fun _ => trivial
  have bounds (fuel : Nat) {depth : Nat} {bound : Bound} {e : Expr} (own : E e) :
      Run.Keeps .none S depth (fun _ => True) (evaluateBound (invoke limit fuel) bound e) :=
    keeps_evaluateBound suit (calls fuel) own fun _ => trivial
  have bodies (fuel : Nat) {depth : Nat} {body : List Stmt} (each : ∀ s ∈ body, S s) :
      Run.Keeps .none S depth (Flow.From S) (executeAll (invoke limit fuel) fuel body) :=
    keeps_executeAll suit (calls fuel) fuel body each
  cases step with
  | assigned | operand => exact ⟨code.operands _ task _ (by simp [Expr.parts]), store⟩
  | binaryLeft | logicalLeft | callee | source =>
      exact ⟨code.operands _ task _ (by simp [Expr.parts]), store⟩
  | binaryRight first | logicalRight first | position first =>
      have parts := forall_mem_pair.mp (code.operands _ task)
      exact ⟨parts.2, ((expressions _ parts.1).of_done first store).1⟩
  | arguments found agree =>
      have parts := List.forall_mem_cons.mp (code.operands _ task)
      exact ⟨parts.2, ((expressions _ parts.1).of_done found store).1⟩
  | call found agree given =>
      have parts := List.forall_mem_cons.mp (code.operands _ task)
      obtain ⟨store, made⟩ := (expressions _ parts.1).of_done found store
      obtain ⟨store, each, count⟩ :=
        (keeps_evaluateAll suit (calls _) _ parts.2).of_done given store
      cases made with
      | plain plain => cases plain
      | function made => exact ⟨⟨made, each, agree.trans count.symm⟩, store⟩
  | elements => exact ⟨fun e => code.operands _ task e, store⟩
  | firstExpression => exact ⟨task _ (List.mem_cons_self ..), store⟩
  | otherExpressions first =>
      rw [Task.From, List.forall_mem_cons] at task
      exact ⟨task.2, ((expressions _ task.1).of_done first store).1⟩
  | @leading _ _ s e starts =>
      refine ⟨code.expressions _ task e ?_, store⟩
      cases s <;> cases starts <;> simp [Stmt.expressions]
  | block => exact ⟨code.closed _ task, store.push _⟩
  | @branchThen _ _ _ _ _ _ otherwise holds =>
      have own := List.forall_mem_singleton.mp (code.expressions _ task)
      have reached := (conditions _ own).of_done holds store
      refine ⟨fun s member => code.closed _ task s ?_, reached.1.push _⟩
      cases otherwise with
      | none => exact member
      | some other => exact List.mem_append_left _ member
  | branchElse fails =>
      have own := List.forall_mem_singleton.mp (code.expressions _ task)
      have reached := (conditions _ own).of_done fails store
      exact ⟨fun s member => code.closed _ task s (List.mem_append_right _ member),
        reached.1.push _⟩
  | whileLoop =>
      exact ⟨⟨code.expressions _ task _ (by simp [Stmt.expressions]), code.closed _ task⟩, store⟩
  | condition => exact ⟨task.1, store⟩
  | whileBody holds =>
      have reached := (conditions _ task.1).of_done holds store
      exact ⟨task.2, reached.1.push _⟩
  | whileAgain holds ran =>
      have reached := (conditions _ task.1).of_done holds store
      exact ⟨task, ((bodies _ task.2).inChild.of_done ran reached.1).1⟩
  | lastBound from' =>
      have own := forall_mem_pair.mp (code.expressions _ task)
      exact ⟨own.2, ((bounds _ own.1).of_done from' store).1⟩
  | countLoop from' to' =>
      have own := forall_mem_pair.mp (code.expressions _ task)
      have reached := (bounds _ own.1).of_done from' store
      exact ⟨code.closed _ task, ((bounds _ own.2).of_done to' reached.1).1⟩
  | countBody inBounds declared =>
      have reached := (keeps_declare (t := .none) (.plain (.number _)) trivial).of_done declared
        (store.push _)
      exact ⟨task, reached.1⟩
  | countAgain inBounds ran =>
      exact ⟨task, ((keeps_withCounter _ (bodies _ task) _).of_done ran store).1⟩
  | firstStatement => exact ⟨task _ (List.mem_cons_self ..), store⟩
  | otherStatements first =>
      rw [Task.From, List.forall_mem_cons] at task
      exact ⟨task.2, ((keeps_execute suit (calls _) _ _ task.1).of_done first store).1⟩
  | callBody admitted declared =>
      obtain ⟨-, rfl⟩ := guardDepth_done admitted
      obtain ⟨made, each, _⟩ := task
      cases made with
      | closure named counted declares =>
          have reached := (keeps_declareAllIn (t := .none) _ each fun _ _ => trivial).of_done
            declared (store.push _)
          exact ⟨code.closed _ declares, reached.1⟩

theorem comes_from_of_path (code : Code S E)
    (path : Relation.ReflTransGen (LeadsTo limit) x y) (h : x.From S E) : y.From S E := by
  induction path with
  | refl => exact h
  | tail _ step ih => exact step.comes_from code ih

end Moment

end Ardoise
