import Ardoise.Machine
import Ardoise.Value.Operation

/-!
# Evaluation

Expressions give values and statements change the machine, both by recursion on
the program.  Two things go beyond that recursion and take fuel: a call, which
runs the body of another statement, and the turns of a counting loop, which
need not end.  Conditional loops are cut off after `maxTurns` turns and calls
after as many as the limits allow, so neither can use up the fuel by itself.
-/

namespace Ardoise

inductive Flow where
  /-- Go on with the next statement. -/
  | next
  /-- Leave the call in progress with a value. -/
  | give (value : Value)

abbrev Invoke := Function → List Value → Span → Run Value

def asBoolean (span : Span) (fault : String → RuntimeFault) : Value → Run Bool
  | .boolean value => pure value
  | other => Run.fail span (fault other.kind)

def asNumber (span : Span) (fault : String → RuntimeFault) : Value → Run Float
  | .number value => pure value
  | other => Run.fail span (fault other.kind)

def asFunction (span argumentsSpan : Span) (received : Nat) : Value → Run Function
  | .function f =>
    if f.arity = received then pure f
    else Run.fail argumentsSpan (.arityMismatch f.arity received)
  | other => Run.fail span (.notCallable other.kind)

def asElements (span : Span) : Value → Run (List Value)
  | .array elements => pure elements
  | other => Run.fail span (.notAnArray other.kind)

/--
Whether the left operand alone decides a logical operation, of which all but `et`
are taken for `ou`.
-/
def Kind.decides (op : Kind) (left : Bool) : Bool :=
  decide (op = .keyword .et) != left

mutual

def evaluate (invoke : Invoke) : Expr → Run Value
  | .literal _ value => pure (.ofLiteral value)
  | .lookup _ name => Run.lookup name
  | .assign _ target value => do
    let value ← evaluate invoke value
    Run.assign target value
    return value
  | .unary span op operand => do
    let value ← evaluate invoke operand
    Run.ofExcept span (value.unary op)
  | .binary span op left right => do
    let a ← evaluate invoke left
    let b ← evaluate invoke right
    Run.ofExcept span (a.binary op b)
  | .logical _ op spelling left right => do
    let a ← asBoolean left.span (.logicalLeftNotBoolean spelling) (← evaluate invoke left)
    if op.decides a then
      return .boolean a
    else
      let b ← asBoolean right.span (.logicalRightNotBoolean spelling) (← evaluate invoke right)
      return .boolean b
  | .call span argumentsSpan callee arguments => do
    let f ← asFunction span argumentsSpan arguments.length (← evaluate invoke callee)
    let values ← evaluateAll invoke arguments
    invoke f values span
  | .array _ elements => do
    let values ← evaluateAll invoke elements
    return .array values
  | .index _ source position => do
    let elements ← asElements source.span (← evaluate invoke source)
    let index ← asNumber position.span .indexNotNumber (← evaluate invoke position)
    Run.ofExcept position.span (elementAt elements index)

def evaluateAll (invoke : Invoke) : List Expr → Run (List Value)
  | [] => pure []
  | e :: rest => do
    let value ← evaluate invoke e
    let values ← evaluateAll invoke rest
    return value :: values

end

def evaluateCondition (invoke : Invoke) (condition : Expr) : Run Bool := do
  asBoolean condition.span .conditionNotBoolean (← evaluate invoke condition)

def evaluateBound (invoke : Invoke) (bound : Bound) (e : Expr) : Run Float := do
  asNumber e.span (.loopBoundNotNumber bound) (← evaluate invoke e)

def whileTurns (span : Span) (condition : Run Bool) (body : Run Flow) : Nat → Run Flow
  | 0 => do
    if ← condition then
      Run.record (.loopStopped span)
      Run.fail span .infiniteLoop
    else
      return .next
  | turns + 1 => do
    if ← condition then
      match ← body with
      | .next => whileTurns span condition body turns
      | .give value => return .give value
    else
      return .next

def withinBounds (step last current : Float) : Bool :=
  (step > 0 && current ≤ last) || (step < 0 && current ≥ last)

def countTurns (step last : Float) (body : Float → Run Flow) : Nat → Float → Run Flow
  | 0, _ => Run.exhausted
  | fuel + 1, current => do
    if withinBounds step last current then
      match ← body current with
      | .next => countTurns step last body fuel (current + step)
      | .give value => return .give value
    else
      return .next

/-- Counting goes up by one, or down by one where the first bound is not below the last. -/
def countStep (first last : Float) : Float :=
  if first ≤ last then 1 else -1

def withCounter (counter : Name) (body : Run Flow) (current : Float) : Run Flow := fun machine =>
  (do
    let scope ← Run.newScope machine.scope
    Run.declareIn scope counter (.number current)
    Run.inside scope body) machine

mutual

def execute (invoke : Invoke) (fuel : Nat) : Stmt → Run Flow
  | .expression value => do
    Run.record (.executing value.span)
    let _ ← evaluate invoke value
    return .next
  | .print span value => do
    Run.record (.executing span)
    Run.print (← evaluate invoke value).display
    return .next
  | .declare span name value => do
    Run.record (.executing span)
    Run.declare name (← evaluate invoke value)
    return .next
  | .block ⟨span, body⟩ => do
    Run.record (.executing span)
    Run.inChild (executeAll invoke fuel body)
  | .branch span condition ⟨_, body⟩ none => do
    Run.record (.executing span)
    if ← evaluateCondition invoke condition then
      Run.inChild (executeAll invoke fuel body)
    else
      return .next
  | .branch span condition ⟨_, body⟩ (some ⟨_, otherwise⟩) => do
    Run.record (.executing span)
    if ← evaluateCondition invoke condition then
      Run.inChild (executeAll invoke fuel body)
    else
      Run.inChild (executeAll invoke fuel otherwise)
  | .whileLoop span condition ⟨_, body⟩ => do
    Run.record (.executing span)
    whileTurns condition.span (evaluateCondition invoke condition)
      (Run.inChild (executeAll invoke fuel body)) maxTurns
  | .countLoop span counter first last ⟨_, body⟩ => do
    Run.record (.executing span)
    let a ← evaluateBound invoke .first first
    let b ← evaluateBound invoke .last last
    countTurns (countStep a b) b (withCounter counter (executeAll invoke fuel body)) fuel a
  | .function span name parameters body => do
    Run.record (.executing span)
    Run.declare name (← Run.closeOver name.text parameters body)
    return .next
  | .give span value => do
    Run.record (.executing span)
    return .give (← evaluate invoke value)

def executeAll (invoke : Invoke) (fuel : Nat) : List Stmt → Run Flow
  | [] => pure .next
  | s :: rest => do
    match ← execute invoke fuel s with
    | .next => executeAll invoke fuel rest
    | .give value => return .give value

end

def invokeBuiltin (f : Builtin) (arguments : List Value) (span : Span) : Run Value :=
  match f.apply arguments with
  | .gives value => pure value
  | .prints line => do
    Run.print line
    return .void
  | .refuses reason => Run.fail span (.library f.name reason)

def guardDepth (limit : Nat) (name : String) (span : Span) : Run Unit := fun machine =>
  (if limit ≤ machine.depth then do
    Run.record (.callStopped name span)
    Run.fail span (.callDepthExceeded limit)
  else pure ()) machine

def Flow.result : Flow → Value
  | next => .void
  | give value => value

/-- Calls a closure: its body runs in a new scope inside the one it was declared in. -/
def invokeClosure (limit : Nat) (run : List Stmt → Run Flow) (f : Closure) (arguments : List Value)
    (span : Span) : Run Value := do
  guardDepth limit f.name span
  let scope ← Run.newScope f.scope
  Run.declareAllIn scope (f.parameters.zip arguments)
  let flow ← Run.duringCall (Run.inside scope (run f.body))
  return flow.result

def invoke (limit : Nat) : Nat → Invoke
  | 0 => fun _ _ _ => Run.exhausted
  | fuel + 1 => fun f arguments span => do
    Run.record (.calling f.name arguments.length)
    match f with
    | .builtin f _ => invokeBuiltin f arguments span
    | .closure f => invokeClosure limit (executeAll (invoke limit fuel) fuel) f arguments span

def runProgram (limits : Limits) (fuel : Nat) (program : Program) : Run Flow :=
  executeAll (invoke limits.callDepth fuel) fuel program

end Ardoise
