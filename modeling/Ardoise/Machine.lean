import Ardoise.Store
import Ardoise.Tree.Listing

/-!
# The machine

All that a running program can change: the scopes, which of them is current,
the calls in progress, the lines printed, and a journal of what was done.  A
`Run` is a computation on the machine.  It ends with a value or with a fault,
and leaves a machine behind in both cases; or it does not end within its fuel,
and leaves nothing.
-/

namespace Ardoise

structure Limits where
  /-- Calls of declared functions that may be in progress at once. -/
  callDepth : Nat := 128
  /-- Levels of nesting that a program may have. -/
  nesting : Nat := 256
  deriving DecidableEq

inductive Event where
  | scanned (tokens : Nat)
  | parsed (statements : Nat)
  | listed (program : Program)
  | executing (span : Span)
  | calling (name : String) (arguments : Nat)
  | nestingStopped (limit : Nat) (span : Span)
  | loopStopped (span : Span)
  | callStopped (name : String) (span : Span)

def maxTurns : Nat := 10000

namespace Event

inductive Severity where
  | trace
  | debug
  | warning
  deriving DecidableEq

def severity : Event → Severity
  | scanned _ | parsed _ | executing _ | calling .. => .trace
  | listed _ => .debug
  | nestingStopped .. | loopStopped _ | callStopped .. => .warning

def text : Event → String
  | scanned tokens => s!"scanned {tokens} tokens"
  | parsed statements => s!"parsed {statements} top-level statements"
  | listed program => "AST:\n" ++ program.listing
  | executing span => "execute statement at " ++ span.text
  | calling name arguments => s!"call {name} with {arguments} argument(s)"
  | nestingStopped limit span => s!"nesting limit of {limit} reached at " ++ span.text
  | loopStopped span =>
    "while loop at " ++ span.text ++ s!" stopped after {maxTurns} iterations"
  | callStopped name span =>
    s!"call to {name} at " ++ span.text ++ " exceeds the depth limit"

end Event

structure Machine where
  store : Store
  scope : Scope
  /-- Calls of declared functions in progress. -/
  depth : Nat
  lines : Array String
  /-- The scopes that functions were declared in. -/
  captured : List Scope
  /-- How many closures were made so far. -/
  closures : Nat
  journal : Array Event

inductive Outcome (α : Type) where
  | done (value : α) (machine : Machine)
  | failed (fault : Located RuntimeFault) (machine : Machine)
  | exhausted

def Run (α : Type) : Type := Machine → Outcome α

namespace Run

variable {α β : Type}

@[always_inline, inline]
protected def pure (a : α) : Run α := fun machine => .done a machine

@[always_inline, inline]
protected def bind (r : Run α) (f : α → Run β) : Run β := fun machine =>
  match r machine with
  | .done a next => f a next
  | .failed fault stopped => .failed fault stopped
  | .exhausted => .exhausted

@[always_inline]
instance : Monad Run where
  pure := Run.pure
  bind := Run.bind

def exhausted : Run α := fun _ => .exhausted

def fail (span : Span) (fault : RuntimeFault) : Run α := fun machine =>
  .failed ⟨span, fault⟩ machine

def ofExcept (span : Span) : Except RuntimeFault α → Run α
  | .ok a => pure a
  | .error fault => fail span fault

def record (event : Event) : Run Unit := fun machine =>
  .done () { machine with journal := machine.journal.push event }

def print (line : String) : Run Unit := fun machine =>
  .done () { machine with lines := machine.lines.push line }

def lookup (name : Name) : Run Value := fun machine =>
  match machine.store.get machine.scope name.text with
  | .ok value => .done value machine
  | .error fault => .failed ⟨name.span, fault⟩ machine

def assign (name : Name) (value : Value) : Run Unit := fun machine =>
  match machine.store.assign machine.scope name.text value with
  | .ok store => .done () { machine with store := store }
  | .error fault => .failed ⟨name.span, fault⟩ machine

def declareIn (scope : Scope) (name : Name) (value : Value) : Run Unit := fun machine =>
  match machine.store.define scope name.text value with
  | .ok store => .done () { machine with store := store }
  | .error fault => .failed ⟨name.span, fault⟩ machine

def declare (name : Name) (value : Value) : Run Unit := fun machine =>
  declareIn machine.scope name value machine

def declareAllIn (scope : Scope) : List (Name × Value) → Run Unit
  | [] => pure ()
  | (name, value) :: rest => do
    declareIn scope name value
    declareAllIn scope rest

def newScope (outer : Scope) : Run Scope := fun machine =>
  let (scope, store) := machine.store.newChild outer
  .done scope { machine with store := store }

/-- Runs in the given scope and comes back to the current one, however the run ends. -/
def inside (scope : Scope) (r : Run α) : Run α := fun machine =>
  let current := machine.scope
  match r { machine with scope := scope } with
  | .done a next => .done a { next with scope := current }
  | .failed fault stopped => .failed fault { stopped with scope := current }
  | .exhausted => .exhausted

def inChild (r : Run α) : Run α := fun machine =>
  (do inside (← newScope machine.scope) r) machine

def duringCall (r : Run α) : Run α := fun machine =>
  match r { machine with depth := machine.depth + 1 } with
  | .done a next => .done a { next with depth := next.depth - 1 }
  | .failed fault stopped => .failed fault { stopped with depth := stopped.depth - 1 }
  | .exhausted => .exhausted

def closeOver (name : String) (parameters : List Name) (body : List Stmt) : Run Value :=
  fun machine =>
    .done (.function (.closure
      ⟨machine.closures, name, parameters.length, parameters, body, machine.scope⟩))
      { machine with
        captured := machine.scope :: machine.captured
        closures := machine.closures + 1 }

end Run

end Ardoise
