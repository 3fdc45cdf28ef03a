import Ardoise.Diagnostic
import Ardoise.Machine.Evaluation
import Ardoise.Parser

/-!
# Sessions

Sessions share a world: the store, in which the library stands, and the lines
printed so far.  Each session has a scope of its own inside that of the
library, and knows which scopes its functions were declared in, so that it can
forget everything it was told.
-/

namespace Ardoise

structure World where
  store : Store
  /-- The sealed scope that holds the library. -/
  library : Scope
  lines : Array String
  /-- How many closures were made so far. -/
  closures : Nat

structure Session where
  scope : Scope
  /-- The scopes that functions were declared in since the last reset. -/
  captured : List Scope
  limits : Limits

structure Report where
  world : World
  session : Session
  journal : Array Event
  /-- Why the run failed, if it did. -/
  diagnostic : Option Diagnostic

namespace World

def bindBuiltin (scope : Scope) (store : Store) (f : Builtin) : Store :=
  f.names.foldl (fun store name => store.bind scope name (.function (.builtin f f.arity))) store

def initial : World :=
  let (library, store) := Store.empty.newRoot
  let store := Builtin.all.foldl (bindBuiltin library) store
  ⟨store.sealScope library, library, #[], 0⟩

def newSession (world : World) (limits : Limits) : Session × World :=
  let (scope, store) := world.store.newChild world.library
  (⟨scope, [], limits⟩, { world with store := store })

/-- Forgets every binding that the session made, also those its functions keep. -/
def reset (world : World) (session : Session) : Session × World :=
  let store := (world.store.clearAll session.captured).clear session.scope
  ({ session with captured := [] }, { world with store := store })

def clearLines (world : World) : World :=
  { world with lines := #[] }

def machine (world : World) (session : Session) (journal : Array Event) : Machine where
  store := world.store
  scope := session.scope
  depth := 0
  lines := world.lines
  captured := session.captured
  closures := world.closures
  journal := journal

def report (library : Scope) (limits : Limits) (scope : Scope) (machine : Machine)
    (diagnostic : Option Diagnostic) : Report where
  world := ⟨machine.store, library, machine.lines, machine.closures⟩
  session := ⟨scope, machine.captured, limits⟩
  journal := machine.journal
  diagnostic := diagnostic

def runProgram (fuel : Nat) (world : World) (session : Session) (journal : Array Event)
    (program : Program) : Option Report :=
  let library := world.library
  let scope := session.scope
  let limits := session.limits
  match Ardoise.runProgram limits fuel program (world.machine session journal) with
  | .done _ machine => some (report library limits scope machine none)
  | .failed fault machine => some (report library limits scope machine (some (.runtime fault)))
  | .exhausted => none

def refusalEvents (fault : Located GrammarFault) : Array Event :=
  match fault.fault.expected with
  | .tooDeep limit => #[.nestingStopped limit fault.span]
  | _ => #[]

/--
Runs a text on top of what the session was told before.  Gives nothing if the
run does not end within its fuel.
-/
def run (fuel : Nat) (world : World) (session : Session) (source : String) : Option Report :=
  match scan source with
  | .error fault => some ⟨world, session, #[], some (.lexical fault)⟩
  | .ok tokens =>
    let journal := #[Event.scanned tokens.length]
    match parse session.limits.nesting tokens with
    | .error fault =>
      some ⟨world, session, journal ++ refusalEvents fault, some (.grammar fault)⟩
    | .ok program =>
      let journal := (journal.push (.parsed program.length)).push (.listed program)
      runProgram fuel world session journal program

def interpret (fuel : Nat) (world : World) (session : Session) (source : String) :
    Option Report :=
  let (session, world) := world.reset session
  run fuel world session source

end World

def interpret (fuel : Nat) (limits : Limits) (source : String) : Option Report :=
  let (session, world) := World.initial.newSession limits
  world.interpret fuel session source

def listing (source : String) : Except Diagnostic String :=
  match scan source with
  | .error fault => .error (.lexical fault)
  | .ok tokens =>
    match parse ({} : Limits).nesting tokens with
    | .error fault => .error (.grammar fault)
    | .ok program => .ok program.listing

end Ardoise
