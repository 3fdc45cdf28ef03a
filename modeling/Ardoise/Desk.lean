import Ardoise.Session

/-!
# Desks

A desk holds any number of sessions in one world.  They are numbered in the
order they were opened in, and all print to the same lines.
-/

namespace Ardoise

structure Desk where
  world : World
  /-- The sessions opened so far; those that were dropped are gone. -/
  sessions : Array (Option Session)

namespace Desk

inductive Step where
  | newSession (limits : Limits)
  | interpret (number : Nat) (source : String)
  | drop (number : Nat)
  | clearLines

def empty : Desk := ⟨World.initial, #[]⟩

def session? (desk : Desk) (number : Nat) : Option Session :=
  desk.sessions.getD number none

def openSession (desk : Desk) (limits : Limits) : Desk :=
  let (session, world) := desk.world.newSession limits
  ⟨world, desk.sessions.push (some session)⟩

def interpret (fuel : Nat) (desk : Desk) (number : Nat) (source : String) :
    Option (Desk × Option Diagnostic) :=
  match desk.session? number with
  | none => some (desk, none)
  | some session => do
    let report ← desk.world.interpret fuel session source
    let sessions := desk.sessions.setIfInBounds number (some report.session)
    return (⟨report.world, sessions⟩, report.diagnostic)

def drop (desk : Desk) (number : Nat) : Desk :=
  match desk.session? number with
  | none => desk
  | some session => ⟨(desk.world.reset session).2, desk.sessions.setIfInBounds number none⟩

/-- Does one step; gives nothing if it does not end within its fuel. -/
def step (fuel : Nat) (desk : Desk) : Step → Option (Desk × Option Diagnostic)
  | .newSession limits => some (desk.openSession limits, none)
  | .interpret number source => desk.interpret fuel number source
  | .drop number => some (desk.drop number, none)
  | .clearLines => some ({ desk with world := desk.world.clearLines }, none)

end Desk

end Ardoise
