import Ardoise.Store

/-!
# Ledgers

A ledger is a store together with the scopes that are noted for release.  Its
steps are all that can be done to a store: scopes are made, names are declared,
bound, assigned and read, scopes are sealed and cleared, and those that were
noted are released, which clears them all.  A step that fails changes nothing.
-/

namespace Ardoise

structure Ledger where
  store : Store
  /-- The scopes noted since the last release, the latest first. -/
  noted : List Scope

namespace Ledger

inductive Step where
  | newRoot
  | newChild (outer : Scope)
  | define (scope : Scope) (name : String) (value : Value)
  | bind (scope : Scope) (name : String) (value : Value)
  | assign (scope : Scope) (name : String) (value : Value)
  | get (scope : Scope) (name : String)
  | sealScope (scope : Scope)
  | clear (scope : Scope)
  | note (scope : Scope)
  | release

inductive Answer where
  | made (scope : Scope)
  | found (value : Value)
  | done

def empty : Ledger := ⟨.empty, []⟩

def make (ledger : Ledger) (made : Scope × Store) : Ledger × Except RuntimeFault Answer :=
  ({ ledger with store := made.2 }, .ok (.made made.1))

def change (ledger : Ledger) : Except RuntimeFault Store → Ledger × Except RuntimeFault Answer
  | .ok store => ({ ledger with store := store }, .ok .done)
  | .error fault => (ledger, .error fault)

def release (ledger : Ledger) : Ledger :=
  ⟨ledger.store.clearAll ledger.noted, []⟩

def step (ledger : Ledger) : Step → Ledger × Except RuntimeFault Answer
  | .newRoot => ledger.make ledger.store.newRoot
  | .newChild outer => ledger.make (ledger.store.newChild outer)
  | .define scope name value => ledger.change (ledger.store.define scope name value)
  | .bind scope name value => ledger.change (.ok (ledger.store.bind scope name value))
  | .assign scope name value => ledger.change (ledger.store.assign scope name value)
  | .get scope name => (ledger, (ledger.store.get scope name).map .found)
  | .sealScope scope => ledger.change (.ok (ledger.store.sealScope scope))
  | .clear scope => ledger.change (.ok (ledger.store.clear scope))
  | .note scope => ({ ledger with noted := scope :: ledger.noted }, .ok .done)
  | .release => (ledger.release, .ok .done)

end Ledger

end Ardoise
