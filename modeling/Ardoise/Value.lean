import Ardoise.Fault
import Ardoise.Tree

/-!
# Values

The values of a running program.  A function is either one of the library or a
closure, which keeps the scope it was declared in; both keep the number of
arguments they are called with, which is all that a call looks at.  Equality never holds
between kinds, compares arrays element by element, and tells closures apart by
the number each is given when it is declared.
-/

namespace Ardoise

structure Scope where
  index : Nat
  deriving DecidableEq, Inhabited

inductive Builtin where
  | ecrire
  | arrondir
  | taille
  deriving DecidableEq

structure Closure where
  /-- No two declarations that are executed give the same number. -/
  number : Nat
  name : String
  arity : Nat
  parameters : List Name
  body : List Stmt
  scope : Scope

inductive Function where
  | builtin (builtin : Builtin) (arity : Nat)
  | closure (closure : Closure)

inductive Value where
  | null
  | boolean (value : Bool)
  | number (value : Float)
  | text (content : String)
  | array (elements : List Value)
  | function (function : Function)
  /-- The result of a function that returns nothing. -/
  | void
  deriving Inhabited

namespace Builtin

def all : List Builtin := [ecrire, arrondir, taille]

/-- The names that a library function is found under; it is shown under the first. -/
def names : Builtin → List String
  | ecrire => ["ecrire", "write"]
  | arrondir => ["arrondir", "round"]
  | taille => ["taille", "length"]

def name : Builtin → String
  | ecrire => "ecrire"
  | arrondir => "arrondir"
  | taille => "taille"

def arity : Builtin → Nat
  | ecrire | arrondir | taille => 1

end Builtin

namespace Function

def name : Function → String
  | builtin f _ => f.name
  | closure f => f.name

def arity : Function → Nat
  | builtin _ arity => arity
  | closure f => f.arity

/-- Whether two functions come from the same declaration. -/
def same : Function → Function → Bool
  | builtin f _, builtin g _ => f = g
  | closure f, closure g => f.number = g.number
  | _, _ => false

end Function

namespace Value

def kind : Value → String
  | null => "nul"
  | boolean _ => "booléen"
  | number _ => "nombre"
  | text _ => "chaîne"
  | array _ => "tableau"
  | function _ => "fonction"
  | void => "vide"

def ofLiteral : Literal → Value
  | .number value => number value
  | .text content => text content
  | .boolean value => boolean value
  | .null => null

mutual

def display : Value → String
  | null => "null"
  | boolean true => "true"
  | boolean false => "false"
  | number value => Number.Format.printed.text value
  | text content => content
  | array elements => ",".intercalate (displays elements)
  | function f => "<fonction " ++ f.name ++ ">"
  | void => "vide"

def displays : List Value → List String
  | [] => []
  | value :: rest => value.display :: displays rest

end

mutual

def same : Value → Value → Bool
  | null, null => true
  | void, void => true
  | boolean a, boolean b => a == b
  | number a, number b => a == b
  | text a, text b => a == b
  | array as, array bs => sameElements as bs
  | function f, function g => f.same g
  | _, _ => false

def sameElements : List Value → List Value → Bool
  | [], [] => true
  | a :: as, b :: bs => a.same b && sameElements as bs
  | _, _ => false

end

theorem displays_eq_map (values : List Value) : displays values = values.map display := by
  induction values with
  | nil => rfl
  | cons value rest ih => simp [displays, ih]

end Value

end Ardoise
