import Ardoise.Value

/-!
# Operations on values

What the operators of the language and the functions of its library do with
values.  Addition follows its left operand; the other arithmetic operators and
the comparisons take numbers only; equality takes anything.  An operator is
told by the kind of its token, and every kind is given a meaning: a prefix
operator other than the minus sign is read as `!`, and a kind that is no binary
operator is a fault.

A library function gives a value, a line to print along with it, or the reason
why it refuses its arguments.
-/

namespace Ardoise

namespace Value

def add : Value → Value → Except RuntimeFault Value
  | number a, number b => .ok (number (a + b))
  | number _, other => .error (.addToNumber other.kind)
  | text a, text b => .ok (text (a ++ b))
  | text _, other => .error (.addToText other.kind)
  | other, _ => .error (.addUnsupported other.kind)

/-- An operation on two numbers; the first operand that is none is the one at fault. -/
def onNumbers (operation : String) (f : Float → Float → Value) :
    Value → Value → Except RuntimeFault Value
  | number a, number b => .ok (f a b)
  | number _, other => .error (.numbersRequired operation other.kind)
  | other, _ => .error (.numbersRequired operation other.kind)

def binary : Kind → Value → Value → Except RuntimeFault Value
  | .symbol .plus => add
  | .symbol .minus => onNumbers "soustraits" fun a b => number (a - b)
  | .symbol .star => onNumbers "multipliés" fun a b => number (a * b)
  | .symbol .slash => onNumbers "divisés" fun a b => number (a / b)
  | .symbol .greater => onNumbers "comparés" fun a b => boolean (a > b)
  | .symbol .greaterEqual => onNumbers "comparés" fun a b => boolean (a ≥ b)
  | .symbol .less => onNumbers "comparés" fun a b => boolean (a < b)
  | .symbol .lessEqual => onNumbers "comparés" fun a b => boolean (a ≤ b)
  | .symbol .equalEqual => fun left right => .ok (boolean (left.same right))
  | .symbol .bangEqual => fun left right => .ok (boolean (!left.same right))
  | op => fun _ _ => .error (.notAnOperator op)

def unary : Kind → Value → Except RuntimeFault Value
  | .symbol .minus, number value => .ok (number (-value))
  | .symbol .minus, other => .error (.negateNonNumber other.kind)
  | _, boolean value => .ok (boolean (!value))
  | _, other => .error (.notNonBoolean other.kind)

end Value

/--
The element of an array at an index, which has to be a whole number, not
negative, and smaller than the length of the array.  The first of these that
fails is the fault.
-/
def elementAt (elements : List Value) (index : Float) : Except RuntimeFault Value :=
  let form := Number.form index
  if !form.isWhole then .error (.indexNotInteger index)
  else if index < 0 then .error (.negativeIndex index)
  else
    match elements[form.wholePart]? with
    | some value => .ok value
    | none => .error (.indexOutOfBounds index elements.length)

inductive LibraryAnswer where
  | gives (value : Value)
  | prints (line : String)
  | refuses (reason : String)

namespace Builtin

def wrongCount (arguments : List Value) : String :=
  s!"1 paramètre attendu ({arguments.length} obtenu(s))"

/-- Functions that print give back no value. -/
def apply : Builtin → List Value → LibraryAnswer
  | ecrire, arguments => .prints (" ".intercalate (arguments.map Value.display))
  | arrondir, [.number value] => .gives (.number (Number.round value))
  | arrondir, [other] => .refuses s!"un nombre est attendu ({other.kind})"
  | taille, [.array elements] => .gives (.number (.ofNat elements.length))
  | taille, [.text content] => .gives (.number (.ofNat content.length))
  | taille, [other] => .refuses s!"un tableau ou une chaîne est attendu ({other.kind})"
  | arrondir, arguments => .refuses (wrongCount arguments)
  | taille, arguments => .refuses (wrongCount arguments)

end Builtin

end Ardoise
