/-!
# Numbers

Numbers of the language are doubles.  `Number.Form` says which real number a
double stands for, as `mantissa * 2 ^ exponent` in exact integers, and is the
ground for all that is decided about the digits of a number: its text, its
rounding, and whether it can serve as an index.
-/

namespace Ardoise.Number

inductive Form where
  | nan
  | infinite (negative : Bool)
  /-- Zero is finite with mantissa zero, and keeps its sign. -/
  | finite (negative : Bool) (mantissa : Nat) (exponent : Int)
  deriving DecidableEq

def twoTo (n : Nat) : Nat := Nat.pow 2 n

def tenTo (n : Nat) : Nat := Nat.pow 10 n

def form (x : Float) : Form :=
  let bits : Nat := x.toBits.toNat
  let negative : Bool := bits / twoTo 63 = 1
  let exponent : Nat := bits / twoTo 52 % twoTo 11
  let fraction : Nat := bits % twoTo 52
  if exponent = 2047 then
    if fraction = 0 then .infinite negative else .nan
  else if exponent = 0 then
    .finite negative fraction (-1074)
  else
    .finite negative (fraction + twoTo 52) (exponent - 1075)

namespace Form

/-- Whether the number has no fractional part; infinite ones do not count. -/
def isWhole : Form → Bool
  | finite _ mantissa exponent => mantissa % twoTo (-exponent).toNat = 0
  | _ => false

def wholePart : Form → Nat
  | finite _ mantissa exponent => mantissa * twoTo exponent.toNat / twoTo (-exponent).toNat
  | _ => 0

/-- The integer nearest to the number, sign dropped, a half going away from zero. -/
def nearestWhole : Form → Nat
  | finite _ mantissa exponent =>
    (2 * mantissa * twoTo exponent.toNat / twoTo (-exponent).toNat + 1) / 2
  | _ => 0

end Form

/--
Rounds to the nearest integer, a half going away from zero; the sign is kept,
also that of zero.
-/
def round (x : Float) : Float :=
  match form x with
  | .finite negative mantissa exponent =>
    if 0 ≤ exponent then x
    else
      let whole := Float.ofNat (Form.finite negative mantissa exponent).nearestWhole
      if negative then -whole else whole
  | _ => x

end Ardoise.Number
