import Ardoise.Number

/-!
# The text of a number

Numbers are written out in full, never with an exponent, and with no more
digits than it takes to read them back.  Of all decimals that read back as a
given double, `shortest` picks one with the fewest digits, and of those the
nearest one; where two are equally near, the larger.  A decimal reads back as
`m * 2 ^ q` when it lies between the midpoints to the neighbouring doubles, a
midpoint itself counting when `m` is even.

A `Format` fixes the few forms that vary: programs print infinity and zero in
one way, listings and error messages in another.
-/

namespace Ardoise.Number

structure Decimal where
  digits : Nat
  exponent : Int
  deriving DecidableEq

/--
Distance from a double down to the midpoint below it, in quarters of its unit
`2 ^ q`.  It is halved where the double below has the next smaller exponent.
-/
def lowerMargin (m : Nat) (q : Int) : Nat :=
  if m = twoTo 52 ∧ -1074 < q then 1 else 2

/--
The multiple of `10 ^ p` next to `m * 2 ^ q` that reads back as it, if there is
one.  All is compared in the common unit `10 ^ min p 0 * 2 ^ min (q - 2) 0`, so
that every quantity is a natural number.
-/
def multipleWithin? (m : Nat) (q p : Int) : Option Nat :=
  let tens := tenTo p.toNat * twoTo (2 - q).toNat
  let quarter := twoTo (q - 2).toNat * tenTo (-p).toNat
  let value := 4 * m * quarter
  let low := (4 * m - lowerMargin m q) * quarter
  let high := (4 * m + 2) * quarter
  let n := value / tens
  let below := n * tens
  let above := (n + 1) * tens
  let belowFits : Bool := if m % 2 = 0 then low ≤ below else low < below
  let aboveFits : Bool := if m % 2 = 0 then above ≤ high else above < high
  if belowFits && aboveFits then
    some (if value - below < above - value then n else n + 1)
  else if belowFits then some n
  else if aboveFits then some (n + 1)
  else none

def searchShortest (m : Nat) (q : Int) : Nat → Int → Option Decimal
  | 0, _ => none
  | tries + 1, p =>
    match multipleWithin? m q p with
    | some n => some ⟨n, p⟩
    | none => searchShortest m q tries (p - 1)

def firstPower (m : Nat) (q : Int) : Int :=
  (Nat.log2 m + 1 + q) * 30103 / 100000 + 1

/--
The shortest decimal for the double `m * 2 ^ q`, for positive `m`.  Seventeen
digits tell any two doubles apart, so the search ends within its tries.
-/
def shortest (m : Nat) (q : Int) : Decimal :=
  (searchShortest m q 25 (firstPower m q)).getD ⟨m, 0⟩

/--
Digits with a point where the negative exponent puts it, padded with zeros on
either side.
-/
def positional (decimal : Decimal) : String :=
  let digits := Nat.toDigits 10 decimal.digits
  let places := (-decimal.exponent).toNat
  if places = 0 then
    .ofList (digits ++ List.replicate decimal.exponent.toNat '0')
  else
    let padded := List.replicate (places + 1 - digits.length) '0' ++ digits
    let whole := padded.length - places
    .ofList (padded.take whole ++ '.' :: padded.drop whole)

structure Format where
  infinity : String
  /-- Whether a negative zero shows its sign. -/
  signedZero : Bool

def Format.printed : Format := ⟨"Infinity", false⟩

def Format.quoted : Format := ⟨"inf", true⟩

def withSign (negative : Bool) (text : String) : String :=
  if negative then "-" ++ text else text

def Format.text (format : Format) (x : Float) : String :=
  match form x with
  | .nan => "NaN"
  | .infinite negative => withSign negative format.infinity
  | .finite negative 0 _ => withSign (negative && format.signedZero) "0"
  | .finite negative (m + 1) q => withSign negative (positional (shortest (m + 1) q))

end Ardoise.Number
