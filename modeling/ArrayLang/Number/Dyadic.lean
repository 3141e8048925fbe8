/-!
# Exact binary numbers

A finite double is a whole number times a power of two. This module takes doubles apart into that
form and puts them back together, rounding to nearest with ties to even. Everything that has to be
exact about doubles (conversion to and from integers, single precision, the remainder, the shortest
decimal) is computed here in whole numbers.
-/

namespace ArrayLang

/-- Two to a power. -/
def pow2 (k : Nat) : Nat :=
  Nat.pow 2 k

/-- The number `± mantissa * 2 ^ exponent`. -/
structure Dyadic where
  negative : Bool
  mantissa : Nat
  exponent : Int
deriving DecidableEq

/-- What a double stands for. -/
inductive FloatClass where
  | nan
  | infinite (negative : Bool)
  | finite (value : Dyadic)
deriving DecidableEq

/-- Reads the sign, exponent and fraction fields of a double. -/
def classify (x : Float) : FloatClass :=
  let bits := x.toBits.toNat
  let negative := decide (pow2 63 ≤ bits)
  let field : Nat := bits / pow2 52 % pow2 11
  let fraction : Nat := bits % pow2 52
  if field = 2047 then
    if fraction = 0 then .infinite negative else .nan
  else if field = 0 then
    .finite ⟨negative, fraction, -1074⟩
  else
    .finite ⟨negative, pow2 52 + fraction, (field : Int) - 1075⟩

/-- The quotient `num / den` rounded to the nearest whole number, a half to the even neighbour. -/
def roundHalfEven (num den : Nat) : Nat :=
  let q := num / den
  let twice := 2 * (num % den)
  if twice < den then q
  else if den < twice then q + 1
  else if q % 2 = 0 then q else q + 1

/-- The double with the given sign and infinite magnitude. -/
def signedInfinity (negative : Bool) : Float :=
  if negative then -(1.0 / 0.0) else 1.0 / 0.0

/-- The double that is not a number. -/
def notANumber : Float :=
  0.0 / 0.0

namespace Dyadic

/-- Number of binary digits of a whole number, none for zero. -/
def bitLength (n : Nat) : Nat :=
  if n = 0 then 0 else n.log2 + 1

/-- Rounds to `precision` binary digits, with no exponent below `least`. The result's mantissa has
exactly `precision` digits unless its exponent is `least`, or the rounding carried. -/
def round (precision : Nat) (least : Int) (d : Dyadic) : Dyadic :=
  let exponent := max (d.exponent + bitLength d.mantissa - precision) least
  if exponent ≤ d.exponent then
    { d with mantissa := d.mantissa * pow2 (d.exponent - exponent).toNat, exponent }
  else
    { d with mantissa := roundHalfEven d.mantissa (pow2 (exponent - d.exponent).toNat), exponent }

/-- The nearest double, infinite if the magnitude is too large. With the exponent field counting
from `-1074`, a carry out of the fraction moves the field up by itself. -/
def toFloat (d : Dyadic) : Float :=
  let r := d.round 53 (-1074)
  let magnitude :=
    if r.mantissa = 0 then 0
    else min ((r.exponent + 1074).toNat * pow2 52 + r.mantissa) (2047 * pow2 52)
  Float.ofBits (UInt64.ofNat ((if d.negative then pow2 63 else 0) + magnitude))

/-- The whole part, rounding toward zero. -/
def truncate (d : Dyadic) : Int :=
  let magnitude := if 0 ≤ d.exponent
    then d.mantissa * pow2 d.exponent.toNat
    else d.mantissa / pow2 (-d.exponent).toNat
  if d.negative then -(magnitude : Int) else magnitude

end Dyadic

/-- The double nearest to a whole number. -/
def floatOfInt (n : Int) : Float :=
  Dyadic.toFloat ⟨decide (n < 0), n.natAbs, 0⟩

/-- The whole part of a double, moved to the nearest end of the signed 64-bit range when it lies
outside; zero for what is not a number. -/
def truncateFloat (x : Float) : Int64 :=
  let least : Int := -pow2 63
  let greatest : Int := pow2 63 - 1
  match classify x with
  | .nan => 0
  | .infinite negative => Int64.ofInt (if negative then least else greatest)
  | .finite d => Int64.ofInt (max least (min greatest d.truncate))

/-- The nearest single-precision number, as a double. -/
def roundToSingle (x : Float) : Float :=
  match classify x with
  | .finite d =>
    let r := d.round 24 (-149)
    if 104 < r.exponent ∨ (r.exponent = 104 ∧ pow2 24 ≤ r.mantissa) then signedInfinity d.negative
    else r.toFloat
  | _ => x

/-- The exact remainder of truncated division, with the sign of the dividend. -/
def remainder (x y : Float) : Float :=
  match classify x, classify y with
  | .finite a, .finite b =>
    if b.mantissa = 0 then notANumber
    else
      let exponent := min a.exponent b.exponent
      let scaled (d : Dyadic) := d.mantissa * pow2 (d.exponent - exponent).toNat
      Dyadic.toFloat ⟨a.negative, scaled a % scaled b, exponent⟩
  | .finite _, .infinite _ => x
  | _, _ => notANumber

end ArrayLang
