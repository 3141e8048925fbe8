import ArrayLang.Number.Dyadic

/-!
# Decimal text of doubles

`decimalText` writes a double with the fewest digits that read back to it, and `readDecimal?` reads
decimals. The search for the digits is done in exact arithmetic on the interval of numbers that
round to the double.
-/

namespace ArrayLang

/-- Number of decimal digits of a whole number, one for zero. -/
def digitCount (n : Nat) : Nat :=
  (Nat.toDigits 10 n).length

/-- A positive decimal `digits * 10 ^ exponent`. -/
structure Decimal where
  digits : Nat
  exponent : Int
deriving DecidableEq

namespace Decimal

/-- Drops trailing zeros of the digits, at most `fuel` of them. -/
def trim : Nat → Decimal → Decimal
  | 0, d => d
  | fuel + 1, d =>
    if d.digits % 10 = 0 then trim fuel ⟨d.digits / 10, d.exponent + 1⟩ else d

/-- The exponent of the first digit: the number lies in `[10 ^ p, 10 ^ (p + 1))`. -/
def leading (d : Decimal) : Int :=
  d.exponent + digitCount d.digits - 1

end Decimal

/-- A ratio of whole numbers, its denominator positive. -/
structure Ratio where
  num : Nat
  den : Nat

namespace Ratio

/-- The positive number `m * 2 ^ e`. -/
def ofBinary (m : Nat) (e : Int) : Ratio :=
  if 0 ≤ e then ⟨m * pow2 e.toNat, 1⟩ else ⟨m, pow2 (-e).toNat⟩

/-- The positive number `m * 10 ^ e`. -/
def ofDecimal (m : Nat) (e : Int) : Ratio :=
  if 0 ≤ e then ⟨m * Nat.pow 10 e.toNat, 1⟩ else ⟨m, Nat.pow 10 (-e).toNat⟩

/-- Whether `a < b`. -/
def lt (a b : Ratio) : Bool :=
  decide (a.num * b.den < b.num * a.den)

/-- Whether `a ≤ b`. -/
def le (a b : Ratio) : Bool :=
  decide (a.num * b.den ≤ b.num * a.den)

/-- The largest power of ten, by exponent, that is not above a positive ratio. -/
def leading (r : Ratio) : Int :=
  if r.den ≤ r.num then (digitCount (r.num / r.den) : Int) - 1
  else -(digitCount ((r.den + r.num - 1) / r.num - 1) : Int)

end Ratio

/-- The numbers that round to one positive double: those between the half-way points to its
neighbours, which themselves belong to the interval when the mantissa is even. -/
structure RoundingInterval where
  value : Ratio
  lower : Ratio
  upper : Ratio
  closed : Bool

namespace RoundingInterval

/-- The interval of the double `m * 2 ^ e`. Below a power of two the spacing halves. -/
def ofBinary (m : Nat) (e : Int) : RoundingInterval where
  value := Ratio.ofBinary m e
  lower :=
    if m = pow2 52 ∧ -1074 < e then Ratio.ofBinary (4 * m - 1) (e - 2)
    else Ratio.ofBinary (2 * m - 1) (e - 1)
  upper := Ratio.ofBinary (2 * m + 1) (e - 1)
  closed := m % 2 == 0

/-- Whether a number rounds to the double. -/
def contains (i : RoundingInterval) (r : Ratio) : Bool :=
  if i.closed then i.lower.le r && r.le i.upper else i.lower.lt r && r.lt i.upper

/-- The neighbour of the double on the grid of multiples of `10 ^ exponent` that reads back to it,
the nearer if both do and the upper one in a tie. -/
def onGrid? (i : RoundingInterval) (exponent : Int) : Option Decimal :=
  let unit := Ratio.ofDecimal 1 exponent
  let below := i.value.num * unit.den / (i.value.den * unit.num)
  let hit (digits : Nat) := 0 < digits && i.contains (Ratio.ofDecimal digits exponent)
  -- Twice the value, in units, against twice the midpoint of the two neighbours.
  let nearerBelow :=
    decide (2 * (i.value.num * unit.den) < (2 * below + 1) * (i.value.den * unit.num))
  match hit below, hit (below + 1) with
  | true, true => some ⟨if nearerBelow then below else below + 1, exponent⟩
  | true, false => some ⟨below, exponent⟩
  | false, true => some ⟨below + 1, exponent⟩
  | false, false => none

/-- The first hit on ever finer grids, starting from the one whose points have a single digit.
Seventeen digits always read back. -/
def shortest (i : RoundingInterval) : Decimal :=
  let leading := i.value.leading
  match (List.range 17).findSome? fun (n : Nat) => i.onGrid? (leading - n) with
  | some d => d.trim 20
  | none => ⟨0, 0⟩

end RoundingInterval

/-! ## Writing -/

/-- How the text of a double is laid out. -/
structure DecimalFormat where
  /-- Least exponent of the first digit that is written positionally. -/
  leastPositional : Int
  /-- Greatest exponent of the first digit that is written positionally. -/
  greatestPositional : Int
  /-- Written after a whole number. -/
  wholeMark : String
  /-- Written before the exponent. -/
  exponentMark : String
  nanText : String
  infinityText : String

/-- Doubles are positional from `1e-4` and below `1e16`, with at least one digit after the point,
and scientific outside. -/
def doubleFormat : DecimalFormat where
  leastPositional := -4
  greatestPositional := 15
  wholeMark := ".0"
  exponentMark := "e"
  nanText := "NaN"
  infinityText := "inf"

namespace DecimalFormat

private def zeros (n : Nat) : String :=
  String.ofList (List.replicate n '0')

/-- Lays out a positive decimal. -/
def positive (f : DecimalFormat) (d : Decimal) : String :=
  let digits := Nat.toDigits 10 d.digits
  let leading := d.leading
  if leading < f.leastPositional ∨ f.greatestPositional < leading then
    let fraction := digits.drop 1
    let point := if fraction.isEmpty then "" else "."
    String.ofList (digits.take 1) ++ point ++ String.ofList fraction
      ++ f.exponentMark ++ toString leading
  else if leading < 0 then
    "0." ++ zeros (-leading - 1).toNat ++ String.ofList digits
  else
    let whole := leading.toNat + 1
    if digits.length ≤ whole then
      String.ofList digits ++ zeros (whole - digits.length) ++ f.wholeMark
    else
      String.ofList (digits.take whole) ++ "." ++ String.ofList (digits.drop whole)

/-- The text of a double. -/
def text (f : DecimalFormat) (x : Float) : String :=
  let signed (negative : Bool) (body : String) := if negative then "-" ++ body else body
  match classify x with
  | .nan => f.nanText
  | .infinite negative => signed negative f.infinityText
  | .finite d =>
    if d.mantissa = 0 then signed d.negative ("0" ++ f.wholeMark)
    else signed d.negative
      (f.positive (RoundingInterval.ofBinary d.mantissa d.exponent).shortest)

end DecimalFormat

/-- The text of a double in the default format. -/
def decimalText (x : Float) : String :=
  doubleFormat.text x

/-! ## Reading -/

private def digitsValue (cs : List Char) : Nat :=
  cs.foldl (fun n c => 10 * n + (c.toNat - '0'.toNat)) 0

private def readExponent? : List Char → Option Int
  | '-' :: cs => if cs.isEmpty || !cs.all Char.isDigit then none else some (-(digitsValue cs : Int))
  | '+' :: cs => if cs.isEmpty || !cs.all Char.isDigit then none else some (digitsValue cs : Int)
  | cs => if cs.isEmpty || !cs.all Char.isDigit then none else some (digitsValue cs : Int)

private def readMagnitude? (cs : List Char) : Option Float := do
  let whole := cs.takeWhile Char.isDigit
  let afterWhole := cs.dropWhile Char.isDigit
  let (fraction, tail) := match afterWhole with
    | '.' :: r => (r.takeWhile Char.isDigit, r.dropWhile Char.isDigit)
    | r => ([], r)
  if whole.isEmpty && fraction.isEmpty then none
  let exponent ← match tail with
    | [] => some 0
    | 'e' :: r | 'E' :: r => readExponent? r
    | _ => none
  let scale := exponent - fraction.length
  let mantissa := digitsValue (whole ++ fraction)
  some (if 0 ≤ scale then Float.ofScientific mantissa false scale.toNat
    else Float.ofScientific mantissa true (-scale).toNat)

/-- Reads a decimal, `inf` or `NaN`, with an optional sign. -/
def readDecimal? (s : String) : Option Float :=
  let magnitude? (cs : List Char) : Option Float :=
    if cs = "inf".toList then some (signedInfinity false)
    else if cs = "NaN".toList then some notANumber
    else readMagnitude? cs
  match s.toList with
  | '-' :: cs => (magnitude? cs).map fun x => -x
  | '+' :: cs => magnitude? cs
  | cs => magnitude? cs

end ArrayLang
