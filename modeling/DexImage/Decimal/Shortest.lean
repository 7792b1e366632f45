import DexImage.Text.Digits
/-! # Shortest decimals of binary floating point numbers

The shortest decimal of a number is the one with the fewest digits among those that round to
it; of two such decimals the nearer one, and the greater one if both are equally near. All
comparisons are made in exact arithmetic on natural numbers.
-/

namespace DexImage.Decimal

/-- The widths of the fields of a binary format. -/
structure BinaryFormat where
  fractionBits : Nat
  exponentBits : Nat

def binary32 : BinaryFormat := ⟨23, 8⟩

def binary64 : BinaryFormat := ⟨52, 11⟩

/-- The positive number `mantissa · 2 ^ exponent`. The next lower number of the format is at half
the usual distance when `narrowBelow` holds. -/
structure BinaryNumber where
  mantissa : Nat
  exponent : Int
  narrowBelow : Bool
deriving DecidableEq, Repr

inductive FloatValue where
  | nan
  | infinite
  | zero
  | finite (magnitude : BinaryNumber)
deriving DecidableEq, Repr

namespace BinaryFormat

def isNegative (format : BinaryFormat) (bits : Nat) : Bool :=
  bits.testBit (format.fractionBits + format.exponentBits)

/-- What a bit pattern stands for, apart from its sign. -/
def value (format : BinaryFormat) (bits : Nat) : FloatValue :=
  let fraction := bits % (1 <<< format.fractionBits)
  let biased := (bits >>> format.fractionBits) % (1 <<< format.exponentBits)
  let bias := (1 <<< (format.exponentBits - 1)) - 1
  if biased = (1 <<< format.exponentBits) - 1 then if fraction = 0 then .infinite else .nan
  else if biased = 0 then
    if fraction = 0 then .zero
    else .finite ⟨fraction, 1 - bias - format.fractionBits, false⟩
  else
    .finite ⟨(1 <<< format.fractionBits) + fraction, biased - bias - format.fractionBits,
      fraction = 0 && 1 < biased⟩

end BinaryFormat

/-- The number `digits · 10 ^ exponent`. -/
structure DecimalNumber where
  digits : Nat
  exponent : Int
deriving DecidableEq, Repr

/-- A fraction of natural numbers. -/
structure Ratio where
  numerator : Nat
  denominator : Nat

namespace Ratio

/-- `n · base ^ exponent`. -/
def scaled (n base : Nat) (exponent : Int) : Ratio :=
  ⟨n * base.pow exponent.toNat, base.pow (-exponent).toNat⟩

def le (x y : Ratio) : Bool := x.numerator * y.denominator ≤ y.numerator * x.denominator

def lt (x y : Ratio) : Bool := !y.le x

/-- The least `p` with `x < 10 ^ p`, for positive `x`. -/
def decimalExponent (x : Ratio) : Int :=
  if x.denominator ≤ x.numerator then (Nat.toDigits 10 (x.numerator / x.denominator)).length
  else
    let places (n : Nat) : Nat := (Nat.toDigits 10 n).length
    let least : Int := places x.numerator - places x.denominator
    if x.lt (scaled 1 10 least) then least else least + 1

/-- The whole part of `x / 10 ^ exponent`. -/
def wholeTens (x : Ratio) (exponent : Int) : Nat :=
  x.numerator * Nat.pow 10 (-exponent).toNat / (x.denominator * Nat.pow 10 exponent.toNat)

end Ratio

namespace BinaryNumber

/-- `quarters / 4` units of the last place. -/
def quarterUnits (number : BinaryNumber) (quarters : Nat) : Ratio :=
  Ratio.scaled quarters 2 (number.exponent - 2)

/-- Whether a decimal rounds to the number; a midpoint does when the mantissa is even. -/
def isRoundedFrom (number : BinaryNumber) (decimal : DecimalNumber) : Bool :=
  let below := number.quarterUnits (4 * number.mantissa - if number.narrowBelow then 1 else 2)
  let above := number.quarterUnits (4 * number.mantissa + 2)
  let x := Ratio.scaled decimal.digits 10 decimal.exponent
  if number.mantissa % 2 = 0 then below.le x && x.le above else below.lt x && x.lt above

/-- The neighbour on the grid of powers `10 ^ exponent` that rounds to the number, the nearer of
the two if both do and the greater if they are equally near. -/
def onGrid? (number : BinaryNumber) (exponent : Int) : Option DecimalNumber :=
  let x := number.quarterUnits (4 * number.mantissa)
  let floor := x.wholeTens exponent
  let down : DecimalNumber := ⟨floor, exponent⟩
  let up : DecimalNumber := ⟨floor + 1, exponent⟩
  match number.isRoundedFrom down, number.isRoundedFrom up with
  | true, true =>
    let middle := Ratio.scaled (2 * floor + 1) 10 exponent
    if (Ratio.mk (2 * x.numerator) x.denominator).lt middle then some down else some up
  | true, false => some down
  | false, true => some up
  | false, false => none

/-- The shortest decimal that rounds to the number; seventeen digits always suffice. -/
def shortest (number : BinaryNumber) : DecimalNumber :=
  let top := (number.quarterUnits (4 * number.mantissa)).decimalExponent
  ((List.range 17).findSome? fun (count : Nat) => number.onGrid? (top - (count + 1))).getD ⟨0, 0⟩

end BinaryNumber

open Text in
/-- Positional notation, with a point only before a fraction. -/
def DecimalNumber.positional (number : DecimalNumber) : String :=
  let digits := if number.digits % 10 = 0 then number.digits / 10 else number.digits
  let exponent := if number.digits % 10 = 0 then number.exponent + 1 else number.exponent
  let text := (Nat.toDigits 10 digits)
  let zeros (count : Nat) : List Char := List.replicate count '0'
  let whole := text.length - (-exponent).toNat
  if 0 ≤ exponent then String.ofList (text ++ zeros exponent.toNat)
  else if 0 < whole then String.ofList (text.take whole ++ '.' :: text.drop whole)
  else String.ofList ('0' :: '.' :: zeros ((-exponent).toNat - text.length) ++ text)

/-- The text of a bit pattern: the shortest decimal in positional notation. Only `NaN` has no
sign. -/
def floatText (format : BinaryFormat) (bits : Nat) : String :=
  let sign := if format.isNegative bits then "-" else ""
  match format.value bits with
  | .nan => "NaN"
  | .infinite => sign ++ "inf"
  | .zero => sign ++ "0"
  | .finite magnitude => sign ++ magnitude.shortest.positional

end DexImage.Decimal
