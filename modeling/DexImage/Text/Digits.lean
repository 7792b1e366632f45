/-! # Numerals

Decimal and hexadecimal spellings of numbers. Hexadecimal digits are lower case throughout.
-/

namespace DexImage.Text

/-- The text widened on the left to `width` characters with `fill`. -/
def padLeft (width : Nat) (fill : Char) (text : String) : String :=
  String.ofList (List.replicate (width - text.length) fill) ++ text

/-- The text widened on the right to `width` characters with spaces. -/
def padRight (width : Nat) (text : String) : String :=
  text ++ String.ofList (List.replicate (width - text.length) ' ')

def decimal (n : Nat) : String := String.ofList (Nat.toDigits 10 n)

def hex (n : Nat) : String := String.ofList (Nat.toDigits 16 n)

/-- A hexadecimal numeral of at least `width` digits. -/
def hexPadded (width n : Nat) : String := padLeft width '0' (hex n)

/-- A decimal numeral of at least `width` digits. -/
def decimalPadded (width n : Nat) : String := padLeft width '0' (decimal n)

/-- A decimal numeral whose sign is written only when it is negative. -/
def integer (n : Int) : String :=
  if n < 0 then "-" ++ decimal n.natAbs else decimal n.natAbs

/-- A decimal numeral whose sign is always written; zero counts as positive. -/
def signed (n : Int) : String :=
  if n < 0 then integer n else "+" ++ integer n

/-- The `width`-bit two's complement pattern of a number, as a prefixed hexadecimal numeral. -/
def hexPattern (width : Nat) (n : Int) : String := "0x" ++ hex (n % ((1 <<< width : Nat) : Int)).toNat

/-- Two digits for each byte. -/
def hexBytes (bytes : List UInt8) : String :=
  String.join (bytes.map fun byte => hexPadded 2 byte.toNat)

end DexImage.Text
