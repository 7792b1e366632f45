/-! # Variable-length integers

A number is written in groups of seven bits, the least significant group first; the high bit of
a byte says that another group follows. Encoders write the fewest groups. Decoders accept padded
encodings up to a greatest length, five bytes for 32-bit numbers and ten for 64-bit ones.
-/

namespace DexImage.Leb128

/-- Longest accepted encoding of a 32-bit number. -/
def maxLength32 : Nat := 5

/-- Longest accepted encoding of a 64-bit number. -/
def maxLength64 : Nat := 10

/-- The groups of a natural number. -/
def encodeNat (n : Nat) : List UInt8 :=
  if n < 128 then [n.toUInt8] else (n % 128 + 128).toUInt8 :: encodeNat (n / 128)
termination_by n
decreasing_by omega

/-- The groups of an integer: writing ends when the rest is the sign of the last group. -/
def encodeInt (v : Int) : List UInt8 :=
  if -64 ≤ v ∧ v < 64 then [(v % 128).toNat.toUInt8]
  else ((v % 128).toNat + 128).toUInt8 :: encodeInt (v / 128)
termination_by v.natAbs
decreasing_by omega

/-- How reading the groups of a number can fail. -/
inductive GroupsFault where
  /-- The input ends after `taken` bytes, all of which announce another one. -/
  | cut (taken : Nat)
  /-- None of the first `limit` bytes is a last one. -/
  | tooLong (limit : Nat)
deriving DecidableEq, Repr

/-- The number spelled by the groups at the front of `bytes` and how many bytes they take;
`taken` bytes of at most `limit` have been read before. -/
def decodeGroups (limit taken : Nat) : List UInt8 → Except GroupsFault (Nat × Nat)
  | bytes =>
    if limit ≤ taken then .error (.tooLong limit)
    else match bytes with
      | [] => .error (.cut taken)
      | byte :: rest =>
        if byte < 128 then .ok (byte.toNat, taken + 1)
        else match decodeGroups limit (taken + 1) rest with
          | .ok (high, length) => .ok (byte.toNat - 128 + 128 * high, length)
          | .error fault => .error fault

def encodeUInt32 (value : UInt32) : List UInt8 := encodeNat value.toNat

def encodeUInt64 (value : UInt64) : List UInt8 := encodeNat value.toNat

def encodeInt32 (value : Int32) : List UInt8 := encodeInt value.toInt

/-- The number is stored one higher, so that `-1` takes a single zero byte. -/
def encodePlusOne (value : Int32) : List UInt8 := encodeUInt32 (value + 1).toUInt32

/-- Bits past the thirty-second are dropped. -/
def decodeUInt32 (bytes : List UInt8) : Except GroupsFault (UInt32 × Nat) := do
  let (value, length) ← decodeGroups maxLength32 0 bytes
  return (value.toUInt32, length)

def decodeUInt64 (bytes : List UInt8) : Except GroupsFault (UInt64 × Nat) := do
  let (value, length) ← decodeGroups maxLength64 0 bytes
  return (value.toUInt64, length)

/-- The top bit of the last group is the sign, unless the groups hold 32 bits or more. -/
def decodeInt32 (bytes : List UInt8) : Except GroupsFault (Int32 × Nat) := do
  let (value, length) ← decodeGroups maxLength32 0 bytes
  return (Int32.ofInt (Int.bmod value (1 <<< min 32 (7 * length))), length)

def decodePlusOne (bytes : List UInt8) : Except GroupsFault (Int32 × Nat) := do
  let (value, length) ← decodeUInt32 bytes
  return (value.toInt32 - 1, length)

/-- How many groups a number of `bits` significant bits takes. -/
def groupsFor (bits : Nat) : Nat := max 1 ((bits + 6) / 7)

/-- The number of significant bits. -/
def bitLength (n : Nat) : Nat := if n = 0 then 0 else n.log2 + 1

def lengthUInt32 (value : UInt32) : Nat := groupsFor (bitLength value.toNat)

def lengthUInt64 (value : UInt64) : Nat := groupsFor (bitLength value.toNat)

def lengthInt32 (value : Int32) : Nat := (encodeInt32 value).length

end DexImage.Leb128
