import DexImage.Leb128
/-! # Byte strings

Fixed-width numbers are written with the least significant byte first.
-/

namespace DexImage

abbrev Bytes := List UInt8

namespace Bytes

/-- The low `width` bytes of a number, the least significant first. -/
def littleEndian : (width n : Nat) → Bytes
  | 0, _ => []
  | width + 1, n => (n % 256).toUInt8 :: littleEndian width (n / 256)

/-- How many numbers `width` bytes can spell. -/
def capacity : (width : Nat) → Nat
  | 0 => 1
  | width + 1 => 256 * capacity width

/-- The number whose bytes are listed, the least significant first. -/
def toNatLittle : Bytes → Nat
  | [] => 0
  | byte :: rest => byte.toNat + 256 * toNatLittle rest

/-- The number whose bytes are listed, the most significant first. -/
def toNatBig (bytes : Bytes) : Nat := toNatLittle bytes.reverse

def ofUInt16 (value : UInt16) : Bytes := littleEndian 2 value.toNat

def ofUInt32 (value : UInt32) : Bytes := littleEndian 4 value.toNat

/-- A list's length as the four-byte count that precedes its members. -/
def ofCount (count : Nat) : Bytes := ofUInt32 count.toUInt32

/-- A list's length as the variable-length count that precedes its members. -/
def ofVarCount (count : Nat) : Bytes := Leb128.encodeUInt32 count.toUInt32

def varCountLength (count : Nat) : Nat := Leb128.lengthUInt32 count.toUInt32

/-- How many bytes separate a position from the next multiple of `alignment`. -/
def padding (position alignment : Nat) : Nat :=
  if alignment ≤ 1 then 0 else (alignment - position % alignment) % alignment

def zeros (count : Nat) : Bytes := List.replicate count 0

/-- The bytes from `start` on overwritten by `patch`, of which nothing goes past the end. -/
def overwrite (bytes : Bytes) (start : Nat) (patch : Bytes) : Bytes :=
  bytes.take start ++ patch.take (bytes.length - start) ++ bytes.drop (start + patch.length)

@[simp] theorem length_overwrite (bytes patch : Bytes) (start : Nat) :
    (overwrite bytes start patch).length = bytes.length := by
  simp only [overwrite, List.length_append, List.length_take, List.length_drop]
  omega

@[simp] theorem length_littleEndian (width n : Nat) : (littleEndian width n).length = width := by
  induction width generalizing n with
  | zero => rfl
  | succ width ih => simp [littleEndian, ih]

theorem toNatLittle_littleEndian (width n : Nat) :
    toNatLittle (littleEndian width n) = n % capacity width := by
  induction width generalizing n with
  | zero => simp [littleEndian, toNatLittle, capacity, Nat.mod_one]
  | succ width ih =>
    have low : (n % 256).toUInt8.toNat = n % 256 := by
      simp [UInt8.toNat_ofNat']
    simp only [littleEndian, toNatLittle, ih, low]
    rw [capacity, Nat.mod_mul]

end Bytes
end DexImage
