import DexImage.Value.Basic
import DexImage.Proofs.Codec.Reading
import DexImage.Proofs.Results
/-! # Scalars decode back

A payload that is at least as wide as the least width for a scalar spells the scalar: integers are
recovered by extending their sign, floating point patterns by appending zero bytes, the others by
prepending them.
-/

namespace DexImage

namespace Bytes

theorem capacity_eq (width : Nat) : capacity width = 256 ^ width := by
  induction width with
  | zero => rfl
  | succ width ih => rw [capacity, ih, Nat.pow_succ, Nat.mul_comm]

theorem capacity_add (first second : Nat) : capacity (first + second) = capacity first * capacity second := by
  simp only [capacity_eq, Nat.pow_add]

end Bytes

namespace Scalar

open Leb128 (bitLength bitLength_le_iff)

private theorem capacity_bits (width : Nat) : Bytes.capacity width = 2 ^ (8 * width) := by
  rw [Bytes.capacity_eq, Nat.pow_mul]

/-- A width holds an integer when a sign bit above it is left. -/
theorem signedWidth_le_iff {v : Int} {width : Nat} :
    signedWidth v ≤ width + 1 ↔ -(128 * 256 ^ width) ≤ v ∧ v < 128 * 256 ^ width := by
  have bits : signedWidth v ≤ width + 1 ↔
      (if v < 0 then (-v - 1).toNat else v.toNat) < 2 ^ (8 * width + 7) := by
    rw [signedWidth, ← bitLength_le_iff]
    omega
  have power : 2 ^ (8 * width + 7) = 128 * 256 ^ width := by
    rw [Nat.pow_add, Nat.pow_mul, Nat.mul_comm]
  rw [bits, power]
  have cast : ((256 ^ width : Nat) : Int) = 256 ^ width := by simp
  rw [← cast]
  split_ifs <;> omega

theorem unsignedWidth_le_iff {n width : Nat} : unsignedWidth n ≤ width + 1 ↔ n < Bytes.capacity (width + 1) := by
  rw [unsignedWidth, capacity_bits, ← bitLength_le_iff]
  omega

/-- The low end that is dropped consists of zero bytes. -/
theorem rightWidth_spec {size value width : Nat} (least : rightWidth size value ≤ width) (within : width ≤ size) :
    Bytes.capacity (size - width) ∣ value := by
  induction size, value using rightWidth.induct generalizing width with
  | case1 value =>
    rw [rightWidth] at least
    omega
  | case2 value =>
    rw [rightWidth] at least
    simp [Nat.le_antisymm within least, Bytes.capacity]
  | case3 size value zero ih =>
    rw [rightWidth, if_pos zero] at least
    by_cases all : width = size + 2
    · simp [all, Bytes.capacity]
    · have high := ih least (by omega)
      have more : size + 2 - width = size + 1 - width + 1 := by omega
      have whole : 256 * (value / 256) = value := by omega
      rw [more, Bytes.capacity, ← whole]
      exact Nat.mul_dvd_mul_left 256 high
  | case4 size value other =>
    rw [rightWidth, if_neg other] at least
    simp [Nat.le_antisymm within least, Bytes.capacity]

/-- The residue of an integer by its payload gives the integer back. -/
theorem bmod_of_signedWidth {v : Int} {width size : Nat} {raw : Nat} (least : signedWidth v ≤ width)
    (within : width ≤ size) (bits : (raw : Int) = v % 256 ^ size) :
    Int.bmod (raw % Bytes.capacity width : Nat) (Bytes.capacity width) = v := by
  obtain ⟨width, rfl⟩ := Nat.exists_eq_succ_of_ne_zero (n := width) (by
    rintro rfl
    simp [signedWidth] at least)
  obtain ⟨lower, upper⟩ := signedWidth_le_iff.mp least
  have scale : (256 : Nat) ^ (width + 1) = 256 * 256 ^ width := by rw [Nat.pow_succ, Nat.mul_comm]
  have divides : ((256 ^ (width + 1) : Nat) : Int) ∣ 256 ^ size := by
    exact_mod_cast Nat.pow_dvd_pow 256 within
  rw [Bytes.capacity_eq, Int.natCast_mod, bits, Int.emod_emod_of_dvd v divides, Int.emod_bmod,
    Int.bmod_eq_iff (Nat.pow_pos (by decide)), scale]
  have cast : ((256 ^ width : Nat) : Int) = 256 ^ width := by simp
  rw [← cast] at lower upper
  refine ⟨?_, ?_, by simp⟩ <;> omega

/-- An unsigned number is its payload. -/
theorem mod_of_unsignedWidth {n width : Nat} (least : unsignedWidth n ≤ width) : n % Bytes.capacity width = n := by
  obtain ⟨width, rfl⟩ := Nat.exists_eq_succ_of_ne_zero (n := width) (by
    rintro rfl
    simp [unsignedWidth] at least)
  exact Nat.mod_eq_of_lt (unsignedWidth_le_iff.mp least)

/-- A pattern is the high end of its bytes. -/
theorem mul_of_rightWidth {n width size : Nat} (least : rightWidth size n ≤ width) (within : width ≤ size)
    (bound : n < Bytes.capacity size) :
    n / Bytes.capacity (size - width) % Bytes.capacity width * Bytes.capacity (size - width) = n := by
  have pos : 0 < Bytes.capacity (size - width) := by
    rw [Bytes.capacity_eq]
    exact Nat.pow_pos (by decide)
  have split : Bytes.capacity size = Bytes.capacity width * Bytes.capacity (size - width) := by
    rw [← Bytes.capacity_add, Nat.add_sub_cancel' within]
  have high : n / Bytes.capacity (size - width) < Bytes.capacity width := by
    rw [Nat.div_lt_iff_lt_mul pos, ← split]
    exact bound
  rw [Nat.mod_eq_of_lt high]
  exact Nat.div_mul_cancel (rightWidth_spec least within)

theorem rightWidth_le {size value : Nat} (pos : 0 < size) : rightWidth size value ≤ size := by
  induction size, value using rightWidth.induct with
  | case1 => exact absurd pos (Nat.lt_irrefl 0)
  | case2 value => simp [rightWidth]
  | case3 size value zero ih =>
    rw [rightWidth, if_pos zero]
    exact Nat.le_succ_of_le (ih (by omega))
  | case4 size value other => rw [rightWidth, if_neg other]

private theorem rightWidth_pos (size value : Nat) : 0 < rightWidth size value := by
  induction size, value using rightWidth.induct with
  | case1 | case2 => simp [rightWidth]
  | case3 size value zero ih =>
    rw [rightWidth, if_pos zero]
    exact ih
  | case4 size value other =>
    rw [rightWidth, if_neg other]
    omega

theorem leastWidth_pos (value : Scalar) : 0 < value.leastWidth := by
  have signed (v : Int) : 0 < signedWidth v := Nat.succ_pos _
  have unsigned (n : Nat) : 0 < unsignedWidth n := Nat.lt_of_lt_of_le Nat.one_pos (Nat.le_max_left _ _)
  cases value with
  | byte => exact Nat.one_pos
  | short | int | long => exact signed _
  | float | double => exact rightWidth_pos _ _
  | _ => exact unsigned _

/-- The least width is one that the kind allows. -/
theorem leastWidth_le_maxWidth (value : Scalar) : value.leastWidth ≤ value.kind.maxWidth := by
  have word (n : UInt32) : unsignedWidth n.toNat ≤ 4 := unsignedWidth_le_iff.mpr n.toNat_lt
  cases value with
  | byte => exact Nat.le_refl 1
  | short v => exact signedWidth_le_iff.mpr ⟨v.le_toInt, v.toInt_lt⟩
  | char n => exact unsignedWidth_le_iff.mpr n.toNat_lt
  | int v => exact signedWidth_le_iff.mpr ⟨v.le_toInt, v.toInt_lt⟩
  | long v => exact signedWidth_le_iff.mpr ⟨v.le_toInt, v.toInt_lt⟩
  | float | double => exact rightWidth_le (by decide)
  | _ => exact word _

private theorem toNat_residue {size : Nat} (pattern : BitVec (8 * size)) :
    (pattern.toNat : Int) = pattern.toInt % 256 ^ size := by
  have power : (256 : Int) ^ size = ((2 ^ (8 * size) : Nat) : Int) := by
    rw [Nat.pow_mul]
    simp
  rw [BitVec.toInt_eq_toNat_bmod, power, Int.bmod_emod, Int.emod_eq_of_lt (by omega)]
  exact_mod_cast pattern.isLt

/-- The payload of a scalar spells the scalar, unless it is an absent reference. -/
theorem ofPayload_payload {value : Scalar} {width : Nat} (present : value.checkReference = .ok ())
    (least : value.leastWidth ≤ width) (within : width ≤ value.kind.maxWidth) :
    ofPayload value.kind width (Bytes.toNatLittle (value.payload width)) = value := by
  have reference {target : PoolKind} {ref : IdRef target} (present : (discard ref.required : Result Unit) = .ok ())
      (least : unsignedWidth ref.raw.toNat ≤ width) :
      IdRef.of (ref.raw.toNat % Bytes.capacity width).toUInt32 = ref := by
    rw [mod_of_unsignedWidth least, Nat.toUInt32_eq, UInt32.ofNat_toNat]
    obtain ⟨_ | index⟩ := ref
    · cases present
    · rfl
  cases value with
  | byte v =>
    have least : signedWidth v.toInt ≤ width :=
      Nat.le_trans (signedWidth_le_iff.mpr ⟨v.le_toInt, v.toInt_lt⟩) least
    have extended := bmod_of_signedWidth least within (@toNat_residue 1 v.toBitVec)
    rw [Int8.toNat_toBitVec] at extended
    simp only [payload, bits, ofPayload, kind, Bytes.toNatLittle_littleEndian, extended]
    exact congrArg byte (Int8.ofInt_toInt v)
  | short v =>
    have extended := bmod_of_signedWidth least within (@toNat_residue 2 v.toBitVec)
    rw [Int16.toNat_toBitVec] at extended
    simp only [payload, bits, ofPayload, kind, Bytes.toNatLittle_littleEndian, extended]
    exact congrArg short (Int16.ofInt_toInt v)
  | int v =>
    have extended := bmod_of_signedWidth least within (@toNat_residue 4 v.toBitVec)
    rw [Int32.toNat_toBitVec] at extended
    simp only [payload, bits, ofPayload, kind, Bytes.toNatLittle_littleEndian, extended]
    exact congrArg int (Int32.ofInt_toInt v)
  | long v =>
    have extended := bmod_of_signedWidth least within (@toNat_residue 8 v.toBitVec)
    rw [Int64.toNat_toBitVec] at extended
    simp only [payload, bits, ofPayload, kind, Bytes.toNatLittle_littleEndian, extended]
    exact congrArg long (Int64.ofInt_toInt v)
  | float n =>
    have restored := mul_of_rightWidth least within n.toNat_lt
    simp only [payload, ofPayload, kind, Bytes.toNatLittle_littleEndian, restored]
    exact congrArg float n.ofNat_toNat
  | double n =>
    have restored := mul_of_rightWidth least within n.toNat_lt
    simp only [payload, ofPayload, kind, Bytes.toNatLittle_littleEndian, restored]
    exact congrArg double n.ofNat_toNat
  | char n =>
    have restored := mod_of_unsignedWidth least
    simp only [payload, ofPayload, kind, Bytes.toNatLittle_littleEndian, restored]
    exact congrArg char n.ofNat_toNat
  | methodHandle n =>
    have restored := mod_of_unsignedWidth least
    simp only [payload, ofPayload, kind, Bytes.toNatLittle_littleEndian, restored]
    exact congrArg methodHandle n.ofNat_toNat
  | methodType ref | string ref | type ref | field ref | method ref | enum ref =>
    simp only [payload, ofPayload, kind, Bytes.toNatLittle_littleEndian, bits, reference present least]

end Scalar
end DexImage
