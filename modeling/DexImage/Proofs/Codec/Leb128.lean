import DexImage.Leb128
import Mathlib.Data.Int.ModEq
import Mathlib.Tactic.Ring
import Mathlib.Tactic.Linarith
/-! # Variable-length integers decode back

Reading undoes writing, whatever follows the groups that were written. The groups of a natural
number spell the number itself; those of an integer spell its residue, from which the sign of the
last group recovers the integer.
-/

namespace DexImage.Leb128

theorem encodeNat_of_lt {n : Nat} (small : n < 128) : encodeNat n = [n.toUInt8] := by
  rw [encodeNat, if_pos small]

theorem encodeNat_of_le {n : Nat} (large : 128 ≤ n) :
    encodeNat n = (n % 128 + 128).toUInt8 :: encodeNat (n / 128) := by
  rw [encodeNat, if_neg (Nat.not_lt.mpr large)]

private theorem toNat_last {n : Nat} (small : n < 128) : n.toUInt8.toNat = n ∧ n.toUInt8 < 128 := by
  have value : n.toUInt8.toNat = n := by
    rw [Nat.toUInt8_eq, UInt8.toNat_ofNat']
    omega
  refine ⟨value, UInt8.lt_iff_toNat_lt.mpr ?_⟩
  rw [value]
  exact small

private theorem toNat_announcing {n : Nat} (small : n < 128) :
    (n + 128).toUInt8.toNat = n + 128 ∧ ¬(n + 128).toUInt8 < 128 := by
  have value : (n + 128).toUInt8.toNat = n + 128 := by
    rw [Nat.toUInt8_eq, UInt8.toNat_ofNat']
    omega
  refine ⟨value, fun less => ?_⟩
  have less := UInt8.lt_iff_toNat_lt.mp less
  rw [value] at less
  change n + 128 < 128 at less
  omega

theorem decodeGroups_nil {limit taken : Nat} {found : Nat × Nat} : decodeGroups limit taken [] ≠ .ok found := by
  rw [decodeGroups]
  split_ifs <;> rintro ⟨⟩

/-- The first group is the last one, or the lowest of those that follow. -/
theorem decodeGroups_cons_eq_ok {limit taken n length : Nat} {byte : UInt8} {rest : List UInt8} :
    decodeGroups limit taken (byte :: rest) = .ok (n, length) ↔ taken < limit ∧
      (byte < 128 ∧ n = byte.toNat ∧ length = taken + 1 ∨
        ¬byte < 128 ∧ ∃ high, decodeGroups limit (taken + 1) rest = .ok (high, length) ∧
          n = byte.toNat - 128 + 128 * high) := by
  rw [decodeGroups]
  split_ifs with full last
  · exact iff_of_false (by rintro ⟨⟩) fun room => absurd room.1 (Nat.not_lt.mpr full)
  · simp [Nat.not_le.mp full, last, eq_comm]
  · rcases decodeGroups limit (taken + 1) rest with fault | ⟨high, length'⟩
    · simp [last]
    · simp [Nat.not_le.mp full, last, eq_comm, and_comm]

/-- A last group ends the number. -/
theorem decodeGroups_last {limit taken n : Nat} (small : n < 128) (more : taken < limit)
    (rest : List UInt8) : decodeGroups limit taken (n.toUInt8 :: rest) = .ok (n, taken + 1) := by
  obtain ⟨value, last⟩ := toNat_last small
  rw [decodeGroups, if_neg (Nat.not_le.mpr more)]
  simp only [if_pos last, value]

/-- A group that announces another one is the lowest of the number. -/
theorem decodeGroups_announcing {limit taken low high length : Nat} (small : low < 128)
    (more : taken < limit) {rest : List UInt8}
    (others : decodeGroups limit (taken + 1) rest = .ok (high, length)) :
    decodeGroups limit taken ((low + 128).toUInt8 :: rest) = .ok (low + 128 * high, length) := by
  obtain ⟨value, announces⟩ := toNat_announcing small
  rw [decodeGroups, if_neg (Nat.not_le.mpr more)]
  simp only [if_neg announces, others, value, Nat.add_sub_cancel]

/-- The groups of a number spell that number. -/
theorem decodeGroups_encodeNat {limit : Nat} (n taken : Nat) (rest : List UInt8)
    (fits : taken + (encodeNat n).length ≤ limit) :
    decodeGroups limit taken (encodeNat n ++ rest) = .ok (n, taken + (encodeNat n).length) := by
  induction n using Nat.strongRecOn generalizing taken with
  | ind n ih =>
    by_cases small : n < 128
    · rw [encodeNat_of_lt small] at fits ⊢
      exact decodeGroups_last small fits rest
    · have large := Nat.not_lt.mp small
      rw [encodeNat_of_le large] at fits ⊢
      simp only [List.length_cons] at fits ⊢
      have others := ih (n / 128) (by omega) (taken + 1) (by omega)
      rw [List.cons_append, decodeGroups_announcing (by omega) (by omega) others]
      congr 2
      · omega
      · omega

/-- A number below a power of the group size takes no more groups than its exponent. -/
theorem length_encodeNat_le {n count : Nat} (bound : n < 128 ^ (count + 1)) :
    (encodeNat n).length ≤ count + 1 := by
  induction count generalizing n with
  | zero => rw [encodeNat_of_lt (by simpa using bound)]; simp
  | succ count ih =>
    by_cases small : n < 128
    · rw [encodeNat_of_lt small]
      simp
    · rw [encodeNat_of_le (Nat.not_lt.mp small), List.length_cons]
      have bound : n / 128 < 128 ^ (count + 1) := by
        rw [Nat.div_lt_iff_lt_mul (by omega)]
        rwa [Nat.pow_succ] at bound
      exact Nat.succ_le_succ (ih bound)

theorem length_encodeNat_pos (n : Nat) : 0 < (encodeNat n).length := by
  rw [encodeNat]
  split <;> simp

/-- Two numbers, one after the other. -/
def encodePair (pair : UInt32 × UInt32) : List UInt8 := encodeUInt32 pair.1 ++ encodeUInt32 pair.2

theorem two_le_length_encodePair (pair : UInt32 × UInt32) : 2 ≤ (encodePair pair).length := by
  have first := length_encodeNat_pos pair.1.toNat
  have second := length_encodeNat_pos pair.2.toNat
  rw [encodePair, List.length_append, encodeUInt32, encodeUInt32]
  omega

theorem length_encodeUInt32_le (value : UInt32) : (encodeUInt32 value).length ≤ maxLength32 :=
  length_encodeNat_le (Nat.lt_of_lt_of_le value.toNat_lt (by decide))

theorem decodeUInt32_encodeUInt32 (value : UInt32) (rest : List UInt8) :
    decodeUInt32 (encodeUInt32 value ++ rest) = .ok (value, (encodeUInt32 value).length) := by
  have groups := @decodeGroups_encodeNat maxLength32 value.toNat 0 rest (by
    rw [Nat.zero_add]
    exact length_encodeUInt32_le value)
  rw [decodeUInt32, encodeUInt32, groups, Nat.zero_add]
  change Except.ok (value.toNat.toUInt32, _) = _
  rw [Nat.toUInt32_eq, UInt32.ofNat_toNat]

theorem bitLength_le_iff {n bits : Nat} : bitLength n ≤ bits ↔ n < 2 ^ bits := by
  rw [bitLength]
  split_ifs with zero
  · simp [zero]
  · exact Nat.log2_lt zero

private theorem bitLength_div {n : Nat} (large : 128 ≤ n) : bitLength n = bitLength (n / 128) + 7 := by
  have split (bits : Nat) : n / 128 < 2 ^ bits ↔ n < 2 ^ (bits + 7) := by
    rw [Nat.div_lt_iff_lt_mul (by omega), Nat.pow_add]
  have seven : 7 < bitLength n := by
    rw [← Nat.not_le, bitLength_le_iff]
    omega
  refine Nat.le_antisymm ?_ ?_
  · rw [bitLength_le_iff, ← split, ← bitLength_le_iff]
  · have least : bitLength (n / 128) ≤ bitLength n - 7 := by
      rw [bitLength_le_iff, split, Nat.sub_add_cancel seven.le, ← bitLength_le_iff]
    omega

/-- The number of groups is that of the significant bits. -/
theorem length_encodeNat (n : Nat) : (encodeNat n).length = groupsFor (bitLength n) := by
  induction n using Nat.strongRecOn with
  | ind n ih =>
    by_cases small : n < 128
    · have bits : bitLength n ≤ 7 := bitLength_le_iff.mpr small
      rw [encodeNat_of_lt small, groupsFor, List.length_singleton]
      omega
    · have large := Nat.not_lt.mp small
      have pos : ¬bitLength (n / 128) ≤ 0 := by
        rw [bitLength_le_iff]
        omega
      rw [encodeNat_of_le large, List.length_cons, ih (n / 128) (by omega), bitLength_div large]
      simp only [groupsFor]
      omega

theorem length_encodeUInt32 (value : UInt32) : (encodeUInt32 value).length = lengthUInt32 value :=
  length_encodeNat value.toNat

/-- A value that is one higher decodes to the value. -/
theorem decodePlusOne_encodePlusOne (value : Int32) (rest : List UInt8) :
    decodePlusOne (encodePlusOne value ++ rest) = .ok (value, (encodePlusOne value).length) := by
  rw [decodePlusOne, encodePlusOne, decodeUInt32_encodeUInt32]
  change Except.ok ((value + 1).toUInt32.toInt32 - 1, _) = _
  simp

section Signed

theorem encodeInt_of_small {v : Int} (small : -64 ≤ v ∧ v < 64) :
    encodeInt v = [(v % 128).toNat.toUInt8] := by
  rw [encodeInt, if_pos small]

theorem encodeInt_of_large {v : Int} (large : ¬(-64 ≤ v ∧ v < 64)) :
    encodeInt v = ((v % 128).toNat + 128).toUInt8 :: encodeInt (v / 128) := by
  rw [encodeInt, if_neg large]

theorem length_encodeInt_pos (v : Int) : 0 < (encodeInt v).length := by
  rw [encodeInt]
  split <;> simp

/-- How many groups an integer takes: the last of them has room for its sign. -/
theorem length_encodeInt_le_iff {v : Int} {count : Nat} :
    (encodeInt v).length ≤ count + 1 ↔ -(64 * 128 ^ count) ≤ v ∧ v < 64 * 128 ^ count := by
  induction count generalizing v with
  | zero =>
    by_cases small : -64 ≤ v ∧ v < 64
    · simp [encodeInt_of_small small, small]
    · have pos := length_encodeInt_pos (v / 128)
      rw [encodeInt_of_large small, List.length_cons]
      simp only [Int.pow_zero, Int.mul_one, small, iff_false]
      omega
  | succ count ih =>
    have scale : (128 : Int) ^ (count + 1) = 128 ^ count * 128 := Int.pow_succ ..
    have pos : (0 : Int) < 128 ^ count := Int.pow_pos (by decide)
    by_cases small : -64 ≤ v ∧ v < 64
    · rw [encodeInt_of_small small, scale]
      simp only [List.length_singleton]
      constructor
      · intro _
        constructor <;> nlinarith
      · omega
    · rw [encodeInt_of_large small, List.length_cons, Nat.add_le_add_iff_right, ih, scale]
      omega

/-- The residue by a multiple of the group size, group by group. -/
private theorem emod_mul (v : Int) {size : Int} (pos : 0 < size) :
    v % (128 * size) = v % 128 + 128 * (v / 128 % size) := by
  have low := Int.emod_nonneg v (by decide : (128 : Int) ≠ 0)
  have high := Int.emod_lt_of_pos v (by decide : (0 : Int) < 128)
  have rest := Int.emod_nonneg (v / 128) pos.ne'
  have below := Int.emod_lt_of_pos (v / 128) pos
  calc v % (128 * size) = (128 * (v / 128) + v % 128) % (128 * size) := by rw [Int.mul_ediv_add_emod]
    _ = (128 * (v / 128 % size) + v % 128) % (128 * size) := by
      rw [Int.add_emod, Int.mul_emod_mul_of_pos _ _ (by decide), ← Int.emod_add_emod, ← Int.add_emod]
    _ = v % 128 + 128 * (v / 128 % size) := by
      rw [Int.emod_eq_of_lt (by omega) (by nlinarith)]
      omega

/-- The groups of an integer spell its residue. -/
theorem decodeGroups_encodeInt {limit : Nat} (v : Int) (taken : Nat) (rest : List UInt8)
    (fits : taken + (encodeInt v).length ≤ limit) :
    ∃ spelled : Nat, decodeGroups limit taken (encodeInt v ++ rest) =
        .ok (spelled, taken + (encodeInt v).length) ∧
      (spelled : Int) = v % 128 ^ (encodeInt v).length := by
  induction v using encodeInt.induct generalizing taken with
  | case1 v small =>
    rw [encodeInt_of_small small] at fits ⊢
    refine ⟨(v % 128).toNat, decodeGroups_last (by omega) fits rest, ?_⟩
    simp
    omega
  | case2 v large ih =>
    rw [encodeInt_of_large large] at fits ⊢
    simp only [List.length_cons] at fits ⊢
    obtain ⟨high, others, spells⟩ := ih (taken + 1) (by omega)
    refine ⟨(v % 128).toNat + 128 * high, ?_, ?_⟩
    · rw [List.cons_append, decodeGroups_announcing (by omega) (by omega) others]
      congr 2
      omega
    · rw [Int.pow_succ, Int.mul_comm _ 128, emod_mul v (Int.pow_pos (by decide)), ← spells]
      omega

theorem length_encodeInt32_le (value : Int32) : (encodeInt32 value).length ≤ maxLength32 := by
  refine length_encodeInt_le_iff.mpr ?_
  have lower := value.le_toInt
  have upper := value.toInt_lt
  constructor <;> omega

theorem decodeInt32_encodeInt32 (value : Int32) (rest : List UInt8) :
    decodeInt32 (encodeInt32 value ++ rest) = .ok (value, (encodeInt32 value).length) := by
  obtain ⟨spelled, groups, spells⟩ := @decodeGroups_encodeInt maxLength32 value.toInt 0 rest (by
    rw [Nat.zero_add]
    exact length_encodeInt32_le value)
  rw [decodeInt32, encodeInt32, groups, Nat.zero_add]
  change Except.ok (Int32.ofInt (Int.bmod spelled (1 <<< min 32 (7 * (encodeInt value.toInt).length))), _) = _
  have size := length_encodeInt32_le value
  have pos := length_encodeInt_pos value.toInt
  have lower := value.le_toInt
  have upper := value.toInt_lt
  have range := @length_encodeInt_le_iff value.toInt ((encodeInt value.toInt).length - 1)
  rw [Nat.sub_add_cancel pos] at range
  have range := range.mp (Nat.le_refl _)
  have restored : Int.bmod spelled (1 <<< min 32 (7 * (encodeInt value.toInt).length)) = value.toInt := by
    simp only [encodeInt32, maxLength32] at size
    generalize (encodeInt value.toInt).length = length at size pos range spells
    have cases : length = 1 ∨ length = 2 ∨ length = 3 ∨ length = 4 ∨ length = 5 := by omega
    rcases cases with rfl | rfl | rfl | rfl | rfl <;>
      simp only [Int.bmod_def, Nat.shiftLeft_eq] <;> norm_num at spells range ⊢ <;> omega
  rw [restored, Int32.ofInt_toInt]

end Signed

end DexImage.Leb128
