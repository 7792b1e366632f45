import DexImage.Proofs.Codec.Consumption
/-! # Variable-length integers take the fewest bytes

Groups that are decoded spell a number below a power of the group size (`decodeGroups_bound`), whether or not
any of them is needed. So a decoder, which drops high bits of the number or takes one of them for its sign, gets
no value from fewer bytes than its encoder writes for that value. Each pair of an encoder and a decoder is
`Tight`.
-/

namespace DexImage.Leb128

/-- Whether a decoder undoes an encoder whatever follows the groups, which are as many as `length` says, and
gets no value from fewer bytes than are written for it. -/
structure Tight {α : Type} (encode : α → List UInt8) (decode : List UInt8 → Except GroupsFault (α × Nat))
    (length : α → Nat) : Prop where
  decodes : ∀ value rest, decode (encode value ++ rest) = .ok (value, (encode value).length)
  length : ∀ value, (encode value).length = length value
  least : ∀ value bytes taken, decode bytes = .ok (value, taken) →
    (encode value).length ≤ taken ∧ taken ≤ bytes.length

/-- Groups spell a number below a power of the group size, and are among the bytes that are there. -/
theorem decodeGroups_bound {limit taken n length : Nat} {bytes : List UInt8}
    (success : decodeGroups limit taken bytes = .ok (n, length)) :
    ∃ more, length = taken + (more + 1) ∧ more + 1 ≤ bytes.length ∧ length ≤ limit ∧ n < 128 ^ (more + 1) := by
  induction bytes generalizing taken n with
  | nil => exact absurd success decodeGroups_nil
  | cons byte rest ih =>
    obtain ⟨room, ⟨last, rfl, rfl⟩ | ⟨-, high, others, rfl⟩⟩ := decodeGroups_cons_eq_ok.mp success
    · exact ⟨0, rfl, Nat.succ_pos _, room, UInt8.lt_iff_toNat_lt.mp last⟩
    · obtain ⟨more, size, inside, within, small⟩ := ih others
      have bound := byte.toNat_lt
      refine ⟨more + 1, by omega, Nat.succ_le_succ inside, within, ?_⟩
      rw [Nat.pow_succ]
      omega

/-! ## Numbers without a sign -/

/-- A number is read back from its groups, whatever follows them, if the limit allows for it. -/
theorem decodeGroups_of_lt {limit n : Nat} (small : n < 128 ^ (limit + 1)) (rest : List UInt8) :
    decodeGroups (limit + 1) 0 (encodeNat n ++ rest) = .ok (n, (encodeNat n).length) := by
  have fits : 0 + (encodeNat n).length ≤ limit + 1 := by
    rw [Nat.zero_add]
    exact length_encodeNat_le small
  rw [decodeGroups_encodeNat n 0 rest fits, Nat.zero_add]

/-- A number that is got from others by dropping high bits takes no more groups than they do. -/
theorem length_encodeNat_le_of_decodeGroups {limit n low length : Nat} {bytes : List UInt8}
    (success : decodeGroups limit 0 bytes = .ok (n, length)) (less : low ≤ n) :
    (encodeNat low).length ≤ length ∧ length ≤ bytes.length := by
  obtain ⟨more, rfl, inside, -, small⟩ := decodeGroups_bound success
  rw [Nat.zero_add]
  exact ⟨length_encodeNat_le (Nat.lt_of_le_of_lt less small), inside⟩

/-- What a decoder makes of the number that the groups spell. -/
theorem decoded_eq_ok {α : Type} (make : Nat → Nat → α) {limit taken : Nat} {bytes : List UInt8} {value : α} :
    (decodeGroups limit 0 bytes >>= fun found => pure (make found.1 found.2, found.2)) = .ok (value, taken) ↔
      ∃ n, decodeGroups limit 0 bytes = .ok (n, taken) ∧ make n taken = value := by
  rcases decodeGroups limit 0 bytes with fault | ⟨n, length⟩
  · exact iff_of_false (by rintro ⟨⟩) (by rintro ⟨_, ⟨⟩, _⟩)
  · constructor
    · rintro ⟨⟩
      exact ⟨n, rfl, rfl⟩
    · rintro ⟨_, ⟨⟩, rfl⟩
      rfl

theorem decodeUInt32_eq_ok {bytes : List UInt8} {value : UInt32} {taken : Nat} :
    decodeUInt32 bytes = .ok (value, taken) ↔
    ∃ n, decodeGroups maxLength32 0 bytes = .ok (n, taken) ∧ n.toUInt32 = value :=
  decoded_eq_ok fun n _ => n.toUInt32

theorem decodeUInt64_eq_ok {bytes : List UInt8} {value : UInt64} {taken : Nat} :
    decodeUInt64 bytes = .ok (value, taken) ↔
    ∃ n, decodeGroups maxLength64 0 bytes = .ok (n, taken) ∧ n.toUInt64 = value :=
  decoded_eq_ok fun n _ => n.toUInt64

theorem decodeInt32_eq_ok {bytes : List UInt8} {value : Int32} {taken : Nat} : decodeInt32 bytes = .ok (value, taken) ↔
    ∃ n : Nat, decodeGroups maxLength32 0 bytes = .ok (n, taken) ∧
      Int32.ofInt (Int.bmod n (1 <<< min 32 (7 * taken))) = value :=
  decoded_eq_ok fun n length => Int32.ofInt (Int.bmod n (1 <<< min 32 (7 * length)))

/-- Only the groups of the number that is one higher are read as a number. -/
theorem decodePlusOne_eq_ok {bytes : List UInt8} {value : Int32} {taken : Nat} :
    decodePlusOne bytes = .ok (value, taken) ↔
    decodeUInt32 bytes = .ok ((value + 1).toUInt32, taken) := by
  rw [decodePlusOne]
  rcases decodeUInt32 bytes with fault | ⟨higher, length⟩
  · exact iff_of_false (by rintro ⟨⟩) (by rintro ⟨⟩)
  · constructor
    · rintro ⟨⟩
      simp
    · rintro ⟨⟩
      change Except.ok ((value + 1).toUInt32.toInt32 - 1, taken) = _
      simp

theorem tight_uint32 : Tight encodeUInt32 decodeUInt32 lengthUInt32 where
  decodes := decodeUInt32_encodeUInt32
  length := length_encodeUInt32
  least value bytes taken success := by
    obtain ⟨n, groups, rfl⟩ := decodeUInt32_eq_ok.mp success
    exact length_encodeNat_le_of_decodeGroups groups (Nat.mod_le n _)

theorem tight_uint64 : Tight encodeUInt64 decodeUInt64 lengthUInt64 where
  decodes value rest := by
    have groups := @decodeGroups_of_lt 9 _ (Nat.lt_of_lt_of_le value.toNat_lt (by decide)) rest
    exact decodeUInt64_eq_ok.mpr ⟨value.toNat, groups, UInt64.ofNat_toNat⟩
  length value := length_encodeNat value.toNat
  least value bytes taken success := by
    obtain ⟨n, groups, rfl⟩ := decodeUInt64_eq_ok.mp success
    exact length_encodeNat_le_of_decodeGroups groups (Nat.mod_le n _)

/-- The form that is one higher is that of the successor, of which there is one for each number. -/
theorem tight_plusOne : Tight encodePlusOne decodePlusOne fun value => lengthUInt32 (value + 1).toUInt32 where
  decodes := decodePlusOne_encodePlusOne
  length value := length_encodeUInt32 (value + 1).toUInt32
  least value bytes taken success :=
    tight_uint32.least (value + 1).toUInt32 bytes taken (decodePlusOne_eq_ok.mp success)

/-! ## Numbers with a sign -/

/-- A number whose sign is a high bit of some groups takes no more groups than they are. -/
theorem length_encodeInt_bmod_le {more size : Nat} (n : Nat) (pos : 0 < size) (small : size ≤ 128 ^ (more + 1)) :
    (encodeInt (Int.bmod n size)).length ≤ more + 1 := by
  have lower := Int.le_bmod (x := n) pos
  have upper := Int.bmod_lt (x := n) pos
  have small : (size : Int) ≤ 128 ^ more * 128 := by
    rw [← Int.pow_succ]
    exact_mod_cast small
  refine length_encodeInt_le_iff.mpr ?_
  constructor <;> omega

/-- A residue that is got from a number by a modulus of at most 32 bits is a number with a sign. -/
theorem toInt_ofInt_bmod {size : Nat} (n : Nat) (pos : 0 < size) (word : size ≤ Int32.size) :
    (Int32.ofInt (Int.bmod n size)).toInt = Int.bmod n size := by
  have lower := Int.le_bmod (x := n) pos
  have upper := Int.bmod_lt (x := n) pos
  rw [Int32.toInt_ofInt]
  refine Int.bmod_eq_of_le ?_ ?_ <;> omega

theorem tight_int32 : Tight encodeInt32 decodeInt32 lengthInt32 where
  decodes := decodeInt32_encodeInt32
  length _ := rfl
  least value bytes taken success := by
    obtain ⟨n, groups, rfl⟩ := decodeInt32_eq_ok.mp success
    obtain ⟨more, rfl, inside, -, -⟩ := decodeGroups_bound groups
    have modulus : 1 <<< min 32 (7 * (more + 1)) = 2 ^ min 32 (7 * (more + 1)) := by rw [Nat.shiftLeft_eq, Nat.one_mul]
    have pos : 0 < 2 ^ min 32 (7 * (more + 1)) := Nat.two_pow_pos _
    have word : 2 ^ min 32 (7 * (more + 1)) ≤ 2 ^ 32 := Nat.pow_le_pow_right (by decide) (Nat.min_le_left _ _)
    have small : 2 ^ min 32 (7 * (more + 1)) ≤ (2 ^ 7) ^ (more + 1) := by
      rw [← Nat.pow_mul]
      exact Nat.pow_le_pow_right (by decide) (Nat.min_le_right _ _)
    rw [Nat.zero_add, encodeInt32, modulus, toInt_ofInt_bmod n pos word]
    exact ⟨length_encodeInt_bmod_le n pos small, inside⟩

/-- Whatever follows them, the groups of a number are read back as the number, and they are as many as its
length says. No fewer bytes are read as the number, whether they are all needed, padded, or spell bits that are
dropped. This holds for numbers without a sign of either width, for numbers with a sign, which take just as many
groups as have room for the sign, and for the form that is one higher. -/
theorem codecs_tight :
    Tight encodeUInt32 decodeUInt32 lengthUInt32 ∧ Tight encodeUInt64 decodeUInt64 lengthUInt64 ∧
      Tight encodeInt32 decodeInt32 lengthInt32 ∧
      Tight encodePlusOne decodePlusOne (fun value => lengthUInt32 (value + 1).toUInt32) ∧
      ∀ (value : Int32) (count : Nat),
        lengthInt32 value ≤ count + 1 ↔ -(64 * 128 ^ count) ≤ value.toInt ∧ value.toInt < 64 * 128 ^ count :=
  ⟨tight_uint32, tight_uint64, tight_int32, tight_plusOne, fun _ _ => length_encodeInt_le_iff⟩

end DexImage.Leb128
