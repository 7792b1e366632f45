import DexImage.Proofs.Sorting.Sorted
import Mathlib.Data.List.Permutation
/-! # The order of the strings

Texts are compared by their UTF-16 units, and where one of two strings is not text, the stored bytes are compared. The
two orders agree on texts unless one has unit zero, which takes two bytes, where the other has a unit that takes a
single byte (`Text.Inverted`). So the order is total, and it is transitive just where no string that is not text
lies by its bytes between two texts that are inverted (`StringData.Crossed`).
-/

namespace DexImage

namespace Text

/-- Whether units first differ where the first has unit zero and the second one that is stored in a single byte. -/
def Inverted (first second : List UInt16) : Prop :=
  ∃ common unit rest rest', first = common ++ 0 :: rest ∧ second = common ++ unit :: rest' ∧ 0 < unit ∧ unit < 0x80

variable {u v : UInt16} {us vs : List UInt16}

/-- Only the zero character has unit zero. -/
theorem eq_of_zero_mem {char : Char} (member : 0 ∈ charUnits16 char) : char = '\x00' := by
  have bound : char.toNat < 0x110000 := by
    rcases char.valid with low | high
    · exact Nat.lt_trans low (by decide)
    · exact high.2
  have zero : char.toNat = 0 := by
    simp only [charUnits16] at member
    split_ifs at member <;> simp only [List.mem_cons, List.not_mem_nil, or_false, ← UInt16.toNat_inj,
      Nat.toUInt16_eq, UInt16.toNat_ofNat', UInt16.toNat_zero] at member <;> omega
  exact Char.toNat_inj.mp zero

/-- What is inverted has unit zero. -/
theorem Inverted.zero_mem (inverted : Inverted us vs) : 0 ∈ us := by
  obtain ⟨common, unit, rest, rest', rfl, -⟩ := inverted
  simp

/-- The units of the first of two inverted lists come first. -/
theorem Inverted.compare_units (inverted : Inverted us vs) : compare us vs = .lt := by
  obtain ⟨common, unit, rest, rest', rfl, rfl, pos, -⟩ := inverted
  rw [List.compare_eq_compareLex]
  induction common with
  | nil => simp [List.compareLex_cons_cons, Std.LawfulLTCmp.eq_lt_iff_lt.mpr pos]
  | cons head common ih => simpa [List.compareLex_cons_cons] using ih

namespace ModifiedUtf8

theorem compare_of_lt {first second : Bytes} (less : first < second) : compare first second = .lt := by
  rw [List.compare_eq_compareLex]
  induction first generalizing second with
  | nil =>
    cases second with
    | nil => exact absurd less (List.lt_irrefl [])
    | cons => rfl
  | cons head rest ih =>
    cases second with
    | nil => exact absurd less (List.not_lt_nil _)
    | cons head' rest' =>
      rw [List.compareLex_cons_cons, Ordering.then_eq_lt, Std.LawfulLTCmp.eq_lt_iff_lt]
      rcases List.cons_lt_cons_iff.mp less with lower | ⟨rfl, lower⟩
      · exact .inl lower
      · exact .inr ⟨Std.ReflCmp.compare_self, ih lower⟩

theorem compare_append (common first second : Bytes) :
    compare (common ++ first) (common ++ second) = compare first second := by
  rw [List.compare_eq_compareLex]
  induction common with
  | nil => rfl
  | cons head common ih => simpa [List.compareLex_cons_cons] using ih

/-- The bytes of units that differ are ordered as the units are, unless the lesser is zero and the other small. -/
theorem encodeUnit_lt (x y : Bytes) (less : u < v) (apart : ¬(u = 0 ∧ v < 0x80)) :
    encodeUnit u ++ x < encodeUnit v ++ y := by
  have small := v.toNat_lt
  rw [UInt16.lt_iff_toNat_lt] at less
  rw [← UInt16.toNat_inj, UInt16.lt_iff_toNat_lt] at apart
  change ¬(u.toNat = 0 ∧ v.toNat < 128) at apart
  simp only [encodeUnit]
  -- One case for each pair of lengths: the first byte in which they differ decides.
  split_ifs <;> simp only [List.cons_append, List.nil_append, List.cons_lt_cons_iff, UInt8.lt_iff_toNat_lt,
    ← UInt8.toNat_inj, Nat.toUInt8_eq, UInt8.toNat_ofNat'] <;> omega

/-- The bytes of unit zero come after the single byte of a small unit. -/
theorem encodeUnit_lt_zero (x y : Bytes) (pos : 0 < u) (small : u < 0x80) :
    encodeUnit u ++ x < encodeUnit 0 ++ y := by
  rw [UInt16.lt_iff_toNat_lt] at pos small
  change 0 < u.toNat at pos
  change u.toNat < 128 at small
  have low : u.toNat.toUInt8 < 0xc0 := by
    rw [UInt8.lt_iff_toNat_lt, Nat.toUInt8_eq, UInt8.toNat_ofNat']
    change u.toNat % 256 < 192
    omega
  rw [encodeUnit, if_pos ⟨pos, small⟩]
  exact List.cons_lt_cons_iff.mpr (.inl low)

/-- The bytes of inverted units are ordered the other way around. -/
theorem compare_encode_of_inverted (inverted : Inverted us vs) :
    compare (vs.flatMap encodeUnit) (us.flatMap encodeUnit) = .lt := by
  obtain ⟨common, unit, rest, rest', rfl, rfl, pos, small⟩ := inverted
  rw [List.flatMap_append, List.flatMap_append, compare_append, List.flatMap_cons, List.flatMap_cons]
  exact compare_of_lt (encodeUnit_lt_zero _ _ pos small)

/-- The bytes of units that are not inverted are ordered as the units are. -/
theorem compare_encode_of_lt (less : compare us vs = .lt) (straight : ¬Inverted us vs) :
    compare (us.flatMap encodeUnit) (vs.flatMap encodeUnit) = .lt := by
  rw [List.compare_eq_compareLex] at less
  induction us generalizing vs with
  | nil =>
    cases vs with
    | nil => cases less
    | cons v vs =>
      have nonempty : ([] : Bytes) < encodeUnit v ++ vs.flatMap encodeUnit := by
        rw [encodeUnit]
        split_ifs <;> simp
      exact compare_of_lt nonempty
  | cons u us ih =>
    cases vs with
    | nil => cases less
    | cons v vs =>
      rw [List.flatMap_cons, List.flatMap_cons]
      rw [List.compareLex_cons_cons, Ordering.then_eq_lt, Std.LawfulLTCmp.eq_lt_iff_lt] at less
      rcases less with less | ⟨same, less⟩
      · refine compare_of_lt (encodeUnit_lt _ _ less ?_)
        rintro ⟨rfl, small⟩
        exact straight ⟨[], v, us, vs, rfl, rfl, less, small⟩
      · obtain rfl := Std.LawfulEqCmp.eq_of_compare same
        rw [compare_append]
        refine ih less ?_
        rintro ⟨common, unit, rest, rest', rfl, rfl, pos, small⟩
        exact straight ⟨u :: common, unit, rest, rest', rfl, rfl, pos, small⟩

theorem compare_encode (straight : ¬Inverted us vs) (straight' : ¬Inverted vs us) :
    compare (us.flatMap encodeUnit) (vs.flatMap encodeUnit) = compare us vs := by
  rcases order : compare us vs with _ | _ | _
  · exact compare_encode_of_lt order straight
  · obtain rfl := Std.LawfulEqCmp.eq_of_compare order
    exact Std.ReflCmp.compare_self
  · rw [Std.OrientedCmp.gt_iff_lt] at order ⊢
    exact compare_encode_of_lt order straight'

end ModifiedUtf8
end Text

namespace StringData

open Text

/-- Whether two strings are texts whose units are inverted. -/
def Inverted (a b : StringData) : Prop :=
  ∃ first second, a = decoded first ∧ b = decoded second ∧ Text.Inverted (units16 first) (units16 second)

/-- Whether a string that is not text lies by its bytes between two inverted texts. -/
def Crossed (strings : List StringData) : Prop :=
  ∃ a ∈ strings, ∃ b ∈ strings, ∃ c ∈ strings, a.Inverted b ∧ c.text? = none ∧
    (compare b.payload c.payload).isLE ∧ (compare c.payload a.payload).isLE

variable {a b c : StringData} {strings : List StringData}

theorem order_self (a : StringData) : a.order a = .eq := by
  have self {α : Type} [Ord α] [Std.ReflOrd α] (x : α) : compare x x = .eq := Std.ReflCmp.compare_self
  cases a <;> exact self _

theorem order_swap (a b : StringData) : b.order a = (a.order b).swap := by
  have swap {α : Type} [Ord α] [Std.OrientedOrd α] (x y : α) : compare y x = (compare x y).swap :=
    Std.OrientedCmp.eq_swap
  cases a <;> cases b <;> exact swap _ _

theorem order_of_raw_left (raw : a.text? = none) (b : StringData) : a.order b = compare a.payload b.payload := by
  cases a with
  | decoded => cases raw
  | raw => rfl

theorem order_of_raw_right (raw : b.text? = none) (a : StringData) : a.order b = compare a.payload b.payload := by
  cases b with
  | decoded => cases raw
  | raw => cases a <;> rfl

theorem Inverted.order_eq (inverted : a.Inverted b) : a.order b = .lt := by
  obtain ⟨first, second, rfl, rfl, inverted⟩ := inverted
  exact inverted.compare_units

/-- Strings are ordered by their bytes unless they are inverted texts. -/
theorem order_of_straight (straight : ¬a.Inverted b) (straight' : ¬b.Inverted a) :
    a.order b = compare a.payload b.payload := by
  cases a with
  | raw => rfl
  | decoded first =>
    cases b with
    | raw => rfl
    | decoded second =>
      refine (ModifiedUtf8.compare_encode (fun inverted => ?_) fun inverted => ?_).symm
      · exact straight ⟨first, second, rfl, rfl, inverted⟩
      · exact straight' ⟨second, first, rfl, rfl, inverted⟩

/-- A string is not below one that comes before it. -/
theorem not_isLE_of_lt (less : a.order b = .lt) : ¬(b.order a).isLE := by
  rw [order_swap, less]
  exact Bool.false_ne_true

theorem Inverted.lt_payload (inverted : a.Inverted b) : compare b.payload a.payload = .lt := by
  obtain ⟨first, second, rfl, rfl, inverted⟩ := inverted
  exact ModifiedUtf8.compare_encode_of_inverted inverted

/-- Two strings are ordered as their bytes are just if they are not inverted texts. -/
theorem order_eq_compare_iff : a.order b = compare a.payload b.payload ↔ ¬a.Inverted b ∧ ¬b.Inverted a := by
  refine ⟨fun same => ⟨fun inverted => ?_, fun inverted => ?_⟩,
    fun straight => order_of_straight straight.1 straight.2⟩
  · have above := Std.OrientedCmp.gt_iff_lt.mpr inverted.lt_payload
    rw [← same, inverted.order_eq] at above
    cases above
  · have less := inverted.lt_payload
    rw [← same, order_swap, inverted.order_eq] at less
    cases less

/-- What does not come after another string is inverted with it or does not come after it by its bytes. -/
theorem inverted_or_payload_isLE (before : (a.order b).isLE) : a.Inverted b ∨ (compare a.payload b.payload).isLE := by
  by_cases inverted : a.Inverted b
  · exact .inl inverted
  · have straight : ¬b.Inverted a := fun inverted' => not_isLE_of_lt inverted'.order_eq before
    exact .inr (order_of_straight inverted straight ▸ before)

theorem inverted_or_isLE (before : (compare a.payload b.payload).isLE) : b.Inverted a ∨ (a.order b).isLE := by
  by_cases inverted : b.Inverted a
  · exact .inl inverted
  · by_cases inverted' : a.Inverted b
    · exact .inr (Ordering.isLE_of_eq_lt inverted'.order_eq)
    · exact .inr (order_of_straight inverted' inverted ▸ before)

/-- Unless a string lies between inverted texts, the order is transitive. -/
theorem isLE_trans_of_not_crossed (free : ¬Crossed strings) (memberA : a ∈ strings) (memberB : b ∈ strings)
    (memberC : c ∈ strings) (first : (a.order b).isLE) (second : (b.order c).isLE) : (a.order c).isLE := by
  have trans {α : Type} [Ord α] [Std.TransOrd α] {x y z : α} (low : (compare x y).isLE) (high : (compare y z).isLE) :
      (compare x z).isLE := Std.TransCmp.isLE_trans low high
  have reach {x y : Bytes} (above : ¬(compare x y).isLE) : (compare y x).isLE :=
    Ordering.isLE_of_eq_lt (Std.OrientedCmp.gt_iff_lt.mp (Decidable.not_not.mp (mt Ordering.isLE_iff_ne_gt.mpr above)))
  -- A string that is not text is compared by its bytes with both others, and these may be inverted.
  by_cases rawA : a.text? = none
  · rw [order_of_raw_left rawA] at first ⊢
    by_contra above
    rcases inverted_or_payload_isLE second with inverted | second
    · exact free ⟨b, memberB, c, memberC, a, memberA, inverted, rawA, reach above, first⟩
    · exact above (trans first second)
  by_cases rawB : b.text? = none
  · rw [order_of_raw_right rawB] at first
    rw [order_of_raw_left rawB] at second
    rcases inverted_or_isLE (trans first second) with inverted | before
    · exact absurd ⟨c, memberC, a, memberA, b, memberB, inverted, rawB, first, second⟩ free
    · exact before
  by_cases rawC : c.text? = none
  · rw [order_of_raw_right rawC] at second ⊢
    by_contra above
    rcases inverted_or_payload_isLE first with inverted | first
    · exact free ⟨a, memberA, b, memberB, c, memberC, inverted, rawC, second, reach above⟩
    · exact above (trans first second)
  cases a with
  | raw => exact absurd rfl rawA
  | decoded =>
    cases b with
    | raw => exact absurd rfl rawB
    | decoded =>
      cases c with
      | raw => exact absurd rfl rawC
      | decoded => exact trans first second

/-- The order is transitive just where no string lies between inverted texts. -/
theorem isLE_trans_iff : (∀ a ∈ strings, ∀ b ∈ strings, ∀ c ∈ strings,
    (a.order b).isLE → (b.order c).isLE → (a.order c).isLE) ↔ ¬Crossed strings := by
  refine ⟨?_, fun free a memberA b memberB c memberC => isLE_trans_of_not_crossed free memberA memberB memberC⟩
  rintro transitive ⟨a, memberA, b, memberB, c, memberC, inverted, raw, low, high⟩
  rw [← order_of_raw_right raw] at low
  rw [← order_of_raw_left raw] at high
  exact not_isLE_of_lt inverted.order_eq (transitive b memberB c memberC a memberA low high)

/-- Strings do not cross if all are texts, or if no text has a zero character. -/
theorem not_crossed (plain : (∀ string ∈ strings, string.text? ≠ none) ∨
    ∀ text, decoded text ∈ strings → '\x00' ∉ text.toList) : ¬Crossed strings := by
  rintro ⟨_, memberA, _, -, c, memberC, ⟨text, _, rfl, -, inverted⟩, raw, -⟩
  rcases plain with texts | free
  · exact texts c memberC raw
  · obtain ⟨char, member, zero⟩ := List.mem_flatMap.mp inverted.zero_mem
    exact free text memberA (eq_of_zero_mem zero ▸ member)

end StringData

/-- Strings are compared in a total way: to swap two of them reverses how they compare. The order is transitive just
where no string that is not text lies between two inverted texts; this is so where all strings are text, and where no
text has a zero character. Sorting the id tables then puts the strings in order. -/
theorem Image.sortIds_orders (image : Image) (strings : List StringData) : (∀ a : StringData, a.order a = .eq) ∧
    (∀ a b : StringData, b.order a = (a.order b).swap) ∧
    ((∀ a ∈ strings, ∀ b ∈ strings, ∀ c ∈ strings,
      (a.order b).isLE → (b.order c).isLE → (a.order c).isLE) ↔
      ¬StringData.Crossed strings) ∧
    (((∀ string ∈ strings, string.text? ≠ none) ∨ ∀ text, .decoded text ∈ strings → '\x00' ∉ text.toList) →
      ¬StringData.Crossed strings) ∧
    (¬StringData.Crossed image.pools.strings.items → Countable image.pools →
        ∃ after, image.sortIds = .ok after ∧ after.pools.strings.items.Pairwise fun a b => (a.order b).isLE) := by
  refine ⟨StringData.order_self, StringData.order_swap, StringData.isLE_trans_iff, StringData.not_crossed,
    fun free countable => ?_⟩
  obtain ⟨after, success⟩ := @sortTables_ok sortedKinds image
  rw [← sortIds_eq] at success
  exact ⟨after, success, (sorted_of_sortIds countable success).ordered
    (StringData.isLE_trans_iff.mpr free) .stringId (by decide)⟩

/-- A byte that is no text lies between the texts of the characters one and zero, of which zero comes first. So these
strings cannot be put in order, and each of them can be read. -/
theorem StringData.order_cyclic :
    ∃ a b c : StringData, (∀ string ∈ [a, b, c], ∃ bytes, (decode (.ofBytes bytes)).1.toOption = some string) ∧
      (a.order b).isLE ∧ (b.order c).isLE ∧ ¬(a.order c).isLE ∧
      ∀ arranged : List StringData, arranged.Perm [a, b, c] → ¬arranged.Pairwise fun x y => (x.order y).isLE := by
  refine ⟨.decoded "\x01", .raw 1 [0x80], .decoded "\x00", ?_,
    by decide +kernel, by decide +kernel, by decide +kernel, ?_⟩
  · simp only [List.forall_mem_cons]
    exact ⟨⟨[1, 1, 0], by decide +kernel⟩, ⟨[1, 0x80, 0], by decide +kernel⟩,
      ⟨[1, 0xc0, 0x80, 0], by decide +kernel⟩, nofun⟩
  · intro arranged perm
    have listed := List.mem_permutations'.mpr perm
    clear perm
    revert arranged
    decide +kernel

end DexImage
