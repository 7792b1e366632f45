import DexImage.Item.StringData
import DexImage.Proofs.Codec.Reading
/-! # Strings decode back

The modified form of a text is read as that text, whether it is taken for plain UTF-8 first or not,
and holds no zero byte, so that what follows a string's terminator is not part of it.
-/

namespace DexImage.Text

section Bytes

variable {n : Nat} {byte : UInt8}

theorem toNat_byte (small : n < 256) : n.toUInt8.toNat = n := by
  rw [Nat.toUInt8_eq, UInt8.toNat_ofNat']
  exact Nat.mod_eq_of_lt small

theorem byte_lt (small : n < 256) : n.toUInt8 < byte ↔ n < byte.toNat := by
  rw [UInt8.lt_iff_toNat_lt, toNat_byte small]

theorem le_byte (small : n < 256) : byte ≤ n.toUInt8 ↔ byte.toNat ≤ n := by
  rw [UInt8.le_iff_toNat_le, toNat_byte small]

theorem byte_le (small : n < 256) : n.toUInt8 ≤ byte ↔ n ≤ byte.toNat := by
  rw [UInt8.le_iff_toNat_le, toNat_byte small]

theorem byte_eq (small : n < 256) : n.toUInt8 = byte ↔ n = byte.toNat := by
  rw [← UInt8.toNat_inj, toNat_byte small]

end Bytes

namespace ModifiedUtf8

/-- The modified form of a character. -/
def encodeChar (c : Char) : Bytes := (charUnits16 c).flatMap encodeUnit

theorem encode_eq (text : String) : encode text = text.toList.flatMap encodeChar :=
  List.flatMap_assoc

private theorem toNat_unit {n : Nat} (small : n < 0x10000) : n.toUInt16.toNat = n := by
  rw [Nat.toUInt16_eq, UInt16.toNat_ofNat']
  exact Nat.mod_eq_of_lt small

/-- A character is not a surrogate. -/
theorem char_bounds (c : Char) : c.toNat < 0xd800 ∨ 0xe000 ≤ c.toNat ∧ c.toNat < 0x110000 := by
  have valid := c.valid
  rcases valid with low | high
  · exact .inl low
  · refine .inr ⟨?_, high.2⟩
    exact high.1

/-- A number of eleven bits in two bytes. -/
def spell2 (n : Nat) : Bytes := [(0xc0 + n / 0x40).toUInt8, (0x80 + n % 0x40).toUInt8]

/-- A number of sixteen bits in three bytes. -/
def spell3 (n : Nat) : Bytes :=
  [(0xe0 + n / 0x1000).toUInt8, (0x80 + n / 0x40 % 0x40).toUInt8, (0x80 + n % 0x40).toUInt8]

/-- The modified form of a character, by its size. -/
theorem encodeChar_cases (c : Char) :
    (c.toNat = 0 ∧ encodeChar c = spell2 0) ∨
      (0 < c.toNat ∧ c.toNat < 0x80 ∧ encodeChar c = [c.toNat.toUInt8]) ∨
      (0x80 ≤ c.toNat ∧ c.toNat < 0x800 ∧ encodeChar c = spell2 c.toNat) ∨
      (0x800 ≤ c.toNat ∧ c.toNat < 0x10000 ∧ encodeChar c = spell3 c.toNat) ∨
      (0x10000 ≤ c.toNat ∧ encodeChar c =
        spell3 (0xd800 + (c.toNat - 0x10000) / 0x400) ++ spell3 (0xdc00 + (c.toNat - 0x10000) % 0x400)) := by
  have bounds := char_bounds c
  generalize value : c.toNat = n at *
  by_cases basic : n < 0x10000
  · have units : encodeChar c = encodeUnit n.toUInt16 := by
      rw [encodeChar, charUnits16, value, if_pos basic, List.flatMap_singleton]
    simp only [units, encodeUnit, toNat_unit basic]
    by_cases one : 0 < n ∧ n < 0x80
    · simp [one]
    · by_cases two : n < 0x800
      · by_cases zero : n = 0
        · simp [zero, spell2]
        · have least : 0x80 ≤ n := by omega
          simp [one, two, least, spell2]
      · have least : 0x800 ≤ n := by omega
        simp [one, two, least, basic, spell3]
  · have large : 0x10000 ≤ n := Nat.not_lt.mp basic
    have high : 0xd800 + (n - 0x10000) / 0x400 < 0x10000 := by omega
    have low : 0xdc00 + (n - 0x10000) % 0x400 < 0x10000 := by omega
    refine .inr (.inr (.inr (.inr ⟨large, ?_⟩)))
    rw [encodeChar, charUnits16, value, if_neg basic]
    simp only [List.flatMap_cons, List.flatMap_nil, List.append_nil, encodeUnit, toNat_unit high, toNat_unit low]
    rw [if_neg (by omega), if_neg (by omega), if_neg (by omega), if_neg (by omega), spell3, spell3]

theorem low_byte {n : Nat} (small : 0x80 + n < 0x100) : Utf8.low (0x80 + n).toUInt8 = n % 0x40 := by
  rw [Utf8.low, toNat_byte small]
  omega

theorem isContinuation_byte {n : Nat} (small : n < 0x40) : Utf8.isContinuation (0x80 + n).toUInt8 = true := by
  simp only [Utf8.isContinuation, Bool.and_eq_true, decide_eq_true_eq]
  rw [le_byte (by omega), byte_le (by omega)]
  exact ⟨Nat.le_add_right _ _, by change 0x80 + n ≤ 0xbf; omega⟩

private theorem lead_two {n : Nat} (least : 0x80 ≤ n) (small : n < 0x800) :
    ¬(0xc0 + n / 0x40).toUInt8 < 0x80 ∧
      ((0xc2 : UInt8) ≤ (0xc0 + n / 0x40).toUInt8 ∧ (0xc0 + n / 0x40).toUInt8 ≤ 0xdf) ∧
      (0xc0 + n / 0x40).toUInt8.toNat % 0x20 * 0x40 + Utf8.low (0x80 + n % 0x40).toUInt8 = n := by
  have first : 0xc0 + n / 0x40 < 256 := by omega
  rw [byte_lt first, le_byte first, byte_le first, toNat_byte first, low_byte (by omega)]
  change ¬_ < 0x80 ∧ (0xc2 ≤ _ ∧ _ ≤ 0xdf) ∧ _
  omega

private theorem next?_two {n : Nat} (least : 0x80 ≤ n) (small : n < 0x800) (rest : Bytes) :
    next? (spell2 n ++ rest) = some (Char.ofNat n, rest) := by
  have first : 0xc0 + n / 0x40 < 256 := by omega
  obtain ⟨notLast, lead, value⟩ := lead_two least small
  have notZero : ¬(0xc0 + n / 0x40).toUInt8 = 0 := by rw [byte_eq first]; change ¬_ = 0; omega
  have notOverlong : ¬(0xc0 + n / 0x40).toUInt8 = 0xc0 := by rw [byte_eq first]; change ¬_ = 0xc0; omega
  simp only [spell2, List.cons_append, List.nil_append, next?, notZero, notLast, notOverlong, if_false,
    isContinuation_byte (Nat.mod_lt n (by decide : 0 < 0x40)), lead, decide_true, Bool.and_self, Bool.not_true,
    Bool.false_eq_true, if_true, value]

/-- The bytes of a unit of three bytes form a character unless the unit is a surrogate. -/
private theorem mayFollow_three {n : Nat} (least : 0x800 ≤ n) (small : n < 0x10000) :
    Utf8.mayFollow (0xe0 + n / 0x1000).toUInt8 (0x80 + n / 0x40 % 0x40).toUInt8 =
      decide (n < 0xd800 ∨ 0xe000 ≤ n) := by
  have first : 0xe0 + n / 0x1000 < 256 := by omega
  have second : 0x80 + n / 0x40 % 0x40 < 256 := by omega
  have follows : Utf8.isContinuation (0x80 + n / 0x40 % 0x40).toUInt8 = true :=
    isContinuation_byte (Nat.mod_lt _ (by decide))
  simp only [Utf8.mayFollow, byte_eq first, le_byte second, byte_le second, follows]
  change (if _ = 0xe0 then decide (0xa0 ≤ _) && decide (_ ≤ 0xbf) else if _ = 0xed then
    decide (0x80 ≤ _) && decide (_ ≤ 0x9f) else if _ = 0xf0 then decide (0x90 ≤ _) && decide (_ ≤ 0xbf) else
      if _ = 0xf4 then decide (0x80 ≤ _) && decide (_ ≤ 0x8f) else true) = _
  rw [Bool.eq_iff_iff]
  split_ifs <;> simp only [Bool.and_eq_true, decide_eq_true_eq, true_iff] <;> omega

private theorem lead_three {n : Nat} (small : n < 0x10000) :
    ¬(0xe0 + n / 0x1000).toUInt8 = 0 ∧ ¬(0xe0 + n / 0x1000).toUInt8 < 0x80 ∧
      ¬(0xe0 + n / 0x1000).toUInt8 = 0xc0 ∧ ¬(0xe0 + n / 0x1000).toUInt8 ≤ 0xdf ∧
      0xe0 ≤ (0xe0 + n / 0x1000).toUInt8 ∧ (0xe0 + n / 0x1000).toUInt8 ≤ 0xef := by
  have first : 0xe0 + n / 0x1000 < 256 := by omega
  rw [byte_eq first, byte_eq first, byte_lt first, byte_le first, le_byte first, byte_le first]
  change ¬_ = 0 ∧ ¬_ < 0x80 ∧ ¬_ = 0xc0 ∧ ¬_ ≤ 0xdf ∧ 0xe0 ≤ _ ∧ _ ≤ 0xef
  omega

private theorem value_three {n : Nat} (small : n < 0x10000) :
    ((0xe0 + n / 0x1000).toUInt8.toNat % 0x10 * 0x40 + Utf8.low (0x80 + n / 0x40 % 0x40).toUInt8) * 0x40 +
      Utf8.low (0x80 + n % 0x40).toUInt8 = n := by
  rw [toNat_byte (by omega), low_byte (by omega), low_byte (by omega)]
  omega

/-- What the character read of a unit of three bytes is. -/
private theorem next?_three {n : Nat} (least : 0x800 ≤ n) (small : n < 0x10000) (rest : Bytes) :
    next? (spell3 n ++ rest) =
      if n < 0xd800 ∨ 0xe000 ≤ n then some (Char.ofNat n, rest)
      else if n < 0xdc00 then next?.lowSurrogate? n rest else none := by
  have first : 0xe0 + n / 0x1000 < 256 := by omega
  have second : 0x80 + n / 0x40 % 0x40 < 256 := by omega
  obtain ⟨notZero, notLast, notOverlong, notTwo, above, below⟩ := lead_three small
  simp only [spell3, List.cons_append, List.nil_append, next?, notZero, notLast, notOverlong, notTwo, if_false,
    isContinuation_byte (Nat.mod_lt (n / 0x40) (by decide : 0 < 0x40)), above, below, decide_true, Bool.and_self,
    isContinuation_byte (Nat.mod_lt n (by decide : 0 < 0x40)), Bool.not_true, Bool.false_eq_true, if_true,
    value_three small, decide_false, Bool.and_false, mayFollow_three least small, decide_eq_true_eq]
  by_cases plain : n < 0xd800 ∨ 0xe000 ≤ n
  · rw [if_pos plain, if_pos plain]
  · rw [if_neg plain, if_neg plain]
    have lead : (0xe0 + n / 0x1000).toUInt8 = 0xed := by rw [byte_eq first]; change _ = 0xed; omega
    have high : (0x80 + n / 0x40 % 0x40).toUInt8 < 0xb0 ↔ n < 0xdc00 := by
      rw [byte_lt second]
      change _ < 0xb0 ↔ _
      omega
    simp only [lead, high, decide_true, Bool.true_and, decide_eq_true_eq]

private theorem next?_six {n : Nat} (least : 0x10000 ≤ n) (small : n < 0x110000) (rest : Bytes) :
    next? (spell3 (0xd800 + (n - 0x10000) / 0x400) ++ spell3 (0xdc00 + (n - 0x10000) % 0x400) ++ rest) =
      some (Char.ofNat n, rest) := by
  rw [List.append_assoc, next?_three (by omega) (by omega), if_neg (by omega), if_pos (by omega)]
  generalize low : 0xdc00 + (n - 0x10000) % 0x400 = unit
  have lead : (0xe0 + unit / 0x1000).toUInt8 = 0xed := by rw [byte_eq (by omega)]; change _ = 0xed; omega
  have second : 0x80 + unit / 0x40 % 0x40 < 256 := by omega
  have range : (0xb0 : UInt8) ≤ (0x80 + unit / 0x40 % 0x40).toUInt8 ∧ (0x80 + unit / 0x40 % 0x40).toUInt8 ≤ 0xbf := by
    rw [le_byte second, byte_le second]
    change 0xb0 ≤ _ ∧ _ ≤ 0xbf
    omega
  have value : 0x10000 + (0xd800 + (n - 0x10000) / 0x400 - 0xd800) * 0x400 +
      ((0xd * 0x40 + unit / 0x40 % 0x40 % 0x40) * 0x40 + unit % 0x40 % 0x40 - 0xdc00) = n := by omega
  simp only [spell3, List.cons_append, List.nil_append, next?.lowSurrogate?, lead, range, decide_true, Bool.and_self,
    isContinuation_byte (Nat.mod_lt unit (by decide : 0 < 0x40)), if_true,
    low_byte (show 0x80 + unit / 0x40 % 0x40 < 0x100 by omega),
    low_byte (show 0x80 + unit % 0x40 < 0x100 by omega), value]

theorem next?_encodeChar (c : Char) (rest : Bytes) : next? (encodeChar c ++ rest) = some (c, rest) := by
  have back : Char.ofNat c.toNat = c := Char.ofNat_toNat c
  have bounds := char_bounds c
  rcases encodeChar_cases c with ⟨zero, form⟩ | ⟨pos, small, form⟩ | ⟨least, small, form⟩ |
    ⟨least, small, form⟩ |
    ⟨least, form⟩
  · rw [zero] at back
    rw [form, ← back]
    rfl
  · rw [form]
    have nonzero : ¬c.toNat.toUInt8 = 0 := by rw [byte_eq (by omega)]; exact Nat.ne_of_gt pos
    have last : c.toNat.toUInt8 < 0x80 := (byte_lt (by omega)).mpr small
    simp only [List.cons_append, next?, nonzero, last, if_true, if_false, toNat_byte (show c.toNat < 256 by omega),
      back, List.nil_append]
  · rw [form, next?_two least small, back]
  · rw [form, next?_three least small, if_pos (by omega), back]
  · rw [form, next?_six least (by omega), back]

theorem encodeChar_ne_nil (c : Char) : encodeChar c ≠ [] := by
  rcases encodeChar_cases c with ⟨-, form⟩ | ⟨-, -, form⟩ | ⟨-, -, form⟩ | ⟨-, -, form⟩ | ⟨-, form⟩ <;>
    simp [form, spell2, spell3]

/-- Decoding unit by unit gives the characters back. -/
private theorem decodeUnits?_go (chars found : List Char) (fuel : Nat) (enough : chars.length ≤ fuel) :
    decodeUnits?.go fuel (chars.flatMap encodeChar) found = some (String.ofList (found.reverse ++ chars)) := by
  induction chars generalizing found fuel with
  | nil => simp [decodeUnits?.go]
  | cons c rest ih =>
    obtain ⟨fuel, rfl⟩ := Nat.exists_eq_succ_of_ne_zero (Nat.ne_of_gt (Nat.lt_of_lt_of_le (Nat.succ_pos _) enough))
    obtain ⟨first, tail, form⟩ := List.exists_cons_of_ne_nil (encodeChar_ne_nil c)
    have next := next?_encodeChar c (rest.flatMap encodeChar)
    rw [form, List.cons_append] at next
    rw [List.flatMap_cons, form, List.cons_append, decodeUnits?.go, next]
    simp only
    rw [ih _ _ (Nat.le_of_succ_le_succ enough), List.reverse_cons, List.append_assoc, List.singleton_append]

private theorem length_le_flatMap_encodeChar (chars : List Char) :
    chars.length ≤ (chars.flatMap encodeChar).length := by
  induction chars with
  | nil => exact Nat.le_refl 0
  | cons c rest ih =>
    have pos := List.length_pos_iff.mpr (encodeChar_ne_nil c)
    rw [List.flatMap_cons, List.length_append, List.length_cons]
    omega

theorem decodeUnits?_encode (text : String) : decodeUnits? (encode text) = some text := by
  rw [encode_eq, decodeUnits?, decodeUnits?_go _ _ _ (length_le_flatMap_encodeChar _)]
  simp

/-- The modified form of a character is plain UTF-8 of that character, or none at all if the character is zero or lies
outside the basic plane. -/
theorem next_encodeChar (c : Char) (rest : Bytes) : ∃ first tail, encodeChar c ++ rest = first :: tail ∧
    ((c.toNat = 0 ∨ 0x10000 ≤ c.toNat) ∧ (∃ length, Utf8.next first tail = (none, length)) ∨
      (0 < c.toNat ∧ c.toNat < 0x10000) ∧
        ∃ length, Utf8.next first tail = (some c, length) ∧ tail.drop (length - 1) = rest) := by
  have back : Char.ofNat c.toNat = c := Char.ofNat_toNat c
  have bounds := char_bounds c
  rcases encodeChar_cases c with ⟨zero, form⟩ | ⟨pos, small, form⟩ | ⟨least, small, form⟩ |
    ⟨least, small, form⟩ |
    ⟨least, form⟩
  · rw [form]
    exact ⟨0xc0, 0x80 :: rest, rfl, .inl ⟨.inl zero, 1, rfl⟩⟩
  · rw [form]
    have last : c.toNat.toUInt8 < 0x80 := (byte_lt (by omega)).mpr small
    refine ⟨_, rest, rfl, .inr ⟨by omega, 1, ?_, rfl⟩⟩
    simp only [Utf8.next, last, if_true, toNat_byte (show c.toNat < 256 by omega), back]
  · rw [form]
    generalize c.toNat = n at *
    obtain ⟨notLast, lead, value⟩ := lead_two least small
    refine ⟨_, (0x80 + n % 0x40).toUInt8 :: rest, rfl, .inr ⟨by omega, 2, ?_, rfl⟩⟩
    simp only [Utf8.next, notLast, if_false, lead, decide_true, Bool.and_self, if_true,
      isContinuation_byte (Nat.mod_lt n (by decide : 0 < 0x40)), value, back]
  · rw [form]
    generalize c.toNat = n at *
    obtain ⟨-, notLast, -, notTwo, above, below⟩ := lead_three small
    refine ⟨_, (0x80 + n / 0x40 % 0x40).toUInt8 :: (0x80 + n % 0x40).toUInt8 :: rest,
      rfl, .inr ⟨by omega, 3, ?_, rfl⟩⟩
    simp only [Utf8.next, notLast, if_false, notTwo, decide_false, Bool.and_false, Bool.false_eq_true, above, below,
      decide_true, Bool.and_self, if_true, mayFollow_three least small, show n < 0xd800 ∨ 0xe000 ≤ n by omega,
      isContinuation_byte (Nat.mod_lt n (by decide : 0 < 0x40)), value_three small, back]
  · rw [form]
    generalize c.toNat = n at *
    generalize high : 0xd800 + (n - 0x10000) / 0x400 = unit
    obtain ⟨-, notLast, -, notTwo, above, below⟩ := lead_three (show unit < 0x10000 by omega)
    refine ⟨_, (0x80 + unit / 0x40 % 0x40).toUInt8 :: _, rfl, .inl ⟨.inr least, 1, ?_⟩⟩
    simp only [Utf8.next, notLast, if_false, notTwo, decide_false, Bool.and_false, Bool.false_eq_true, above, below,
      decide_true, Bool.and_self, if_true, mayFollow_three (show 0x800 ≤ unit by omega) (show unit < 0x10000 by omega),
      show ¬(unit < 0xd800 ∨ 0xe000 ≤ unit) by omega]

/-- A run that is not a character stays among the segments. -/
theorem mem_segments_go (fuel : Nat) (bytes : Bytes) {found : List (Option Char)} (bad : none ∈ found) :
    none ∈ Utf8.segments.go fuel bytes found := by
  induction fuel generalizing bytes found with
  | zero => simpa [Utf8.segments.go] using bad
  | succ fuel ih =>
    cases bytes with
    | nil => simpa [Utf8.segments.go] using bad
    | cons first rest => exact ih _ (List.mem_cons_of_mem _ bad)

private theorem segments_go_encode (chars : List Char) (found : List (Option Char)) (fuel : Nat)
    (enough : chars.length ≤ fuel) :
    none ∈ Utf8.segments.go fuel (chars.flatMap encodeChar) found ∨
      Utf8.segments.go fuel (chars.flatMap encodeChar) found = found.reverse ++ chars.map some := by
  induction chars generalizing found fuel with
  | nil =>
    right
    cases fuel <;> simp [Utf8.segments.go]
  | cons c rest ih =>
    obtain ⟨fuel, rfl⟩ := Nat.exists_eq_succ_of_ne_zero (Nat.ne_of_gt (Nat.lt_of_lt_of_le (Nat.succ_pos _) enough))
    obtain ⟨first, tail, form, next⟩ := next_encodeChar c (rest.flatMap encodeChar)
    rw [List.flatMap_cons, form, Utf8.segments.go]
    rcases next with ⟨-, length, next⟩ | ⟨-, length, next, behind⟩
    · left
      rw [next]
      exact mem_segments_go _ _ List.mem_cons_self
    · rw [next]
      simp only [behind]
      simpa using ih (some c :: found) fuel (Nat.le_of_succ_le_succ enough)

theorem mapM_id_of_mem_none {α : Type} {items : List (Option α)} (bad : none ∈ items) :
    items.mapM id = none := by
  induction items with
  | nil => cases bad
  | cons item rest ih =>
    cases item with
    | none => simp
    | some item => simp [ih (by simpa using bad)]

theorem mapM_id_map_some {α : Type} (items : List α) : (items.map some).mapM id = some items := by
  induction items with
  | nil => rfl
  | cons item rest ih => rw [List.map_cons, List.mapM_cons, ih]; rfl

/-- Plain UTF-8 is tried first; it gives the same text if it gives one. -/
theorem decode?_encode (text : String) : decode? (encode text) = some text := by
  have plain : Utf8.decode? (encode text) = none ∨ Utf8.decode? (encode text) = some text := by
    rw [Utf8.decode?, Utf8.segments, encode_eq]
    rcases segments_go_encode text.toList [] _ (length_le_flatMap_encodeChar _) with bad | good
    · exact .inl (by rw [mapM_id_of_mem_none bad]; rfl)
    · right
      rw [good, List.reverse_nil, List.nil_append, mapM_id_map_some, Option.map_some, String.ofList_toList]
  rw [decode?, decodeUnits?_encode]
  rcases plain with none | same
  · rw [none]
    rfl
  · rw [same]
    rfl

/-- No zero byte occurs in the modified form. -/
theorem zero_notMem_encode (text : String) : (0 : UInt8) ∉ encode text := by
  intro member
  obtain ⟨unit, -, member⟩ := List.mem_flatMap.mp member
  have small := unit.toNat_lt
  have nonzero (n : Nat) (pos : 0 < n) (bound : n < 256) : (0 : UInt8) ≠ n.toUInt8 := by
    rw [ne_comm, ne_eq, byte_eq bound]
    exact Nat.ne_of_gt pos
  rw [encodeUnit] at member
  generalize unit.toNat = n at small member
  split_ifs at member with one two <;>
    simp only [List.mem_cons, List.not_mem_nil, or_false] at member
  · exact nonzero n one.1 (by omega) member
  · rcases member with same | same
    · exact nonzero _ (by omega) (by omega) same
    · exact nonzero _ (by omega) (by omega) same
  · rcases member with same | same | same
    · exact nonzero _ (by omega) (by omega) same
    · exact nonzero _ (by omega) (by omega) same
    · exact nonzero _ (by omega) (by omega) same

end ModifiedUtf8
end DexImage.Text

namespace DexImage.StringData

open Text

/-- Whether a string is as reading leaves it: bytes that are kept as they are hold no terminator and
do not decode. -/
def Settled : StringData → Prop
  | decoded _ => True
  | raw units payload => 0 ∉ payload ∧ ofPayload units payload = raw units payload

theorem zero_notMem_payload {string : StringData} (settled : string.Settled) : (0 : UInt8) ∉ string.payload := by
  cases string with
  | decoded text => exact ModifiedUtf8.zero_notMem_encode text
  | raw units payload => exact settled.1

theorem ofPayload_payload {string : StringData} (settled : string.Settled) :
    ofPayload string.units string.payload = string := by
  cases string with
  | decoded text => simp [ofPayload, payload, ModifiedUtf8.decode?_encode]
  | raw units payload => exact settled.2

/-- Bytes are read up to a zero byte behind them. -/
theorem reads_terminated {bytes : Bytes} (free : (0 : UInt8) ∉ bytes) :
    Reads terminated (bytes ++ [0]) bytes := by
  have go (fuel : Nat) (found : Bytes) (enough : bytes.length < fuel) :
      Reads (terminated.go fuel found) (bytes ++ [0]) (found.reverse ++ bytes) := by
    induction bytes generalizing fuel found with
    | nil =>
      obtain ⟨fuel, rfl⟩ := Nat.exists_eq_succ_of_ne_zero (Nat.ne_of_gt enough)
      rw [terminated.go, List.append_nil]
      exact (Reads.u1 0).bind_pure (if_pos rfl)
    | cons byte rest ih =>
      obtain ⟨fuel, rfl⟩ := Nat.exists_eq_succ_of_ne_zero (Nat.ne_of_gt (Nat.lt_of_le_of_lt (Nat.zero_le _) enough))
      simp only [List.mem_cons, not_or] at free
      have others := ih free.2 fuel (byte :: found) (Nat.lt_of_succ_lt_succ enough)
      rw [List.reverse_cons, List.append_assoc, List.singleton_append] at others
      rw [terminated.go]
      refine (Reads.u1 byte).bind ?_
      rw [if_neg (Ne.symm free.1)]
      exact others
  refine Reads.remaining_bind fun remaining enough => go _ [] ?_
  rw [List.length_append, List.length_singleton] at enough
  omega

theorem reads_encode {string : StringData} {bytes : Bytes} (success : encode string = .ok bytes)
    (settled : string.Settled) : Reads decode bytes string := by
  obtain rfl := Except.ok.inj success
  rw [List.append_assoc]
  refine (Reads.uleb128 string.units).bind ((reads_terminated (zero_notMem_payload settled)).bind_pure ?_)
  rw [ofPayload_payload settled]

end DexImage.StringData
