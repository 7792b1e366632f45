import DexImage.Proofs.Codec.Strings
/-! # Byte strings that spell texts

A byte string is decoded as a text just if it is the plain UTF-8 of that text (`Utf8.decode?_eq_some_iff`) or its
modified form (`ModifiedUtf8.decode?_eq_some_iff`): overlong forms, lone surrogates and mixtures of the two forms spell
nothing. The two forms of a text without a zero character are the same just if all its characters are in the basic
plane (`ModifiedUtf8.encode_eq_iff`).
-/

namespace DexImage.Text

variable {first second third fourth fifth sixth : UInt8}

namespace Utf8

/-- The plain UTF-8 of a text. -/
def encode (text : String) : Bytes := text.toList.flatMap String.utf8EncodeChar

theorem isContinuation_iff {byte : UInt8} : isContinuation byte = true ↔ 0x80 ≤ byte.toNat ∧ byte.toNat ≤ 0xbf := by
  simp only [isContinuation, Bool.and_eq_true, decide_eq_true_eq, UInt8.le_iff_toNat_le, UInt8.reduceToNat]

/-- The second bytes that may follow the first byte of a character of three or four bytes. -/
theorem mayFollow_iff : mayFollow first second = true ↔ isContinuation second = true ∧
    (first.toNat = 0xe0 → 0xa0 ≤ second.toNat) ∧ (first.toNat = 0xed → second.toNat ≤ 0x9f) ∧
      (first.toNat = 0xf0 → 0x90 ≤ second.toNat) ∧ (first.toNat = 0xf4 → second.toNat ≤ 0x8f) := by
  simp only [mayFollow, isContinuation_iff, ← UInt8.toNat_inj, UInt8.reduceToNat]
  split_ifs <;>
    simp only [Bool.and_eq_true, decide_eq_true_eq, isContinuation_iff,
      UInt8.le_iff_toNat_le, UInt8.reduceToNat] <;> omega

end Utf8

theorem toNat_ofNat {n : Nat} (valid : n < 0xd800 ∨ 0xe000 ≤ n ∧ n < 0x110000) : (Char.ofNat n).toNat = n := by
  have valid : n.isValidChar := valid.imp id fun high => ⟨by omega, high.2⟩
  rw [Char.ofNat, dif_pos valid]
  rfl

namespace ModifiedUtf8

/-- Two bytes that are read as a character spell its number. -/
theorem spell2_eq (lead : 0xc2 ≤ first.toNat ∧ first.toNat ≤ 0xdf) (continues : Utf8.isContinuation second = true) :
    ∃ n, first.toNat % 0x20 * 0x40 + Utf8.low second = n ∧ 0x80 ≤ n ∧ n < 0x800 ∧ spell2 n = [first, second] := by
  have tail := Utf8.isContinuation_iff.mp continues
  refine ⟨_, rfl, ?_⟩
  rw [Utf8.low]
  generalize number : first.toNat % 0x20 * 0x40 + second.toNat % 0x40 = n
  refine ⟨by omega, by omega, ?_⟩
  rw [spell2, (byte_eq (by omega)).mpr (by omega : 0xc0 + n / 0x40 = first.toNat),
    (byte_eq (by omega)).mpr (by omega : 0x80 + n % 0x40 = second.toNat)]

/-- Three bytes spell a number, which tells whether the second may follow the first. -/
theorem spell3_eq (lead : 0xe0 ≤ first.toNat ∧ first.toNat ≤ 0xef) (continues : Utf8.isContinuation second = true)
    (ends : Utf8.isContinuation third = true) :
    ∃ n, (first.toNat % 0x10 * 0x40 + Utf8.low second) * 0x40 + Utf8.low third = n ∧ n < 0x10000 ∧
      spell3 n = [first, second, third] ∧
        (Utf8.mayFollow first second = true ↔ 0x800 ≤ n ∧ (n < 0xd800 ∨ 0xe000 ≤ n)) ∧
          (first.toNat = 0xed → n < 0xe000 ∧ (0xa0 ≤ second.toNat ↔ 0xd800 ≤ n) ∧
            (0xb0 ≤ second.toNat ↔ 0xdc00 ≤ n)) := by
  have tail := Utf8.isContinuation_iff.mp continues
  have tail' := Utf8.isContinuation_iff.mp ends
  refine ⟨_, rfl, ?_⟩
  rw [Utf8.mayFollow_iff, Utf8.isContinuation_iff, Utf8.low, Utf8.low]
  generalize number : (first.toNat % 0x10 * 0x40 + second.toNat % 0x40) * 0x40 + third.toNat % 0x40 = n
  refine ⟨by omega, ?_, by omega, by omega⟩
  rw [spell3, (byte_eq (by omega)).mpr (by omega : 0xe0 + n / 0x1000 = first.toNat),
    (byte_eq (by omega)).mpr (by omega : 0x80 + n / 0x40 % 0x40 = second.toNat),
    (byte_eq (by omega)).mpr (by omega : 0x80 + n % 0x40 = third.toNat)]

/-- The modified form of a character by its number. -/
theorem encodeChar_ofNat {n : Nat} (valid : n < 0xd800 ∨ 0xe000 ≤ n ∧ n < 0x110000) :
    encodeChar (Char.ofNat n) =
      if n = 0 then spell2 0 else if n < 0x80 then [n.toUInt8] else if n < 0x800 then spell2 n
      else if n < 0x10000 then spell3 n
      else spell3 (0xd800 + (n - 0x10000) / 0x400) ++ spell3 (0xdc00 + (n - 0x10000) % 0x400) := by
  have forms := encodeChar_cases (Char.ofNat n)
  rw [toNat_ofNat valid] at forms
  split_ifs
  all_goals
    rcases forms with ⟨_, form⟩ | ⟨_, _, form⟩ | ⟨_, _, form⟩ | ⟨_, _, form⟩ |
      ⟨_, form⟩ <;> first | exact form | omega

/-- A pair of surrogates is read from the modified form of its character. -/
private theorem lowSurrogate?_eq_some {high : Nat} {bytes rest : Bytes} {c : Char} (least : 0xd800 ≤ high)
    (small : high < 0xdc00) (read : next?.lowSurrogate? high bytes = some (c, rest)) :
    spell3 high ++ bytes = encodeChar c ++ rest := by
  unfold next?.lowSurrogate? at read
  split at read
  · rename_i fourth fifth sixth tail
    split_ifs at read with pair
    simp only [Bool.and_eq_true, decide_eq_true_eq, UInt8.le_iff_toNat_le, UInt8.reduceToNat, and_assoc] at pair
    obtain ⟨rfl, above, below, ends⟩ := pair
    obtain ⟨rfl, rfl⟩ := Prod.mk.inj (Option.some.inj read)
    have continues : Utf8.isContinuation fifth = true := Utf8.isContinuation_iff.mpr (by omega)
    obtain ⟨low, number, small', spelled, -, range⟩ := @spell3_eq 0xed fifth sixth (by decide) continues ends
    have value : (0xd * 0x40 + Utf8.low fifth) * 0x40 + Utf8.low sixth = low := number
    obtain ⟨below', -, half⟩ := range rfl
    have least' := half.mp above
    rw [value, encodeChar_ofNat (by omega), if_neg (by omega), if_neg (by omega), if_neg (by omega), if_neg (by omega),
      show 0xd800 + (0x10000 + (high - 0xd800) * 0x400 + (low - 0xdc00) - 0x10000) / 0x400 = high by omega,
      show 0xdc00 + (0x10000 + (high - 0xd800) * 0x400 + (low - 0xdc00) - 0x10000) % 0x400 = low by omega, spelled,
      List.append_assoc]
    rfl
  · cases read

/-- A character is read from its modified form alone. -/
theorem next?_eq_some {bytes rest : Bytes} {c : Char} (read : next? bytes = some (c, rest)) :
    bytes = encodeChar c ++ rest := by
  revert read
  fun_cases next? bytes with
  | case3 first tail zero last =>
    rintro ⟨⟩
    simp only [UInt8.lt_iff_toNat_lt, ← UInt8.toNat_inj, UInt8.reduceToNat] at zero last
    rw [encodeChar_ofNat (by omega), if_neg zero, if_pos last, Nat.toUInt8_eq, UInt8.ofNat_toNat]
    rfl
  | case5 =>
    rintro ⟨⟩
    rfl
  | case8 first _ _ second tail _ continues lead =>
    rintro ⟨⟩
    simp only [Bool.and_eq_true, decide_eq_true_eq, UInt8.le_iff_toNat_le, UInt8.reduceToNat] at lead
    obtain ⟨n, number, least, small, spelled⟩ := spell2_eq lead (by simpa using continues)
    rw [number, encodeChar_ofNat (by omega), if_neg (by omega), if_neg (by omega), if_pos small, spelled]
    rfl
  | case11 first _ _ second _ continues _ lead third tail unit ends follows =>
    rintro ⟨⟩
    simp only [Bool.and_eq_true, decide_eq_true_eq, UInt8.le_iff_toNat_le, UInt8.reduceToNat] at lead
    obtain ⟨n, number, small, spelled, range, -⟩ := spell3_eq lead (by simpa using continues) (by simpa using ends)
    obtain rfl : unit = n := number
    have range := range.mp follows
    rw [encodeChar_ofNat (by omega), if_neg (by omega), if_neg (by omega), if_neg (by omega), if_pos small, spelled]
    rfl
  | case12 first _ _ second _ continues _ lead third tail unit ends stray high =>
    intro read
    simp only [Bool.and_eq_true, decide_eq_true_eq, UInt8.le_iff_toNat_le, UInt8.lt_iff_toNat_lt, ← UInt8.toNat_inj,
      UInt8.reduceToNat] at lead high
    have continues : Utf8.isContinuation second = true := by simpa using continues
    obtain ⟨n, number, small, spelled, -, range⟩ := spell3_eq lead continues (by simpa using ends)
    obtain rfl : unit = n := number
    have surrogate := range high.1
    have least : 0xd800 ≤ unit := by
      rw [Utf8.mayFollow_iff, Utf8.isContinuation_iff] at stray
      rw [Utf8.isContinuation_iff] at continues
      omega
    have joined := lowSurrogate?_eq_some least (by omega) read
    rwa [spelled] at joined
  | _ => rintro ⟨⟩

private theorem decodeUnits?_go_eq_some {fuel : Nat} {bytes : Bytes} {found : List Char} {text : String}
    (read : decodeUnits?.go fuel bytes found = some text) :
    ∃ chars, text = String.ofList (found.reverse ++ chars) ∧ bytes = chars.flatMap encodeChar := by
  induction fuel generalizing bytes found with
  | zero =>
    cases bytes with
    | nil => exact ⟨[], by rw [List.append_nil]; exact (Option.some.inj read).symm, rfl⟩
    | cons first rest => cases read
  | succ fuel ih =>
    cases bytes with
    | nil => exact ⟨[], by rw [List.append_nil]; exact (Option.some.inj read).symm, rfl⟩
    | cons first rest =>
      rw [decodeUnits?.go] at read
      split at read
      · rename_i c tail next
        obtain ⟨chars, rfl, rfl⟩ := ih read
        refine ⟨c :: chars, by rw [List.reverse_cons, List.append_assoc, List.singleton_append], ?_⟩
        rw [List.flatMap_cons]
        exact next?_eq_some next
      · cases read

/-- Decoding unit by unit reads the modified form of a text and nothing else. -/
theorem decodeUnits?_eq_some_iff {bytes : Bytes} {text : String} :
    decodeUnits? bytes = some text ↔ bytes = encode text := by
  constructor
  · intro read
    obtain ⟨chars, rfl, rfl⟩ := decodeUnits?_go_eq_some read
    rw [encode_eq, List.reverse_nil, List.nil_append, String.toList_ofList]
  · rintro rfl
    exact decodeUnits?_encode text

end ModifiedUtf8

namespace Utf8

open ModifiedUtf8

/-- A number of twenty-one bits in four bytes. -/
def spell4 (n : Nat) : Bytes :=
  [(0xf0 + n / 0x40000).toUInt8, (0x80 + n / 0x1000 % 0x40).toUInt8, (0x80 + n / 0x40 % 0x40).toUInt8,
    (0x80 + n % 0x40).toUInt8]

/-- A character in the basic plane other than zero has the same form in both encodings. -/
theorem utf8EncodeChar_of_lt {c : Char} (pos : 0 < c.toNat) (small : c.toNat < 0x10000) :
    String.utf8EncodeChar c = encodeChar c := by
  have value : c.val.toNat = c.toNat := rfl
  rcases encodeChar_cases c with ⟨_, form⟩ | ⟨_, _, form⟩ | ⟨_, _, form⟩ | ⟨_, _, form⟩ | ⟨_, form⟩
  · omega
  · rw [form, String.utf8EncodeChar, value, if_pos (by omega), Nat.toUInt8_eq]
  · rw [form, String.utf8EncodeChar, value, if_neg (by omega), if_pos (by omega), spell2,
      show c.toNat / 64 % 32 + 192 = 0xc0 + c.toNat / 0x40 by omega, Nat.add_comm _ 128]
  · rw [form, String.utf8EncodeChar, value, if_neg (by omega), if_neg (by omega), if_pos (by omega), spell3,
      show c.toNat / 4096 % 16 + 224 = 0xe0 + c.toNat / 0x1000 by omega, Nat.add_comm _ 128, Nat.add_comm _ 128]
  · omega

theorem toNat_pos {c : Char} (free : (0 : UInt8) ∉ String.utf8EncodeChar c) : 0 < c.toNat := by
  refine Nat.pos_of_ne_zero fun zero => free ?_
  have value : c.val.toNat = 0 := zero
  rw [String.utf8EncodeChar, value]
  decide

/-- A character outside the basic plane takes four bytes. -/
theorem utf8EncodeChar_of_le {c : Char} (least : 0x10000 ≤ c.toNat) : String.utf8EncodeChar c = spell4 c.toNat := by
  have value : c.val.toNat = c.toNat := rfl
  have bounds := char_bounds c
  rw [String.utf8EncodeChar, value, if_neg (by omega), if_neg (by omega), if_neg (by omega), spell4,
    show c.toNat / 262144 % 8 + 240 = 0xf0 + c.toNat / 0x40000 by omega, Nat.add_comm _ 128, Nat.add_comm _ 128,
    Nat.add_comm _ 128]

/-- Four bytes that are read as a character spell its number. -/
theorem spell4_eq (lead : 0xf0 ≤ first.toNat ∧ first.toNat ≤ 0xf4) (follows : mayFollow first second = true)
    (continues : isContinuation third = true) (ends : isContinuation fourth = true) :
    ∃ n, ((first.toNat % 0x08 * 0x40 + low second) * 0x40 + low third) * 0x40 + low fourth = n ∧
      0x10000 ≤ n ∧ n < 0x110000 ∧ spell4 n = [first, second, third, fourth] := by
  have tail := mayFollow_iff.mp follows
  have tail₀ := isContinuation_iff.mp tail.1
  have tail' := isContinuation_iff.mp continues
  have tail'' := isContinuation_iff.mp ends
  refine ⟨_, rfl, ?_⟩
  rw [low, low, low]
  generalize number : ((first.toNat % 0x08 * 0x40 + second.toNat % 0x40) * 0x40 + third.toNat % 0x40) * 0x40 +
    fourth.toNat % 0x40 = n
  refine ⟨by omega, by omega, ?_⟩
  rw [spell4, (byte_eq (by omega)).mpr (by omega : 0xf0 + n / 0x40000 = first.toNat),
    (byte_eq (by omega)).mpr (by omega : 0x80 + n / 0x1000 % 0x40 = second.toNat),
    (byte_eq (by omega)).mpr (by omega : 0x80 + n / 0x40 % 0x40 = third.toNat),
    (byte_eq (by omega)).mpr (by omega : 0x80 + n % 0x40 = fourth.toNat)]

/-- A segment that is a character is the plain UTF-8 of the character. -/
theorem next_eq_some {rest : Bytes} {c : Char} {length : Nat} (read : next first rest = (some c, length)) :
    first :: rest = String.utf8EncodeChar c ++ rest.drop (length - 1) := by
  revert read
  fun_cases next first rest with
  | case1 _ last =>
    rintro ⟨⟩
    simp only [UInt8.lt_iff_toNat_lt, UInt8.reduceToNat] at last
    have number : (Char.ofNat first.toNat).val.toNat = first.toNat := toNat_ofNat (by omega)
    rw [String.utf8EncodeChar, number, if_pos (by omega), UInt8.ofNat_toNat]
    rfl
  | case2 _ lead second tail continues =>
    rintro ⟨⟩
    simp only [Bool.and_eq_true, decide_eq_true_eq, UInt8.le_iff_toNat_le, UInt8.reduceToNat] at lead
    obtain ⟨n, number, least, small, spelled⟩ := spell2_eq lead continues
    have value := toNat_ofNat (n := n) (by omega)
    rw [number, utf8EncodeChar_of_lt (by omega) (by omega), encodeChar_ofNat (by omega), if_neg (by omega),
      if_neg (by omega), if_pos small, spelled]
    rfl
  | case5 _ _ lead second follows third tail ends =>
    rintro ⟨⟩
    simp only [Bool.and_eq_true, decide_eq_true_eq, UInt8.le_iff_toNat_le, UInt8.reduceToNat] at lead
    obtain ⟨n, number, small, spelled, range, -⟩ := spell3_eq lead (mayFollow_iff.mp follows).1 ends
    have range := range.mp follows
    have value := toNat_ofNat (n := n) (by omega)
    rw [number, utf8EncodeChar_of_lt (by omega) (by omega), encodeChar_ofNat (by omega), if_neg (by omega),
      if_neg (by omega), if_neg (by omega), if_pos small, spelled]
    rfl
  | case10 _ _ _ lead second follows third continues fourth tail ends =>
    rintro ⟨⟩
    simp only [Bool.and_eq_true, decide_eq_true_eq, UInt8.le_iff_toNat_le, UInt8.reduceToNat] at lead
    obtain ⟨n, number, least, small, spelled⟩ := spell4_eq lead follows continues ends
    have value := toNat_ofNat (n := n) (by omega)
    rw [number, utf8EncodeChar_of_le (by omega), value, spelled]
    rfl
  | _ => rintro ⟨⟩

private theorem next_four {n : Nat} (least : 0x10000 ≤ n) (small : n < 0x110000) (rest : Bytes) :
    next (0xf0 + n / 0x40000).toUInt8 ((0x80 + n / 0x1000 % 0x40).toUInt8 :: (0x80 + n / 0x40 % 0x40).toUInt8 ::
      (0x80 + n % 0x40).toUInt8 :: rest) = (some (Char.ofNat n), 4) := by
  have first : (0xf0 + n / 0x40000).toUInt8.toNat = 0xf0 + n / 0x40000 := toNat_byte (by omega)
  have second : (0x80 + n / 0x1000 % 0x40).toUInt8.toNat = 0x80 + n / 0x1000 % 0x40 := toNat_byte (by omega)
  have follows : mayFollow (0xf0 + n / 0x40000).toUInt8 (0x80 + n / 0x1000 % 0x40).toUInt8 = true := by
    rw [mayFollow_iff, isContinuation_iff, first, second]
    omega
  have number :
    (((0xf0 + n / 0x40000) % 0x08 * 0x40 + n / 0x1000 % 0x40 % 0x40) * 0x40 + n / 0x40 % 0x40 % 0x40) * 0x40 +
      n % 0x40 % 0x40 = n := by omega
  rw [next]
  simp only [UInt8.lt_iff_toNat_lt, UInt8.le_iff_toNat_le, UInt8.reduceToNat,
    Bool.and_eq_true, decide_eq_true_eq, first]
  rw [if_neg (by omega), if_neg (by omega), if_neg (by omega), if_pos (by omega), if_pos follows,
    if_pos (isContinuation_byte (Nat.mod_lt (n / 0x40) (by decide))),
      if_pos (isContinuation_byte (Nat.mod_lt n (by decide))),
    low_byte (by omega), low_byte (by omega), low_byte (by omega), number]

/-- The plain UTF-8 of a character is a segment that is the character. -/
theorem next_utf8EncodeChar (c : Char) (rest : Bytes) : ∃ first tail length,
    String.utf8EncodeChar c ++ rest = first :: tail ∧
    next first tail = (some c, length) ∧ tail.drop (length - 1) = rest := by
  have value : c.val.toNat = c.toNat := rfl
  have back : Char.ofNat c.toNat = c := Char.ofNat_toNat c
  by_cases basic : c.toNat < 0x10000
  · rcases Nat.eq_zero_or_pos c.toNat with zero | pos
    · rw [zero] at back
      refine ⟨0, rest, 1, by rw [String.utf8EncodeChar, value, if_pos (by omega), zero]; rfl, ?_, rfl⟩
      rw [← back]
      rfl
    · obtain ⟨first, tail, form, ⟨out, -⟩ | ⟨-, length, read, behind⟩⟩ := next_encodeChar c rest
      · omega
      · exact ⟨first, tail, length, by rw [utf8EncodeChar_of_lt pos basic, form], read, behind⟩
  · have bounds := char_bounds c
    rw [utf8EncodeChar_of_le (Nat.le_of_not_lt basic)]
    refine ⟨_, _, 4, rfl, ?_, rfl⟩
    rw [← back, toNat_ofNat bounds]
    exact next_four (Nat.le_of_not_lt basic) (by omega) rest

/-- Segments that are all characters are read from the plain UTF-8 of these. -/
private theorem segments_go_eq {fuel : Nat} {bytes : Bytes} {found : List (Option Char)} (enough : bytes.length ≤ fuel)
    (good : none ∉ segments.go fuel bytes found) :
    ∃ chars : List Char, segments.go fuel bytes found = found.reverse ++ chars.map some ∧
      bytes = chars.flatMap String.utf8EncodeChar := by
  induction fuel generalizing bytes found with
  | zero =>
    obtain rfl : bytes = [] := List.length_eq_zero_iff.mp (Nat.le_zero.mp enough)
    exact ⟨[], by simp [segments.go], rfl⟩
  | succ fuel ih =>
    cases bytes with
    | nil => exact ⟨[], by simp [segments.go], rfl⟩
    | cons first rest =>
      rw [segments.go] at good ⊢
      rcases read : next first rest with ⟨_ | c, length⟩
      · rw [read] at good
        exact absurd (mem_segments_go _ _ List.mem_cons_self) good
      · rw [read] at good
        have fewer : (rest.drop (length - 1)).length ≤ fuel := by
          rw [List.length_cons] at enough
          rw [List.length_drop]
          omega
        obtain ⟨chars, segments, behind⟩ := ih fewer good
        refine ⟨c :: chars, ?_, ?_⟩
        · simpa using segments
        · rw [List.flatMap_cons, ← behind]
          exact next_eq_some read

/-- The plain UTF-8 of characters is cut into these. -/
private theorem segments_go_flatMap (chars : List Char) (found : List (Option Char)) (fuel : Nat)
    (enough : chars.length ≤ fuel) :
    segments.go fuel (chars.flatMap String.utf8EncodeChar) found = found.reverse ++ chars.map some := by
  induction chars generalizing found fuel with
  | nil => cases fuel <;> simp [segments.go]
  | cons c rest ih =>
    obtain ⟨fuel, rfl⟩ := Nat.exists_eq_succ_of_ne_zero (Nat.ne_of_gt (Nat.lt_of_lt_of_le (Nat.succ_pos _) enough))
    obtain ⟨first, tail, length, form, read, behind⟩ := next_utf8EncodeChar c (rest.flatMap String.utf8EncodeChar)
    rw [List.flatMap_cons, form, segments.go, read]
    simp only [behind]
    simpa using ih (some c :: found) fuel (Nat.le_of_succ_le_succ enough)

private theorem length_le_flatMap_utf8EncodeChar (chars : List Char) :
    chars.length ≤ (chars.flatMap String.utf8EncodeChar).length := by
  induction chars with
  | nil => exact Nat.le_refl 0
  | cons c rest ih =>
    have pos : 0 < (String.utf8EncodeChar c).length := by
      rw [String.length_utf8EncodeChar]
      exact c.utf8Size_pos
    rw [List.flatMap_cons, List.length_append, List.length_cons]
    omega

/-- A byte string is valid just if it is the plain UTF-8 of a text, which is the one that it is read as. -/
theorem decode?_eq_some_iff {bytes : Bytes} {text : String} : decode? bytes = some text ↔ bytes = encode text := by
  constructor
  · intro read
    obtain ⟨chars, listed, rfl⟩ := Option.map_eq_some_iff.mp read
    have good : none ∉ segments bytes := fun bad => by
      rw [mapM_id_of_mem_none bad] at listed
      cases listed
    obtain ⟨others, same, rfl⟩ := segments_go_eq (Nat.le_refl _) good
    rw [segments, same, List.reverse_nil, List.nil_append, mapM_id_map_some] at listed
    rw [encode, String.toList_ofList, Option.some.inj listed]
  · rintro rfl
    rw [decode?, segments, encode, segments_go_flatMap _ _ _ (length_le_flatMap_utf8EncodeChar _), List.reverse_nil,
      List.nil_append, mapM_id_map_some, Option.map_some, String.ofList_toList]

end Utf8

namespace ModifiedUtf8

/-- A byte string is decoded as a text just if it is the plain UTF-8 of the text or its modified form. -/
theorem decode?_eq_some_iff {bytes : Bytes} {text : String} :
    decode? bytes = some text ↔ bytes = Utf8.encode text ∨ bytes = encode text := by
  constructor
  · intro read
    rcases plain : Utf8.decode? bytes with _ | other
    · rw [decode?, plain] at read
      exact .inr (decodeUnits?_eq_some_iff.mp read)
    · rw [decode?, plain] at read
      obtain rfl : other = text := Option.some.inj read
      exact .inl (Utf8.decode?_eq_some_iff.mp plain)
  · rintro (rfl | rfl)
    · rw [decode?, Utf8.decode?_eq_some_iff.mpr rfl]
      rfl
    · exact decode?_encode text

/-- The modified form takes two bytes more for each character outside the basic plane, where no character is zero. -/
theorem length_flatMap_encodeChar {chars : List Char} (free : 0 ∉ chars.flatMap String.utf8EncodeChar) :
    (chars.flatMap encodeChar).length =
      (chars.flatMap String.utf8EncodeChar).length + 2 * chars.countP fun c => 0x10000 ≤ c.toNat := by
  induction chars with
  | nil => rfl
  | cons c rest ih =>
    rw [List.flatMap_cons, List.mem_append, not_or] at free
    rw [List.flatMap_cons, List.flatMap_cons, List.length_append, List.length_append, ih free.2, List.countP_cons]
    by_cases basic : c.toNat < 0x10000
    · rw [Utf8.utf8EncodeChar_of_lt (Utf8.toNat_pos free.1) basic, if_neg (by simpa using basic)]
      omega
    · have large := Nat.le_of_not_lt basic
      rcases encodeChar_cases c with ⟨_, -⟩ | ⟨_, _, -⟩ | ⟨_, _, -⟩ | ⟨_, _, -⟩ | ⟨_, form⟩
      · omega
      · omega
      · omega
      · omega
      rw [form, Utf8.utf8EncodeChar_of_le large, if_pos (by simpa using large)]
      simp only [spell3, Utf8.spell4, List.length_append, List.length_cons, List.length_nil]
      omega

/-- The modified form of a text without a zero character is its plain UTF-8 just if every character is in the basic
plane. -/
theorem encode_eq_iff {text : String} (free : 0 ∉ Utf8.encode text) :
    Utf8.encode text = encode text ↔ ∀ c ∈ text.toList, c.toNat < 0x10000 := by
  constructor
  · intro same c member
    have length := length_flatMap_encodeChar free
    rw [← encode_eq, ← same, Utf8.encode] at length
    have none : (text.toList.countP fun c => 0x10000 ≤ c.toNat) = 0 := by omega
    simpa using List.countP_eq_zero.mp none c member
  · intro basic
    rw [encode_eq, Utf8.encode]
    refine List.flatMap_congr fun c member => Utf8.utf8EncodeChar_of_lt (Utf8.toNat_pos fun zero => ?_) (basic c member)
    exact free (List.mem_flatMap.mpr ⟨c, member, zero⟩)

end ModifiedUtf8
end DexImage.Text
