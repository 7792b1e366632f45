import DexImage.Proofs.Codec.Reading
/-! # What reading consumes

A step that succeeds has moved over some bytes (`Cursor.Consumed`). Those of a variable-length number are groups that
spell it, perhaps with groups to spare or with bits past the thirty-second; where there are none of these, they are the
groups that are written for the number (`Leb128.Minimal`). What steps in a row move over is told step by step
(`Decoder.Consumes`).
-/

namespace DexImage

namespace Leb128

/-- Whether groups spell a number of 32 bits and the last of them is needed. -/
structure Minimal (bytes : List UInt8) : Prop where
  spelled : ∃ n < UInt32.size, decodeGroups maxLength32 0 bytes = .ok (n, bytes.length)
  needed : bytes.length = 1 ∨ bytes.getLast? ≠ some 0

/-- A number is decoded from the groups that it takes alone. -/
theorem decodeGroups_front {limit taken n length : Nat} {bytes : List UInt8}
    (success : decodeGroups limit taken bytes = .ok (n, length)) :
    ∃ front tail, bytes = front ++ tail ∧ length = taken + front.length ∧
      decodeGroups limit taken front = .ok (n, length) := by
  induction bytes generalizing taken n with
  | nil => exact absurd success decodeGroups_nil
  | cons byte rest ih =>
    obtain ⟨room, ⟨last, rfl, rfl⟩ | ⟨announces, high, others, rfl⟩⟩ := decodeGroups_cons_eq_ok.mp success
    · exact ⟨[byte], rest, rfl, rfl, decodeGroups_cons_eq_ok.mpr ⟨room, .inl ⟨last, rfl, rfl⟩⟩⟩
    · obtain ⟨front, tail, rfl, size, decoded⟩ := ih others
      exact ⟨byte :: front, tail, rfl, by rw [List.length_cons]; omega,
        decodeGroups_cons_eq_ok.mpr ⟨room, .inr ⟨announces, high, decoded, rfl⟩⟩⟩

/-- A group that announces others is the first one of its number, unless the others spell zero. -/
theorem encodeNat_announcing {byte : UInt8} {high : Nat} (announces : ¬byte < 128) (some : high ≠ 0) :
    encodeNat (byte.toNat - 128 + 128 * high) = byte :: encodeNat high := by
  have large : 128 ≤ byte.toNat := by
    rw [UInt8.lt_iff_toNat_lt] at announces
    exact Nat.not_lt.mp announces
  have bound := byte.toNat_lt
  have low : (byte.toNat - 128 + 128 * high) % 128 + 128 = byte.toNat := by omega
  have rest : (byte.toNat - 128 + 128 * high) / 128 = high := by omega
  rw [encodeNat_of_le (by omega), low, rest, Nat.toUInt8_eq, UInt8.ofNat_toNat]

/-- Groups the last of which is needed are those that are written for the number that they spell. -/
theorem eq_encodeNat {limit taken n : Nat} {bytes : List UInt8}
    (success : decodeGroups limit taken bytes = .ok (n, taken + bytes.length))
    (needed : bytes.length = 1 ∨ bytes.getLast? ≠ some 0) : bytes = encodeNat n := by
  induction bytes generalizing taken n with
  | nil => exact absurd success decodeGroups_nil
  | cons byte rest ih =>
    obtain ⟨-, ⟨last, rfl, single⟩ | ⟨announces, high, others, rfl⟩⟩ := decodeGroups_cons_eq_ok.mp success
    · have alone : rest = [] := List.length_eq_zero_iff.mp (by rw [List.length_cons] at single; omega)
      rw [alone, encodeNat_of_lt (UInt8.lt_iff_toNat_lt.mp last), Nat.toUInt8_eq, UInt8.ofNat_toNat]
    · rcases rest with _ | ⟨next, rest⟩
      · exact absurd others decodeGroups_nil
      have needed : (next :: rest).getLast? ≠ some 0 := by
        rcases needed with single | needed
        · simp at single
        · rwa [List.getLast?_cons_cons] at needed
      have groups := ih (by rw [others, List.length_cons, List.length_cons]; congr 2; omega) (.inr needed)
      -- Others that spell zero would be a zero alone, which is not needed.
      have some : high ≠ 0 := by
        rintro rfl
        rw [groups, encodeNat_of_lt (by decide)] at needed
        exact needed rfl
      rw [encodeNat_announcing announces some, ← groups]

/-- The last group that is written is zero only for the number zero. -/
theorem getLast?_encodeNat {n : Nat} (pos : 0 < n) : (encodeNat n).getLast? ≠ some 0 := by
  induction n using Nat.strongRecOn with
  | ind n ih =>
    by_cases small : n < 128
    · rw [encodeNat_of_lt small, List.getLast?_singleton, ne_eq, Option.some.injEq, ← UInt8.toNat_inj,
        Nat.toUInt8_eq, UInt8.toNat_ofNat']
      change ¬n % 256 = 0
      omega
    · have large := Nat.not_lt.mp small
      obtain ⟨first, others, groups⟩ := List.exists_cons_of_length_pos (length_encodeNat_pos (n / 128))
      rw [encodeNat_of_le large, groups, List.getLast?_cons_cons, ← groups]
      exact ih _ (by omega) (by omega)

theorem minimal_encodeUInt32 (value : UInt32) : Minimal (encodeUInt32 value) where
  spelled := by
    have decoded := @decodeGroups_encodeNat maxLength32 value.toNat 0 [] (by
      rw [Nat.zero_add]
      exact length_encodeUInt32_le value)
    rw [List.append_nil, Nat.zero_add] at decoded
    exact ⟨value.toNat, value.toNat_lt, decoded⟩
  needed := by
    rcases Nat.eq_zero_or_pos value.toNat with zero | pos
    · rw [encodeUInt32, zero, encodeNat_of_lt (by decide)]
      exact .inl rfl
    · exact .inr (getLast?_encodeNat pos)

/-- The groups of a number are read as the number when nothing follows them. -/
theorem decodeUInt32_alone (value : UInt32) :
    decodeUInt32 (encodeUInt32 value) = .ok (value, (encodeUInt32 value).length) := by
  have decoded := decodeUInt32_encodeUInt32 value []
  rwa [List.append_nil] at decoded

/-- Minimal groups that are read as a number are those that are written for it. -/
theorem Minimal.eq_encodeUInt32 {bytes : List UInt8} (minimal : Minimal bytes) {value : UInt32}
    (success : decodeUInt32 bytes = .ok (value, bytes.length)) : bytes = encodeUInt32 value := by
  obtain ⟨n, small, spelled⟩ := minimal.spelled
  rw [decodeUInt32, spelled] at success
  obtain ⟨rfl, -⟩ := Prod.mk.inj (Except.ok.inj success)
  rw [encodeUInt32, toNat_toUInt32_of_lt small]
  exact eq_encodeNat (by rw [spelled, Nat.zero_add]) minimal.needed

end Leb128

namespace Bytes

theorem littleEndian_toNatLittle (bytes : Bytes) : littleEndian bytes.length bytes.toNatLittle = bytes := by
  induction bytes with
  | nil => rfl
  | cons byte rest ih =>
    have bound := byte.toNat_lt
    have low : (byte.toNat + 256 * toNatLittle rest) % 256 = byte.toNat := by omega
    have high : (byte.toNat + 256 * toNatLittle rest) / 256 = toNatLittle rest := by omega
    rw [toNatLittle, List.length_cons, littleEndian, low, high, ih, Nat.toUInt8_eq, UInt8.ofNat_toNat]

theorem littleEndian_mod (width n : Nat) : littleEndian width (n % capacity width) = littleEndian width n := by
  induction width generalizing n with
  | zero => rfl
  | succ width ih =>
    rw [littleEndian, littleEndian, capacity, Nat.mod_mul_right_mod, Nat.mod_mul_right_div_self, ih]

/-- The bytes that spell a number are those of every number with the same residue. -/
theorem littleEndian_of_mod {bytes : Bytes} {n : Nat} (residue : n % capacity bytes.length = bytes.toNatLittle) :
    littleEndian bytes.length n = bytes := by
  rw [← littleEndian_mod, residue, littleEndian_toNatLittle]

end Bytes

namespace Cursor

/-- Whether the bytes between two places of a cursor are the given ones. -/
structure Consumed (cursor : Cursor) (bytes : Bytes) (after : Cursor) : Prop where
  moved : after = cursor.advance bytes.length
  ahead : bytes <+: cursor.rest

variable {cursor mid after : Cursor} {first second bytes : Bytes}

theorem rest_advance (cursor : Cursor) (count : Nat) : (cursor.advance count).rest = cursor.rest.drop count := by
  rw [rest, rest, List.drop_drop]
  rfl

namespace Consumed

theorem refl (cursor : Cursor) : cursor.Consumed [] cursor := ⟨rfl, List.nil_prefix⟩

theorem rest_eq (consumed : cursor.Consumed bytes after) : cursor.rest = bytes ++ after.rest := by
  obtain ⟨tail, ahead⟩ := consumed.ahead
  rw [consumed.moved, rest_advance, ← ahead, List.drop_left]

protected theorem trans (left : cursor.Consumed first mid) (right : mid.Consumed second after) :
    cursor.Consumed (first ++ second) after where
  moved := by rw [right.moved, left.moved, advance_advance, List.length_append]
  ahead := by
    rw [left.rest_eq]
    exact (List.prefix_append_right_inj first).mpr right.ahead

theorem remaining_le (consumed : cursor.Consumed bytes after) : bytes.length + after.remaining = cursor.remaining := by
  rw [← length_rest, ← length_rest, consumed.rest_eq, List.length_append]

end Consumed
end Cursor

namespace Decoder

open Cursor Reading

variable {cursor after : Cursor}

theorem consumed_take {count : Nat} {bytes : Bytes} (run : take count cursor = (.ok bytes, after)) :
    cursor.Consumed bytes after ∧ bytes.length = count := by
  obtain ⟨inside, rfl, rfl⟩ := take_eq_ok.mp run
  have length : (cursor.window count).length = count := by
    rw [window_eq, List.length_take, length_rest, Cursor.remaining]
    omega
  refine ⟨⟨by rw [length], ?_⟩, length⟩
  rw [window_eq]
  exact List.take_prefix _ _

theorem consumed_u1 {byte : UInt8} (run : u1 cursor = (.ok byte, after)) : cursor.Consumed [byte] after := by
  rw [u1, bind_ok (Decoder.get_run cursor)] at run
  rcases next : cursor.peek? with _ | found
  · simp only [next] at run
    cases run
  · simp only [next] at run
    obtain ⟨same, rfl⟩ := Prod.mk.inj run
    obtain rfl := Except.ok.inj same
    refine ⟨rfl, ?_⟩
    obtain ⟨inside, same⟩ := Array.getElem?_eq_some_iff.mp next
    rw [rest, List.drop_eq_getElem_cons (by simpa using inside), Array.getElem_toList, same]
    exact List.prefix_append [found] _

/-- A variable-length number is read from groups that spell it. -/
theorem consumed_uleb128 {value : UInt32} (run : uleb128 cursor = (.ok value, after)) :
    ∃ bytes, cursor.Consumed bytes after ∧ Leb128.decodeUInt32 bytes = .ok (value, bytes.length) := by
  rw [uleb128, varint, bind_ok (Decoder.get_run cursor)] at run
  rcases groups : Leb128.decodeGroups Leb128.maxLength32 0 (cursor.window Leb128.maxLength32) with fault | ⟨n, length⟩
  · simp only [Leb128.decodeUInt32, groups] at run
    cases run
  · simp only [Leb128.decodeUInt32, groups] at run
    obtain ⟨same, rfl⟩ := Prod.mk.inj run
    obtain rfl := Except.ok.inj same
    obtain ⟨front, tail, window, size, decoded⟩ := Leb128.decodeGroups_front groups
    rw [Nat.zero_add] at size
    refine ⟨front, ⟨by rw [← size]; rfl, ?_⟩, ?_⟩
    · have ahead : front <+: cursor.window Leb128.maxLength32 := window ▸ List.prefix_append front tail
      rw [window_eq] at ahead
      exact ahead.trans (List.take_prefix _ _)
    · rw [Leb128.decodeUInt32, decoded, ← size]
      rfl

/-- Whether a step, at a cursor of a byte order, moves over bytes that are as told of what it yields. -/
def Consumes {α : Type} (bigEndian : Bool) (step : Decoder α) (told : α → Bytes → Prop) : Prop :=
  ∀ cursor value after, cursor.bigEndian = bigEndian → step cursor = (.ok value, after) →
    ∃ bytes, cursor.Consumed bytes after ∧ told value bytes

namespace Consumes

variable {α β : Type} {bigEndian : Bool} {step : Decoder α} {next : α → Decoder β} {told : α → Bytes → Prop}
  {last : β → Bytes → Prop}

protected theorem pure {value : α} (holds : told value []) : Consumes bigEndian (pure value) told := by
  intro cursor other after _ run
  obtain ⟨rfl, rfl⟩ := pure_eq_ok.mp run
  exact ⟨[], .refl _, holds⟩

protected theorem bind (first : Consumes bigEndian step told)
    (rest : ∀ value front, told value front → Consumes bigEndian (next value) fun final more =>
      last final (front ++ more)) :
    Consumes bigEndian (step >>= next) last := by
  intro cursor final after order run
  obtain ⟨value, mid, run, run'⟩ := bind_eq_ok.mp run
  obtain ⟨front, passed, holds⟩ := first cursor value mid order run
  have order' : mid.bigEndian = bigEndian := by rw [passed.moved, ← order]; rfl
  obtain ⟨more, passed', holds'⟩ := rest value front holds mid final after order' run'
  exact ⟨front ++ more, passed.trans passed', holds'⟩

protected theorem ite {condition : Prop} [Decidable condition]
    {yes no : Decoder α} (first : Consumes bigEndian yes told)
    (second : Consumes bigEndian no told) : Consumes bigEndian (if condition then yes else no) told := by
  split_ifs
  · exact first
  · exact second

theorem imp (consumes : Consumes bigEndian step told) {told' : α → Bytes → Prop}
    (weaker : ∀ value bytes, told value bytes → told' value bytes) : Consumes bigEndian step told' := by
  intro cursor value after order run
  obtain ⟨bytes, passed, holds⟩ := consumes cursor value after order run
  exact ⟨bytes, passed, weaker value bytes holds⟩

theorem fail_bind {cause : Cause} : Consumes bigEndian (Reading.fail cause >>= next) last := by
  rintro cursor value after - ⟨⟩

theorem take (count : Nat) : Consumes bigEndian (Decoder.take count) fun value bytes => bytes = value := by
  intro cursor value after _ run
  exact ⟨value, (consumed_take run).1, rfl⟩

end Consumes
end Decoder
end DexImage
