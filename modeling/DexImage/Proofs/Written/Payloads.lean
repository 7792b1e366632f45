import DexImage.Proofs.Codec.Consumption
import DexImage.Proofs.Codec.Spelling
import DexImage.Proofs.Codec.Writing
/-! # Strings that are read and written back

A payload that spells a text of the stated length, in plain UTF-8 or in its modified form, is read as that text;
any other is kept as it is (`StringData.Spells`). A text is written in its modified form, so that the bytes that
a string was read from are written again unless they were plain UTF-8 of a text with a character outside the
basic plane (`StringData.writes_back_iff`).
-/

namespace DexImage.StringData

open Text Reading

/-- Whether a payload spells a text of so many units, in plain UTF-8 or in the modified form. -/
structure Spells (units : UInt32) (payload : Bytes) (text : String) : Prop where
  counted : (decoded text).units = units
  form : payload = Utf8.encode text ∨ payload = ModifiedUtf8.encode text

variable {units : UInt32} {bytes : Bytes} {text : String} {cursor after : Cursor}

theorem Spells.ofPayload_eq (spells : Spells units bytes text) : ofPayload units bytes = decoded text := by
  rw [ofPayload, ModifiedUtf8.decode?_eq_some_iff.mpr spells.form]
  exact if_pos spells.counted

/-- A payload is kept as it is just if it spells no text. -/
theorem ofPayload_cases (units : UInt32) (bytes : Bytes) :
    (∃ text, Spells units bytes text) ∨ (∀ text, ¬Spells units bytes text) ∧
    ofPayload units bytes = raw units bytes := by
  by_cases spelled : ∃ text, Spells units bytes text
  · exact .inl spelled
  · refine .inr ⟨not_exists.mp spelled, ?_⟩
    rw [ofPayload]
    split
    · rename_i text read
      exact if_neg fun counted => spelled ⟨text, counted, ModifiedUtf8.decode?_eq_some_iff.mp read⟩
    · rfl

theorem units_ofPayload (units : UInt32) (bytes : Bytes) : (ofPayload units bytes).units = units := by
  rcases ofPayload_cases units bytes with ⟨text, spells⟩ | ⟨-, kept⟩
  · rw [spells.ofPayload_eq, spells.counted]
  · rw [kept]
    rfl

theorem ofPayload_eq_decoded_iff : ofPayload units bytes = decoded text ↔ Spells units bytes text := by
  refine ⟨fun same => ?_, Spells.ofPayload_eq⟩
  rcases ofPayload_cases units bytes with ⟨other, spells⟩ | ⟨-, kept⟩
  · obtain rfl := decoded.inj (spells.ofPayload_eq.symm.trans same)
    exact spells
  · rw [kept] at same
    cases same

/-- The payload of what is read is the payload that it is read from unless this is plain UTF-8 of a text with a
character outside the basic plane. -/
theorem payload_ofPayload_iff (free : 0 ∉ bytes) : (ofPayload units bytes).payload = bytes ↔
    ∀ text, bytes = Utf8.encode text → (decoded text).units = units → ∀ c ∈ text.toList, c.toNat < 0x10000 := by
  constructor
  · rintro same text rfl counted
    rw [Spells.ofPayload_eq ⟨counted, .inl rfl⟩] at same
    exact (ModifiedUtf8.encode_eq_iff free).mp same.symm
  · intro basic
    rcases ofPayload_cases units bytes with ⟨text, counted, plain | modified⟩ | ⟨-, kept⟩
    · subst plain
      rw [Spells.ofPayload_eq ⟨counted, .inl rfl⟩]
      exact ((ModifiedUtf8.encode_eq_iff free).mpr (basic text rfl counted)).symm
    · rw [Spells.ofPayload_eq ⟨counted, .inr modified⟩, modified]
      rfl
    · rw [kept]
      rfl

/-- What is read up to a terminator lies ahead with the terminator behind it, and holds no other. -/
theorem consumed_terminated (run : terminated cursor = (.ok bytes, after)) :
    cursor.Consumed (bytes ++ [0]) after ∧ (0 : UInt8) ∉ bytes := by
  -- There is fuel for as many bytes as are left, so that it never runs out.
  have go (fuel : Nat) (found : Bytes) (cursor : Cursor) (enough : cursor.remaining < fuel)
      (run : terminated.go fuel found cursor = (.ok bytes, after)) :
      ∃ more, bytes = found.reverse ++ more ∧ cursor.Consumed (more ++ [0]) after ∧ (0 : UInt8) ∉ more := by
    induction fuel generalizing found cursor with
    | zero => exact absurd enough (Nat.not_lt_zero _)
    | succ fuel ih =>
      obtain ⟨byte, behind, next, run⟩ := bind_eq_ok.mp run
      have passed := Decoder.consumed_u1 next
      have fewer := passed.remaining_le
      rw [List.length_singleton] at fewer
      split_ifs at run with zero
      · obtain ⟨rfl, rfl⟩ := pure_eq_ok.mp run
        exact ⟨[], (List.append_nil _).symm, zero ▸ passed, List.not_mem_nil⟩
      · obtain ⟨more, rfl, rest, free⟩ := ih (byte :: found) behind (by omega) run
        refine ⟨byte :: more, by simp, passed.trans rest, ?_⟩
        exact List.not_mem_cons_of_ne_of_not_mem (Ne.symm zero) free
  obtain ⟨remaining, _, asked, run⟩ := bind_eq_ok.mp run
  obtain ⟨same, rfl⟩ := Prod.mk.inj asked
  obtain rfl := Except.ok.inj same
  obtain ⟨more, rfl, consumed, free⟩ := go _ [] _ (Nat.lt_succ_self _) run
  exact ⟨consumed, free⟩

theorem write_iff {string : StringData} :
    (∀ out, string.write out = (.ok bytes.length, out ++ bytes)) ↔ encode string = .ok bytes :=
  ⟨fun written => string.writes.encoded_of_run (written []), fun same => string.writes.run_ok same⟩

/-- A string is read from the groups of its length, a payload and a zero byte. It is the text that the payload
spells, if there is one of that length, and else the payload as it is. If no group is to spare, the same bytes
are written for it just if the payload is not plain UTF-8 of a text of that length with a character outside the
basic plane. -/
theorem writes_back_iff {string : StringData} (success : decode cursor = (.ok string, after)) :
    ∃ groups payload : Bytes, cursor.Consumed (groups ++ payload ++ [0]) after ∧ (0 : UInt8) ∉ payload ∧
      Leb128.decodeUInt32 groups = .ok (string.units, groups.length) ∧
      (∀ text, string = decoded text ↔ Spells string.units payload text) ∧
      ((∀ text, ¬Spells string.units payload text) → string = raw string.units payload) ∧
      (Leb128.Minimal groups →
        ((∀ out, string.write out = (.ok (groups ++ payload ++ [0]).length, out ++ (groups ++ payload ++ [0]))) ↔
          ∀ text, payload = Utf8.encode text → (decoded text).units = string.units →
            ∀ c ∈ text.toList, c.toNat < 0x10000)) := by
  obtain ⟨units, mid, unitsRun, run⟩ := bind_eq_ok.mp success
  obtain ⟨payload, _, payloadRun, run⟩ := bind_eq_ok.mp run
  obtain ⟨rfl, rfl⟩ := pure_eq_ok.mp run
  obtain ⟨groups, counted, spelled⟩ := Decoder.consumed_uleb128 unitsRun
  obtain ⟨passed, free⟩ := consumed_terminated payloadRun
  refine ⟨groups, payload, by rw [List.append_assoc]; exact counted.trans passed, free, ?_, ?_, ?_, fun minimal => ?_⟩
  · rw [units_ofPayload, spelled]
  · rw [units_ofPayload]
    exact fun text => ofPayload_eq_decoded_iff
  · rw [units_ofPayload]
    intro nothing
    exact (ofPayload_cases units payload).elim (fun ⟨text, spells⟩ => absurd spells (nothing text)) And.right
  · rw [units_ofPayload, ← payload_ofPayload_iff free, write_iff, minimal.eq_encodeUInt32 spelled]
    change Except.ok (Leb128.encodeUInt32 (ofPayload units payload).units ++ _ ++ [0]) = _ ↔ _
    rw [units_ofPayload, Except.ok.injEq, List.append_cancel_right_eq, List.append_cancel_left_eq]

/-- A zero character and one outside the basic plane, each in its modified form. -/
theorem writes_back_modified : ∃ string after, string = decoded "\x00😀" ∧
    decode (.ofBytes [3, 0xc0, 0x80, 0xed, 0xa0, 0xbd, 0xed, 0xb8, 0x80, 0, 7]) = (.ok string, after) ∧
      string.write [] = (.ok 10, [3, 0xc0, 0x80, 0xed, 0xa0, 0xbd, 0xed, 0xb8, 0x80, 0]) := by
  let image : Bytes := [3, 0xc0, 0x80, 0xed, 0xa0, 0xbd, 0xed, 0xb8, 0x80, 0, 7]
  have read : (decode (.ofBytes image)).1.toOption = some (decoded "\x00😀") := by decide +kernel
  have position : (decode (.ofBytes image)).2.position = 10 := by decide +kernel
  rcases run : decode (.ofBytes image) with ⟨fault | string, after⟩
  · rw [run] at read
    cases read
  rw [run] at read position
  obtain rfl := Option.some.inj read
  obtain ⟨groups, payload, passed, -, counted, -, -, back⟩ := writes_back_iff run
  have length : (groups ++ payload ++ [0]).length = 10 := by
    have moved := congrArg Cursor.position passed.moved
    rw [position] at moved
    exact (moved.trans (Nat.zero_add _)).symm
  have bytes : groups ++ payload ++ [0] = image.take 10 :=
    (List.prefix_iff_eq_take.mp passed.ahead).trans (by rw [length]; rfl)
  -- A first byte without a high bit is all that the length takes.
  obtain ⟨rfl, rfl⟩ : groups = [3] ∧ payload = [0xc0, 0x80, 0xed, 0xa0, 0xbd, 0xed, 0xb8, 0x80] := by
    rcases groups with _ | ⟨first, others⟩
    · have empty : (Leb128.decodeUInt32 []).toOption = none := by decide +kernel
      rw [counted] at empty
      cases empty
    · obtain ⟨rfl, tail⟩ := List.cons.inj bytes
      have three : Leb128.encodeUInt32 3 = [3] := by decide +kernel
      have single := Leb128.decodeUInt32_encodeUInt32 3 others
      rw [three] at single
      have alone : 1 = others.length + 1 := (Prod.mk.inj (Except.ok.inj (single.symm.trans counted))).2
      obtain rfl : others = [] := List.length_eq_zero_iff.mp (by omega)
      exact ⟨rfl, List.append_cancel_right tail⟩
  refine ⟨_, after, rfl, rfl, (back ⟨⟨3, by decide, by decide +kernel⟩, .inl rfl⟩).mpr (fun text plain => ?_) []⟩
  have invalid : Utf8.decode? [0xc0, 0x80, 0xed, 0xa0, 0xbd, 0xed, 0xb8, 0x80] = none := by decide +kernel
  rw [Utf8.decode?_eq_some_iff.mpr plain] at invalid
  cases invalid

/-- Four bytes of plain UTF-8 are the modified form of no text, yet they are not kept as they are, and what is
written for them are other bytes. -/
theorem supplementary_rewritten : ∃ string after, string = decoded "😀" ∧ Leb128.Minimal [2] ∧
    decode (.ofBytes [2, 0xf0, 0x9f, 0x98, 0x80, 0]) = (.ok string, after) ∧ after.position = 6 ∧
      (∀ text, ModifiedUtf8.encode text ≠ [0xf0, 0x9f, 0x98, 0x80]) ∧
      string.write [] = (.ok 8, [2, 0xed, 0xa0, 0xbd, 0xed, 0xb8, 0x80, 0]) := by
  have read : (decode (.ofBytes [2, 0xf0, 0x9f, 0x98, 0x80, 0])).1.toOption = some (decoded "😀") := by decide +kernel
  have position : (decode (.ofBytes [2, 0xf0, 0x9f, 0x98, 0x80, 0])).2.position = 6 := by decide +kernel
  have encoded : encode (decoded "😀") = .ok [2, 0xed, 0xa0, 0xbd, 0xed, 0xb8, 0x80, 0] := by decide +kernel
  rcases run : decode (.ofBytes [2, 0xf0, 0x9f, 0x98, 0x80, 0]) with ⟨fault | string, after⟩
  · rw [run] at read
    cases read
  rw [run] at read position
  obtain rfl := Option.some.inj read
  refine ⟨_, after, rfl, ⟨⟨2, by decide, by decide +kernel⟩, .inl rfl⟩, rfl, position, fun text same => ?_,
    write_iff.mpr encoded []⟩
  have refused : ModifiedUtf8.decodeUnits? [0xf0, 0x9f, 0x98, 0x80] = none := by decide +kernel
  rw [ModifiedUtf8.decodeUnits?_eq_some_iff.mpr same.symm] at refused
  cases refused

end DexImage.StringData
