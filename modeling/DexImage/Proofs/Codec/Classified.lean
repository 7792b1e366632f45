import DexImage.Proofs.Codec.Reading
/-! # What bytes a variable-length integer is decoded from

The high bit of a byte says that another group follows. Decoding with a limit ends with the first byte among as
many as the limit whose high bit is clear (`lastGroup?`), whatever follows it. If there is none, the bytes are
refused: as too long if they are as many as the limit, and as cut off if they are fewer (`refusal`). Every
decoder is `Classified`, since what it makes of the number that is spelled cannot fail, and a reader moves over
just the bytes that are decoded (`Decoder.Advances`).
-/

namespace DexImage

namespace Leb128

/-- Where the first byte with a clear high bit is, among as many as the limit. -/
def lastGroup? (limit : Nat) (bytes : List UInt8) : Option Nat :=
  (bytes.take limit).findIdx? fun byte => byte &&& 0x80 == 0

/-- Why bytes are refused if each of them, up to the limit, says that another one follows. -/
def refusal (limit : Nat) (bytes : List UInt8) : GroupsFault :=
  if limit ≤ bytes.length then .tooLong limit else .cut bytes.length

/-- Whether a decoder with a limit succeeds with the first byte that has a clear high bit, taking the bytes up
to this one and looking at no others, and refuses all other bytes. -/
structure Classified {α : Type} (limit : Nat) (decode : List UInt8 → Except GroupsFault (α × Nat)) : Prop where
  ends : ∀ bytes place, lastGroup? limit bytes = some place →
    ∃ value, ∀ other, other.take (place + 1) = bytes.take (place + 1) → decode other = .ok (value, place + 1)
  refused : ∀ bytes, lastGroup? limit bytes = none → decode bytes = .error (refusal limit bytes)

variable {limit taken place : Nat} {bytes front : List UInt8} {last : UInt8}

/-! ## Groups -/

theorem high_clear_iff (byte : UInt8) : (byte &&& 0x80 == 0) = true ↔ byte < 128 := by
  have all : ∀ number : Fin 256, (UInt8.ofFin number &&& 0x80 == 0) = true ↔ UInt8.ofFin number < 128 := by
    decide +kernel
  exact all byte.toFin

theorem lastGroup?_eq_none : lastGroup? limit bytes = none ↔ ∀ byte ∈ bytes.take limit, ¬byte < 128 := by
  simp only [lastGroup?, List.findIdx?_eq_none_iff, ← high_clear_iff, Bool.not_eq_true]

theorem lastGroup?_eq_some (found : lastGroup? limit bytes = some place) :
    place < limit ∧ ∃ front, ∃ last < 128, bytes.take (place + 1) = front ++ [last] ∧ front.length = place ∧
      ∀ byte ∈ front, ¬byte < 128 := by
  obtain ⟨inside, clear, before⟩ := List.findIdx?_eq_some_iff_getElem.mp found
  rw [List.length_take, Nat.lt_min] at inside
  rw [List.getElem_take, high_clear_iff] at clear
  refine ⟨inside.1, bytes.take place, bytes[place], clear, List.take_succ_eq_append_getElem inside.2,
    List.length_take_of_le (Nat.le_of_lt inside.2), fun byte member => ?_⟩
  obtain ⟨earlier, early, rfl⟩ := List.mem_iff_getElem.mp member
  rw [List.length_take, Nat.lt_min] at early
  have set := before earlier early.1
  rwa [List.getElem_take, high_clear_iff, ← List.getElem_take] at set

theorem refusal_take (limit : Nat) (bytes : List UInt8) : refusal limit (bytes.take limit) = refusal limit bytes := by
  rw [refusal, refusal, List.length_take]
  by_cases full : limit ≤ bytes.length
  · rw [if_pos full, if_pos (Nat.le_min.mpr ⟨Nat.le_refl _, full⟩)]
  · rw [if_neg full, if_neg (fun least => full (Nat.le_min.mp least).2), Nat.min_eq_right (Nat.le_of_not_le full)]

/-- Bytes that all say that another one follows, and one that does not, are decoded, whatever follows. -/
theorem decodeGroups_ends (follow : ∀ byte ∈ front, ¬byte < 128)
    (small : last < 128) (room : taken + front.length < limit) :
    ∃ n, ∀ rest, decodeGroups limit taken (front ++ last :: rest) = .ok (n, taken + front.length + 1) := by
  -- A byte more is taken with each step, and one less is in front: their sum stays below the limit.
  induction front generalizing taken with
  | nil =>
    refine ⟨last.toNat, fun rest => ?_⟩
    rw [List.nil_append, decodeGroups, if_neg (show ¬limit ≤ taken from Nat.not_le.mpr room)]
    exact if_pos small
  | cons byte front ih =>
    obtain ⟨set, follow⟩ := List.forall_mem_cons.mp follow
    rw [List.length_cons] at room
    obtain ⟨high, others⟩ := ih follow (show taken + 1 + front.length < limit by omega)
    refine ⟨byte.toNat - 128 + 128 * high, fun rest => ?_⟩
    rw [List.cons_append, decodeGroups, if_neg (show ¬limit ≤ taken by omega)]
    simp only [if_neg set, others rest, List.length_cons]
    rw [Nat.add_right_comm taken 1]
    rfl

/-- Bytes that all say that another one follows, up to the limit, are refused. -/
theorem decodeGroups_refused (follow : ∀ byte ∈ bytes.take (limit - taken), ¬byte < 128) :
    decodeGroups limit taken bytes =
      .error (if limit ≤ taken + bytes.length then .tooLong limit else .cut (taken + bytes.length)) := by
  induction bytes generalizing taken with
  | nil =>
    rw [decodeGroups, List.length_nil, Nat.add_zero]
    split_ifs <;> rfl
  | cons byte bytes ih =>
    rw [decodeGroups, List.length_cons]
    by_cases full : limit ≤ taken
    · rw [if_pos full, if_pos (Nat.le_add_right_of_le full)]
    · have room : limit - taken = limit - (taken + 1) + 1 := by omega
      rw [room, List.take_succ_cons] at follow
      obtain ⟨set, follow⟩ := List.forall_mem_cons.mp follow
      rw [if_neg full]
      simp only [if_neg set, ih follow]
      rw [Nat.add_right_comm taken 1, Nat.add_assoc taken]

theorem classified_decodeGroups (limit : Nat) : Classified limit (decodeGroups limit 0) where
  ends bytes place found := by
    obtain ⟨room, front, last, small, split, rfl, follow⟩ := lastGroup?_eq_some found
    obtain ⟨n, decoded⟩ := decodeGroups_ends follow small (show 0 + front.length < limit by omega)
    refine ⟨n, fun other same => ?_⟩
    have split : other = front ++ last :: other.drop (front.length + 1) := by
      conv_lhs => rw [← List.take_append_drop (front.length + 1) other, same, split]
      rw [List.append_assoc, List.singleton_append]
    rw [split, decoded, Nat.zero_add]
  refused bytes none := by
    rw [decodeGroups_refused (by rw [Nat.sub_zero]; exact lastGroup?_eq_none.mp none), Nat.zero_add, refusal]

/-! ## Decoders -/

namespace Classified

variable {α β : Type} {decode : List UInt8 → Except GroupsFault (α × Nat)}

/-- What is made of a value and of the count of its bytes cannot fail. -/
protected theorem map (classified : Classified limit decode) (make : α → Nat → β) :
    Classified limit fun bytes => decode bytes >>= fun found => pure (make found.1 found.2, found.2) where
  ends bytes place found := by
    obtain ⟨value, decoded⟩ := classified.ends bytes place found
    exact ⟨make value (place + 1), fun other same => by rw [decoded other same]; rfl⟩
  refused bytes none := by rw [classified.refused bytes none]; rfl

/-- No more bytes than the limit are looked at. -/
theorem decode_take (classified : Classified limit decode) (bytes : List UInt8) :
    decode (bytes.take limit) = decode bytes := by
  have same : lastGroup? limit (bytes.take limit) = lastGroup? limit bytes := by
    rw [lastGroup?, List.take_take, Nat.min_self, lastGroup?]
  rcases found : lastGroup? limit bytes with _ | place
  · rw [classified.refused _ found, classified.refused _ (same.trans found), refusal_take]
  · obtain ⟨room, -⟩ := lastGroup?_eq_some found
    obtain ⟨value, decoded⟩ := classified.ends bytes place found
    rw [decoded bytes rfl, decoded _ (by rw [List.take_take, Nat.min_eq_left room])]

end Classified

theorem classified_uint32 : Classified maxLength32 decodeUInt32 :=
  (classified_decodeGroups maxLength32).map fun n _ => n.toUInt32

theorem classified_uint64 : Classified maxLength64 decodeUInt64 :=
  (classified_decodeGroups maxLength64).map fun n _ => n.toUInt64

theorem classified_int32 : Classified maxLength32 decodeInt32 :=
  (classified_decodeGroups maxLength32).map fun n length => Int32.ofInt (Int.bmod n (1 <<< min 32 (7 * length)))

theorem classified_plusOne : Classified maxLength32 decodePlusOne :=
  classified_uint32.map fun higher _ => higher.toInt32 - 1

end Leb128

namespace Decoder

open Leb128

/-- Whether a reader moves over just the bytes that a decoder takes, and stays where it is if the decoder
refuses them. -/
structure Advances {α : Type} (form : String) (decode : List UInt8 → Except GroupsFault (α × Nat))
    (step : Decoder α) : Prop where
  takes : ∀ cursor value length, decode cursor.rest = .ok (value, length) →
    step cursor = (.ok value, cursor.advance length)
  stays : ∀ cursor fault, decode cursor.rest = .error fault →
    step cursor = (.error ((Fault.of (.ofGroups fault)).within (.varint form cursor.position)), cursor)

theorem advances_varint {α : Type} {limit : Nat} {decode : List UInt8 → Except GroupsFault (α × Nat)}
    (classified : Classified limit decode) (form : String) : Advances form decode (varint form limit decode) := by
  have window (cursor : Cursor) : decode (cursor.window limit) = decode cursor.rest := by
    rw [Cursor.window_eq, classified.decode_take]
  constructor
  · intro cursor value length decoded
    rw [varint, Reading.bind_ok (get_run cursor)]
    simp only [window, decoded]
    rfl
  · intro cursor fault refused
    rw [varint, Reading.bind_ok (get_run cursor)]
    simp only [window, refused]
    rfl

end Decoder

namespace Leb128

/-- Any bytes are decoded up to the first byte, among five or, for 64 bits, ten, whose high bit is clear,
whatever follows it; or they are refused, as malformed if they are as many as that and as truncated if they are
fewer. The readers move over just the bytes that are decoded, and stay where they are if the bytes are
refused. -/
theorem decoders_classified :
    Classified 5 decodeUInt32 ∧ Classified 5 decodeInt32 ∧ Classified 5 decodePlusOne ∧ Classified 10 decodeUInt64 ∧
      (∀ limit bytes path, (⟨.ofGroups (refusal limit bytes), path⟩ : Fault).kind =
        if limit ≤ bytes.length then .malformedVarint else .truncatedInput) ∧
      Decoder.Advances "uleb128" decodeUInt32 Decoder.uleb128 ∧ Decoder.Advances "sleb128" decodeInt32 Decoder.sleb128 ∧
      Decoder.Advances "uleb128p1" decodePlusOne Decoder.uleb128p1 := by
  refine ⟨classified_uint32, classified_int32, classified_plusOne, classified_uint64, fun limit bytes path => ?_,
    Decoder.advances_varint classified_uint32 _, Decoder.advances_varint classified_int32 _,
    Decoder.advances_varint classified_plusOne _⟩
  rw [refusal]
  split_ifs <;> rfl

/-- Five bytes that all say that another one follows are malformed, four are truncated; in front of a last byte
the same four are decoded. -/
example : decodeUInt32 [0x80, 0x80, 0x80, 0x80, 0x80, 0x01] = .error (.tooLong 5) ∧
    decodeUInt32 [0x80, 0x80, 0x80, 0x80] = .error (.cut 4) ∧
    decodeUInt32 [0x80, 0x80, 0x80, 0x80, 0x01] = .ok (0x10000000, 5) := by
  refine ⟨?_, ?_, ?_⟩ <;> cbv

end Leb128
end DexImage
