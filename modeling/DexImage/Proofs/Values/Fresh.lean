import DexImage.Proofs.Rereading.Decoding
import DexImage.Proofs.Values.Rewritten
import Mathlib.Order.Bounds.Defs
/-! # Fresh scalars are as narrow as they can be

A scalar that is made anew remembers the least width for what it holds. The payloads that spell a scalar are those of
the widths from the least one up to the widest of the kind: to narrower ones the scalar cannot be cut, since what is
read from a payload never needs more bytes than the payload has.
-/

namespace DexImage.EncodedValue

/-- Whether some payload of a width, behind the descriptor byte that tells the kind and the width, is read as a
scalar. -/
def HasPayload (value : Scalar) (width : Nat) : Prop :=
  ∃ payload : Bytes, payload.length = width ∧
    Reads decode (descriptor value.kind (width - 1) :: payload) (scalar value width)

theorem checkReference_of_resolved {value : Scalar} {width : Nat} (resolved : (scalar value width).Resolved) :
    value.checkReference = .ok () := by
  rcases demands_checkReference value with ⟨⟨_, present⟩, -⟩ | ⟨-, one, member, unset⟩
  · exact present
  · exact absurd unset ((resolved_iff _).mp resolved one member)

/-- Wherever a scalar is read from, the payload has the bytes that it needs, and no more than its kind allows. -/
theorem width_of_decode {cursor after : Cursor} {value : Scalar} {width : Nat}
    (read : decode cursor = (.ok (scalar value width), after)) :
    value.leastWidth ≤ width ∧ width ≤ value.kind.maxWidth := by
  have settled := (gives_decode.holds _ _ _ read).settled
  rw [effective, scalar.injEq] at settled
  obtain ⟨least, within, -⟩ := width_scalar_spec value width
  rw [settled.2] at least within
  exact ⟨least, within⟩

theorem hasPayload_iff {value : Scalar} {width : Nat} (present : value.checkReference = .ok ()) :
    HasPayload value width ↔ value.leastWidth ≤ width ∧ width ≤ value.kind.maxWidth := by
  constructor
  · rintro ⟨payload, -, reads⟩
    exact width_of_decode (reads (.ofBytes _) ⟨rfl, Nat.zero_le _, List.prefix_rfl⟩)
  · rintro ⟨least, within⟩
    have same : (scalar value width).width = width := by
      rw [EncodedValue.width, Nat.max_eq_left least, Nat.min_eq_left within]
    have decodes := @decodes_scalar value width present
    rw [same] at decodes
    exact ⟨value.payload width, length_payload value width, decodes.reads⟩

theorem width_ofScalar (value : Scalar) : (ofScalar value).width = value.leastWidth := by
  rw [ofScalar, EncodedValue.width, Nat.max_self, Nat.min_eq_left value.leastWidth_le_maxWidth]

/-- A fresh scalar, if it is no absent reference, is written with the least of the widths that its kind allows and in
which some payload is read as the scalar; nor is the scalar read from a narrower payload anywhere. -/
theorem isLeast_width_ofScalar (value : Scalar) (resolved : (ofScalar value).Resolved) :
    IsLeast {width | 1 ≤ width ∧ width ≤ value.kind.maxWidth ∧ HasPayload value width} (ofScalar value).width ∧
      ∀ cursor width after, decode cursor = (.ok (scalar value width), after) → (ofScalar value).width ≤ width := by
  have present := checkReference_of_resolved resolved
  rw [width_ofScalar]
  refine ⟨⟨⟨value.leastWidth_pos, value.leastWidth_le_maxWidth, ?_⟩, ?_⟩, ?_⟩
  · exact (hasPayload_iff present).mpr ⟨Nat.le_refl _, value.leastWidth_le_maxWidth⟩
  · rintro width ⟨-, -, payload⟩
    exact ((hasPayload_iff present).mp payload).1
  · intro cursor width after read
    exact (width_of_decode read).1

/-- A reference whose index just exceeds two bytes. -/
theorem isLeast_width_ofScalar_enum : ∃ value : Scalar, value = .enum (.of 65536) ∧ (ofScalar value).Resolved ∧
    IsLeast {width | 1 ≤ width ∧ width ≤ value.kind.maxWidth ∧ HasPayload value width} 3 := by
  have resolved : (ofScalar (.enum (.of 65536))).Resolved := by
    unfold Resolved
    decide
  exact ⟨_, rfl, resolved, (isLeast_width_ofScalar (.enum (.of 65536)) resolved).1⟩

/-- Where the sign bit is needed a number takes another byte. -/
example : (ofScalar (.short 127)).width = 1 ∧ (ofScalar (.short 128)).width = 2 ∧
    (ofScalar (.short (-128))).width = 1 ∧ (ofScalar (.short (-129))).width = 2 := by decide

end DexImage.EncodedValue
