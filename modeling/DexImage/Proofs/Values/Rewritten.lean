import DexImage.Proofs.Codec.Values
import DexImage.Proofs.Codec.Writing
import DexImage.Proofs.References.Uses
/-! # Encoded values are read back

A value is written if all its references are set (`EncodedValue.Resolved`), and otherwise there is a fault for the
first reference that is not. What is written is read as a value that holds the same and is written with the same
widths, block by block (`EncodedValue.WrittenAlike`), whatever widths are remembered in either.
-/

namespace DexImage.EncodedValue

/-- Whether all references in a value are set. -/
def Resolved (value : EncodedValue) : Prop := ∀ slot ∈ slots value, slot.index ≠ none

mutual

/-- Whether two values hold the same and are written with the same widths. -/
def WrittenAlike : EncodedValue → EncodedValue → Prop
  | scalar a v, scalar b w => a = b ∧ (scalar a v).width = (scalar b w).width
  | array xs, array ys => WrittenAlikeList xs ys
  | annotationBody a xs, annotationBody b ys => a = b ∧ WrittenAlikeElements xs ys
  | null, null => True
  | boolean a, boolean b => a = b
  | _, _ => False

def WrittenAlikeList : List EncodedValue → List EncodedValue → Prop
  | [], [] => True
  | x :: xs, y :: ys => x.WrittenAlike y ∧ WrittenAlikeList xs ys
  | _, _ => False

def WrittenAlikeElements :
    List (IdRef .stringId × EncodedValue) → List (IdRef .stringId × EncodedValue) → Prop
  | [], [] => True
  | (m, x) :: xs, (n, y) :: ys => m = n ∧ x.WrittenAlike y ∧ WrittenAlikeElements xs ys
  | _, _ => False

end

mutual

/-- Values are written alike if they are the same once each remembers the width that it is written with. -/
theorem writtenAlike_iff : (x y : EncodedValue) → x.WrittenAlike y ↔ x.effective = y.effective
  | scalar a v, y => by cases y <;> simp [WrittenAlike, effective]
  | array xs, y => by cases y <;> simp [WrittenAlike, effective, writtenAlikeList_iff xs]
  | annotationBody a xs, y => by cases y <;> simp [WrittenAlike, effective, writtenAlikeElements_iff xs]
  | null, y => by cases y <;> simp [WrittenAlike, effective]
  | boolean a, y => by cases y <;> simp [WrittenAlike, effective]

theorem writtenAlikeList_iff : (xs ys : List EncodedValue) → WrittenAlikeList xs ys ↔
    effectiveList xs = effectiveList ys
  | [], ys => by cases ys <;> simp [WrittenAlikeList, effectiveList]
  | x :: xs, ys => by
    cases ys <;> simp [WrittenAlikeList, effectiveList, writtenAlike_iff x, writtenAlikeList_iff xs]

theorem writtenAlikeElements_iff : (xs ys : List (IdRef .stringId × EncodedValue)) →
    WrittenAlikeElements xs ys ↔ effectiveElements xs = effectiveElements ys
  | [], ys => by cases ys <;> simp [WrittenAlikeElements, effectiveElements]
  | (m, x) :: xs, ys => by
    cases ys <;> simp [WrittenAlikeElements, effectiveElements, writtenAlike_iff x,
      writtenAlikeElements_iff xs, and_assoc]

end

section Demands

variable {α β : Type} {held others : List Held} {result : Result α} {next : α → Result β}

/-- Whether a result is a value if all of some references are set, and otherwise the fault for one that is not. -/
def Demands (held : List Held) (result : Result α) : Prop :=
  (∃ value, result = .ok value) ∧ (∀ one ∈ held, one.index ≠ none) ∨
    result = .error (Fault.of .targetMissing) ∧ ∃ one ∈ held, one.index = none

theorem Demands.pure (value : α) : Demands [] (Pure.pure value : Result α) := .inl ⟨⟨value, rfl⟩, nofun⟩

theorem Demands.bind (first : Demands held result) (rest : ∀ value, Demands others (next value)) :
    Demands (held ++ others) (result >>= next) := by
  rcases first with ⟨⟨value, rfl⟩, set⟩ | ⟨rfl, one, member, unset⟩
  · rcases rest value with ⟨more, set'⟩ | ⟨fault, one, member, unset⟩
    · exact .inl ⟨more, List.forall_mem_append.mpr ⟨set, set'⟩⟩
    · exact .inr ⟨fault, one, List.mem_append_right _ member, unset⟩
  · exact .inr ⟨rfl, one, List.mem_append_left _ member, unset⟩

/-- What is made of a result demands what the result does. -/
theorem Demands.map (first : Demands held result) (edit : α → β) :
    Demands held (result >>= fun value => Pure.pure (edit value)) := by
  have whole := first.bind fun value => .pure (edit value)
  rwa [List.append_nil] at whole

theorem demands_required {target : PoolKind} (ref : IdRef target) :
    Demands [.id target .unmarked ref.index] ref.required := by
  obtain ⟨_ | index⟩ := ref
  · exact .inr ⟨rfl, _, List.mem_singleton_self _, rfl⟩
  · exact .inl ⟨⟨index, rfl⟩, by simp [Held.index]⟩

theorem demands_checkReference (value : Scalar) : Demands value.held value.checkReference := by
  cases value with
  | methodType ref | string ref | type ref | field ref | method ref | enum ref => exact (demands_required ref).map _
  | _ => exact .pure ()

end Demands

mutual

/-- Writing demands that the references in a value are set, and nothing else. -/
theorem demands_encode : (value : EncodedValue) → Demands value.held value.encode
  | scalar value _ => (demands_checkReference value).map _
  | array elements => (demands_encodeList elements).map _
  | annotationBody type elements => (demands_required type).bind fun _ => (demands_encodeElements elements).map _
  | null => .pure _
  | boolean _ => .pure _

theorem demands_encodeList : (values : List EncodedValue) → Demands (heldList values) (encodeList values)
  | [] => .pure _
  | value :: rest => (demands_encode value).bind fun _ => (demands_encodeList rest).map _

theorem demands_encodeElements : (elements : List (IdRef .stringId × EncodedValue)) →
    Demands (heldElements elements) (encodeElements elements)
  | [] => .pure _
  | (name, value) :: rest =>
    (demands_required name).bind fun _ => (demands_encode value).bind fun _ => (demands_encodeElements rest).map _

end

theorem resolved_iff (value : EncodedValue) : value.Resolved ↔ ∀ one ∈ value.held, one.index ≠ none := by
  simp [Resolved, slots_eq, Held.slot]

theorem exists_encode_of_resolved {value : EncodedValue} (resolved : value.Resolved) :
    ∃ bytes, value.encode = .ok bytes := by
  rcases demands_encode value with ⟨success, -⟩ | ⟨-, one, member, unset⟩
  · exact success
  · exact absurd unset ((resolved_iff value).mp resolved one member)

theorem encode_of_not_resolved {value : EncodedValue} (unresolved : ¬value.Resolved) :
    value.encode = .error (Fault.of .targetMissing) := by
  rcases demands_encode value with ⟨-, set⟩ | ⟨fault, -⟩
  · exact absurd ((resolved_iff value).mpr set) unresolved
  · exact fault

mutual

/-- A value is written with the widths that it is written with when it remembers these. -/
theorem encode_effective : (value : EncodedValue) → value.effective.encode = value.encode
  | scalar value width => by
    have same : (scalar value (scalar value width).width).width = (scalar value width).width :=
      (EncodedValue.scalar.inj (effective_effective (scalar value width))).2
    rw [effective, encode, encode, same]
  | array elements => by rw [effective, encode, encode, length_effectiveList, encodeList_effectiveList elements]
  | annotationBody type elements => by
    rw [effective, encode, encode, length_effectiveElements, encodeElements_effectiveElements elements]
  | null => rfl
  | boolean _ => rfl

theorem encodeList_effectiveList : (values : List EncodedValue) → encodeList (effectiveList values) = encodeList values
  | [] => rfl
  | value :: rest => by
    rw [effectiveList, encodeList, encodeList, encode_effective value, encodeList_effectiveList rest]

theorem encodeElements_effectiveElements : (elements : List (IdRef .stringId × EncodedValue)) →
    encodeElements (effectiveElements elements) = encodeElements elements
  | [] => rfl
  | (name, value) :: rest => by
    rw [effectiveElements, encodeElements, encodeElements, encode_effective value,
      encodeElements_effectiveElements rest]

end

theorem write_eq_ok {value : EncodedValue} {bytes : Bytes} (success : value.encode = .ok bytes) (out : Bytes) :
    value.write out = (.ok bytes.length, out ++ bytes) :=
  (writes value).run_ok success out

theorem write_eq_error {value : EncodedValue} {fault : Fault} (failure : value.encode = .error fault) (out : Bytes) :
    ∃ after, value.write out = (.error fault, after) :=
  (writes value).run_error failure out

theorem encode_of_write {value : EncodedValue} {bytes : Bytes} (written : value.write [] = (.ok bytes.length, bytes)) :
    value.encode = .ok bytes :=
  (writes value).encoded_of_run (written : value.write [] = (.ok bytes.length, [] ++ bytes))

/-- A value whose references are all set, and none of whose lists is too long for its count, is written as bytes from
which, whatever follows them, a value is read that is alike, and that is written as the same bytes. A value with a
reference that is not set is not written. -/
theorem decode_write (value : EncodedValue) :
    (value.Resolved → value.Counted → ∃ bytes back, (∀ out, value.write out = (.ok bytes.length, out ++ bytes)) ∧
      Reads decode bytes back ∧ back.WrittenAlike value ∧ ∀ out, back.write out = (.ok bytes.length, out ++ bytes)) ∧
    (¬value.Resolved → ∀ out, ∃ fault after, value.write out = (.error fault, after) ∧
      fault.kind = .unresolvedReference) := by
  refine ⟨fun resolved counted => ?_, fun unresolved out => ?_⟩
  · obtain ⟨bytes, success⟩ := exists_encode_of_resolved resolved
    refine ⟨bytes, value.effective, write_eq_ok success, (decodes_encode value success counted).reads, ?_, ?_⟩
    · rw [writtenAlike_iff, effective_effective]
    · exact write_eq_ok ((encode_effective value).trans success)
  · obtain ⟨after, failure⟩ := write_eq_error (encode_of_not_resolved unresolved) out
    exact ⟨_, after, failure, rfl⟩

/-- A number whose width is too wide for an int, and a string whose index has outgrown its width. -/
theorem decode_write_nested : ∃ value : EncodedValue,
    value = array [scalar (.int 5) 9, annotationBody (.of 3) [(.of 1, scalar (.string (.of 300)) 1)], boolean true] ∧
      ∃ bytes back, (∀ out, value.write out = (.ok bytes.length, out ++ bytes)) ∧ Reads decode bytes back ∧
        back.WrittenAlike value ∧ ∀ out, back.write out = (.ok bytes.length, out ++ bytes) := by
  refine ⟨_, rfl, (decode_write _).1 ?_ ?_⟩
  · unfold Resolved
    decide
  · simp [Counted, CountedList, CountedElements, UInt32.size]

end DexImage.EncodedValue
