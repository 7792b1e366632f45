import DexImage.Item.ClassData
import DexImage.Item.DebugInfo
import DexImage.Proofs.Codec.Reading
import DexImage.Proofs.Results
/-! # Ids decode back

Entries of id tables, lists of types and of fields, and debug programs are read as what was written
of them.
-/

namespace DexImage

namespace IdRef

variable {target : PoolKind} {ref : IdRef target} {bytes : Bytes}

theorem eq_of_required {index : UInt32} (required : ref.required = .ok index) : ref = .of index := by
  obtain ⟨_ | other⟩ := ref
  · cases required
  · rw [Except.ok.inj required, of]

theorem encodeShort_eq_ok (success : ref.encodeShort = .ok bytes) :
    ∃ index, ref = .of index ∧ index.toNat ≤ 0xffff ∧ bytes = Bytes.ofUInt16 index.toUInt16 := by
  obtain ⟨index, required, success⟩ := Result.bind_eq_ok.mp success
  refine ⟨index, eq_of_required required, ?_⟩
  by_cases large : 0xffff < index
  · have fails : (do if 0xffff < index then throw (Fault.of (.indexTooWide index))
                     return Bytes.ofUInt16 index.toUInt16 : Result Bytes) = .ok bytes := success
    rw [if_pos large] at fails
    cases fails
  · have succeeds : (do if 0xffff < index then throw (Fault.of (.indexTooWide index))
                        return Bytes.ofUInt16 index.toUInt16 : Result Bytes) = .ok bytes := success
    rw [if_neg large] at succeeds
    exact ⟨Nat.not_lt.mp (UInt32.lt_iff_toNat_lt.not.mp large), (Except.ok.inj succeeds).symm⟩

theorem encodeWord_eq_ok (success : ref.encodeWord = .ok bytes) :
    ∃ index, ref = .of index ∧ bytes = Bytes.ofUInt32 index := by
  obtain ⟨index, required, success⟩ := Result.bind_eq_ok.mp success
  exact ⟨index, eq_of_required required, (Except.ok.inj success).symm⟩

theorem reads_encodeShort (success : ref.encodeShort = .ok bytes) : Reads Decoder.shortIndex bytes ref := by
  obtain ⟨index, rfl, small, rfl⟩ := encodeShort_eq_ok success
  have back : index.toUInt16.toUInt32 = index := by
    rw [← UInt32.toNat_inj, UInt16.toNat_toUInt32, UInt32.toNat_toUInt16]
    omega
  exact (Reads.u2 _).bind_pure (by rw [back])

theorem reads_encodeWord (success : ref.encodeWord = .ok bytes) : Reads Decoder.wordIndex bytes ref := by
  obtain ⟨index, rfl, rfl⟩ := encodeWord_eq_ok success
  exact (Reads.u4 index).bind_pure rfl

/-- An optional reference in a fixed-width field, unless it is the one that stands for none. -/
theorem ofRaw_raw (present : ref.index ≠ some noIndex) : ofRaw ref.raw = ref := by
  obtain ⟨_ | index⟩ := ref
  · rfl
  · have differ : index ≠ noIndex := fun same => present (congrArg some same)
    simp [ofRaw, raw, differ, of]

end IdRef

namespace TypeId

theorem reads_encode {type : TypeId} {bytes : Bytes} (success : encode type = .ok bytes) : Reads decode bytes type :=
  (IdRef.reads_encodeWord success).bind_pure rfl

end TypeId

namespace FieldId

theorem reads_encode {field : FieldId} {bytes : Bytes} (success : encode field = .ok bytes) :
    Reads decode bytes field := by
  obtain ⟨definer, first, success⟩ := Result.bind_eq_ok.mp success
  obtain ⟨fieldType, second, success⟩ := Result.bind_eq_ok.mp success
  obtain ⟨name, third, same⟩ := Result.bind_eq_ok.mp success
  obtain rfl := Except.ok.inj same
  rw [List.append_assoc]
  exact (IdRef.reads_encodeShort first).bind ((IdRef.reads_encodeShort second).bind
    ((IdRef.reads_encodeWord third).bind_pure rfl))

end FieldId

namespace MethodId

theorem reads_encode {method : MethodId} {bytes : Bytes} (success : encode method = .ok bytes) :
    Reads decode bytes method := by
  obtain ⟨definer, first, success⟩ := Result.bind_eq_ok.mp success
  obtain ⟨proto, second, success⟩ := Result.bind_eq_ok.mp success
  obtain ⟨name, third, same⟩ := Result.bind_eq_ok.mp success
  obtain rfl := Except.ok.inj same
  rw [List.append_assoc]
  exact (IdRef.reads_encodeShort first).bind ((IdRef.reads_encodeShort second).bind
    ((IdRef.reads_encodeWord third).bind_pure rfl))

end MethodId

namespace TypeList

/-- Whether the length of a list fits the count in front of it. -/
def Counted (list : TypeList) : Prop := list.types.length < UInt32.size

theorem counted_of_encode {list : TypeList} {bytes : Bytes} (success : encode list = .ok bytes)
    (small : bytes.length < UInt32.size) : list.Counted := by
  obtain ⟨others, inner, same⟩ := Result.bind_eq_ok.mp success
  obtain rfl := Except.ok.inj same
  obtain ⟨parts, each, rfl⟩ := encodeAll_eq_ok inner
  have count := length_le_flatten each.flip fun part ref success => by
    obtain ⟨_, -, -, rfl⟩ := IdRef.encodeShort_eq_ok success
    exact Nat.succ_pos 1
  rw [List.length_append] at small
  rw [Counted]
  omega

theorem reads_encode {list : TypeList} {bytes : Bytes} (success : encode list = .ok bytes) (counted : list.Counted) :
    Reads decode bytes list := by
  obtain ⟨others, inner, same⟩ := Result.bind_eq_ok.mp success
  obtain rfl := Except.ok.inj same
  obtain ⟨parts, each, rfl⟩ := encodeAll_eq_ok inner
  refine Reads.count counted fun read count => ?_
  rw [count]
  exact (Reads.collect (each.flip.imp fun _ _ success _ => IdRef.reads_encodeShort success)).bind_pure rfl

end TypeList
end DexImage
