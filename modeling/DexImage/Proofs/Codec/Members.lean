import DexImage.Item.ClassData
import DexImage.Proofs.Codec.Ids
/-! # Lists of members decode back

The members of a class are written as differences between their indices. Adding the differences up
again yields the members, whatever the first one is taken from.
-/

namespace DexImage

/-- Where an offset can be written it is the one that sizes reckon with. -/
theorem DataRef.knownOffset_eq {target : PoolKind} {ref : DataRef target} {offset : UInt32}
    (success : ref.offset = .ok offset) : ref.knownOffset = offset := by
  cases ref with
  | absent | placed => exact Except.ok.inj success
  | unplaced => cases success

namespace DefinedField

theorem encodeList_cons (previous index access : UInt32) (rest : List DefinedField) :
    encodeList previous (⟨.of index, access⟩ :: rest) =
      if index < previous then .error (Fault.of (.fieldsOutOfOrder index previous)) else do
        return Leb128.encodeUInt32 (index - previous) ++ Leb128.encodeUInt32 access ++ (← encodeList index rest) := by
  change (do
      if index < previous then throw (Fault.of (.fieldsOutOfOrder index previous))
      return Leb128.encodeUInt32 (index - previous) ++ Leb128.encodeUInt32 access ++ (← encodeList index rest)) = _
  split_ifs <;> rfl

/-- What is written of a list of fields, which is the difference and the access flags of each, adds up to the list and
takes the bytes that are reckoned with. -/
theorem encodeList_eq_ok {previous : UInt32} {entries : List DefinedField} {bytes : Bytes}
    (success : encodeList previous entries = .ok bytes) :
    ∃ pairs, bytes = pairs.flatMap Leb128.encodePair ∧ ofDifferences previous pairs = entries ∧
      pairs.length = entries.length ∧ bytes.length = listSize previous entries := by
  induction entries generalizing previous bytes with
  | nil => exact ⟨[], (Except.ok.inj success).symm, rfl, rfl, by rw [← Except.ok.inj success]; rfl⟩
  | cons entry rest ih =>
    obtain ⟨field, access⟩ := entry
    obtain ⟨index, required, -⟩ := Result.bind_eq_ok.mp success
    obtain rfl := IdRef.eq_of_required required
    rw [encodeList_cons] at success
    split_ifs at success
    obtain ⟨others, inner, same⟩ := Result.map_eq_ok.mp success
    obtain ⟨pairs, rfl, adds, length, size⟩ := ih inner
    have sum : previous + (index - previous) = index := by rw [UInt32.add_comm, UInt32.sub_add_cancel]
    refine ⟨(index - previous, access) :: pairs, same.symm, ?_, congrArg Nat.succ length, ?_⟩
    · rw [ofDifferences, sum, adds]
    · rw [← same, List.length_append, List.length_append, size, Leb128.length_encodeUInt32,
        Leb128.length_encodeUInt32]
      rfl

theorem reads_encodeList {noun : String} {entries : List DefinedField} {bytes : Bytes}
    (success : encodeList 0 entries = .ok bytes) {count : UInt32} (counted : count.toNat = entries.length) :
    Reads (decodeList noun count) bytes entries := by
  obtain ⟨pairs, rfl, adds, length, -⟩ := encodeList_eq_ok success
  rw [decodeList, counted, ← length]
  refine (Reads.collect_self pairs fun pair _ index => ?_).bind_pure (congrArg pure adds)
  exact (Reads.uleb128 pair.1).bind (((Reads.uleb128 pair.2).within _).bind_pure rfl)

/-- Each field takes at least a byte. -/
theorem length_le_encodeList {previous : UInt32} {entries : List DefinedField} {bytes : Bytes}
    (success : encodeList previous entries = .ok bytes) : entries.length ≤ bytes.length := by
  obtain ⟨pairs, rfl, -, length, -⟩ := encodeList_eq_ok success
  rw [← length]
  have two := mul_length_le_flatMap pairs Leb128.two_le_length_encodePair
  omega

end DefinedField

namespace DefinedMethod

theorem encodeList_cons (previous index access : UInt32) (code : DataRef .code) (rest : List DefinedMethod) :
    encodeList previous (⟨.of index, access, code⟩ :: rest) =
      if index < previous then .error (Fault.of (.methodsOutOfOrder index previous)) else do
        let offset ← code.offset
        return Leb128.encodeUInt32 (index - previous) ++ Leb128.encodeUInt32 access ++ Leb128.encodeUInt32 offset
          ++ (← encodeList index rest) := by
  change (do
      if index < previous then throw (Fault.of (.methodsOutOfOrder index previous))
      let offset ← code.offset
      return Leb128.encodeUInt32 (index - previous) ++ Leb128.encodeUInt32 access ++ Leb128.encodeUInt32 offset
        ++ (← encodeList index rest)) = _
  split_ifs <;> rfl

/-- How a method is written: its difference, its access flags and the offset of its code. -/
def tripleBytes (triple : UInt32 × UInt32 × DataRef .code) : Bytes :=
  Leb128.encodeUInt32 triple.1 ++ Leb128.encodeUInt32 triple.2.1 ++ Leb128.encodeUInt32 triple.2.2.knownOffset

/-- What is written of a list of methods adds up to it, and takes the bytes that are reckoned with. -/
theorem encodeList_eq_ok {previous : UInt32} {entries : List DefinedMethod} {bytes : Bytes}
    (success : encodeList previous entries = .ok bytes) :
    ∃ triples, bytes = (triples.map tripleBytes).flatten ∧ ofDifferences previous triples = entries ∧
      triples.length = entries.length ∧ bytes.length = listSize previous entries ∧
      ∀ triple ∈ triples, triple.2.2.offset = .ok triple.2.2.knownOffset := by
  induction entries generalizing previous bytes with
  | nil => exact ⟨[], (Except.ok.inj success).symm, rfl, rfl, by rw [← Except.ok.inj success]; rfl, by simp⟩
  | cons entry rest ih =>
    obtain ⟨method, access, code⟩ := entry
    obtain ⟨index, required, -⟩ := Result.bind_eq_ok.mp success
    obtain rfl := IdRef.eq_of_required required
    rw [encodeList_cons] at success
    split_ifs at success
    obtain ⟨offset, known, success⟩ := Result.bind_eq_ok.mp success
    obtain rfl := DataRef.knownOffset_eq known
    obtain ⟨others, inner, same⟩ := Result.map_eq_ok.mp success
    obtain ⟨triples, rfl, adds, length, size, others⟩ := ih inner
    have sum : previous + (index - previous) = index := by rw [UInt32.add_comm, UInt32.sub_add_cancel]
    refine ⟨(index - previous, access, code) :: triples, same.symm, ?_, congrArg Nat.succ length, ?_,
      List.forall_mem_cons.mpr ⟨known, others⟩⟩
    · rw [ofDifferences, sum, adds]
    · simp only [← same, List.length_append, size, Leb128.length_encodeUInt32]
      rfl

/-- Each method takes at least a byte. -/
theorem length_le_encodeList {previous : UInt32} {entries : List DefinedMethod} {bytes : Bytes}
    (success : encodeList previous entries = .ok bytes) : entries.length ≤ bytes.length := by
  obtain ⟨triples, rfl, -, length, -⟩ := encodeList_eq_ok success
  rw [← length]
  have two := mul_length_le_flatMap triples fun triple => show 2 ≤ (tripleBytes triple).length by
    rw [tripleBytes, List.length_append]
    exact Nat.le_trans (Leb128.two_le_length_encodePair (triple.1, triple.2.1)) (Nat.le_add_right _ _)
  rw [← List.flatMap_def]
  omega

theorem code_of_mem {previous : UInt32} {triples : List (UInt32 × UInt32 × DataRef .code)}
    {triple : UInt32 × UInt32 × DataRef .code} (member : triple ∈ triples) :
    ∃ entry ∈ ofDifferences previous triples, entry.code = triple.2.2 := by
  induction triples generalizing previous with
  | nil => cases member
  | cons first rest ih =>
    rw [ofDifferences]
    rcases List.mem_cons.mp member with rfl | member
    · exact ⟨_, List.mem_cons_self, rfl⟩
    · obtain ⟨entry, listed, same⟩ := @ih (previous + first.1) member
      exact ⟨entry, List.mem_cons_of_mem _ listed, same⟩

end DefinedMethod

/-- Whether the lengths of the lists fit the counts in front of them. -/
structure ClassData.Counted (data : ClassData) : Prop where
  staticFields : data.staticFields.length < UInt32.size
  instanceFields : data.instanceFields.length < UInt32.size
  directMethods : data.directMethods.length < UInt32.size
  virtualMethods : data.virtualMethods.length < UInt32.size

/-- Class data is written as the lengths of its four lists and the lists behind all of them. -/
theorem ClassData.encode_eq_ok {data : ClassData} {bytes : Bytes} : encode data = .ok bytes ↔
    ∃ statics instances direct virtual, DefinedField.encodeList 0 data.staticFields = .ok statics ∧
      DefinedField.encodeList 0 data.instanceFields = .ok instances ∧
      DefinedMethod.encodeList 0 data.directMethods = .ok direct ∧
      DefinedMethod.encodeList 0 data.virtualMethods = .ok virtual ∧
      bytes = Bytes.ofVarCount data.staticFields.length ++ (Bytes.ofVarCount data.instanceFields.length ++
        (Bytes.ofVarCount data.directMethods.length ++ (Bytes.ofVarCount data.virtualMethods.length ++
          (statics ++ (instances ++ (direct ++ virtual)))))) := by
  constructor
  · intro success
    obtain ⟨statics, first, success⟩ := Result.bind_eq_ok.mp success
    obtain ⟨instances, second, success⟩ := Result.bind_eq_ok.mp success
    obtain ⟨direct, third, success⟩ := Result.bind_eq_ok.mp success
    obtain ⟨virtual, fourth, same⟩ := Result.map_eq_ok.mp success
    exact ⟨statics, instances, direct, virtual, first, second, third, fourth, by simp only [← same, List.append_assoc]⟩
  · rintro ⟨statics, instances, direct, virtual, first, second, third, fourth, rfl⟩
    refine Result.bind_eq_ok.mpr ⟨statics, first, Result.bind_eq_ok.mpr ⟨instances, second,
      Result.bind_eq_ok.mpr ⟨direct, third, Result.map_eq_ok.mpr ⟨virtual, fourth, ?_⟩⟩⟩⟩
    simp only [List.append_assoc]

/-- Each member takes at least a byte, so that what is written bounds the counts. -/
theorem ClassData.counted_of_encode {data : ClassData} {bytes : Bytes} (success : encode data = .ok bytes)
    (small : bytes.length < UInt32.size) : data.Counted := by
  obtain ⟨statics, instances, direct, virtual, first, second, third, fourth, rfl⟩ := encode_eq_ok.mp success
  simp only [List.length_append] at small
  have staticFields := DefinedField.length_le_encodeList first
  have instanceFields := DefinedField.length_le_encodeList second
  have directMethods := DefinedMethod.length_le_encodeList third
  have virtualMethods := DefinedMethod.length_le_encodeList fourth
  exact ⟨by omega, by omega, by omega, by omega⟩

end DexImage
