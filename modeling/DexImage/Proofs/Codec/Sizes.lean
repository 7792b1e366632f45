import DexImage.Item.Family
import DexImage.Proofs.Codec.Members
import DexImage.Proofs.Codec.Programs
import DexImage.Proofs.Codec.TryTables
import DexImage.Proofs.Codec.Values
/-! # Sizes tell the truth

An item that can be written takes as many bytes as its size says (`length_encode`), and at least one. What is written
of an item that refers to others is what is written of its fields, one behind the other (`ClassDef.encode_eq_ok`).
-/

namespace DexImage

namespace EncodedValue

mutual

theorem length_encode : (value : EncodedValue) → {bytes : Bytes} → value.encode = .ok bytes →
    bytes.length = value.encodedSize
  | scalar value width, bytes, success => by
    rw [encode] at success
    obtain ⟨_, _, same⟩ := Result.map_eq_ok.mp success
    rw [← same, List.length_cons, length_payload, EncodedValue.encodedSize, Nat.add_comm] <;> simp
  | array elements, bytes, success => by
    rw [encode] at success
    obtain ⟨others, inner, same⟩ := Result.map_eq_ok.mp success
    rw [← same, List.length_append, List.length_cons, length_encodeList elements inner, EncodedValue.encodedSize,
      Bytes.ofVarCount, Leb128.length_encodeUInt32, Bytes.varCountLength, Nat.add_comm 1]
  | annotationBody type elements, bytes, success => by
    rw [encode] at success
    obtain ⟨index, required, success⟩ := Result.bind_eq_ok.mp success
    obtain rfl := IdRef.eq_of_required required
    obtain ⟨others, inner, same⟩ := Result.map_eq_ok.mp success
    rw [← same, List.length_append, List.length_append, List.length_cons, length_encodeElements elements inner,
      EncodedValue.encodedSize, Bytes.ofVarCount, Leb128.length_encodeUInt32, Leb128.length_encodeUInt32,
      Bytes.varCountLength, Nat.add_comm 1]
    rfl
  | null, bytes, success => by
    obtain rfl := Except.ok.inj success
    rfl
  | boolean value, bytes, success => by
    obtain rfl := Except.ok.inj success
    rfl

theorem length_encodeList : (values : List EncodedValue) → {bytes : Bytes} → encodeList values = .ok bytes →
    bytes.length = sizeOfList values
  | [], bytes, success => by
    obtain rfl := Except.ok.inj success
    rfl
  | value :: rest, bytes, success => by
    rw [encodeList] at success
    obtain ⟨first, head, success⟩ := Result.bind_eq_ok.mp success
    obtain ⟨others, tail, same⟩ := Result.map_eq_ok.mp success
    rw [← same, List.length_append, length_encode value head, length_encodeList rest tail, sizeOfList]

theorem length_encodeElements : (elements : List (IdRef .stringId × EncodedValue)) → {bytes : Bytes} →
    encodeElements elements = .ok bytes → bytes.length = sizeOfElements elements
  | [], bytes, success => by
    obtain rfl := Except.ok.inj success
    rfl
  | (name, value) :: rest, bytes, success => by
    rw [encodeElements] at success
    obtain ⟨index, required, success⟩ := Result.bind_eq_ok.mp success
    obtain ⟨first, head, success⟩ := Result.bind_eq_ok.mp success
    obtain ⟨others, tail, same⟩ := Result.map_eq_ok.mp success
    obtain rfl := IdRef.eq_of_required required
    rw [← same, List.length_append, List.length_append, length_encode value head,
      length_encodeElements rest tail, sizeOfElements, Leb128.length_encodeUInt32]
    rfl

end

end EncodedValue

/-- The sizes of the members of a list add up to the size of what is written of them. -/
theorem length_encodeAll {α : Type} {encodeOne : α → Result Bytes} (size : α → Nat) {items : List α}
    {bytes : Bytes} (success : encodeAll encodeOne items = .ok bytes)
    (each : ∀ item part, encodeOne item = .ok part → part.length = size item) :
    bytes.length = total size items := by
  obtain ⟨parts, encoded, rfl⟩ := encodeAll_eq_ok success
  clear success
  induction encoded with
  | nil => rfl
  | cons head _ ih => rw [List.flatten_cons, List.length_append, each _ _ head, ih, total_cons]

theorem total_const {α : Type} (size : Nat) (items : List α) : total (fun _ => size) items = size * items.length := by
  induction items with
  | nil => rfl
  | cons _ rest ih => rw [total_cons, ih, List.length_cons, Nat.mul_succ, Nat.add_comm]

section References

variable {target : PoolKind}

theorem IdRef.length_encodeShort {ref : IdRef target} {bytes : Bytes} (success : ref.encodeShort = .ok bytes) :
    bytes.length = 2 := by
  obtain ⟨_, -, -, rfl⟩ := encodeShort_eq_ok success
  rfl

theorem IdRef.length_encodeWord {ref : IdRef target} {bytes : Bytes} (success : ref.encodeWord = .ok bytes) :
    bytes.length = 4 := by
  obtain ⟨_, -, rfl⟩ := encodeWord_eq_ok success
  rfl

theorem DataRef.encodeWord_eq_ok {ref : DataRef target} {bytes : Bytes} (success : ref.encodeWord = .ok bytes) :
    ref.offset = .ok ref.knownOffset ∧ bytes = Bytes.ofUInt32 ref.knownOffset := by
  obtain ⟨offset, known, same⟩ := Result.map_eq_ok.mp success
  obtain rfl := knownOffset_eq known
  exact ⟨known, same.symm⟩

theorem DataRef.length_encodeWord {ref : DataRef target} {bytes : Bytes} (success : ref.encodeWord = .ok bytes) :
    bytes.length = 4 := by
  obtain ⟨-, rfl⟩ := encodeWord_eq_ok success
  rfl

theorem encodeOffsets_eq_ok {refs : List (DataRef target)} {bytes : Bytes} (success : encodeOffsets refs = .ok bytes) :
    ∃ parts, List.Forall₂ (fun ref part => DataRef.encodeWord ref = .ok part) refs parts ∧
      bytes = Bytes.ofCount refs.length ++ parts.flatten := by
  obtain ⟨others, inner, same⟩ := Result.map_eq_ok.mp success
  obtain ⟨parts, each, rfl⟩ := encodeAll_eq_ok inner
  exact ⟨parts, each, same.symm⟩

theorem length_encodeOffsets {refs : List (DataRef target)} {bytes : Bytes}
    (success : encodeOffsets refs = .ok bytes) : bytes.length = 4 + 4 * refs.length := by
  obtain ⟨others, inner, same⟩ := Result.map_eq_ok.mp success
  rw [← same, List.length_append, length_encodeAll (fun _ => 4) inner fun _ _ => DataRef.length_encodeWord,
    total_const]
  rfl

end References

namespace AnnotatedMember

variable {member target : PoolKind} {bytes : Bytes}

theorem encode_eq_ok {entry : AnnotatedMember member target} (success : entry.encode = .ok bytes) :
    ∃ first second, entry.member.encodeWord = .ok first ∧ entry.annotations.encodeWord = .ok second ∧
      bytes = first ++ second := by
  obtain ⟨first, head, success⟩ := Result.bind_eq_ok.mp success
  obtain ⟨second, tail, same⟩ := Result.map_eq_ok.mp success
  exact ⟨first, second, head, tail, same.symm⟩

theorem length_encode {entry : AnnotatedMember member target} (success : entry.encode = .ok bytes) :
    bytes.length = 8 := by
  obtain ⟨first, second, head, tail, rfl⟩ := encode_eq_ok success
  rw [List.length_append, IdRef.length_encodeWord head, DataRef.length_encodeWord tail]

theorem length_encodeAll {entries : List (AnnotatedMember member target)}
    (success : encodeAll encode entries = .ok bytes) :
    bytes.length = 8 * entries.length := by
  rw [DexImage.length_encodeAll (fun _ => 8) success fun _ _ => length_encode, total_const]

end AnnotatedMember

theorem ProtoId.encode_eq_ok {proto : ProtoId} {bytes : Bytes} (success : encode proto = .ok bytes) :
    ∃ shorty returnType parameters, proto.shorty.encodeWord = .ok shorty ∧
    proto.returnType.encodeWord = .ok returnType ∧
      proto.parameters.encodeWord = .ok parameters ∧ bytes = shorty ++ (returnType ++ parameters) := by
  obtain ⟨shorty, first, success⟩ := Result.bind_eq_ok.mp success
  obtain ⟨returnType, second, success⟩ := Result.bind_eq_ok.mp success
  obtain ⟨parameters, third, same⟩ := Result.map_eq_ok.mp success
  exact ⟨shorty, returnType, parameters, first, second, third, by rw [← same, List.append_assoc]⟩

theorem ClassDef.encode_eq_ok {definition : ClassDef} {bytes : Bytes} (success : encode definition = .ok bytes) :
    ∃ type interfaces annotations classData staticValues, definition.type.encodeWord = .ok type ∧
      definition.interfaces.encodeWord = .ok interfaces ∧ definition.annotations.encodeWord = .ok annotations ∧
      definition.classData.encodeWord = .ok classData ∧ definition.staticValues.encodeWord = .ok staticValues ∧
      bytes = type ++ (Bytes.ofUInt32 definition.access ++ (Bytes.ofUInt32 definition.superclass.raw ++ (interfaces ++
        (Bytes.ofUInt32 definition.sourceFile.raw ++ (annotations ++ (classData ++ staticValues)))))) := by
  obtain ⟨type, first, success⟩ := Result.bind_eq_ok.mp success
  obtain ⟨interfaces, second, success⟩ := Result.bind_eq_ok.mp success
  obtain ⟨annotations, third, success⟩ := Result.bind_eq_ok.mp success
  obtain ⟨classData, fourth, success⟩ := Result.bind_eq_ok.mp success
  obtain ⟨staticValues, fifth, same⟩ := Result.map_eq_ok.mp success
  exact ⟨type, interfaces, annotations, classData, staticValues, first, second, third, fourth, fifth,
    by simp only [← same, List.append_assoc]⟩

namespace AnnotationsDirectory

variable {directory : AnnotationsDirectory} {bytes : Bytes}

theorem encode_eq_ok (success : encode directory = .ok bytes) :
    ∃ classSet fields methods parameters, directory.classSet.encodeWord = .ok classSet ∧
      encodeAll AnnotatedMember.encode directory.fields = .ok fields ∧
      encodeAll AnnotatedMember.encode directory.methods = .ok methods ∧
      encodeAll AnnotatedMember.encode directory.parameters = .ok parameters ∧
      bytes = classSet ++ (Bytes.ofCount directory.fields.length ++ (Bytes.ofCount directory.methods.length ++
        (Bytes.ofCount directory.parameters.length ++ (fields ++ (methods ++ parameters))))) := by
  obtain ⟨classSet, first, success⟩ := Result.bind_eq_ok.mp success
  obtain ⟨fields, second, success⟩ := Result.bind_eq_ok.mp success
  obtain ⟨methods, third, success⟩ := Result.bind_eq_ok.mp success
  obtain ⟨parameters, fourth, same⟩ := Result.map_eq_ok.mp success
  exact ⟨classSet, fields, methods, parameters, first, second, third, fourth, by simp only [← same, List.append_assoc]⟩

theorem length_encode (success : encode directory = .ok bytes) : bytes.length = encodedSize directory := by
  obtain ⟨_, _, _, _, classSet, fields, methods, parameters, rfl⟩ := encode_eq_ok success
  simp only [List.length_append, DataRef.length_encodeWord classSet, AnnotatedMember.length_encodeAll fields,
    AnnotatedMember.length_encodeAll methods, AnnotatedMember.length_encodeAll parameters, Bytes.ofCount,
    Bytes.ofUInt32, Bytes.length_littleEndian, encodedSize]
  omega

/-- Whether the lengths of the lists fit the counts in front of them. -/
structure Counted (directory : AnnotationsDirectory) : Prop where
  fields : directory.fields.length < UInt32.size
  methods : directory.methods.length < UInt32.size
  parameters : directory.parameters.length < UInt32.size

theorem counted_of_encode (success : encode directory = .ok bytes) (small : bytes.length < UInt32.size) :
    directory.Counted := by
  rw [length_encode success] at small
  simp only [encodedSize] at small
  exact ⟨by omega, by omega, by omega⟩

end AnnotationsDirectory

theorem ClassData.length_encode {data : ClassData} {bytes : Bytes} (success : encode data = .ok bytes) :
    bytes.length = encodedSize data := by
  obtain ⟨_, _, _, _, staticFields, instanceFields, directMethods, virtualMethods, rfl⟩ := encode_eq_ok.mp success
  obtain ⟨-, -, -, -, staticSize⟩ := DefinedField.encodeList_eq_ok staticFields
  obtain ⟨-, -, -, -, instanceSize⟩ := DefinedField.encodeList_eq_ok instanceFields
  obtain ⟨-, -, -, -, directSize, -⟩ := DefinedMethod.encodeList_eq_ok directMethods
  obtain ⟨-, -, -, -, virtualSize, -⟩ := DefinedMethod.encodeList_eq_ok virtualMethods
  simp only [List.length_append, staticSize, instanceSize, directSize, virtualSize, Bytes.ofVarCount,
    Leb128.length_encodeUInt32, ← Nat.add_assoc]
  rfl

theorem AnnotationItem.length_encode {item : AnnotationItem} {bytes : Bytes} (success : encode item = .ok bytes) :
    bytes.length = encodedSize item := by
  obtain ⟨others, inner, same⟩ := Result.map_eq_ok.mp success
  obtain ⟨index, required, inner⟩ := Result.bind_eq_ok.mp inner
  have type := IdRef.eq_of_required required
  obtain ⟨elements, inner, body⟩ := Result.map_eq_ok.mp inner
  rw [← same, ← body, List.length_cons, List.length_append, List.length_append,
    EncodedValue.length_encodeElements _ inner, Leb128.length_encodeUInt32, Bytes.ofVarCount,
    Leb128.length_encodeUInt32, Nat.add_comm _ 1]
  simp only [encodedSize, type, Bytes.varCountLength]
  rfl

theorem InstructionList.length_encode {list : InstructionList} {bytes : Bytes}
    (success : encode list = .ok bytes) : bytes.length = encodedSize list := by
  simp only [encode] at success
  split_ifs at success
  obtain rfl := Except.ok.inj success
  rw [length_flatMap_eq_total]
  exact total_const 2 list.units

/-- What is written around the try table of a code item. -/
def CodeItem.encodeAround (code : CodeItem) (written : Result Bytes) : Result Bytes := do
  if code.registers < code.ins then
    throw (Fault.of (.insExceedRegisters code.ins code.registers))
  let debugInfo ← code.debugInfo.encodeWord
  let instructions ← encode code.instructions
  let table ← written
  return Bytes.ofUInt16 code.registers ++ Bytes.ofUInt16 code.ins ++ Bytes.ofUInt16 code.outs
    ++ Bytes.ofUInt16 code.triesSize ++ debugInfo ++ Bytes.ofCount code.instructions.length
    ++ instructions ++ (if code.needsPadding then Bytes.ofUInt16 0 else []) ++ table

theorem CodeItem.encode_eq (code : CodeItem) :
    encode code = code.encodeAround ((code.writtenTable?.map encode).getD (pure [])) := by
  rcases written : code.writtenTable? with _ | table <;> simp only [encode, encodeAround, written] <;> rfl

/-- What is written of a code item. -/
theorem CodeItem.encode_eq_ok {code : CodeItem} {bytes : Bytes} (success : encode code = .ok bytes) :
    ¬ code.registers < code.ins ∧ ∃ debugInfo instructions table, code.debugInfo.encodeWord = .ok debugInfo ∧
      encode code.instructions = .ok instructions ∧
      (match code.writtenTable? with
        | some written => encode written = .ok table
        | none => table = []) ∧
      bytes = Bytes.ofUInt16 code.registers ++ Bytes.ofUInt16 code.ins ++ Bytes.ofUInt16 code.outs
        ++ Bytes.ofUInt16 code.triesSize ++ debugInfo ++ Bytes.ofCount code.instructions.length
        ++ instructions ++ (if code.needsPadding then Bytes.ofUInt16 0 else []) ++ table := by
  rw [encode_eq, encodeAround] at success
  by_cases few : code.registers < code.ins
  · rw [if_pos few] at success
    cases success
  rw [if_neg few] at success
  obtain ⟨debugInfo, first, success⟩ := Result.bind_eq_ok.mp success
  obtain ⟨instructions, second, success⟩ := Result.bind_eq_ok.mp success
  obtain ⟨table, third, same⟩ := Result.map_eq_ok.mp success
  refine ⟨few, debugInfo, instructions, table, first, second, ?_, same.symm⟩
  cases written : code.writtenTable? with
  | none =>
    rw [written] at third
    exact (Except.ok.inj third).symm
  | some written' =>
    rw [written] at third
    exact third

theorem CodeItem.length_encode {code : CodeItem} {bytes : Bytes} (success : encode code = .ok bytes) :
    bytes.length = encodedSize code := by
  obtain ⟨-, debugInfo, instructions, table, first, second, third, rfl⟩ := encode_eq_ok success
  have tableSize : table.length = (code.writtenTable?.map encodedSize).getD 0 := by
    cases written : code.writtenTable? with
    | none =>
      rw [written] at third
      rw [third]
      rfl
    | some written' =>
      rw [written] at third
      exact TryTable.length_encode third
  simp only [List.length_append, DataRef.length_encodeWord first, InstructionList.length_encode second, tableSize,
    Bytes.ofUInt16, Bytes.ofCount, Bytes.ofUInt32, Bytes.length_littleEndian]
  simp only [encodedSize]
  cases code.needsPadding <;> simp [Bytes.length_littleEndian]

/-- An item that can be written takes as many bytes as its size says. -/
theorem length_encode {kind : PoolKind} {item : Item kind} {bytes : Bytes} (success : encode item = .ok bytes) :
    bytes.length = encodedSize item := by
  cases kind with
  | stringId =>
    obtain rfl := Except.ok.inj success
    rw [List.length_append, List.length_append, Leb128.length_encodeUInt32]
    rfl
  | typeId => exact IdRef.length_encodeWord success
  | protoId =>
    obtain ⟨_, _, _, shorty, returnType, parameters, rfl⟩ := ProtoId.encode_eq_ok success
    rw [List.length_append, List.length_append, IdRef.length_encodeWord shorty, IdRef.length_encodeWord returnType,
      DataRef.length_encodeWord parameters]
    rfl
  | fieldId | methodId =>
    obtain ⟨_, first, success⟩ := Result.bind_eq_ok.mp success
    obtain ⟨_, second, success⟩ := Result.bind_eq_ok.mp success
    obtain ⟨_, third, same⟩ := Result.map_eq_ok.mp success
    rw [← same, List.length_append, List.length_append, IdRef.length_encodeShort first,
      IdRef.length_encodeShort second, IdRef.length_encodeWord third]
    rfl
  | classDef =>
    obtain ⟨_, _, _, _, _, type, interfaces, annotations, classData, staticValues, rfl⟩ := ClassDef.encode_eq_ok success
    simp only [List.length_append, IdRef.length_encodeWord type, DataRef.length_encodeWord interfaces,
      DataRef.length_encodeWord annotations, DataRef.length_encodeWord classData,
      DataRef.length_encodeWord staticValues, Bytes.ofUInt32, Bytes.length_littleEndian]
    rfl
  | typeList =>
    obtain ⟨_, inner, same⟩ := Result.map_eq_ok.mp success
    rw [← same, List.length_append,
      length_encodeAll (fun _ => 2) inner fun _ _ => IdRef.length_encodeShort, total_const]
    rfl
  | annotationSetRefList | annotationSet => exact length_encodeOffsets success
  | classData => exact ClassData.length_encode success
  | code => exact CodeItem.length_encode success
  | debugInfo => exact DebugInfo.length_encode success
  | annotationItem => exact AnnotationItem.length_encode success
  | encodedArray =>
    obtain ⟨_, inner, same⟩ := Result.map_eq_ok.mp success
    rw [← same, List.length_append, Bytes.ofVarCount, Leb128.length_encodeUInt32, length_encodeAll _ inner fun
      slot part success => EncodedValue.length_encode (Option.getD slot .null) success]
    rfl
  | annotationsDirectory => exact AnnotationsDirectory.length_encode success

theorem lengthUInt32_pos (value : UInt32) : 0 < Leb128.lengthUInt32 value :=
  Nat.lt_of_lt_of_le Nat.zero_lt_one (Nat.le_max_left 1 _)

/-- Every item takes at least a byte. -/
theorem encodedSize_pos {kind : PoolKind} (item : Item kind) : 0 < encodedSize item := by
  cases kind with
  | stringId | debugInfo => exact Nat.succ_pos _
  | typeId | protoId | fieldId | methodId | classDef => exact Nat.succ_pos _
  | typeList | annotationSetRefList | annotationSet | code | annotationItem | annotationsDirectory =>
    simp only [encodedSize]
    omega
  | classData =>
    have pos := lengthUInt32_pos (ClassData.staticFields item).length.toUInt32
    simp only [encodedSize, Bytes.varCountLength]
    omega
  | encodedArray =>
    have pos := lengthUInt32_pos (EncodedArray.length item).toUInt32
    simp only [encodedSize, Bytes.varCountLength]
    omega

end DexImage
