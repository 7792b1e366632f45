import DexImage.Proofs.Codec.Headers
import DexImage.Proofs.Codec.Sizes
import DexImage.Writing
/-! # What is written to a buffer

Writing a part adds its encoding to the buffer and leaves alone what is there (`Writes`), so that the number that it
tells is the size of the part (`writePart_appends`). The relation is kept by each way in which pieces are put together,
and goes through the kinds of parts one by one.
-/

namespace DexImage

namespace Writing

/-- Whether a step adds an encoding to the end of the buffer and tells its length, or fails as the encoding does, and
then has added something all the same. -/
def Writes (step : Writing Nat) (encoded : Result Bytes) : Prop := ∀ out,
  ∃ added, step out = (encoded.map List.length, out ++ added) ∧ ∀ bytes, encoded = .ok bytes → added = bytes

/-- Encodings one after the other. -/
def joined (parts : List (Result Bytes)) : Result Bytes := encodeAll id parts

@[simp] theorem joined_nil : joined [] = pure [] := rfl

@[simp] theorem joined_cons (part : Result Bytes) (rest : List (Result Bytes)) :
    joined (part :: rest) = part >>= fun bytes => joined rest >>= fun others => pure (bytes ++ others) := rfl

theorem encodeAll_eq {α : Type} (encodeOne : α → Result Bytes) (items : List α) :
    encodeAll encodeOne items = joined (items.map encodeOne) := by
  induction items with
  | nil => rfl
  | cons item rest ih =>
    rw [encodeAll, ih]
    rfl

namespace Writes

theorem nothing : Writes (return 0) (pure []) := fun out =>
  ⟨[], congrArg (Prod.mk _) (List.append_nil out).symm, fun _ same => Except.ok.inj same⟩

theorem u1 (value : UInt8) : Writes (Writing.u1 value) (pure [value]) := fun _ =>
  ⟨[value], rfl, fun _ same => Except.ok.inj same⟩

theorem u2 (value : UInt16) : Writes (Writing.u2 value) (pure (Bytes.ofUInt16 value)) := fun _ =>
  ⟨_, rfl, fun _ same => Except.ok.inj same⟩

theorem u4 (value : UInt32) : Writes (Writing.u4 value) (pure (Bytes.ofUInt32 value)) := fun _ =>
  ⟨_, rfl, fun _ same => Except.ok.inj same⟩

theorem bytes (value : Bytes) : Writes (Writing.bytes value) (pure value) := fun _ =>
  ⟨value, rfl, fun _ same => Except.ok.inj same⟩

theorem uleb128 (value : UInt32) : Writes (Writing.uleb128 value) (pure (Leb128.encodeUInt32 value)) := bytes _

theorem sleb128 (value : Int32) : Writes (Writing.sleb128 value) (pure (Leb128.encodeInt32 value)) := bytes _

theorem count (length : Nat) : Writes (Writing.count length) (pure (Bytes.ofCount length)) := u4 _

theorem varCount (length : Nat) : Writes (Writing.varCount length) (pure (Bytes.ofVarCount length)) := bytes _

theorem fail (fault : Fault) : Writes (throw fault) (.error fault) := fun out =>
  ⟨[], congrArg (Prod.mk _) (List.append_nil out).symm, nofun⟩

section Running

variable {step : Writing Nat} {encoded : Result Bytes} {bytes : Bytes} {fault : Fault}

theorem run_ok (writes : Writes step encoded) (success : encoded = .ok bytes) (out : Bytes) :
    step out = (.ok bytes.length, out ++ bytes) := by
  obtain ⟨added, run, same⟩ := writes out
  rw [run, same bytes success, success]
  rfl

theorem run_error (writes : Writes step encoded) (failure : encoded = .error fault) (out : Bytes) :
    ∃ after, step out = (.error fault, after) := by
  obtain ⟨added, run, -⟩ := writes out
  exact ⟨out ++ added, by rw [run, failure]; rfl⟩

/-- A step succeeds where there is an encoding. -/
theorem exists_run_ok (writes : Writes step encoded) {out : Bytes} :
    (∃ count after, step out = (.ok count, after)) ↔ ∃ bytes, encoded = .ok bytes := by
  rcases encoding : encoded with fault | bytes
  · obtain ⟨after, failure⟩ := writes.run_error encoding out
    exact iff_of_false (by rintro ⟨_, _, success⟩; cases failure.symm.trans success) (by rintro ⟨_, ⟨⟩⟩)
  · exact iff_of_true ⟨_, _, writes.run_ok encoding out⟩ ⟨bytes, rfl⟩

/-- What a step that succeeds has added is the encoding. -/
theorem encoded_of_run (writes : Writes step encoded) {out : Bytes} {count : Nat}
    (run : step out = (.ok count, out ++ bytes)) : encoded = .ok bytes := by
  rcases encoding : encoded with fault | others
  · obtain ⟨after, failure⟩ := writes.run_error encoding out
    rw [failure] at run
    cases run
  · rw [writes.run_ok encoding] at run
    exact congrArg Except.ok (List.append_cancel_left (Prod.mk.inj run).2)

end Running

/-- What depends on a result that may be a fault. -/
theorem ofResult {α : Type} {result : Result α} {step : α → Writing Nat} {encode : α → Result Bytes}
    (writes : ∀ value, Writes (step value) (encode value)) :
    Writes (do step (← result)) (result >>= encode) := by
  cases result with
  | error fault => exact fail fault
  | ok value => exact writes value

/-- What is refused on a condition. -/
theorem refused {condition : Prop} [Decidable condition] {fault : Fault} {step : Writing Nat} {encoded : Result Bytes}
    (writes : Writes step encoded) :
    Writes (do
        if condition then throw fault
        step)
      (do
        if condition then throw fault
        encoded) := by
  by_cases holds : condition
  · rw [if_pos holds, if_pos holds]
    exact fail fault
  · rw [if_neg holds, if_neg holds]
    exact writes

theorem cons {step : Writing Nat} {steps : List (Writing Nat)} {encoded others : Result Bytes}
    (head : Writes step encoded) (tail : Writes (Writing.all steps) others) :
    Writes (Writing.all (step :: steps)) (encoded >>= fun bytes => others >>= fun rest => pure (bytes ++ rest)) := by
  intro out
  obtain ⟨added, run, same⟩ := head out
  rw [Writing.all]
  cases encoded with
  | error fault => exact ⟨added, Reading.bind_error run, nofun⟩
  | ok bytes =>
    obtain rfl := same bytes rfl
    obtain ⟨more, next, same'⟩ := tail (out ++ added)
    rw [List.append_assoc] at next
    rw [Reading.bind_ok run]
    cases others with
    | error fault => exact ⟨added ++ more, Reading.bind_error next, nofun⟩
    | ok bytes =>
      obtain rfl := same' bytes rfl
      refine ⟨added ++ more, (Reading.bind_ok next).trans ?_, fun _ same => Except.ok.inj same⟩
      exact congrArg (Prod.mk · _) (congrArg Except.ok (List.length_append ..).symm)

/-- What may be left out. -/
theorem optional {α : Type} {step : α → Writing Nat} {encode : α → Result Bytes}
    (writes : ∀ value, Writes (step value) (encode value)) (given : Option α) :
    Writes (Writing.optional step given) (given.elim (pure []) encode) := by
  cases given with
  | none => exact nothing
  | some value => exact writes value

/-- Pieces one after the other write what they write one by one. -/
theorem all {steps : List (Writing Nat)} {parts : List (Result Bytes)} (each : List.Forall₂ Writes steps parts) :
    Writes (Writing.all steps) (joined parts) := by
  induction each with
  | nil => exact nothing
  | cons head _ ih => exact head.cons ih

theorem each {α : Type} {step : α → Writing Nat} {encodeOne : α → Result Bytes} (items : List α)
    (writes : ∀ item ∈ items, Writes (step item) (encodeOne item)) :
    Writes (Writing.all (items.map step)) (encodeAll encodeOne items) := by
  rw [encodeAll_eq]
  exact all (.of_map writes)

/-- What is made of pieces one after the other. -/
theorem pieces {steps : List (Writing Nat)} {parts : List (Result Bytes)} {encoded : Result Bytes}
    (each : List.Forall₂ Writes steps parts) (same : encoded = joined parts) : Writes (Writing.all steps) encoded :=
  same ▸ all each

end Writes
end Writing

open Writing

section References

variable {target : PoolKind}

theorem IdRef.writes_short (ref : IdRef target) : Writes ref.writeShort ref.encodeShort :=
  .ofResult fun _ => .refused (.u2 _)

theorem IdRef.writes_word (ref : IdRef target) : Writes ref.writeWord ref.encodeWord := .ofResult fun _ => .u4 _

theorem IdRef.writes_var (ref : IdRef target) :
    Writes ref.writeVar (do return Leb128.encodeUInt32 (← ref.required)) := .ofResult fun _ => .uleb128 _

theorem IdRef.writes_plusOne (ref : IdRef target) : Writes ref.writePlusOne (pure ref.encodePlusOne) := .bytes _

theorem DataRef.writes_word (ref : DataRef target) : Writes ref.writeWord ref.encodeWord := .ofResult fun _ => .u4 _

theorem writes_offsets (refs : List (DataRef target)) : Writes (writeOffsets refs) (encodeOffsets refs) := by
  refine .pieces (.cons (.count _) (.cons (.each refs fun ref _ => ref.writes_word) .nil)) ?_
  simp [encodeOffsets]

end References

theorem StringData.writes (string : StringData) : Writes string.write (encode string) := by
  refine .pieces (.cons (.uleb128 _) (.cons (.bytes _) (.cons (.u1 0) .nil))) ?_
  simp [encode]
  rfl

theorem TypeList.writes (list : TypeList) : Writes list.write (encode list) := by
  refine .pieces (.cons (.count _) (.cons (.each list.types fun ref _ => ref.writes_short) .nil)) ?_
  simp [encode]

theorem ProtoId.writes (proto : ProtoId) : Writes proto.write (encode proto) := by
  refine .pieces (.cons proto.shorty.writes_word (.cons proto.returnType.writes_word
    (.cons proto.parameters.writes_word .nil))) ?_
  simp [encode]

theorem FieldId.writes (field : FieldId) : Writes field.write (encode field) := by
  refine .pieces (.cons field.definer.writes_short (.cons field.fieldType.writes_short
    (.cons field.name.writes_word .nil))) ?_
  simp [encode]

theorem MethodId.writes (method : MethodId) : Writes method.write (encode method) := by
  refine .pieces (.cons method.definer.writes_short (.cons method.proto.writes_short
    (.cons method.name.writes_word .nil))) ?_
  simp [encode]

theorem ClassDef.writes (definition : ClassDef) : Writes definition.write (encode definition) := by
  refine .pieces (.cons definition.type.writes_word (.cons (.u4 _) (.cons (.u4 _)
    (.cons definition.interfaces.writes_word (.cons (.u4 _) (.cons definition.annotations.writes_word
      (.cons definition.classData.writes_word (.cons definition.staticValues.writes_word .nil)))))))) ?_
  simp [encode]

namespace EncodedValue

mutual

theorem writes : (value : EncodedValue) → Writes value.write value.encode
  | scalar value width => by
    rw [write, encode]
    exact .ofResult fun _ => .pieces (.cons (.u1 _) (.cons (.bytes _) .nil)) (by simp)
  | array elements => by
    rw [write, encode]
    exact .pieces (.cons (.u1 _) (.cons (.varCount _) (.cons (writes_list elements) .nil))) (by simp)
  | annotationBody type elements => by
    rw [write, encode]
    exact .pieces (.cons (.u1 _) (.cons type.writes_var (.cons (.varCount _) (.cons (writes_elements elements) .nil))))
      (by simp)
  | null => .u1 _
  | boolean _ => .u1 _

theorem writes_list : (values : List EncodedValue) → Writes (writeList values) (encodeList values)
  | [] => .nothing
  | value :: rest => .pieces (.cons (writes value) (.cons (writes_list rest) .nil)) (by simp [encodeList])

theorem writes_elements : (elements : List (IdRef .stringId × EncodedValue)) →
    Writes (writeElements elements) (encodeElements elements)
  | [] => .nothing
  | (name, value) :: rest =>
    .pieces (.cons name.writes_var (.cons (writes value) (.cons (writes_elements rest) .nil)))
      (by simp [encodeElements])

end

end EncodedValue

theorem ValueSlot.writes (slot : ValueSlot) : Writes slot.write (encode slot) := EncodedValue.writes _

theorem EncodedArray.writes (array : EncodedArray) : Writes array.write (encode array) := by
  refine .pieces (.cons (.varCount _) (.cons (.each array.slots.items fun slot _ => ValueSlot.writes slot) .nil)) ?_
  simp [encode]

theorem AnnotationItem.writes (item : AnnotationItem) : Writes item.write (encode item) := by
  have body : Writes item.body.write (encode item.body) := by
    refine .pieces (.cons item.body.type.writes_var (.cons (.varCount _)
      (.cons (EncodedValue.writes_elements item.body.elements) .nil))) ?_
    simp [encode]
  refine .pieces (.cons (.u1 _) (.cons body .nil)) ?_
  simp [encode]

theorem AnnotatedMember.writes {member target : PoolKind} (entry : AnnotatedMember member target) :
    Writes entry.write entry.encode := by
  refine .pieces (.cons entry.member.writes_word (.cons entry.annotations.writes_word .nil)) ?_
  simp [AnnotatedMember.encode]

theorem AnnotationsDirectory.writes (directory : AnnotationsDirectory) :
    Writes directory.write (encode directory) := by
  refine .pieces (.cons directory.classSet.writes_word (.cons (.count _) (.cons (.count _) (.cons (.count _)
    (.cons (.each _ fun entry _ => entry.writes) (.cons (.each _ fun entry _ => entry.writes)
      (.cons (.each _ fun entry _ => entry.writes) .nil))))))) ?_
  simp [encode]

theorem DefinedField.writes_list (previous : UInt32) (entries : List DefinedField) :
    Writes (writeList previous entries) (encodeList previous entries) := by
  induction entries generalizing previous with
  | nil => exact .nothing
  | cons entry rest ih =>
    refine .ofResult fun index =>
      .refused (.pieces (.cons (.uleb128 _) (.cons (.uleb128 _) (.cons (ih index) .nil))) ?_)
    simp

theorem DefinedMethod.writes_list (previous : UInt32) (entries : List DefinedMethod) :
    Writes (writeList previous entries) (encodeList previous entries) := by
  induction entries generalizing previous with
  | nil => exact .nothing
  | cons entry rest ih =>
    have code : Writes (do uleb128 (← entry.code.offset)) (do return Leb128.encodeUInt32 (← entry.code.offset)) :=
      .ofResult fun _ => .uleb128 _
    refine .ofResult fun index => .refused
      (.pieces (.cons (.uleb128 _) (.cons (.uleb128 _) (.cons code (.cons (ih index) .nil)))) ?_)
    simp

theorem ClassData.writes (data : ClassData) : Writes data.write (encode data) := by
  refine .pieces (.cons (.varCount _) (.cons (.varCount _) (.cons (.varCount _) (.cons (.varCount _)
    (.cons (DefinedField.writes_list 0 _) (.cons (DefinedField.writes_list 0 _)
      (.cons (DefinedMethod.writes_list 0 _) (.cons (DefinedMethod.writes_list 0 _) .nil)))))))) ?_
  simp [encode]

theorem DebugOp.writes (op : DebugOp) : Writes op.write (pure op.bytes) := by
  cases op with
  | advancePc | endLocal | restartLocal => exact .pieces (.cons (.u1 _) (.cons (.uleb128 _) .nil)) (by simp [bytes])
  | advanceLine => exact .pieces (.cons (.u1 _) (.cons (.sleb128 _) .nil)) (by simp [bytes])
  | startLocal _ name type =>
    exact .pieces (.cons (.u1 _) (.cons (.uleb128 _) (.cons name.writes_plusOne (.cons type.writes_plusOne .nil))))
      (by simp [bytes])
  | startLocalExtended _ name type signature =>
    exact .pieces (.cons (.u1 _) (.cons (.uleb128 _) (.cons name.writes_plusOne (.cons type.writes_plusOne
      (.cons signature.writes_plusOne .nil))))) (by simp [bytes])
  | setFile name => exact .pieces (.cons (.u1 _) (.cons name.writes_plusOne .nil)) (by simp [bytes])
  | prologueEnd | epilogueBegin | special => exact .u1 _

theorem exists_encodeAll {α : Type} {encodeOne : α → Result Bytes} {items : List α}
    (each : ∀ item ∈ items, ∃ part, encodeOne item = .ok part) : ∃ bytes, encodeAll encodeOne items = .ok bytes := by
  induction items with
  | nil => exact ⟨[], rfl⟩
  | cons item rest ih =>
    obtain ⟨⟨part, first⟩, each⟩ := List.forall_mem_cons.mp each
    obtain ⟨others, second⟩ := ih each
    exact ⟨part ++ others, Result.bind_eq_ok.mpr ⟨part, first, Result.map_eq_ok.mpr ⟨others, second, rfl⟩⟩⟩

/-- What is made of the members of a list without a fault. -/
theorem encodeAll_pure {α : Type} (bytes : α → Bytes) (items : List α) :
    encodeAll (fun item => pure (bytes item)) items = pure (items.flatMap bytes) := by
  induction items with
  | nil => rfl
  | cons item rest ih =>
    rw [encodeAll, ih]
    rfl

theorem DebugInfo.writes (info : DebugInfo) : Writes info.write (encode info) := by
  refine .pieces (.cons (.uleb128 _) (.cons (.varCount _) (.cons (.each _ fun name _ => name.writes_plusOne)
    (.cons (.each _ fun op _ => op.writes) (.cons (.u1 _) .nil))))) ?_
  simp [encode, encodeAll_pure]
  rfl

theorem HandlerList.writes_typed (handlers : List ExceptionHandler) :
    Writes (all (handlers.map ExceptionHandler.write)) (encodeTyped handlers) := by
  induction handlers with
  | nil => exact .nothing
  | cons handler rest ih =>
    cases handler with
    | catchAll address =>
      have passed : Writes (ExceptionHandler.write (.catchAll address)) (pure []) := .nothing
      simpa [encodeTyped] using passed.cons ih
    | typed type address =>
      have typed : Writes (ExceptionHandler.write (.typed type address)) (do
          let type ← type.required
          return Leb128.encodeUInt32 type ++ Leb128.encodeUInt32 address) :=
        .pieces (.cons type.writes_var (.cons (.uleb128 _) .nil)) (by simp)
      have whole := typed.cons ih
      simp only [bind_assoc, pure_bind, List.append_assoc] at whole
      simpa only [encodeTyped, List.append_assoc, List.map_cons] using whole

theorem HandlerList.writes (list : HandlerList) : Writes list.write (encode list) := by
  refine .refused (.pieces (.cons (.sleb128 _) (.cons (writes_typed list.handlers)
    (.cons (.optional .uleb128 list.catchAll?) .nil))) ?_)
  cases list.catchAll? <;> simp

theorem TryTable.writes_tries (table : TryTable) (index : Nat) (tries : List TryItem) :
    Writes (table.writeTries index tries) (table.encodeTries index tries) := by
  induction tries generalizing index with
  | nil => exact .nothing
  | cons item rest ih =>
    refine .refused (.refused (.pieces (.cons (.u4 _) (.cons (.u2 _) (.cons (.u2 _) (.cons (ih _) .nil)))) ?_))
    simp

theorem TryTable.writes (table : TryTable) : Writes table.write (encode table) := by
  refine .pieces (.cons (table.writes_tries 0 _) (.cons (.varCount _)
    (.cons (.each table.handlers.items fun list _ => list.writes) .nil))) ?_
  simp [encode]

theorem InstructionList.writes (list : InstructionList) : Writes list.write (encode list) := by
  rw [InstructionList.write]
  cases overflow : list.overflow with
  | true =>
    simp only [encode, overflow]
    exact .fail _
  | false =>
    have units := Writes.each list.units fun unit _ => .u2 unit
    rw [encodeAll_pure] at units
    simp only [encode, overflow]
    exact units

theorem CodeItem.writes (code : CodeItem) : Writes code.write (encode code) := by
  have padding : Writes (if code.needsPadding then u2 0 else return 0)
      (pure (if code.needsPadding then Bytes.ofUInt16 0 else [])) := by
    cases code.needsPadding with
    | true => exact .u2 0
    | false => exact .nothing
  refine .refused (.pieces (.cons (.u2 _) (.cons (.u2 _) (.cons (.u2 _) (.cons (.u2 _)
    (.cons code.debugInfo.writes_word (.cons (.count _) (.cons code.instructions.writes
      (.cons padding (.cons (.optional TryTable.writes code.writtenTable?) .nil))))))))) ?_)
  cases code.writtenTable? <;> simp

theorem Span.writes (span : Span) : Writes span.write (pure span.bytes) :=
  .pieces (.cons (.u4 _) (.cons (.u4 _) .nil)) (by simp [bytes])

theorem Header.writes (header : Header) : Writes header.write (encode header) := by
  have container (container : Container) : Writes (Writing.all [.u4 container.size, .u4 container.headerOffset])
      (pure (Bytes.ofUInt32 container.size ++ Bytes.ofUInt32 container.headerOffset)) :=
    .pieces (.cons (.u4 _) (.cons (.u4 _) .nil)) (by simp)
  refine .pieces (.cons (.bytes _) (.cons (.u4 _) (.cons (.bytes _) (.cons (.u4 _) (.cons (.u4 _) (.cons (.u4 _)
    (.cons header.link.writes (.cons (.u4 _) (.cons header.stringIds.writes (.cons header.typeIds.writes
      (.cons header.protoIds.writes (.cons header.fieldIds.writes (.cons header.methodIds.writes
        (.cons header.classDefs.writes (.cons header.data.writes
          (.cons (.optional container header.container) (.cons (.bytes _) .nil))))))))))))))))) ?_
  cases given : header.container <;> simp [encode, given] <;> rfl

theorem MapList.writes (map : MapList) : Writes map.write (encode map) := by
  have entry (entry : MapEntry) : Writes entry.write (pure entry.bytes) :=
    .pieces (.cons (.u2 _) (.cons (.u2 _) (.cons (.u4 _) (.cons (.u4 _) .nil)))) (by simp [MapEntry.bytes])
  refine .pieces (.cons (.count _) (.cons (.each _ fun one _ => entry one) .nil)) ?_
  simp [encode, encodeAll_pure]
  rfl

theorem writes_item {kind : PoolKind} (item : Item kind) : Writes (writeItem item) (encode item) := by
  cases kind with
  | stringId => exact StringData.writes item
  | typeId => exact IdRef.writes_word _
  | protoId => exact ProtoId.writes item
  | fieldId => exact FieldId.writes item
  | methodId => exact MethodId.writes item
  | classDef => exact ClassDef.writes item
  | typeList => exact TypeList.writes item
  | annotationSetRefList | annotationSet => exact writes_offsets _
  | classData => exact ClassData.writes item
  | code => exact CodeItem.writes item
  | debugInfo => exact DebugInfo.writes item
  | annotationItem => exact AnnotationItem.writes item
  | encodedArray => exact EncodedArray.writes item
  | annotationsDirectory => exact AnnotationsDirectory.writes item

/-- Writing a part of any kind writes its encoding. -/
theorem writes_part {kind : PartKind} (part : Part kind) : Writes (writePart part) (encode part) := by
  induction kind with
  | item kind => exact writes_item part
  | value => exact EncodedValue.writes part
  | valueSlot => exact ValueSlot.writes part
  | handlers => exact HandlerList.writes part
  | tries => exact TryTable.writes part
  | header => exact Header.writes part
  | map => exact MapList.writes part
  | list parts ih => exact .each _ fun one _ => ih one

/-- What can be written takes as many bytes as its size says. -/
theorem length_encode_part {kind : PartKind} {part : Part kind} {bytes : Bytes} (success : encode part = .ok bytes) :
    bytes.length = encodedSize part := by
  induction kind generalizing bytes with
  | item kind => exact length_encode success
  | value => exact EncodedValue.length_encode part success
  | valueSlot => exact EncodedValue.length_encode _ success
  | handlers => exact HandlerList.length_encode success
  | tries => exact TryTable.length_encode success
  | header => exact Header.length_encode success
  | map => exact MapList.length_encode success
  | list parts ih => exact length_encodeAll encodedSize success fun _ _ one => ih one

/-- Writing a part leaves the buffer as it was and adds bytes to its end. If it succeeds, these are the encoding of the
part, the number that is told counts them, and it is the size of the part; if it fails, the part has no encoding. -/
theorem writePart_appends {kind : PartKind} (part : Part kind) (out : Bytes) :
    ∃ added, (writePart part out).2 = out ++ added ∧
      match (writePart part out).1 with
      | .ok count => encode part = .ok added ∧ count = added.length ∧ count = encodedSize part
      | .error fault => encode part = .error fault := by
  obtain ⟨added, run, same⟩ := writes_part part out
  rw [run]
  refine ⟨added, rfl, ?_⟩
  cases encoded : encode part with
  | error fault => rfl
  | ok bytes =>
    obtain rfl := same bytes encoded
    exact ⟨rfl, rfl, length_encode_part encoded⟩

end DexImage
