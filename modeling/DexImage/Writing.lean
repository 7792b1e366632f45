import DexImage.Header
import DexImage.Item.Family
import DexImage.MapList
/-! # Writing to a buffer

Every part of an image can be written to the end of a buffer, piece by piece, and each piece tells how
many bytes it added. What was written before a fault stays in the buffer.
-/

namespace DexImage

/-- Steps that add to the end of a buffer. -/
abbrev Writing := ExceptT Fault (StateM Bytes)

namespace Writing

def u1 (value : UInt8) : Writing Nat := do
  modify (· ++ [value])
  return 1

def u2 (value : UInt16) : Writing Nat := do
  modify (· ++ Bytes.ofUInt16 value)
  return 2

def u4 (value : UInt32) : Writing Nat := do
  modify (· ++ Bytes.ofUInt32 value)
  return 4

def bytes (value : Bytes) : Writing Nat := do
  modify (· ++ value)
  return value.length

def uleb128 (value : UInt32) : Writing Nat := bytes (Leb128.encodeUInt32 value)

def sleb128 (value : Int32) : Writing Nat := bytes (Leb128.encodeInt32 value)

/-- A list's length as the four-byte count that precedes its members. -/
def count (length : Nat) : Writing Nat := u4 length.toUInt32

/-- A list's length as the variable-length count that precedes its members. -/
def varCount (length : Nat) : Writing Nat := uleb128 length.toUInt32

/-- Pieces one after the other, with the counts of all of them added up. -/
def all : List (Writing Nat) → Writing Nat
  | [] => return 0
  | piece :: rest => do
    let written ← piece
    return written + (← all rest)

/-- A piece that may be left out. -/
def optional {α : Type} (write : α → Writing Nat) (given : Option α) : Writing Nat := given.elim (return 0) write

end Writing

open Writing

namespace IdRef

variable {target : PoolKind}

def writeShort (ref : IdRef target) : Writing Nat := do
  let index ← ref.required
  if 0xffff < index then throw (Fault.of (.indexTooWide index))
  u2 index.toUInt16

def writeWord (ref : IdRef target) : Writing Nat := do u4 (← ref.required)

/-- The index as a variable-length number. -/
def writeVar (ref : IdRef target) : Writing Nat := do uleb128 (← ref.required)

def writePlusOne (ref : IdRef target) : Writing Nat := bytes (Leb128.encodePlusOne ref.plusOne)

end IdRef

def DataRef.writeWord {target : PoolKind} (ref : DataRef target) : Writing Nat := do u4 (← ref.offset)

def StringData.write (string : StringData) : Writing Nat := all [uleb128 string.units, bytes string.payload, u1 0]

def TypeId.write (type : TypeId) : Writing Nat := type.descriptor.writeWord

def TypeList.write (list : TypeList) : Writing Nat :=
  all [count list.types.length, all (list.types.map IdRef.writeShort)]

def ProtoId.write (proto : ProtoId) : Writing Nat :=
  all [proto.shorty.writeWord, proto.returnType.writeWord, proto.parameters.writeWord]

def FieldId.write (field : FieldId) : Writing Nat :=
  all [field.definer.writeShort, field.fieldType.writeShort, field.name.writeWord]

def MethodId.write (method : MethodId) : Writing Nat :=
  all [method.definer.writeShort, method.proto.writeShort, method.name.writeWord]

def ClassDef.write (definition : ClassDef) : Writing Nat :=
  all [definition.type.writeWord, u4 definition.access, u4 definition.superclass.raw,
    definition.interfaces.writeWord, u4 definition.sourceFile.raw, definition.annotations.writeWord,
    definition.classData.writeWord, definition.staticValues.writeWord]

namespace EncodedValue

mutual

def write : EncodedValue → Writing Nat
  | scalar value width => do
    value.checkReference
    let width := (scalar value width).width
    all [u1 (descriptor value.kind (width - 1)), bytes (value.payload width)]
  | array elements => all [u1 (descriptor .array 0), varCount elements.length, writeList elements]
  | annotationBody type elements =>
    all [u1 (descriptor .annotationBody 0), type.writeVar, varCount elements.length, writeElements elements]
  | null => u1 (descriptor .null 0)
  | boolean value => u1 (descriptor .boolean value.toNat)

def writeList : List EncodedValue → Writing Nat
  | [] => return 0
  | value :: rest => all [value.write, writeList rest]

def writeElements : List (IdRef .stringId × EncodedValue) → Writing Nat
  | [] => return 0
  | (name, value) :: rest => all [name.writeVar, value.write, writeElements rest]

end

end EncodedValue

def ValueSlot.write (slot : ValueSlot) : Writing Nat := (slot.getD .null).write

def EncodedArray.write (array : EncodedArray) : Writing Nat :=
  all [varCount array.length, all (array.slots.items.map ValueSlot.write)]

def AnnotationBody.write (body : AnnotationBody) : Writing Nat :=
  all [body.type.writeVar, varCount body.elements.length, EncodedValue.writeElements body.elements]

def AnnotationItem.write (item : AnnotationItem) : Writing Nat := all [u1 item.visibility.code, item.body.write]

def writeOffsets {target : PoolKind} (refs : List (DataRef target)) : Writing Nat :=
  all [count refs.length, all (refs.map DataRef.writeWord)]

def AnnotationSet.write (set : AnnotationSet) : Writing Nat := writeOffsets set.items

def AnnotationSetRefList.write (list : AnnotationSetRefList) : Writing Nat := writeOffsets list.sets

def AnnotatedMember.write {member target : PoolKind} (entry : AnnotatedMember member target) : Writing Nat :=
  all [entry.member.writeWord, entry.annotations.writeWord]

def AnnotationsDirectory.write (directory : AnnotationsDirectory) : Writing Nat :=
  all [directory.classSet.writeWord, count directory.fields.length, count directory.methods.length,
    count directory.parameters.length, all (directory.fields.map AnnotatedMember.write),
    all (directory.methods.map AnnotatedMember.write), all (directory.parameters.map AnnotatedMember.write)]

def DefinedField.writeList : (previous : UInt32) → List DefinedField → Writing Nat
  | _, [] => return 0
  | previous, entry :: rest => do
    let index ← entry.field.required
    if index < previous then throw (Fault.of (.fieldsOutOfOrder index previous))
    all [uleb128 (index - previous), uleb128 entry.access, writeList index rest]

def DefinedMethod.writeList : (previous : UInt32) → List DefinedMethod → Writing Nat
  | _, [] => return 0
  | previous, entry :: rest => do
    let index ← entry.method.required
    if index < previous then throw (Fault.of (.methodsOutOfOrder index previous))
    all [uleb128 (index - previous), uleb128 entry.access, do uleb128 (← entry.code.offset), writeList index rest]

def ClassData.write (data : ClassData) : Writing Nat :=
  all [varCount data.staticFields.length, varCount data.instanceFields.length, varCount data.directMethods.length,
    varCount data.virtualMethods.length, DefinedField.writeList 0 data.staticFields,
    DefinedField.writeList 0 data.instanceFields, DefinedMethod.writeList 0 data.directMethods,
    DefinedMethod.writeList 0 data.virtualMethods]

def DebugOp.write : DebugOp → Writing Nat
  | advancePc delta => all [u1 Code.advancePc, uleb128 delta]
  | advanceLine delta => all [u1 Code.advanceLine, sleb128 delta]
  | startLocal register name type =>
    all [u1 Code.startLocal, uleb128 register, name.writePlusOne, type.writePlusOne]
  | startLocalExtended register name type signature =>
    all [u1 Code.startLocalExtended, uleb128 register, name.writePlusOne, type.writePlusOne, signature.writePlusOne]
  | endLocal register => all [u1 Code.endLocal, uleb128 register]
  | restartLocal register => all [u1 Code.restartLocal, uleb128 register]
  | prologueEnd => u1 Code.prologueEnd
  | epilogueBegin => u1 Code.epilogueBegin
  | setFile name => all [u1 Code.setFile, name.writePlusOne]
  | special code => u1 code

def DebugInfo.write (info : DebugInfo) : Writing Nat :=
  all [uleb128 info.lineStart, varCount info.parameterNames.length, all (info.parameterNames.map IdRef.writePlusOne),
    all (info.ops.map DebugOp.write), u1 DebugOp.Code.endSequence]

/-- The typed handlers of a list; a catch-all is written behind all of them. -/
def ExceptionHandler.write : ExceptionHandler → Writing Nat
  | typed type address => all [type.writeVar, uleb128 address]
  | catchAll _ => return 0

def HandlerList.write (list : HandlerList) : Writing Nat := do
  if 1 < list.catchAlls.length then throw (Fault.of (.catchAllsRepeated list.catchAlls.length))
  all [sleb128 list.sizeField, all (list.handlers.map ExceptionHandler.write),
    optional uleb128 list.catchAll?]

def TryTable.writeTries (table : TryTable) : (index : Nat) → List TryItem → Writing Nat
  | _, [] => return 0
  | index, item :: rest => do
    if table.handlers.length ≤ item.handler then
      throw (Fault.of (.handlerMissing index item.handler table.handlers.length))
    let offset := table.handlerOffset item.handler
    if 0xffff < offset then throw (Fault.of (.handlerOffsetTooWide offset))
    all [u4 item.start, u2 item.count, u2 offset.toUInt16, table.writeTries (index + 1) rest]

def TryTable.write (table : TryTable) : Writing Nat :=
  all [table.writeTries 0 table.tries, varCount table.handlers.length, all (table.handlers.items.map HandlerList.write)]

def InstructionList.write (list : InstructionList) : Writing Nat := do
  if list.overflow then throw (Fault.of .operandTooWide)
  all (list.units.map u2)

def CodeItem.write (code : CodeItem) : Writing Nat := do
  if code.registers < code.ins then throw (Fault.of (.insExceedRegisters code.ins code.registers))
  all [u2 code.registers, u2 code.ins, u2 code.outs, u2 code.triesSize, code.debugInfo.writeWord,
    count code.instructions.length, code.instructions.write, if code.needsPadding then u2 0 else return 0,
    optional TryTable.write code.writtenTable?]

def Span.write (span : Span) : Writing Nat := all [u4 span.size, u4 span.offset]

def Header.write (header : Header) : Writing Nat :=
  all [bytes header.magic.toList, u4 header.checksum, bytes header.signature.toList, u4 header.fileSize,
    u4 header.headerSize, u4 littleEndianTag, header.link.write, u4 header.mapOffset, header.stringIds.write,
    header.typeIds.write, header.protoIds.write, header.fieldIds.write, header.methodIds.write, header.classDefs.write,
    header.data.write,
    optional (fun container => all [u4 container.size, u4 container.headerOffset]) header.container,
    bytes header.surplus]

def MapEntry.write (entry : MapEntry) : Writing Nat :=
  all [u2 entry.kind.mapCode, u2 0, u4 entry.size, u4 entry.offset]

def MapList.write (map : MapList) : Writing Nat := all [count map.entries.length, all (map.entries.map MapEntry.write)]

/-- The kinds of parts that are written: the items of the pools, parts of items, the header, the map, and lists of
parts of one kind. -/
inductive PartKind where
  | item (kind : PoolKind)
  | value
  | valueSlot
  | handlers
  | tries
  | header
  | map
  | list (parts : PartKind)
deriving DecidableEq, Repr

abbrev Part : PartKind → Type
  | .item kind => Item kind
  | .value => EncodedValue
  | .valueSlot => ValueSlot
  | .handlers => HandlerList
  | .tries => TryTable
  | .header => Header
  | .map => MapList
  | .list parts => TrackedList (Part parts)

instance partEncodable : (kind : PartKind) → Encodable (Part kind)
  | .item kind => inferInstanceAs (Encodable (Item kind))
  | .value => inferInstanceAs (Encodable EncodedValue)
  | .valueSlot => inferInstanceAs (Encodable ValueSlot)
  | .handlers => inferInstanceAs (Encodable HandlerList)
  | .tries => inferInstanceAs (Encodable TryTable)
  | .header => inferInstanceAs (Encodable Header)
  | .map => inferInstanceAs (Encodable MapList)
  | .list parts =>
    have := partEncodable parts
    inferInstanceAs (Encodable (TrackedList (Part parts)))

/-- Writes an item of any kind. -/
def writeItem : {kind : PoolKind} → Item kind → Writing Nat
  | .stringId, item => StringData.write item
  | .typeId, item => TypeId.write item
  | .protoId, item => ProtoId.write item
  | .fieldId, item => FieldId.write item
  | .methodId, item => MethodId.write item
  | .classDef, item => ClassDef.write item
  | .typeList, item => TypeList.write item
  | .annotationSetRefList, item => AnnotationSetRefList.write item
  | .annotationSet, item => AnnotationSet.write item
  | .classData, item => ClassData.write item
  | .code, item => CodeItem.write item
  | .debugInfo, item => DebugInfo.write item
  | .annotationItem, item => AnnotationItem.write item
  | .encodedArray, item => EncodedArray.write item
  | .annotationsDirectory, item => AnnotationsDirectory.write item

/-- Writes a part of any kind. -/
def writePart : {kind : PartKind} → Part kind → Writing Nat
  | .item _, item => writeItem item
  | .value, value => value.write
  | .valueSlot, slot => ValueSlot.write slot
  | .handlers, list => list.write
  | .tries, table => table.write
  | .header, header => header.write
  | .map, map => map.write
  | .list parts, list => all ((TrackedList.items list).map (@writePart parts))

end DexImage
