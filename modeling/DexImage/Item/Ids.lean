import DexImage.Cursor
import DexImage.Referring
import DexImage.TrackedList
/-! # Id items

The fixed-size entries of the id tables, and the type lists that protos and class definitions
point at.
-/

namespace DexImage

/-- The index as a two-byte field. -/
def IdRef.encodeShort {target : PoolKind} (ref : IdRef target) : Result Bytes := do
  let index ← ref.required
  if 0xffff < index then throw (Fault.of (.indexTooWide index))
  return Bytes.ofUInt16 index.toUInt16

/-- The index as a four-byte field that cannot express absence. -/
def IdRef.encodeWord {target : PoolKind} (ref : IdRef target) : Result Bytes := do
  return Bytes.ofUInt32 (← ref.required)

/-- The offset of the target as a four-byte field. -/
def DataRef.encodeWord {target : PoolKind} (ref : DataRef target) : Result Bytes := do
  return Bytes.ofUInt32 (← ref.offset)

namespace Decoder

variable {target : PoolKind}

def shortIndex : Decoder (IdRef target) := do return .of (← u2).toUInt32

def wordIndex : Decoder (IdRef target) := do return .of (← u4)

end Decoder

structure TypeId where
  descriptor : IdRef .stringId
deriving DecidableEq, Repr

namespace TypeId

def ofDescriptor (index : UInt32) : TypeId := ⟨.of index⟩

instance : Encodable TypeId where
  encodedSize _ := 4
  encode type := type.descriptor.encodeWord
  refresh type := type
  isDirty _ := false

instance : Referring TypeId where
  uses type := (type.descriptor.use? .idItem).toList
  visit visitor type := do
    return ⟨← type.descriptor.visit visitor .idItem⟩

def decode : Decoder TypeId := do return ⟨← Decoder.wordIndex⟩

end TypeId

structure TypeList where
  types : List (IdRef .typeId)
deriving DecidableEq, Repr

namespace TypeList

def ofIndices (indices : List UInt32) : TypeList := ⟨indices.map .of⟩

instance : Encodable TypeList where
  encodedSize list := 4 + 2 * list.types.length
  encode list := do
    return Bytes.ofCount list.types.length ++ (← encodeAll IdRef.encodeShort list.types)
  refresh list := list
  isDirty _ := false

instance : Referring TypeList where
  uses list := list.types.filterMap (·.use? .typeList)
  visit visitor list := do
    return ⟨← visitAll (IdRef.visit visitor .typeList) list.types⟩

def decode : Decoder TypeList := do
  let count ← Decoder.u4
  return ⟨← Reading.collect count.toNat fun _ => Decoder.shortIndex⟩

end TypeList

structure ProtoId where
  shorty : IdRef .stringId
  returnType : IdRef .typeId
  parameters : DataRef .typeList
deriving BEq, Repr

namespace ProtoId

instance : Encodable ProtoId where
  encodedSize _ := 12
  encode proto := do
    return (← proto.shorty.encodeWord) ++ (← proto.returnType.encodeWord)
      ++ (← proto.parameters.encodeWord)
  refresh proto := proto
  isDirty _ := false

instance : Referring ProtoId where
  uses proto :=
    (proto.shorty.use? .idItem).toList ++ (proto.returnType.use? .idItem).toList
      ++ (proto.parameters.use? .idItem).toList
  visit visitor proto := do
    let shorty ← proto.shorty.visit visitor .idItem
    let returnType ← proto.returnType.visit visitor .idItem
    let parameters ← proto.parameters.visit visitor .idItem
    return { shorty, returnType, parameters }

end ProtoId

structure FieldId where
  definer : IdRef .typeId
  fieldType : IdRef .typeId
  name : IdRef .stringId
deriving DecidableEq, Repr

namespace FieldId

instance : Encodable FieldId where
  encodedSize _ := 8
  encode field := do
    return (← field.definer.encodeShort) ++ (← field.fieldType.encodeShort)
      ++ (← field.name.encodeWord)
  refresh field := field
  isDirty _ := false

instance : Referring FieldId where
  uses field :=
    (field.definer.use? .idItem).toList ++ (field.fieldType.use? .idItem).toList
      ++ (field.name.use? .idItem).toList
  visit visitor field := do
    let definer ← field.definer.visit visitor .idItem
    let fieldType ← field.fieldType.visit visitor .idItem
    let name ← field.name.visit visitor .idItem
    return { definer, fieldType, name }

def decode : Decoder FieldId := do
  let definer ← Decoder.shortIndex
  let fieldType ← Decoder.shortIndex
  let name ← Decoder.wordIndex
  return { definer, fieldType, name }

end FieldId

structure MethodId where
  definer : IdRef .typeId
  proto : IdRef .protoId
  name : IdRef .stringId
deriving DecidableEq, Repr

namespace MethodId

instance : Encodable MethodId where
  encodedSize _ := 8
  encode method := do
    return (← method.definer.encodeShort) ++ (← method.proto.encodeShort)
      ++ (← method.name.encodeWord)
  refresh method := method
  isDirty _ := false

instance : Referring MethodId where
  uses method :=
    (method.definer.use? .idItem).toList ++ (method.proto.use? .idItem).toList
      ++ (method.name.use? .idItem).toList
  visit visitor method := do
    let definer ← method.definer.visit visitor .idItem
    let proto ← method.proto.visit visitor .idItem
    let name ← method.name.visit visitor .idItem
    return { definer, proto, name }

def decode : Decoder MethodId := do
  let definer ← Decoder.shortIndex
  let proto ← Decoder.shortIndex
  let name ← Decoder.wordIndex
  return { definer, proto, name }

end MethodId

/-- A class definition. Superclass and source file are absent when their field is `noIndex`. -/
structure ClassDef where
  type : IdRef .typeId
  access : UInt32
  superclass : IdRef .typeId
  interfaces : DataRef .typeList
  sourceFile : IdRef .stringId
  annotations : DataRef .annotationsDirectory
  classData : DataRef .classData
  staticValues : DataRef .encodedArray
deriving BEq, Repr

namespace ClassDef

instance : Encodable ClassDef where
  encodedSize _ := 32
  encode definition := do
    return (← definition.type.encodeWord) ++ Bytes.ofUInt32 definition.access
      ++ Bytes.ofUInt32 definition.superclass.raw ++ (← definition.interfaces.encodeWord)
      ++ Bytes.ofUInt32 definition.sourceFile.raw ++ (← definition.annotations.encodeWord)
      ++ (← definition.classData.encodeWord) ++ (← definition.staticValues.encodeWord)
  refresh definition := definition
  isDirty _ := false

instance : Referring ClassDef where
  uses definition :=
    (definition.type.use? .definition).toList ++ (definition.superclass.use? .definition).toList
      ++ (definition.interfaces.use? .definition).toList
      ++ (definition.sourceFile.use? .definition).toList
      ++ (definition.annotations.use? .annotated).toList
      ++ (definition.classData.use? .definition).toList
      ++ (definition.staticValues.use? .staticValue).toList
  visit visitor definition := do
    let type ← definition.type.visit visitor .definition
    let superclass ← definition.superclass.visit visitor .definition
    let interfaces ← definition.interfaces.visit visitor .definition
    let sourceFile ← definition.sourceFile.visit visitor .definition
    let annotations ← definition.annotations.visit visitor .annotated
    let classData ← definition.classData.visit visitor .definition
    let staticValues ← definition.staticValues.visit visitor .staticValue
    return { type, access := definition.access, superclass, interfaces, sourceFile, annotations,
             classData, staticValues }

end ClassDef

/-- The character that stands for a type in a proto's short form. -/
def shortyChar (descriptor : String) : Char :=
  match descriptor.toList with
  | [] => 'V'
  | c :: _ => if c = 'L' ∨ c = '[' then 'L' else c

end DexImage
