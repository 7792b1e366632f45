import DexImage.Pools
/-! # Loading items

A loader reads items into pools. A data item that is referred to by its offset is read once, on
the first reference, and from then on known by its index in its pool. The position of the loader
is the same before and after such a load.
-/

namespace DexImage

structure Loader where
  cursor : Cursor
  /-- Whether an item that breaks a rule of the format fails the load. -/
  strict : Bool
  pools : Pools
  /-- The index of the item of a section that was read at an offset. -/
  loaded : List ((SectionKind × UInt32) × UInt32)

abbrev Loading := Reading Loader

namespace Loader

def ofCursor (cursor : Cursor) (strict : Bool) : Loader :=
  { cursor, strict, pools := .empty, loaded := [] }

def loaded? (loader : Loader) (kind : SectionKind) (offset : UInt32) : Option UInt32 :=
  loader.loaded.lookup (kind, offset)

end Loader

namespace Loading

variable {α : Type}

/-- A step that only reads bytes. -/
def ofDecoder (step : Decoder α) : Loading α := fun loader =>
  let ⟨cursor, strict, pools, loaded⟩ := loader
  let (result, cursor) := step cursor
  (result, ⟨cursor, strict, pools, loaded⟩)

/-- Appends an item to its pool and yields its index. -/
def append (kind : PoolKind) (item : Item kind) : Loading UInt32 := fun loader =>
  let ⟨cursor, strict, pools, loaded⟩ := loader
  let index := (pools.pool kind).nextIndex
  (.ok index, ⟨cursor, strict, pools.push kind item, loaded⟩)

/-- Runs a step at an offset and returns to the position before it. -/
def detour (site : Site) (offset : Nat) (step : Loading α) : Loading α := do
  let position ← ofDecoder Decoder.position
  Reading.within site (ofDecoder (Decoder.seek offset))
  let value ← step
  ofDecoder (Decoder.seek position)
  return value

/-- The index of the item at an offset, which `step` reads if it has not been read yet. -/
def load (kind : PoolKind) (step : Loading (Item kind)) (offset : UInt32) : Loading UInt32 := do
  match (← get).loaded? kind.toSection offset with
  | some index => return index
  | none =>
    let site := Site.itemAt kind.toSection offset.toNat
    let item ← detour site offset.toNat (Reading.within site step)
    let index ← append kind item
    modify fun loader => { loader with loaded := ((kind.toSection, offset), index) :: loader.loaded }
    return index

/-- A reference to the item at an offset; offset zero means absent. -/
def refAt (kind : PoolKind) (step : Loading (Item kind)) (offset : UInt32) :
    Loading (DataRef kind) := do
  if offset = 0 then return .absent
  else return .placed (← load kind step offset) offset

/-- Reads an offset and makes a reference of it. -/
def ref (kind : PoolKind) (step : Loading (Item kind)) : Loading (DataRef kind) := do
  refAt kind step (← ofDecoder Decoder.u4)

end Loading

open Loading

def ProtoId.load : Loading ProtoId := do
  let shorty ← ofDecoder Decoder.wordIndex
  let returnType ← ofDecoder Decoder.wordIndex
  return { shorty, returnType, parameters := ← ref .typeList (ofDecoder TypeList.decode) }

namespace CodeItem

/-- The code units that a header announces, provided that the image is long enough. -/
def decodeUnits (start : Nat) (count : UInt32) : Decoder (List UInt16) := do
  if (← Decoder.remaining) < 2 * count.toNat then Reading.fail (.codeUnitsCut start count.toNat)
  else Reading.collect count.toNat fun _ => Decoder.u2

/-- Reads a code item. A strict loader refuses one with more parameter registers than registers. -/
def load : Loading CodeItem := do
  let start ← ofDecoder Decoder.position
  let registers ← ofDecoder Decoder.u2
  let ins ← ofDecoder Decoder.u2
  let outs ← ofDecoder Decoder.u2
  let triesSize ← ofDecoder Decoder.u2
  if (← get).strict && registers < ins then
    Reading.fail (.insExceedRegistersAt start ins registers)
  let debugOffset ← ofDecoder Decoder.u4
  let unitCount ← ofDecoder Decoder.u4
  let units ← ofDecoder (decodeUnits start unitCount)
  if 0 < triesSize && unitCount % 2 == 1 then discard (ofDecoder Decoder.u2)
  let tryTable ←
    if 0 < triesSize then
      some <$> Reading.within (.tryTable start) (ofDecoder (TryTable.decode triesSize))
    else pure none
  let debugInfo ← Reading.within (.itemAt .code start)
    (refAt .debugInfo (ofDecoder DebugInfo.decode) debugOffset)
  return { registers, ins, outs, debugInfo, instructions := .ofUnits units, tryTable }

end CodeItem

def DefinedMethod.loadList (noun : String) (count : UInt32) : Loading (List DefinedMethod) := do
  let entries ← Reading.collect count.toNat fun index => do
    let difference ← ofDecoder Decoder.uleb128
    let access ← ofDecoder Decoder.uleb128
    let offset ← ofDecoder Decoder.uleb128
    let code ← Reading.within (.nth noun index) (refAt .code CodeItem.load offset)
    return (difference, access, code)
  return ofDifferences 0 entries

def ClassData.load : Loading ClassData := do
  let staticCount ← ofDecoder Decoder.uleb128
  let instanceCount ← ofDecoder Decoder.uleb128
  let directCount ← ofDecoder Decoder.uleb128
  let virtualCount ← ofDecoder Decoder.uleb128
  let staticFields ← ofDecoder (DefinedField.decodeList "static field" staticCount)
  let instanceFields ← ofDecoder (DefinedField.decodeList "instance field" instanceCount)
  let directMethods ← DefinedMethod.loadList "direct method" directCount
  let virtualMethods ← DefinedMethod.loadList "virtual method" virtualCount
  return { staticFields, instanceFields, directMethods, virtualMethods }

/-- A counted list of references, each numbered in faults. -/
def loadOffsets (kind : PoolKind) (step : Loading (Item kind)) (noun : String) :
    Loading (List (DataRef kind)) := do
  let count ← ofDecoder Decoder.u4
  Reading.collect count.toNat fun index => Reading.within (.nth noun index) (ref kind step)

def AnnotationSet.load : Loading AnnotationSet := do
  return ⟨← loadOffsets .annotationItem (ofDecoder AnnotationItem.decode) "annotation"⟩

def AnnotationSetRefList.load : Loading AnnotationSetRefList := do
  return ⟨← loadOffsets .annotationSet AnnotationSet.load "parameter annotation set"⟩

def AnnotatedMember.loadList {member : PoolKind} (target : PoolKind)
    (step : Loading (Item target)) (noun : String) (count : UInt32) :
    Loading (List (AnnotatedMember member target)) :=
  Reading.collect count.toNat fun index => do
    let member ← ofDecoder Decoder.wordIndex
    return ⟨member, ← Reading.within (.nth noun index) (ref target step)⟩

def AnnotationsDirectory.load : Loading AnnotationsDirectory := do
  let classSet ← Reading.within (.named "class annotations") (ref .annotationSet AnnotationSet.load)
  let fieldCount ← ofDecoder Decoder.u4
  let methodCount ← ofDecoder Decoder.u4
  let parameterCount ← ofDecoder Decoder.u4
  let fields ←
    AnnotatedMember.loadList .annotationSet AnnotationSet.load "field annotation" fieldCount
  let methods ←
    AnnotatedMember.loadList .annotationSet AnnotationSet.load "method annotation" methodCount
  let parameters ← AnnotatedMember.loadList .annotationSetRefList AnnotationSetRefList.load
    "parameter annotation" parameterCount
  return { classSet, fields, methods, parameters }

def ClassDef.load : Loading ClassDef := do
  let type ← ofDecoder Decoder.wordIndex
  let access ← ofDecoder Decoder.u4
  let superclass := IdRef.ofRaw (← ofDecoder Decoder.u4)
  let interfaces ← ref .typeList (ofDecoder TypeList.decode)
  let sourceFile := IdRef.ofRaw (← ofDecoder Decoder.u4)
  let annotations ← ref .annotationsDirectory AnnotationsDirectory.load
  let classData ← ref .classData ClassData.load
  let staticValues ← ref .encodedArray (ofDecoder EncodedArray.decode)
  return { type, access, superclass, interfaces, sourceFile, annotations, classData, staticValues }

/-- Reads an item of a kind at the position of the loader. -/
def loadItem : (kind : PoolKind) → Loading (Item kind)
  | .stringId => ofDecoder StringData.decode
  | .typeId => ofDecoder TypeId.decode
  | .protoId => ProtoId.load
  | .fieldId => ofDecoder FieldId.decode
  | .methodId => ofDecoder MethodId.decode
  | .classDef => ClassDef.load
  | .typeList => ofDecoder TypeList.decode
  | .annotationSetRefList => AnnotationSetRefList.load
  | .annotationSet => AnnotationSet.load
  | .classData => ClassData.load
  | .code => CodeItem.load
  | .debugInfo => ofDecoder DebugInfo.decode
  | .annotationItem => ofDecoder AnnotationItem.decode
  | .encodedArray => ofDecoder EncodedArray.decode
  | .annotationsDirectory => AnnotationsDirectory.load

end DexImage
