/-! # Section kinds

The kinds of section that an image is made of, the fifteen of them whose items are held in a
pool, and the markers that say which subsystem uses an item.
-/

namespace DexImage

/-- A kind of section, in the order of the map codes. -/
inductive SectionKind where
  | header
  | stringId
  | typeId
  | protoId
  | fieldId
  | methodId
  | classDef
  | mapList
  | typeList
  | annotationSetRefList
  | annotationSet
  | classData
  | code
  | stringData
  | debugInfo
  | annotationItem
  | encodedArray
  | annotationsDirectory
deriving DecidableEq, Repr

namespace SectionKind

def all : List SectionKind :=
  [header, stringId, typeId, protoId, fieldId, methodId, classDef, mapList, typeList,
    annotationSetRefList, annotationSet, classData, code, stringData, debugInfo, annotationItem,
    encodedArray, annotationsDirectory]

/-- The code that stands for the kind in a map list. -/
def mapCode : SectionKind → UInt16
  | header => 0x0000
  | stringId => 0x0001
  | typeId => 0x0002
  | protoId => 0x0003
  | fieldId => 0x0004
  | methodId => 0x0005
  | classDef => 0x0006
  | mapList => 0x1000
  | typeList => 0x1001
  | annotationSetRefList => 0x1002
  | annotationSet => 0x1003
  | classData => 0x2000
  | code => 0x2001
  | stringData => 0x2002
  | debugInfo => 0x2003
  | annotationItem => 0x2004
  | encodedArray => 0x2005
  | annotationsDirectory => 0x2006

def ofMapCode? (mapCode : UInt16) : Option SectionKind :=
  all.find? fun kind => kind.mapCode == mapCode

theorem ofMapCode?_mapCode (kind : SectionKind) : ofMapCode? kind.mapCode = some kind := by
  cases kind <;> rfl

def name : SectionKind → String
  | header => "header"
  | stringId => "string id"
  | typeId => "type id"
  | protoId => "proto id"
  | fieldId => "field id"
  | methodId => "method id"
  | classDef => "class def"
  | mapList => "map list"
  | typeList => "type list"
  | annotationSetRefList => "annotation set ref list"
  | annotationSet => "annotation set"
  | classData => "class data"
  | code => "code item"
  | stringData => "string data"
  | debugInfo => "debug info"
  | annotationItem => "annotation"
  | encodedArray => "encoded array"
  | annotationsDirectory => "annotations directory"

/-- Whether the section is one of the tables of fixed-size entries that the header lists. -/
def isIdTable : SectionKind → Bool
  | stringId | typeId | protoId | fieldId | methodId | classDef => true
  | _ => false

/-- Offsets of the section's items are multiples of this. -/
def alignment : SectionKind → Nat
  | stringData | classData | debugInfo | annotationItem | encodedArray => 1
  | _ => 4

end SectionKind

/-- A kind of section whose items are held in a pool. String data shares the pool of string ids. -/
inductive PoolKind where
  | stringId
  | typeId
  | protoId
  | fieldId
  | methodId
  | classDef
  | typeList
  | annotationSetRefList
  | annotationSet
  | classData
  | code
  | debugInfo
  | annotationItem
  | encodedArray
  | annotationsDirectory
deriving DecidableEq, Repr

namespace PoolKind

/-- Every pool kind, in the order of the section kinds. -/
def all : List PoolKind :=
  [stringId, typeId, protoId, fieldId, methodId, classDef, typeList, annotationSetRefList,
    annotationSet, classData, code, debugInfo, annotationItem, encodedArray, annotationsDirectory]

def toSection : PoolKind → SectionKind
  | stringId => .stringId
  | typeId => .typeId
  | protoId => .protoId
  | fieldId => .fieldId
  | methodId => .methodId
  | classDef => .classDef
  | typeList => .typeList
  | annotationSetRefList => .annotationSetRefList
  | annotationSet => .annotationSet
  | classData => .classData
  | code => .code
  | debugInfo => .debugInfo
  | annotationItem => .annotationItem
  | encodedArray => .encodedArray
  | annotationsDirectory => .annotationsDirectory

theorem mem_all (kind : PoolKind) : kind ∈ all := by cases kind <;> decide

/-- Positions in the order of the section kinds. -/
def rank (kind : PoolKind) : Nat := kind.toSection.mapCode.toNat

end PoolKind

/-- The pool that holds the items of a section; the header and the map list have none. -/
def SectionKind.pool? : SectionKind → Option PoolKind
  | .header | .mapList => none
  | .stringId | .stringData => some .stringId
  | .typeId => some .typeId
  | .protoId => some .protoId
  | .fieldId => some .fieldId
  | .methodId => some .methodId
  | .classDef => some .classDef
  | .typeList => some .typeList
  | .annotationSetRefList => some .annotationSetRefList
  | .annotationSet => some .annotationSet
  | .classData => some .classData
  | .code => some .code
  | .debugInfo => some .debugInfo
  | .annotationItem => some .annotationItem
  | .encodedArray => some .encodedArray
  | .annotationsDirectory => some .annotationsDirectory

@[simp] theorem PoolKind.pool?_toSection (kind : PoolKind) : kind.toSection.pool? = some kind := by
  cases kind <;> rfl

/-- A set of markers that say which subsystems refer to an item. -/
structure Usage where
  bits : UInt16
deriving DecidableEq, Repr, Inhabited

namespace Usage

def unmarked : Usage := ⟨0⟩
def definition : Usage := ⟨0x0001⟩
def idItem : Usage := ⟨0x0002⟩
def instruction : Usage := ⟨0x0004⟩
def debug : Usage := ⟨0x0008⟩
def annotated : Usage := ⟨0x0010⟩
def staticValue : Usage := ⟨0x0020⟩
def caught : Usage := ⟨0x0040⟩
def code : Usage := ⟨0x0080⟩
def typeList : Usage := ⟨0x0100⟩

def isEmpty (usage : Usage) : Bool := usage.bits == 0

/-- The markers that are in either set. -/
def union (a b : Usage) : Usage := ⟨a.bits ||| b.bits⟩

end Usage
end DexImage
