import DexImage.Item.Family
import DexImage.Pool
/-! # The pools of an image

One pool for each kind of item, and the passes that run over all of them in the order of the
pool kinds.
-/

namespace DexImage

structure Pools where
  strings : Pool StringData
  types : Pool TypeId
  protos : Pool ProtoId
  fields : Pool FieldId
  methods : Pool MethodId
  classDefs : Pool ClassDef
  typeLists : Pool TypeList
  annotationSetRefLists : Pool AnnotationSetRefList
  annotationSets : Pool AnnotationSet
  classData : Pool ClassData
  codes : Pool CodeItem
  debugInfos : Pool DebugInfo
  annotationItems : Pool AnnotationItem
  encodedArrays : Pool EncodedArray
  annotationsDirectories : Pool AnnotationsDirectory
deriving BEq

/-- New indices for the entries of some sections. -/
abbrev Remaps := List (SectionKind × IndexRemap)

namespace Pools

def empty : Pools :=
  { strings := .empty, types := .empty, protos := .empty, fields := .empty, methods := .empty,
    classDefs := .empty, typeLists := .empty, annotationSetRefLists := .empty,
    annotationSets := .empty, classData := .empty, codes := .empty, debugInfos := .empty,
    annotationItems := .empty, encodedArrays := .empty, annotationsDirectories := .empty }

/-- The pool of a kind. -/
def pool (pools : Pools) : (kind : PoolKind) → Pool (Item kind)
  | .stringId => pools.strings
  | .typeId => pools.types
  | .protoId => pools.protos
  | .fieldId => pools.fields
  | .methodId => pools.methods
  | .classDef => pools.classDefs
  | .typeList => pools.typeLists
  | .annotationSetRefList => pools.annotationSetRefLists
  | .annotationSet => pools.annotationSets
  | .classData => pools.classData
  | .code => pools.codes
  | .debugInfo => pools.debugInfos
  | .annotationItem => pools.annotationItems
  | .encodedArray => pools.encodedArrays
  | .annotationsDirectory => pools.annotationsDirectories

/-- The pools with the one of a kind replaced. -/
def setPool (pools : Pools) : (kind : PoolKind) → Pool (Item kind) → Pools
  | .stringId, pool => { pools with strings := pool }
  | .typeId, pool => { pools with types := pool }
  | .protoId, pool => { pools with protos := pool }
  | .fieldId, pool => { pools with fields := pool }
  | .methodId, pool => { pools with methods := pool }
  | .classDef, pool => { pools with classDefs := pool }
  | .typeList, pool => { pools with typeLists := pool }
  | .annotationSetRefList, pool => { pools with annotationSetRefLists := pool }
  | .annotationSet, pool => { pools with annotationSets := pool }
  | .classData, pool => { pools with classData := pool }
  | .code, pool => { pools with codes := pool }
  | .debugInfo, pool => { pools with debugInfos := pool }
  | .annotationItem, pool => { pools with annotationItems := pool }
  | .encodedArray, pool => { pools with encodedArrays := pool }
  | .annotationsDirectory, pool => { pools with annotationsDirectories := pool }

@[simp] theorem pool_setPool_self (pools : Pools) (kind : PoolKind) (pool : Pool (Item kind)) :
    (pools.setPool kind pool).pool kind = pool := by
  cases kind <;> rfl

theorem pool_setPool_of_ne (pools : Pools) {kind other : PoolKind} (differ : other ≠ kind)
    (pool : Pool (Item kind)) : (pools.setPool kind pool).pool other = pools.pool other := by
  cases kind <;> cases other <;> first | rfl | exact absurd rfl differ

/-- Applies an edit to the pool of a kind. The pool is taken out while it is edited, so that the
edit is the only holder of its entries. -/
def modify (pools : Pools) (kind : PoolKind) (edit : Pool (Item kind) → Pool (Item kind)) : Pools :=
  let pool := pools.pool kind
  let others := pools.setPool kind .empty
  others.setPool kind (edit pool)

/-- The number of items of a section. -/
def size (pools : Pools) (kind : SectionKind) : Nat :=
  match kind.pool? with
  | some kind => (pools.pool kind).size
  | none => 0

def isEmpty (pools : Pools) : Bool := PoolKind.all.all fun kind => (pools.pool kind).isEmpty

def get? (pools : Pools) (kind : PoolKind) (index : UInt32) : Option (Item kind) :=
  (pools.pool kind).get? index

/-- The item at an index, where the target has to exist. -/
def require (pools : Pools) (kind : PoolKind) (index : UInt32) : Result (Item kind) :=
  ((pools.pool kind).require index).within (.inSection kind.toSection)

/-- The target of a reference, if it is present and in its pool. -/
def resolveId? {target : PoolKind} (pools : Pools) (ref : IdRef target) : Option (Item target) :=
  ref.index.bind (pools.get? target)

/-- The target of a reference, if it is present and in its pool. -/
def resolve? {target : PoolKind} (pools : Pools) (ref : DataRef target) : Option (Item target) :=
  ref.index.bind (pools.get? target)

def requireId {target : PoolKind} (pools : Pools) (ref : IdRef target) : Result (Item target) := do
  pools.require target (← ref.required)

/-- Applies an edit to the item at an index, if there is one. -/
def modifyItem (pools : Pools) (kind : PoolKind) (index : UInt32)
    (edit : Item kind → Item kind) : Pools :=
  pools.modify kind fun pool => pool.modify index edit

def truncate (pools : Pools) (kind : PoolKind) (size : Nat) : Pools :=
  pools.modify kind fun pool => pool.truncate size

def push (pools : Pools) (kind : PoolKind) (item : Item kind) : Pools :=
  pools.modify kind fun pool => pool.push item

/-- The index of an equal item and the pools, to which `item` is added if there is none. -/
def intern (pools : Pools) (kind : PoolKind) (item : Item kind) : UInt32 × Pools :=
  match (pools.pool kind).find? item with
  | some index => (index, pools)
  | none => ((pools.pool kind).nextIndex, pools.push kind item)

/-- The usage recorded for an item of a section. -/
def usage? (pools : Pools) (kind : SectionKind) (index : UInt32) : Option Usage := do
  (pools.pool (← kind.pool?)).usage? index

/-- Adds markers to an item's usage; says whether it had none before. A section without a pool
has nothing to mark. -/
def mark (pools : Pools) (kind : SectionKind) (index : UInt32) (usage : Usage) :
    Result (Bool × Pools) :=
  match kind.pool? with
  | none => .ok (false, pools)
  | some pool => do
    let (first, marked) ← ((pools.pool pool).mark index usage).within (.inSection kind)
    return (first, pools.setPool pool marked)

def clearUsage (pools : Pools) : Pools :=
  PoolKind.all.foldl (fun pools kind => pools.modify kind Pool.clearUsage) pools

/-- The references that one item of a section holds. -/
def usesOf (pools : Pools) (kind : SectionKind) (index : UInt32) : Result (List Use) :=
  match kind.pool? with
  | none => .ok []
  | some pool =>
    match pools.get? pool index with
    | some item => .ok (uses item)
    | none => .error (Fault.of (.itemBeyondPool kind index (pools.pool pool).size))

/-- Visits every reference of every item, pool after pool. -/
def visit {σ : Type} (visitor : Visitor σ) (pools : Pools) : StateM σ Pools :=
  PoolKind.all.foldlM (fun pools kind => do
    let pool ← (pools.pool kind).mapM (DexImage.visit visitor)
    return pools.setPool kind pool) pools

/-- Compacts every pool; lists the tables of the pools that changed. -/
def compactAll (pools : Pools) : Remaps × Pools :=
  let compacted (state : Remaps × Pools) (kind : PoolKind) : Remaps × Pools :=
    let (remap, pool) := (state.2.pool kind).compact
    (if remap.isIdentity then state.1 else state.1 ++ [(kind.toSection, remap)],
      state.2.setPool kind pool)
  PoolKind.all.foldl compacted ([], pools)

/-- Rearranges the pool of a section, if it has one. -/
def reorder (pools : Pools) (kind : SectionKind) (order : List UInt32) :
    Result (IndexRemap × Pools) :=
  match kind.pool? with
  | none => .ok (.empty, pools)
  | some pool => do
    let (remap, arranged) ← (pools.pool pool).reorder order
    return (remap, pools.setPool pool arranged)

/-- Moves every reference into a section with a table to the new index of its target. -/
def applyRemaps (pools : Pools) (remaps : Remaps) : Pools :=
  if remaps.isEmpty then pools
  else
    let visitor : Visitor Unit := fun slot =>
      pure <| match remaps.lookup slot.kind.toSection with
        | some remap => slot.remap remap
        | none => .keep
    (pools.visit visitor ()).1

/-- The index of an annotation's type, by which sets are ordered. -/
def annotationRank (annotations : Pool AnnotationItem) (ref : DataRef .annotationItem) : Nat :=
  match ref.index.bind annotations.get? with
  | some item => item.body.type.raw.toNat + 1
  | none => 0

/-- Orders the entries of each annotation set by annotation type, those without one first. -/
def sortAnnotationSets (pools : Pools) : Pools :=
  let rank := annotationRank pools.annotationItems
  pools.modify .annotationSet fun pool =>
    pool.map fun (set : AnnotationSet) => ⟨set.items.mergeSort fun a b => rank a ≤ rank b⟩

/-- Brings every item up to date, and then the order within annotation sets. -/
def refreshAll (pools : Pools) : Pools :=
  (PoolKind.all.foldl (fun pools kind => pools.modify kind fun pool => pool.map refresh)
    pools).sortAnnotationSets

/-- The encoded size of every item of a section, in pool order. -/
def itemSizes (pools : Pools) (kind : SectionKind) : List Nat :=
  match kind.pool? with
  | some kind => (pools.pool kind).items.map encodedSize
  | none => []

/-- Encodes one item. -/
def encodeItem (pools : Pools) (kind : SectionKind) (index : UInt32) : Result Bytes :=
  match kind.pool? with
  | none => .error (Fault.of (.notAPool kind))
  | some pool =>
    match pools.get? pool index with
    | some item => (encode item).within (.entry kind index.toNat)
    | none => .error (Fault.of (.itemBeyondPool kind index (pools.pool pool).size))

end Pools
end DexImage
