import DexImage.Header
import DexImage.MapList
import DexImage.Pools
/-! # Layout

A layout gives every section and item its offset. Sections are placed in a fixed order, and the
references to the items of a section learn their offsets as soon as it is placed, since the
encoding of class data takes more or fewer bytes with the offsets of the code. The image is then
written as planned.
-/

namespace DexImage

structure Layout where
  offsets : OffsetTable
  map : MapList
  dataOffset : UInt32
  fileSize : UInt32
deriving DecidableEq, Repr

/-- The state of a plan: what has been placed, the next free position, and the pools with the
references into the placed sections up to date. -/
structure Planning where
  layout : Layout
  position : Nat
  pools : Pools

namespace Layout

/-- Sections in the order in which they are written. Code stands before class data. -/
def order : List SectionKind :=
  [.header, .stringId, .typeId, .protoId, .fieldId, .methodId, .classDef, .typeList,
    .annotationSetRefList, .annotationSet, .code, .debugInfo, .stringData, .annotationItem,
    .encodedArray, .annotationsDirectory, .classData, .mapList]

/-- The size of an entry of an id table. -/
def idEntrySize : SectionKind → Nat
  | .stringId | .typeId => 4
  | .protoId => 12
  | .fieldId | .methodId => 8
  | .classDef => 32
  | _ => 0

def empty : Layout := ⟨.empty, .empty, 0, 0⟩

/-- An offset as a four-byte number. -/
def word (offset : Nat) : Result UInt32 :=
  if offset < UInt32.size then .ok offset.toUInt32 else .error (Fault.of (.offsetTooWide offset))

/-- Places items of the given sizes from a position on, each at a multiple of `alignment`; yields
their offsets and the position after the last one. -/
def placeItems (alignment : Nat) : (position : Nat) → List Nat → Array UInt32 →
    Result (Array UInt32 × Nat)
  | position, [], offsets => .ok (offsets, position)
  | position, size :: rest, offsets => do
    let start := position + Bytes.padding position alignment
    let offset ← word start
    placeItems alignment (start + size) rest (offsets.push offset)

/-- Tells the references into a section the offsets of their targets, up to the first reference
whose target has none. -/
def updateRefs (offsets : OffsetTable) (kind : PoolKind) (pools : Pools) : Outcome Pools :=
  let visitor : Visitor (Option Fault) := fun slot fault? =>
    match fault? with
    | some _ => (.keep, fault?)
    | none =>
      if slot.kind = kind then
        match slot.placement offsets with
        | .ok edit => (edit, none)
        | .error fault => (.keep, some fault)
      else (.keep, none)
  let (pools, fault?) := pools.visit visitor none
  ⟨fault?, pools⟩

/-- How many items a section has; header and map list are their only item. -/
def itemCount (pools : Pools) : SectionKind → Nat
  | .header | .mapList => 1
  | kind => pools.size kind

/-- Places the items of a section that starts at a position. -/
def placeSection (header : Header) (kind : SectionKind) (start : Nat) : Reading Planning Unit := do
  let planning ← get
  let finish (position : Nat) : Reading Planning Unit :=
    modify fun planning => { planning with position }
  match kind with
  | .header => finish (start + encodedSize header)
  | .mapList => finish (start + 4 + 12 * (planning.layout.map.entries.length + 1))
  | kind =>
    let sizes :=
      if kind.isIdTable then List.replicate (planning.pools.size kind) (idEntrySize kind)
      else planning.pools.itemSizes kind
    let alignment := if kind.isIdTable then 1 else kind.alignment
    let (offsets, position) ← Reading.ofResult (placeItems alignment start sizes #[])
    modify fun planning =>
      { planning with
        layout := { planning.layout with offsets := planning.layout.offsets.setRow kind offsets } }
    finish position
    -- Id tables are referred to by index, and string data only by the string ids.
    if !kind.isIdTable && kind != .stringData then
      match kind.pool? with
      | none => return
      | some pool =>
        let planning ← get
        let outcome := updateRefs planning.layout.offsets pool planning.pools
        set { planning with pools := outcome.value }
        match outcome.fault? with
        | some fault => throw fault
        | none => return

/-- Places a section, unless it has no items, and enters it into the map. -/
def planSection (header : Header) (kind : SectionKind) : Reading Planning Unit := do
  let planning ← get
  let count := itemCount planning.pools kind
  if count = 0 then return
  let start := planning.position + Bytes.padding planning.position kind.alignment
  if planning.layout.dataOffset = 0 && !kind.isIdTable && kind != .header then
    let dataOffset ← Reading.ofResult (word start)
    set { planning with layout := { planning.layout with dataOffset } }
  placeSection header kind start
  let offset ← Reading.ofResult (word start)
  modify fun planning =>
    let entries := planning.layout.map.entries ++ [⟨kind, count.toUInt32, offset⟩]
    { planning with layout := { planning.layout with map := ⟨entries⟩ } }

/-- Places every section in turn. -/
def planSections (header : Header) : List SectionKind → Reading Planning Unit
  | [] => pure ()
  | kind :: rest => do
    planSection header kind
    planSections header rest

/-- Plans the image of a header and refreshed pools. The pools learn the offsets that have been
given out even if the plan fails. -/
def plan (header : Header) (pools : Pools) : Result Layout × Pools :=
  let step : Reading Planning Layout := do
    planSections header order
    let planning ← get
    let fileSize ← Reading.ofResult (word planning.position)
    return { planning.layout with fileSize }
  let (result, planning) := step { layout := .empty, position := 0, pools }
  (result, planning.pools)

/-- The span of a section. -/
def span (layout : Layout) (kind : SectionKind) : Span :=
  match layout.map.get? kind with
  | some entry => ⟨entry.size, entry.offset⟩
  | none => .zero

/-- The header with the sizes and offsets of the layout. -/
def applyTo (layout : Layout) (header : Header) : Header :=
  { refresh header with
    fileSize := layout.fileSize
    link := .zero
    mapOffset := (layout.span .mapList).offset
    stringIds := layout.span .stringId
    typeIds := layout.span .typeId
    protoIds := layout.span .protoId
    fieldIds := layout.span .fieldId
    methodIds := layout.span .methodId
    classDefs := layout.span .classDef
    data := ⟨layout.fileSize - layout.dataOffset, layout.dataOffset⟩
    container := header.container.map fun _ => ⟨layout.fileSize, 0⟩ }

/-- Fills the image up to the next multiple of `alignment`. -/
def pad (image : Array UInt8) (alignment : Nat) : Array UInt8 :=
  image ++ Bytes.zeros (Bytes.padding image.size alignment)

/-- Appends `count` items of a section from `index` on. -/
def emitItems (pools : Pools) (kind : SectionKind) :
    (count : Nat) → (index : UInt32) → Array UInt8 → Result (Array UInt8)
  | 0, _, image => .ok image
  | count + 1, index, image => do
    let bytes ← pools.encodeItem kind index
    emitItems pools kind count (index + 1) (pad image kind.alignment ++ bytes)

/-- Appends the section of a map entry. -/
def emitSection (header : Header) (pools : Pools) (layout : Layout) (entry : MapEntry)
    (image : Array UInt8) : Result (Array UInt8) := do
  let image := pad image entry.kind.alignment
  if image.size ≠ entry.offset.toNat then
    throw (Fault.of (.sectionMisplaced entry.kind entry.offset.toNat image.size))
  match entry.kind with
  | .header => return image ++ (← encode header)
  | .mapList => return image ++ (← encode layout.map)
  | .stringId =>
    return (layout.offsets.row .stringData).foldl
      (fun image offset => image ++ Bytes.ofUInt32 offset) image
  | kind => emitItems pools kind entry.size.toNat 0 image

def emitSections (header : Header) (pools : Pools) (layout : Layout) :
    List MapEntry → Array UInt8 → Result (Array UInt8)
  | [], image => .ok image
  | entry :: rest, image => do
    emitSections header pools layout rest (← emitSection header pools layout entry image)

/-- Writes the image that a layout describes; the header already has the planned spans. -/
def emit (header : Header) (pools : Pools) (layout : Layout) : Result Bytes := do
  let image ← emitSections header pools layout layout.map.entries #[]
  if image.size ≠ layout.fileSize.toNat then
    throw (Fault.of (.imageMissized image.size layout.fileSize.toNat))
  return image.toList

end Layout
end DexImage
