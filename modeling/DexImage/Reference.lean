import DexImage.Fault
/-! # References

An item refers to an entry of an id table by its index, and to a data item by the offset at
which that item is laid out. Both kinds of reference hold the index of the target in its pool;
a data reference also knows the offset that the last layout gave to that very target, if any.

A reference shows itself to passes over a whole image as a `Slot`, and the pass answers with
the `Edit` to make.
-/

namespace DexImage

/-- The index that stands for an absent reference in a fixed-width field. -/
def noIndex : UInt32 := 0xffffffff

/-- Offsets of laid out items, by section and pool index. -/
structure OffsetTable where
  rows : List (SectionKind × Array UInt32)
deriving DecidableEq, Repr

namespace OffsetTable

def empty : OffsetTable := ⟨[]⟩

def row? (table : OffsetTable) (kind : SectionKind) : Option (Array UInt32) :=
  table.rows.lookup kind

/-- The offsets of a section, none if it has no row. -/
def row (table : OffsetTable) (kind : SectionKind) : Array UInt32 := (table.row? kind).getD #[]

def offset? (table : OffsetTable) (kind : SectionKind) (index : UInt32) : Option UInt32 := do
  let offsets ← table.row? kind
  offsets[index.toNat]?

def setRow (table : OffsetTable) (kind : SectionKind) (offsets : Array UInt32) : OffsetTable :=
  ⟨(kind, offsets) :: table.rows.filter fun row => row.1 != kind⟩

/-- Records the offset of one item; lower indices that have none yet get offset zero. -/
def insert (table : OffsetTable) (kind : SectionKind) (index offset : UInt32) : OffsetTable :=
  let offsets := table.row kind
  let filled := offsets ++ Array.replicate (index.toNat + 1 - offsets.size) 0
  table.setRow kind (filled.set! index.toNat offset)

end OffsetTable

/-- What a pass over references sees of one of them. -/
structure Slot where
  kind : PoolKind
  index : Option UInt32
  usage : Usage
deriving DecidableEq, Repr

/-- What a pass over references does to one of them. -/
inductive Edit where
  | keep
  | retarget (index : Option UInt32)
  /-- Records the offset at which the target is laid out. -/
  | place (offset : UInt32)
deriving DecidableEq, Repr

/-- A reference that is present, as an edge of the graph of items. -/
structure Use where
  kind : PoolKind
  index : UInt32
  usage : Usage
deriving DecidableEq, Repr

def Slot.use? (slot : Slot) : Option Use :=
  slot.index.map fun index => { kind := slot.kind, index, usage := slot.usage }

/-- The edit that records the offset of a slot's target. -/
def Slot.placement (slot : Slot) (offsets : OffsetTable) : Result Edit :=
  match slot.index with
  | none => .ok .keep
  | some index =>
    match offsets.offset? slot.kind.toSection index with
    | some offset => .ok (.place offset)
    | none => .error (Fault.of (.notLaidOut slot.kind.toSection index))

/-- A pass over references that carries a state from each slot to the next. -/
abbrev Visitor (σ : Type) := Slot → StateM σ Edit

/-- A reference to an entry of an id table. -/
structure IdRef (target : PoolKind) where
  index : Option UInt32
deriving DecidableEq, Repr

namespace IdRef

variable {target : PoolKind}

def of (index : UInt32) : IdRef target := ⟨some index⟩

def absent : IdRef target := ⟨none⟩

/-- From a fixed-width field, where `noIndex` means absent. -/
def ofRaw (raw : UInt32) : IdRef target := if raw = noIndex then absent else of raw

/-- From a field that holds one more than the index; a negative number means absent. -/
def ofPlusOne (value : Int32) : IdRef target := if value < 0 then absent else of value.toUInt32

def isPresent (ref : IdRef target) : Bool := ref.index.isSome

/-- The value for a fixed-width field. -/
def raw (ref : IdRef target) : UInt32 := ref.index.getD noIndex

/-- The value for a field that is written one higher. -/
def plusOne (ref : IdRef target) : Int32 := (ref.index.map UInt32.toInt32).getD (-1)

/-- The index, where the format has no way to write an absent reference. -/
def required (ref : IdRef target) : Result UInt32 :=
  match ref.index with
  | some index => .ok index
  | none => .error (Fault.of .targetMissing)

def slot (ref : IdRef target) (usage : Usage) : Slot := ⟨target, ref.index, usage⟩

def use? (ref : IdRef target) (usage : Usage) : Option Use := (ref.slot usage).use?

def edited (ref : IdRef target) : Edit → IdRef target
  | .retarget index => ⟨index⟩
  | .keep | .place _ => ref

def visit {σ : Type} (visitor : Visitor σ) (usage : Usage) (ref : IdRef target) :
    StateM σ (IdRef target) := do
  return ref.edited (← visitor (ref.slot usage))

/-- The reference as a diagnostic text. -/
def text (ref : IdRef target) : String :=
  match ref.index with
  | some index => "#" ++ Text.decimal index.toNat
  | none => "#none"

end IdRef

/-- A reference to a data item: absent, with no offset for its present target yet, or placed. -/
inductive DataRef (target : PoolKind) where
  | absent
  | unplaced (index : UInt32)
  | placed (index offset : UInt32)
deriving DecidableEq, Repr

namespace DataRef

variable {target : PoolKind}

def index : DataRef target → Option UInt32
  | absent => none
  | unplaced index | placed index _ => some index

def isPresent (ref : DataRef target) : Bool := ref.index.isSome

/-- Two data references are the same when their targets are, wherever those are laid out. -/
instance : BEq (DataRef target) := ⟨fun a b => a.index == b.index⟩

/-- Retargeting to another index forgets the offset. -/
def setTarget (ref : DataRef target) (index : UInt32) : DataRef target :=
  if ref.index = some index then ref else unplaced index

/-- The offset to write; zero when absent. -/
def offset : DataRef target → Result UInt32
  | absent => .ok 0
  | placed _ offset => .ok offset
  | unplaced index => .error (Fault.of (.offsetMissing index))

/-- The offset to reckon with in sizes. -/
def knownOffset : DataRef target → UInt32
  | placed _ offset => offset
  | _ => 0

def slot (ref : DataRef target) (usage : Usage) : Slot := ⟨target, ref.index, usage⟩

def use? (ref : DataRef target) (usage : Usage) : Option Use := (ref.slot usage).use?

def edited (ref : DataRef target) : Edit → DataRef target
  | .keep => ref
  | .retarget none => absent
  | .retarget (some index) => ref.setTarget index
  | .place offset =>
    match ref.index with
    | some index => placed index offset
    | none => ref

def visit {σ : Type} (visitor : Visitor σ) (usage : Usage) (ref : DataRef target) :
    StateM σ (DataRef target) := do
  return ref.edited (← visitor (ref.slot usage))

/-- The reference as a diagnostic text. -/
def text : DataRef target → String
  | absent => "#none"
  | unplaced index => "#" ++ Text.decimal index.toNat ++ "@?"
  | placed index offset =>
    "#" ++ Text.decimal index.toNat ++ "@0x" ++ Text.hex offset.toNat

end DataRef
end DexImage
