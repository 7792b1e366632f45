import DexImage.Reference
/-! # Index remaps

The table from old to new indices that comes out of compacting or reordering a pool. An index
that was dropped, or never was in the pool, has no new index.
-/

namespace DexImage

structure IndexRemap where
  table : Array (Option UInt32)
deriving DecidableEq, Repr

namespace IndexRemap

def empty : IndexRemap := ⟨#[]⟩

def identity (size : Nat) : IndexRemap :=
  ⟨(Array.range size).map fun index => some index.toUInt32⟩

def size (remap : IndexRemap) : Nat := remap.table.size

def isEmpty (remap : IndexRemap) : Bool := remap.table.isEmpty

/-- The new index of an old one. -/
def get? (remap : IndexRemap) (old : UInt32) : Option UInt32 := (remap.table[old.toNat]?).join

def isIdentity (remap : IndexRemap) : Bool := remap == identity remap.size

/-- How many indices were dropped. -/
def removed (remap : IndexRemap) : Nat := remap.table.countP Option.isNone

end IndexRemap

/-- The edit that moves a present reference to the new index of its target. -/
def Slot.remap (slot : Slot) (remap : IndexRemap) : Edit :=
  match slot.index with
  | some old => .retarget (remap.get? old)
  | none => .keep

end DexImage
