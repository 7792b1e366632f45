import DexImage.Bytes
import DexImage.Fault
import DexImage.Total
/-! # Tracked lists

An ordered list of encodable children that remembers whether it may have been edited since it
was last refreshed. Operations that hand out a child for editing count as edits; operations
that would leave the list as it is do not.
-/

namespace DexImage

/-- A part of an image that has an encoding of its own. -/
class Encodable (α : Type) where
  /-- How many bytes `encode` yields. -/
  encodedSize : α → Nat
  encode : α → Result Bytes
  /-- Brings what derives from the children up to date. -/
  refresh : α → α
  /-- Whether an edit may have happened since the last refresh. -/
  isDirty : α → Bool

export Encodable (encodedSize encode refresh isDirty)

/-- The encodings of a list of parts, one after the other; the first fault wins. -/
def encodeAll {α : Type} (encodeOne : α → Result Bytes) : List α → Result Bytes
  | [] => .ok []
  | part :: rest => do
    let bytes ← encodeOne part
    return bytes ++ (← encodeAll encodeOne rest)

structure TrackedList (α : Type) where
  items : List α
  dirty : Bool
deriving Repr

/-- An edit of all children where they are, which may exchange them but neither adds nor drops one. -/
structure SlotsEdit (α : Type) where
  run : List α → List α
  length_run : ∀ items, (run items).length = items.length

namespace TrackedList

variable {α : Type}

def empty : TrackedList α := ⟨[], false⟩

def ofList (items : List α) : TrackedList α := ⟨items, false⟩

/-- The edit mark takes no part in comparison. -/
instance [BEq α] : BEq (TrackedList α) := ⟨fun a b => a.items == b.items⟩

def length (list : TrackedList α) : Nat := list.items.length

def isEmpty (list : TrackedList α) : Bool := list.items.isEmpty

def get? (list : TrackedList α) (slot : Nat) : Option α := list.items[slot]?

def markDirty (list : TrackedList α) : TrackedList α := { list with dirty := true }

/-- Applies an edit to the child in a slot, if there is one; the list counts as edited anyway. -/
def modify (list : TrackedList α) (slot : Nat) (edit : α → α) : TrackedList α :=
  ⟨list.items.modify slot edit, true⟩

/-- Hands out all children for an edit, be it one after the other or as a whole; the list counts as
edited anyway. -/
def modifyAll (list : TrackedList α) (edit : SlotsEdit α) : TrackedList α := ⟨edit.run list.items, true⟩

def push (list : TrackedList α) (item : α) : TrackedList α := ⟨list.items ++ [item], true⟩

/-- Inserts before the child in a slot, or at the end when there is none. -/
def insert (list : TrackedList α) (slot : Nat) (item : α) : TrackedList α :=
  ⟨list.items.take slot ++ item :: list.items.drop slot, true⟩

def remove (list : TrackedList α) (slot : Nat) : TrackedList α :=
  if slot < list.length then ⟨list.items.eraseIdx slot, true⟩ else list

def truncate (list : TrackedList α) (length : Nat) : TrackedList α :=
  if length < list.length then ⟨list.items.take length, true⟩ else list

/-- Cuts the list to a length or fills it up to that length. -/
def resize (list : TrackedList α) (length : Nat) (fill : α) : TrackedList α :=
  if length = list.length then list
  else ⟨list.items.take length ++ List.replicate (length - list.length) fill, true⟩

/-- Like `resize`, where each new child may be another one; `fill` gives the next of them. -/
def resizeWith (list : TrackedList α) (length : Nat) (fill : Nat → α) : TrackedList α :=
  if length = list.length then list
  else ⟨list.items.take length ++ (List.range (length - list.length)).map fill, true⟩

theorem resizeWith_const (list : TrackedList α) (length : Nat) (fill : α) :
    list.resizeWith length (fun _ => fill) = list.resize length fill := by
  rw [resizeWith, resize, List.map_const', List.length_range]

def clear (list : TrackedList α) : TrackedList α := list.truncate 0

variable [Encodable α]

/-- The offset of a slot from the start of the first child. -/
def offsetOf (list : TrackedList α) (slot : Nat) : Nat :=
  total encodedSize (list.items.take slot)

/-- The slot whose child starts at an offset from the start of the first child. -/
def slotAt? (list : TrackedList α) (offset : Nat) : Option Nat :=
  go list.items 0 0
where
  go : List α → Nat → Nat → Option Nat
    | [], _, _ => none
    | item :: rest, slot, start =>
      if start = offset then some slot else go rest (slot + 1) (start + encodedSize item)

instance : Encodable (TrackedList α) where
  encodedSize list := total encodedSize list.items
  encode list := encodeAll encode list.items
  refresh list := ⟨list.items.map refresh, false⟩
  isDirty list := list.dirty || list.items.any isDirty

end TrackedList
end DexImage
