import DexImage.Value.Basic
/-! # Encoded arrays

A counted run of encoded values, which holds the initial values of static fields. While it is
being populated, an array may have placeholders; one that is left is written as a null.
-/

namespace DexImage

/-- A value, or a placeholder for one. -/
abbrev ValueSlot := Option EncodedValue

instance : Encodable ValueSlot where
  encodedSize slot := (slot.getD .null).encodedSize
  encode slot := (slot.getD .null).encode
  refresh slot := slot
  isDirty _ := false

structure EncodedArray where
  slots : TrackedList ValueSlot
deriving BEq, Repr

namespace EncodedArray

def empty : EncodedArray := ⟨.empty⟩

/-- The number of slots, placeholders included. -/
def length (array : EncodedArray) : Nat := array.slots.length

def isEmpty (array : EncodedArray) : Bool := array.slots.isEmpty

def slot? (array : EncodedArray) (index : Nat) : Option ValueSlot := array.slots.get? index

/-- The value at an index, if there is one that is not a placeholder. -/
def get? (array : EncodedArray) (index : Nat) : Option EncodedValue := (array.slot? index).join

def push (array : EncodedArray) (value : EncodedValue) : EncodedArray :=
  ⟨array.slots.push (some value)⟩

/-- Fills the array up with placeholders to at least the given length. -/
def ensureLength (array : EncodedArray) (length : Nat) : EncodedArray :=
  if array.length < length then ⟨array.slots.resize length none⟩ else array

/-- Fills the array up with placeholders to a length, or cuts it to that length. -/
def setLength (array : EncodedArray) (length : Nat) : EncodedArray :=
  if length < array.length then ⟨array.slots.truncate length⟩ else array.ensureLength length

/-- Replaces a slot that exists. -/
def putSlot (array : EncodedArray) (index : Nat) (slot : ValueSlot) : EncodedArray :=
  ⟨array.slots.modify index fun _ => slot⟩

def set (array : EncodedArray) (index : Nat) (value : EncodedValue) : EncodedArray :=
  (array.ensureLength (index + 1)).putSlot index (some value)

/-- The slot's own value if it is of the given kind, else a fresh one of that kind. -/
def filled (kind : ValueKind) (slot : ValueSlot) : EncodedValue :=
  match slot with
  | some value => if value.kind = kind then value else .ofKind kind
  | none => .ofKind kind

/-- The value of a kind at an index. The array grows as needed, and a placeholder or a value of
another kind gives way to a fresh one. -/
def getOrCreate (array : EncodedArray) (kind : ValueKind) (index : Nat) :
    EncodedValue × EncodedArray :=
  let grown := array.ensureLength (index + 1)
  let value := filled kind (grown.get? index)
  (value, grown.putSlot index (some value))

/-- Like `getOrCreate`, for the kind of value that refers to entries of a section. -/
def getOrCreateRef (array : EncodedArray) (target : SectionKind) (index : Nat) :
    Result (EncodedValue × EncodedArray) :=
  match ValueKind.forSection? target with
  | some kind => .ok (array.getOrCreate kind index)
  | none => .error (Fault.of (.noValueRefersTo target))

/-- Cuts off the placeholders at the end. -/
def trimmed (array : EncodedArray) : EncodedArray :=
  ⟨array.slots.truncate (array.slots.items.reverse.dropWhile Option.isNone).length⟩

def isComplete (array : EncodedArray) : Bool := array.slots.items.all Option.isSome

/-- Takes over another array's length and, slot by slot, its values with their references
translated. After a fault the slots before the failing one have been taken over. -/
def merge {τ : Type} (translator : Translator τ) (array other : EncodedArray) :
    StateM τ (Outcome EncodedArray) :=
  go 0 other.slots.items (array.setLength other.length)
where
  go : Nat → List ValueSlot → EncodedArray → StateM τ (Outcome EncodedArray)
    | _, [], array => pure ⟨none, array⟩
    | index, none :: rest, array => go (index + 1) rest (array.putSlot index none)
    | index, some coming :: rest, array => do
      let created := (array.getOrCreate coming.kind index).2
      match ← EncodedValue.merge translator coming with
      | .ok value => go (index + 1) rest (created.putSlot index (some value))
      | .error fault => pure ⟨some fault, created⟩

instance : Encodable EncodedArray where
  encodedSize array := Bytes.varCountLength array.length + encodedSize array.slots
  encode array := do
    return Bytes.ofVarCount array.length ++ (← encode array.slots)
  refresh array := ⟨refresh array.slots⟩
  isDirty array := isDirty array.slots

instance : Referring EncodedArray where
  uses array :=
    (array.slots.items.filterMap id).flatMap fun value => taggedUses .staticValue value.uses
  visit visitor array := do
    let items ← visitAll (fun slot => match slot with
      | some value => return some (← value.visit visitor)
      | none => pure none) array.slots.items
    return ⟨⟨items, true⟩⟩

def decode : Decoder EncodedArray := do
  let count ← Decoder.uleb128
  let values ← Reading.collect count.toNat fun index =>
    Reading.within (.nth "element" index) EncodedValue.decode
  return ⟨.ofList (values.map some)⟩

end EncodedArray
end DexImage
