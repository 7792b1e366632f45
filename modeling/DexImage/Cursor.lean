import DexImage.Bytes
import DexImage.Fault
/-! # Positioned reading

A cursor is a position in the bytes of an image together with the byte order of its fixed-width
numbers. Reading is a state transformer that keeps the state it has reached when it fails; a
primitive read that fails has not moved the position.
-/

namespace DexImage

/-- Steps that read on a state `σ` and may fail; the state reached is kept on failure. -/
abbrev Reading (σ : Type) := ExceptT Fault (StateM σ)

namespace Reading

variable {σ α : Type}

def fail (cause : Cause) : Reading σ α := throw (Fault.of cause)

/-- A step that yields a result and leaves the state as it is. -/
def ofResult : Result α → Reading σ α
  | .ok value => pure value
  | .error fault => throw fault

/-- Adds an enclosing site to a fault of the step. -/
def within (site : Site) (step : Reading σ α) : Reading σ α := fun state =>
  match step state with
  | (.ok value, state) => (.ok value, state)
  | (.error fault, state) => (.error (fault.within site), state)

/-- Runs a step once for each number below `count`, first to last, and lists the values. -/
def collect (count : Nat) (step : Nat → Reading σ α) : Reading σ (List α) :=
  go count 0 []
where
  go : Nat → Nat → List α → Reading σ (List α)
    | 0, _, found => pure found.reverse
    | left + 1, index, found => do
      let value ← step index
      go left (index + 1) (value :: found)

end Reading

/-- Why the bytes at hand do not start with a variable-length number. -/
def Cause.ofGroups : Leb128.GroupsFault → Cause
  | .cut taken => .varintCut taken
  | .tooLong limit => .varintTooLong limit

/-- A position in the bytes of an image. -/
structure Cursor where
  bytes : Array UInt8
  position : Nat
  bigEndian : Bool

abbrev Decoder := Reading Cursor

namespace Cursor

def ofBytes (bytes : Bytes) : Cursor := { bytes := bytes.toArray, position := 0, bigEndian := false }

/-- The bytes from the position on. -/
def rest (cursor : Cursor) : Bytes := cursor.bytes.toList.drop cursor.position

def remaining (cursor : Cursor) : Nat := cursor.bytes.size - cursor.position

/-- The next byte, which stays to be read. -/
def peek? (cursor : Cursor) : Option UInt8 := cursor.bytes[cursor.position]?

/-- At most `count` of the next bytes. -/
def window (cursor : Cursor) (count : Nat) : Bytes :=
  (cursor.bytes.extract cursor.position (cursor.position + count)).toList

end Cursor

namespace Decoder

open Reading

def position : Decoder Nat := do return (← get).position

def remaining : Decoder Nat := do return (← get).remaining

def setBigEndian (bigEndian : Bool) : Decoder Unit :=
  modify fun cursor => { cursor with bigEndian }

/-- The next `count` bytes. -/
def take (count : Nat) : Decoder Bytes := do
  let cursor ← get
  if cursor.bytes.size < cursor.position ∨ cursor.bytes.size - cursor.position < count then
    fail (.bytesMissing count cursor.position cursor.remaining)
  else
    set { cursor with position := cursor.position + count }
    return cursor.window count

/-- Moves to an offset, which may be the end of the image but not beyond it. -/
def seek (offset : Nat) : Decoder Unit := do
  let cursor ← get
  if cursor.bytes.size < offset then fail (.seekPastEnd offset cursor.bytes.size)
  else set { cursor with position := offset }

def u1 : Decoder UInt8 := do
  let cursor ← get
  match cursor.peek? with
  | some byte =>
    set { cursor with position := cursor.position + 1 }
    return byte
  | none => fail (.bytesMissing 1 cursor.position cursor.remaining)

/-- A number of `width` bytes in the byte order of the image. -/
def fixed (width : Nat) : Decoder Nat := do
  let bytes ← take width
  return if (← get).bigEndian then bytes.toNatBig else bytes.toNatLittle

def u2 : Decoder UInt16 := do return (← fixed 2).toUInt16

def u4 : Decoder UInt32 := do return (← fixed 4).toUInt32

/-- Reads a number in the named variable-length form, of at most `limit` bytes. -/
def varint {α : Type} (form : String) (limit : Nat)
    (decode : Bytes → Except Leb128.GroupsFault (α × Nat)) : Decoder α := do
  let cursor ← get
  match decode (cursor.window limit) with
  | .ok (value, length) =>
    set { cursor with position := cursor.position + length }
    return value
  | .error fault => within (.varint form cursor.position) (fail (.ofGroups fault))

def uleb128 : Decoder UInt32 := varint "uleb128" Leb128.maxLength32 Leb128.decodeUInt32

def uleb128p1 : Decoder Int32 := varint "uleb128p1" Leb128.maxLength32 Leb128.decodePlusOne

def sleb128 : Decoder Int32 := varint "sleb128" Leb128.maxLength32 Leb128.decodeInt32

end Decoder
end DexImage
