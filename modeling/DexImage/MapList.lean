import DexImage.Cursor
import DexImage.Text.Lines
import DexImage.TrackedList
/-! # The map list

The table of contents of an image: for each section its kind, its number of items and its offset.
Entries for kinds of section that are not known are passed over when a map is read.
-/

namespace DexImage

structure MapEntry where
  kind : SectionKind
  size : UInt32
  offset : UInt32
deriving DecidableEq, Repr

namespace MapEntry

def bytes (entry : MapEntry) : Bytes :=
  Bytes.ofUInt16 entry.kind.mapCode ++ Bytes.ofUInt16 0 ++ Bytes.ofUInt32 entry.size
    ++ Bytes.ofUInt32 entry.offset

/-- Reads an entry, unless it is for an unknown kind of section. -/
def decode? : Decoder (Option MapEntry) := do
  let code ← Decoder.u2
  discard Decoder.u2
  let size ← Decoder.u4
  let offset ← Decoder.u4
  return (SectionKind.ofMapCode? code).map fun kind => { kind, size, offset }

end MapEntry

structure MapList where
  entries : List MapEntry
deriving DecidableEq, Repr

namespace MapList

def empty : MapList := ⟨[]⟩

def decode : Decoder MapList := do
  let start ← Decoder.position
  let count ← Decoder.u4
  if (← Decoder.remaining) < count.toNat * 12 then Reading.fail (.mapCut start count.toNat)
  let entries ← Reading.collect count.toNat fun _ => MapEntry.decode?
  return ⟨entries.filterMap id⟩

/-- The first entry for a kind of section. -/
def get? (map : MapList) (kind : SectionKind) : Option MapEntry :=
  map.entries.find? fun entry => entry.kind == kind

/-- Whether no entry's offset is below that of the entry before it. -/
def isOrdered : List MapEntry → Bool
  | [] | [_] => true
  | first :: second :: rest => first.offset ≤ second.offset && isOrdered (second :: rest)

/-- Whether the entries lie within an image of a size, in order, with the header at offset zero. -/
def isValid (map : MapList) (fileSize : Nat) : Bool :=
  (map.entries.all fun entry => entry.offset.toNat ≤ fileSize) && isOrdered map.entries
    && match map.get? .header with
      | some entry => entry.offset == 0
      | none => false

instance : Encodable MapList where
  encodedSize map := 4 + 12 * map.entries.length
  encode map := .ok (Bytes.ofCount map.entries.length ++ map.entries.flatMap MapEntry.bytes)
  refresh map := ⟨map.entries.mergeSort fun a b => a.offset ≤ b.offset⟩
  isDirty _ := false

open Text in
/-- The readable form of the map, in aligned columns. -/
def lines (map : MapList) : Lines :=
  map.entries.flatMap fun entry =>
    Lines.line (padRight 26 entry.kind.name ++ " 0x" ++ hexPadded 8 entry.offset.toNat ++ " "
      ++ padLeft 6 ' ' (decimal entry.size.toNat))

end MapList
end DexImage
