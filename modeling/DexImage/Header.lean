import DexImage.Cursor
import DexImage.Digest.Adler32
import DexImage.Digest.Sha1
import DexImage.Text.Lines
import DexImage.TrackedList
/-! # The header

The record at the start of an image: magic, digests, byte order and the place of every table.
From version 41 on, the place of the image within a container follows, and bytes of a longer
header than the known one are kept.
-/

namespace DexImage

/-- The first `size` bytes, filled up with zeros. -/
def Bytes.toVector (size : Nat) (bytes : Bytes) : Vector UInt8 size :=
  Vector.ofFn fun position => bytes.getD position 0

/-- The next `size` bytes. -/
def Decoder.array (size : Nat) : Decoder (Vector UInt8 size) := do
  return (← take size).toVector size

/-- The number of entries of a table and its offset. -/
structure Span where
  size : UInt32
  offset : UInt32
deriving DecidableEq, Repr

namespace Span

def zero : Span := ⟨0, 0⟩

def bytes (span : Span) : Bytes := Bytes.ofUInt32 span.size ++ Bytes.ofUInt32 span.offset

def decode : Decoder Span := do
  let size ← Decoder.u4
  return ⟨size, ← Decoder.u4⟩

end Span

/-- The size of the container of several images and the offset of this one's header in it. -/
structure Container where
  size : UInt32
  headerOffset : UInt32
deriving DecidableEq, Repr

structure Header where
  magic : Vector UInt8 8
  checksum : UInt32
  signature : Vector UInt8 20
  fileSize : UInt32
  headerSize : UInt32
  endianTag : UInt32
  link : Span
  mapOffset : UInt32
  stringIds : Span
  typeIds : Span
  protoIds : Span
  fieldIds : Span
  methodIds : Span
  classDefs : Span
  data : Span
  container : Option Container
  /-- What lies between the known fields and the end of the declared size. -/
  surplus : Bytes
deriving DecidableEq, Repr

namespace Header

/-- The tag as it reads in an image whose least significant bytes come first. -/
def littleEndianTag : UInt32 := 0x12345678

def bigEndianTag : UInt32 := 0x78563412

/-- The size of the fields that every version has. -/
def baseSize : Nat := 0x70

/-- The size of the known fields with those of the container. -/
def containerSize : Nat := 0x78

def checksumOffset : Nat := 8
def signatureOffset : Nat := 12
def fileSizeOffset : Nat := 32
def endianTagOffset : Nat := 40

def leastVersion : Nat := 35
def greatestVersion : Nat := 41

/-- The first version with container fields. -/
def containerVersion : Nat := 41

/-- The magic with the version given by its three digits. -/
def magicOf (a b c : UInt8) : Vector UInt8 8 := #v[0x64, 0x65, 0x78, 0x0a, a, b, c, 0x00]

/-- The version that a magic spells in three decimal digits. -/
def versionOf? (magic : Vector UInt8 8) : Option Nat :=
  let isDigit (byte : UInt8) : Bool := 0x30 ≤ byte && byte ≤ 0x39
  let digit (byte : UInt8) : Nat := byte.toNat - 0x30
  match magic.toList with
  | [0x64, 0x65, 0x78, 0x0a, a, b, c, 0x00] =>
    if isDigit a && isDigit b && isDigit c then some (100 * digit a + 10 * digit b + digit c)
    else none
  | _ => none

/-- The header of an image of version 35 with no tables. -/
def base : Header :=
  { magic := magicOf 0x30 0x33 0x35, checksum := 0, signature := Vector.replicate 20 0,
    fileSize := 0, headerSize := 0x70, endianTag := littleEndianTag, link := .zero, mapOffset := 0,
    stringIds := .zero, typeIds := .zero, protoIds := .zero, fieldIds := .zero,
    methodIds := .zero, classDefs := .zero, data := .zero, container := none, surplus := [] }

def version? (header : Header) : Option Nat := versionOf? header.magic

/-- The size of the fields that are known for this header. -/
def knownSize (header : Header) : Nat :=
  if header.container.isSome then containerSize else baseSize

instance : Encodable Header where
  encodedSize header := header.knownSize + header.surplus.length
  encode header := .ok <|
    header.magic.toList ++ Bytes.ofUInt32 header.checksum ++ header.signature.toList
      ++ Bytes.ofUInt32 header.fileSize ++ Bytes.ofUInt32 header.headerSize
      ++ Bytes.ofUInt32 littleEndianTag ++ header.link.bytes ++ Bytes.ofUInt32 header.mapOffset
      ++ header.stringIds.bytes ++ header.typeIds.bytes ++ header.protoIds.bytes
      ++ header.fieldIds.bytes ++ header.methodIds.bytes ++ header.classDefs.bytes
      ++ header.data.bytes
      ++ (match header.container with
        | some container =>
          Bytes.ofUInt32 container.size ++ Bytes.ofUInt32 container.headerOffset
        | none => [])
      ++ header.surplus
  refresh header :=
    { header with
      headerSize := (header.knownSize + header.surplus.length).toUInt32
      endianTag := littleEndianTag }
  isDirty _ := false

/-- The header for a version, of which three digits are kept. Container fields come and go with
the versions that have them. -/
def setVersion (header : Header) (version : Nat) : Header :=
  let shown := min version 999
  let digit (value : Nat) : UInt8 := (0x30 + value % 10).toUInt8
  let magic :=
    ((header.magic.set 4 (digit (shown / 100))).set 5 (digit (shown / 10))).set 6 (digit shown)
  let container :=
    if containerVersion ≤ version then some (header.container.getD ⟨0, 0⟩) else none
  refresh { header with magic, container }

def ofVersion (version : Nat) : Header := base.setVersion version

/-- Reads the fields that follow the magic. -/
def decodeFields (magic : Vector UInt8 8) : Decoder Header := do
  let checksum ← Decoder.u4
  let signature ← Decoder.array 20
  let fileSize ← Decoder.u4
  let headerSize ← Decoder.u4
  let endianTag ← Decoder.u4
  let link ← Span.decode
  let mapOffset ← Decoder.u4
  let stringIds ← Span.decode
  let typeIds ← Span.decode
  let protoIds ← Span.decode
  let fieldIds ← Span.decode
  let methodIds ← Span.decode
  let classDefs ← Span.decode
  let data ← Span.decode
  return { magic, checksum, signature, fileSize, headerSize, endianTag, link, mapOffset, stringIds,
           typeIds, protoIds, fieldIds, methodIds, classDefs, data, container := none,
           surplus := [] }

/-- Reads a header. The byte order tag is looked up first and sets the order in which the other
fields are read. A strict read refuses versions and bytes that are not known. -/
def decode (strict : Bool) : Decoder Header := do
  let cursor ← get
  let start := cursor.position
  if cursor.bytes.size < start + baseSize then
    Reading.fail (.headerCut baseSize start cursor.remaining)
  let magic ← Decoder.array 8
  let some version := versionOf? magic | Reading.fail (.badMagic magic.toList)
  if strict && (version < leastVersion || greatestVersion < version) then
    Reading.fail (.unsupportedVersion version)
  let tagBytes := cursor.bytes.extract (start + endianTagOffset) (start + endianTagOffset + 4)
  let tag := (Bytes.toNatLittle tagBytes.toList).toUInt32
  if tag = littleEndianTag then Decoder.setBigEndian false
  else if tag = bigEndianTag then Decoder.setBigEndian true
  else Reading.fail (.badEndianTag tag)
  let header ← decodeFields magic
  let declared := header.headerSize.toNat
  if declared < baseSize then Reading.fail (.headerTooSmall declared baseSize)
  let container ←
    if containerVersion ≤ version && containerSize ≤ declared then do
      let size ← Decoder.u4
      pure (some ⟨size, ← Decoder.u4⟩)
    else pure none
  let header := { header with container }
  let known := header.knownSize
  if known < declared then
    if strict then Reading.fail (.headerTooLarge declared known)
    return { header with surplus := ← Decoder.take (declared - known) }
  else return header

/-- The checksum over what follows the checksum field. -/
def checksumOf (image : Bytes) : UInt32 := Digest.adler32 (image.drop signatureOffset)

/-- The digest over what follows the signature field. -/
def signatureOf (image : Bytes) : Vector UInt8 20 :=
  (Digest.sha1 (image.drop fileSizeOffset)).toVector 20

/-- Computes the checksum of an image and stores it in the image and the header. -/
def updateChecksum (header : Header) (image : Bytes) : Result (Header × Bytes) :=
  if image.length < signatureOffset then .error (Fault.of (.checksumFieldMissing image.length))
  else
    let checksum := checksumOf image
    .ok ({ header with checksum }, image.overwrite checksumOffset (Bytes.ofUInt32 checksum))

/-- Computes the signature of an image and stores it in the image and the header. The checksum
covers the signature and has to be computed after it. -/
def updateSignature (header : Header) (image : Bytes) : Result (Header × Bytes) :=
  if image.length < fileSizeOffset then .error (Fault.of (.signatureFieldMissing image.length))
  else
    let signature := signatureOf image
    .ok ({ header with signature }, image.overwrite signatureOffset signature.toList)

/-- Stores the signature of an image and then its checksum. -/
def updateDigests (header : Header) (image : Bytes) : Result (Header × Bytes) := do
  let (header, image) ← header.updateSignature image
  header.updateChecksum image

def verifiesChecksum (header : Header) (image : Bytes) : Bool :=
  checksumOf image == header.checksum

def verifiesSignature (header : Header) (image : Bytes) : Bool :=
  signatureOf image == header.signature

/-- The places of the tables and of the data, with their names. -/
def spans (header : Header) : List (String × Span) :=
  [("string_ids", header.stringIds), ("type_ids", header.typeIds), ("proto_ids", header.protoIds),
    ("field_ids", header.fieldIds), ("method_ids", header.methodIds),
    ("class_defs", header.classDefs), ("data", header.data)]

open Text in
/-- The readable form of the header. -/
def lines (header : Header) : Lines :=
  let version := match header.version? with
    | some version => decimalPadded 3 version
    | none => "???"
  let offset (value : UInt32) : String := "0x" ++ hex value.toNat
  Lines.line (".header version " ++ version) ++ Lines.indent (
    Lines.line ("checksum 0x" ++ hexPadded 8 header.checksum.toNat)
      ++ Lines.line ("signature " ++ hexBytes header.signature.toList)
      ++ Lines.line ("file_size " ++ offset header.fileSize)
      ++ Lines.line ("header_size " ++ offset header.headerSize)
      ++ Lines.line ("map_off " ++ offset header.mapOffset)
      ++ (header.spans.flatMap fun (name, span) =>
        Lines.line (name ++ " " ++ decimal span.size.toNat ++ " @ " ++ offset span.offset))
      ++ (match header.container with
        | some container =>
          Lines.line ("container_size " ++ offset container.size ++ " header_offset "
            ++ offset container.headerOffset)
        | none => [])
      ++ (if header.surplus.isEmpty then []
        else Lines.line ("unknown " ++ decimal header.surplus.length ++ " bytes")))

end Header
end DexImage
