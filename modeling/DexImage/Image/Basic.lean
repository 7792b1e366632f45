import DexImage.Layout
import DexImage.Loader
/-! # Images

A whole image: header, pools and map. Reading takes the pools in the order of the id tables and
loads data items as they are referred to. Writing brings every item up to date, plans the layout,
and computes signature and checksum last, in this order.
-/

namespace DexImage

/-- How strict reading is. -/
structure ReadOptions where
  /-- Refuse an image whose checksum does not match. -/
  verifyChecksum : Bool
  /-- Refuse unknown versions and surplus bytes in the header. -/
  strictHeader : Bool
  /-- Refuse data items that break a rule of the format. -/
  strictItems : Bool
deriving DecidableEq, Repr

def ReadOptions.lenient : ReadOptions := ⟨false, false, false⟩

structure Image where
  header : Header
  pools : Pools
  /-- The map as last read or written. -/
  map : MapList
deriving BEq

namespace Image

/-- An empty image of a version. -/
def ofVersion (version : Nat) : Image :=
  { header := .ofVersion version, pools := .empty, map := .empty }

open Loading

/-- Appends the strings that the string ids point at, in the order of the ids. -/
def loadStrings (span : Span) : Loading Unit := do
  if span.size = 0 then return
  Reading.within (.table .stringId) (ofDecoder (Decoder.seek span.offset.toNat))
  discard <| Reading.collect span.size.toNat fun index => do
    let offset ← ofDecoder Decoder.u4
    let string ← detour (.entry .stringId index) offset.toNat
      (Reading.within (.itemAt .stringData offset.toNat) (ofDecoder StringData.decode))
    discard (append .stringId string)

/-- Appends the entries of an id table. -/
def loadTable (kind : PoolKind) (span : Span) : Loading Unit := do
  if span.size = 0 then return
  Reading.within (.table kind.toSection) (ofDecoder (Decoder.seek span.offset.toNat))
  discard <| Reading.collect span.size.toNat fun index => do
    let item ← Reading.within (.entry kind.toSection index) (loadItem kind)
    discard (append kind item)

/-- Reads the map, if the header has an offset for one. -/
def decodeMap (header : Header) : Decoder MapList := do
  if header.mapOffset = 0 then return .empty
  Reading.within (.inSection .mapList) (Decoder.seek header.mapOffset.toNat)
  Reading.within (.inSection .mapList) MapList.decode

def loadTables (header : Header) : Loading MapList := do
  let map ← ofDecoder (decodeMap header)
  loadStrings header.stringIds
  loadTable .typeId header.typeIds
  loadTable .protoId header.protoIds
  loadTable .fieldId header.fieldIds
  loadTable .methodId header.methodIds
  loadTable .classDef header.classDefs
  return map

def read (bytes : Bytes) (options : ReadOptions) : Result Image := do
  let (header, cursor) := Header.decode options.strictHeader (.ofBytes bytes)
  let header ← Result.within (.inSection .header) header
  if options.verifyChecksum && !header.verifiesChecksum bytes then
    throw (Fault.of (.checksumMismatch header.checksum))
  let (map, loader) := loadTables header (.ofCursor cursor options.strictItems)
  return { header, pools := loader.pools, map := ← map }

/-- Writes the image. Header and map come to describe what was written; what a failed attempt
has brought up to date stays so. -/
def write (image : Image) : Result Bytes × Image :=
  let (planned, pools) := Layout.plan image.header image.pools.refreshAll
  match planned with
  | .error fault => (.error fault, { image with pools })
  | .ok layout =>
    let header := layout.applyTo image.header
    match Layout.emit header pools layout >>= header.updateDigests with
    | .error fault => (.error fault, { image with header, pools })
    | .ok (header, bytes) => (.ok bytes, { header, pools, map := layout.map })

/-- Moves every reference into a remapped pool to the new index of its target. -/
def applyRemaps (image : Image) (remaps : Remaps) : Image :=
  { image with pools := image.pools.applyRemaps remaps }

end Image
end DexImage
