import DexImage.SectionKind
import DexImage.Text.Digits
import DexImage.Value.Kind
/-! # Faults

What can go wrong while an image is read, edited or written. A fault is a cause together with
the path from the place of failure outward; its wording is given by `Fault.message` alone.
-/

namespace DexImage

inductive FaultKind where
  | truncatedInput
  | malformedVarint
  | unresolvedReference
  | indexOutOfRange
  | formatMismatch
  | io
deriving DecidableEq, Repr

def FaultKind.text : FaultKind → String
  | truncatedInput => "truncated input"
  | malformedVarint => "malformed varint"
  | unresolvedReference => "unresolved reference"
  | indexOutOfRange => "index out of range"
  | formatMismatch => "format mismatch"
  | io => "i/o error"

/-- The reason of a fault. Offsets, addresses and counts are kept as numbers. -/
inductive Cause where
  /-- Fewer than `needed` bytes follow the position `at`. -/
  | bytesMissing (needed position available : Nat)
  | seekPastEnd (offset size : Nat)
  | varintCut (taken : Nat)
  | varintTooLong (limit : Nat)
  | headerCut (size position available : Nat)
  | mapCut (position count : Nat)
  | codeUnitsCut (position count : Nat)
  | instructionCut (address remaining : Nat)
  | checksumFieldMissing (size : Nat)
  | signatureFieldMissing (size : Nat)
  | targetMissing
  | offsetMissing (index : UInt32)
  | notLaidOut (kind : SectionKind) (index : UInt32)
  | indexBeyondPool (index : UInt32) (size : Nat)
  | itemBeyondPool (kind : SectionKind) (index : UInt32) (size : Nat)
  | orderBeyondPool (index : UInt32) (size : Nat)
  | orderRepeats (index : UInt32)
  | indexTooWide (index : UInt32)
  | handlerMissing (tryIndex slot count : Nat)
  | handlerOffsetTooWide (offset : Nat)
  | operandTooWide
  | offsetTooWide (offset : Nat)
  | danglingUse (kind : SectionKind) (index : UInt32) (target : SectionKind) (targetIndex : UInt32)
      (size : Nat)
  | notAPool (kind : SectionKind)
  | notATarget (kind : SectionKind)
  | unknownValueKind (code position : Nat)
  | payloadTooWide (kind : ValueKind) (position width : Nat)
  | noValueRefersTo (kind : SectionKind)
  | fieldsOutOfOrder (index previous : UInt32)
  | methodsOutOfOrder (index previous : UInt32)
  | insExceedRegisters (ins registers : UInt16)
  | insExceedRegistersAt (position : Nat) (ins registers : UInt16)
  | catchAllsRepeated (count : Nat)
  | handlerOffsetUnknown (tryIndex offset : Nat)
  | badMagic (magic : List UInt8)
  | unsupportedVersion (version : Nat)
  | badEndianTag (tag : UInt32)
  | headerTooSmall (declared least : Nat)
  | headerTooLarge (declared known : Nat)
  | sectionMisplaced (kind : SectionKind) (planned reached : Nat)
  | imageMissized (size planned : Nat)
  | checksumMismatch (checksum : UInt32)
  | classDefined (descriptor : String)
  /-- A fault reported by a caller's own code. -/
  | reported (kind : FaultKind) (text : String)
deriving DecidableEq, Repr

namespace Cause

def kind : Cause → FaultKind
  | bytesMissing .. | seekPastEnd .. | varintCut .. | headerCut .. | mapCut .. | codeUnitsCut ..
  | instructionCut .. | checksumFieldMissing .. | signatureFieldMissing .. => .truncatedInput
  | varintTooLong .. => .malformedVarint
  | targetMissing | offsetMissing .. | notLaidOut .. => .unresolvedReference
  | indexBeyondPool .. | itemBeyondPool .. | orderBeyondPool .. | indexTooWide ..
  | handlerMissing .. | handlerOffsetTooWide .. | operandTooWide | offsetTooWide ..
  | danglingUse .. => .indexOutOfRange
  | orderRepeats .. | notAPool .. | notATarget .. | unknownValueKind .. | payloadTooWide ..
  | noValueRefersTo .. | fieldsOutOfOrder .. | methodsOutOfOrder .. | insExceedRegisters ..
  | insExceedRegistersAt .. | catchAllsRepeated .. | handlerOffsetUnknown .. | badMagic ..
  | unsupportedVersion .. | badEndianTag .. | headerTooSmall .. | headerTooLarge ..
  | sectionMisplaced .. | imageMissized .. | checksumMismatch .. | classDefined .. => .formatMismatch
  | reported kind _ => kind

open Text

private def address (n : Nat) : String := "0x" ++ hex n

private def numbered (kind : SectionKind) (index : UInt32) : String :=
  kind.name ++ " #" ++ decimal index.toNat

def text : Cause → String
  | bytesMissing needed position available =>
    "need " ++ decimal needed ++ " bytes at " ++ address position ++ ", " ++ decimal available ++
      " available"
  | seekPastEnd offset size => "seek to " ++ address offset ++ " beyond end " ++ address size
  | varintCut taken => "varint runs past end of input after " ++ decimal taken ++ " bytes"
  | varintTooLong limit => "continuation past " ++ decimal limit ++ " bytes"
  | headerCut size position available =>
    "header needs " ++ address size ++ " bytes at " ++ address position ++ ", " ++
      decimal available ++ " available"
  | mapCut position count =>
    "map list at " ++ address position ++ " declares " ++ decimal count ++
      " items past end of input"
  | codeUnitsCut position count =>
    "code item at " ++ address position ++ " declares " ++ decimal count ++
      " code units past end of input"
  | instructionCut at' remaining =>
    "instruction at " ++ address at' ++ " runs past the " ++ decimal remaining ++
      " remaining code units"
  | checksumFieldMissing size => "file of " ++ decimal size ++ " bytes has no checksum field"
  | signatureFieldMissing size => "file of " ++ decimal size ++ " bytes has no signature field"
  | targetMissing => "required index has no target"
  | offsetMissing index => "data item #" ++ decimal index.toNat ++ " has no laid out offset"
  | notLaidOut kind index => numbered kind index ++ " was not laid out"
  | indexBeyondPool index size =>
    "index " ++ decimal index.toNat ++ " beyond pool of " ++ decimal size
  | itemBeyondPool kind index size =>
    kind.name ++ " " ++ decimal index.toNat ++ " beyond pool of " ++ decimal size
  | orderBeyondPool index size =>
    "reorder index " ++ decimal index.toNat ++ " beyond pool of " ++ decimal size
  | orderRepeats index => "index " ++ decimal index.toNat ++ " listed twice in reorder"
  | indexTooWide index => "index " ++ decimal index.toNat ++ " does not fit a u2 field"
  | handlerMissing tryIndex slot count =>
    "try item #" ++ decimal tryIndex ++ " names handler " ++ decimal slot ++ " of " ++ decimal count
  | handlerOffsetTooWide offset => "handler offset " ++ address offset ++ " does not fit a u2 field"
  | operandTooWide => "rewritten operand index does not fit a 16-bit field"
  | offsetTooWide offset => "offset " ++ address offset ++ " does not fit a u4"
  | danglingUse kind index target targetIndex size =>
    numbered kind index ++ " refers to " ++ numbered target targetIndex ++ " beyond pool of " ++
      decimal size
  | notAPool kind => kind.name ++ " is not a pool"
  | notATarget kind => kind.name ++ " items are not reference targets"
  | unknownValueKind code position =>
    "unknown encoded value type 0x" ++ hexPadded 2 code ++ " at " ++ address position
  | payloadTooWide kind position width =>
    kind.name ++ " value at " ++ address position ++ " declares " ++ decimal width ++
      " payload bytes"
  | noValueRefersTo kind => "no encoded value refers to " ++ kind.name
  | fieldsOutOfOrder index previous =>
    "field " ++ decimal index.toNat ++ " listed after field " ++ decimal previous.toNat
  | methodsOutOfOrder index previous =>
    "method " ++ decimal index.toNat ++ " listed after method " ++ decimal previous.toNat
  | insExceedRegisters ins registers =>
    "code item has " ++ decimal ins.toNat ++ " ins but only " ++ decimal registers.toNat ++
      " registers"
  | insExceedRegistersAt position ins registers =>
    "code item at " ++ address position ++ " has " ++ decimal ins.toNat ++ " ins but only " ++
      decimal registers.toNat ++ " registers"
  | catchAllsRepeated count => "handler list has " ++ decimal count ++ " catch-all entries"
  | handlerOffsetUnknown tryIndex offset =>
    "try item #" ++ decimal tryIndex ++ " handler offset " ++ address offset ++
      " starts no handler list"
  | badMagic magic =>
    "bad magic [" ++ ", ".intercalate (magic.map fun byte => hexPadded 2 byte.toNat) ++ "]"
  | unsupportedVersion version => "unsupported version " ++ decimalPadded 3 version
  | badEndianTag tag => "bad endian tag 0x" ++ hexPadded 8 tag.toNat
  | headerTooSmall declared least =>
    "header size " ++ address declared ++ " smaller than " ++ address least
  | headerTooLarge declared known =>
    "header declares " ++ address declared ++ " bytes, " ++ address known ++ " are known"
  | sectionMisplaced kind planned reached =>
    kind.name ++ " planned at " ++ address planned ++ " but reached at " ++ address reached
  | imageMissized size planned =>
    "image is " ++ address size ++ " bytes, planned " ++ address planned
  | checksumMismatch checksum =>
    "checksum 0x" ++ hexPadded 8 checksum.toNat ++ " does not match contents"
  | classDefined descriptor => "class " ++ descriptor ++ " is already defined"
  | reported _ text => text

end Cause

/-- One step of the path from the place of failure outward. -/
inductive Site where
  /-- A varint of the named form. -/
  | varint (form : String) (position : Nat)
  /-- The item of a kind that starts at an offset of the image. -/
  | itemAt (kind : SectionKind) (offset : Nat)
  | entry (kind : SectionKind) (index : Nat)
  | inSection (kind : SectionKind)
  | table (kind : SectionKind)
  | tryTable (position : Nat)
  /-- The member with the given position in a list of like members. -/
  | nth (noun : String) (index : Nat)
  | classNamed (descriptor : String)
  | named (text : String)
deriving DecidableEq, Repr

open Text in
def Site.text : Site → String
  | varint form position => form ++ " at 0x" ++ hex position
  | itemAt kind offset => kind.name ++ " at 0x" ++ hex offset
  | entry kind index => kind.name ++ " #" ++ decimal index
  | inSection kind => kind.name
  | table kind => kind.name ++ " table"
  | tryTable position => "try block of code item at 0x" ++ hex position
  | nth noun index => noun ++ " #" ++ decimal index
  | classNamed descriptor => "class " ++ descriptor
  | named text => text

/-- A cause and the path outward from it, innermost site first. -/
structure Fault where
  cause : Cause
  path : List Site
deriving DecidableEq, Repr

namespace Fault

def of (cause : Cause) : Fault := ⟨cause, []⟩

/-- The fault seen from the enclosing site. -/
def within (site : Site) (fault : Fault) : Fault := { fault with path := fault.path ++ [site] }

def kind (fault : Fault) : FaultKind := fault.cause.kind

/-- The kind, the cause and the sites: the first site follows `for`, each further one `of`. -/
def message (fault : Fault) : String :=
  let sites := match fault.path with
    | [] => ""
    | first :: outer =>
      " for " ++ first.text ++ String.join (outer.map fun site => " of " ++ site.text)
  fault.kind.text ++ ": " ++ fault.cause.text ++ sites

end Fault

/-- A result that is a value or a fault. -/
abbrev Result (α : Type) := Except Fault α

/-- Adds an enclosing site to the fault of a failed result. -/
def Result.within {α : Type} (site : Site) : Result α → Result α
  | .ok value => .ok value
  | .error fault => .error (fault.within site)

end DexImage
