import DexImage.Item.Ids
/-! # Debug info

The line table of a method, given as a program for a small machine that advances an address and
a line, together with the names of the parameters and the local variables.
-/

namespace DexImage

namespace DebugOp.Code

def endSequence : UInt8 := 0x00
def advancePc : UInt8 := 0x01
def advanceLine : UInt8 := 0x02
def startLocal : UInt8 := 0x03
def startLocalExtended : UInt8 := 0x04
def endLocal : UInt8 := 0x05
def restartLocal : UInt8 := 0x06
def prologueEnd : UInt8 := 0x07
def epilogueBegin : UInt8 := 0x08
def setFile : UInt8 := 0x09

/-- Greater codes, this one included, advance address and line at once. -/
def firstSpecial : UInt8 := 0x0a

end DebugOp.Code

inductive DebugOp where
  | advancePc (delta : UInt32)
  | advanceLine (delta : Int32)
  | startLocal (register : UInt32) (name : IdRef .stringId) (type : IdRef .typeId)
  | startLocalExtended (register : UInt32) (name : IdRef .stringId) (type : IdRef .typeId)
      (signature : IdRef .stringId)
  | endLocal (register : UInt32)
  | restartLocal (register : UInt32)
  | prologueEnd
  | epilogueBegin
  | setFile (name : IdRef .stringId)
  /-- Advances address and line together and adds a row to the table. -/
  | special (code : UInt8)
deriving DecidableEq, Repr

/-- The index in the variable-length form that is one higher. -/
def IdRef.encodePlusOne {target : PoolKind} (ref : IdRef target) : Bytes :=
  Leb128.encodePlusOne ref.plusOne

def IdRef.plusOneLength {target : PoolKind} (ref : IdRef target) : Nat :=
  Leb128.lengthUInt32 (ref.plusOne + 1).toUInt32

def Decoder.plusOneIndex {target : PoolKind} : Decoder (IdRef target) := do
  return .ofPlusOne (← uleb128p1)

namespace DebugOp

def size : DebugOp → Nat
  | advancePc delta => 1 + Leb128.lengthUInt32 delta
  | advanceLine delta => 1 + Leb128.lengthInt32 delta
  | startLocal register name type =>
    1 + Leb128.lengthUInt32 register + name.plusOneLength + type.plusOneLength
  | startLocalExtended register name type signature =>
    1 + Leb128.lengthUInt32 register + name.plusOneLength + type.plusOneLength
      + signature.plusOneLength
  | endLocal register | restartLocal register => 1 + Leb128.lengthUInt32 register
  | setFile name => 1 + name.plusOneLength
  | prologueEnd | epilogueBegin | special _ => 1

def bytes : DebugOp → Bytes
  | advancePc delta => Code.advancePc :: Leb128.encodeUInt32 delta
  | advanceLine delta => Code.advanceLine :: Leb128.encodeInt32 delta
  | startLocal register name type =>
    Code.startLocal :: Leb128.encodeUInt32 register ++ name.encodePlusOne ++ type.encodePlusOne
  | startLocalExtended register name type signature =>
    Code.startLocalExtended :: Leb128.encodeUInt32 register ++ name.encodePlusOne
      ++ type.encodePlusOne ++ signature.encodePlusOne
  | endLocal register => Code.endLocal :: Leb128.encodeUInt32 register
  | restartLocal register => Code.restartLocal :: Leb128.encodeUInt32 register
  | prologueEnd => [Code.prologueEnd]
  | epilogueBegin => [Code.epilogueBegin]
  | setFile name => Code.setFile :: name.encodePlusOne
  | special code => [code]

def uses : DebugOp → List Use
  | startLocal _ name type => (name.use? .debug).toList ++ (type.use? .debug).toList
  | startLocalExtended _ name type signature =>
    (name.use? .debug).toList ++ (type.use? .debug).toList ++ (signature.use? .debug).toList
  | setFile name => (name.use? .debug).toList
  | _ => []

def visit {σ : Type} (visitor : Visitor σ) : DebugOp → StateM σ DebugOp
  | startLocal register name type => do
    let name ← name.visit visitor .debug
    return startLocal register name (← type.visit visitor .debug)
  | startLocalExtended register name type signature => do
    let name ← name.visit visitor .debug
    let type ← type.visit visitor .debug
    return startLocalExtended register name type (← signature.visit visitor .debug)
  | setFile name => return setFile (← name.visit visitor .debug)
  | other => pure other

/-- Reads the operands of an operation. -/
def decodeOperands (code : UInt8) : Decoder DebugOp := do
  if code = Code.advancePc then return advancePc (← Decoder.uleb128)
  else if code = Code.advanceLine then return advanceLine (← Decoder.sleb128)
  else if code = Code.startLocal then do
    let register ← Decoder.uleb128
    let name ← Decoder.plusOneIndex
    return startLocal register name (← Decoder.plusOneIndex)
  else if code = Code.startLocalExtended then do
    let register ← Decoder.uleb128
    let name ← Decoder.plusOneIndex
    let type ← Decoder.plusOneIndex
    return startLocalExtended register name type (← Decoder.plusOneIndex)
  else if code = Code.endLocal then return endLocal (← Decoder.uleb128)
  else if code = Code.restartLocal then return restartLocal (← Decoder.uleb128)
  else if code = Code.prologueEnd then return prologueEnd
  else if code = Code.epilogueBegin then return epilogueBegin
  else if code = Code.setFile then return setFile (← Decoder.plusOneIndex)
  else return special code

end DebugOp

/-- The program is held without the operation that ends it. -/
structure DebugInfo where
  lineStart : UInt32
  parameterNames : List (IdRef .stringId)
  ops : List DebugOp
deriving DecidableEq, Repr

/-- A row of the line table. -/
structure Position where
  address : UInt32
  line : UInt32
deriving DecidableEq, Repr

namespace DebugInfo

/-- The rows that a program adds when it starts at an address and a line. The address wraps
around; the line is exact, and is shown as zero while it is negative. -/
def run (address : UInt32) (line : Int) : List DebugOp → List Position
  | [] => []
  | .advancePc delta :: rest => run (address + delta) line rest
  | .advanceLine delta :: rest => run address (line + delta.toInt) rest
  | .special code :: rest =>
    let adjusted := code.toNat - DebugOp.Code.firstSpecial.toNat
    let address := address + (adjusted / 15).toUInt32
    let line := line + (adjusted % 15 : Nat) - 4
    ⟨address, line.toNat.toUInt32⟩ :: run address line rest
  | _ :: rest => run address line rest

def positions (info : DebugInfo) : List Position := run 0 info.lineStart.toNat info.ops

instance : Encodable DebugInfo where
  encodedSize info :=
    Leb128.lengthUInt32 info.lineStart + Bytes.varCountLength info.parameterNames.length
      + total IdRef.plusOneLength info.parameterNames + total DebugOp.size info.ops + 1
  encode info := .ok <|
    Leb128.encodeUInt32 info.lineStart ++ Bytes.ofVarCount info.parameterNames.length
      ++ info.parameterNames.flatMap IdRef.encodePlusOne ++ info.ops.flatMap DebugOp.bytes
      ++ [DebugOp.Code.endSequence]
  refresh info := info
  isDirty _ := false

instance : Referring DebugInfo where
  uses info := info.parameterNames.filterMap (·.use? .debug) ++ info.ops.flatMap DebugOp.uses
  visit visitor info := do
    let parameterNames ← visitAll (IdRef.visit visitor .debug) info.parameterNames
    return { info with parameterNames, ops := ← visitAll (DebugOp.visit visitor) info.ops }

/-- The operations up to the one that ends the program; each takes at least a byte. -/
def decodeOps : Decoder (List DebugOp) := do
  go ((← Decoder.remaining) + 1) []
where
  go : Nat → List DebugOp → Decoder (List DebugOp)
    | 0, found => return found.reverse
    | fuel + 1, found => do
      let code ← Decoder.u1
      if code = DebugOp.Code.endSequence then return found.reverse
      else go fuel ((← DebugOp.decodeOperands code) :: found)

def decode : Decoder DebugInfo := do
  let lineStart ← Decoder.uleb128
  let count ← Decoder.uleb128
  let parameterNames ← Reading.collect count.toNat fun _ => Decoder.plusOneIndex
  return { lineStart, parameterNames, ops := ← decodeOps }

end DebugInfo
end DexImage
