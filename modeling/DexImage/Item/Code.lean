import DexImage.Item.Instructions
import DexImage.Item.TryTable
/-! # Code items

The register counts of a method, its instructions, and where there are any its try table and its
debug info.
-/

namespace DexImage

structure CodeItem where
  registers : UInt16
  ins : UInt16
  outs : UInt16
  debugInfo : DataRef .debugInfo
  instructions : InstructionList
  tryTable : Option TryTable
deriving BEq, Repr

namespace CodeItem

def ofUnits (registers ins outs : UInt16) (units : List UInt16) : CodeItem :=
  { registers, ins, outs, debugInfo := .absent, instructions := .ofUnits units, tryTable := none }

/-- The number of covered ranges, as stored. -/
def triesSize (code : CodeItem) : UInt16 :=
  match code.tryTable with
  | some table => table.tries.length.toUInt16
  | none => 0

/-- The try table, if it is to be written. -/
def writtenTable? (code : CodeItem) : Option TryTable :=
  if 0 < code.triesSize then code.tryTable else none

/-- Whether a unit of padding separates the instructions from the try table. -/
def needsPadding (code : CodeItem) : Bool :=
  0 < code.triesSize && code.instructions.length % 2 == 1

/-- The try table, or the empty one that it starts as. -/
def tableOrEmpty (code : CodeItem) : TryTable := code.tryTable.getD .empty

/-- Adds a covered range to the try table, which starts out empty. -/
def addTry (code : CodeItem) (start : UInt32) (count : UInt16) (list : HandlerList) : CodeItem :=
  { code with tryTable := some (code.tableOrEmpty.add start count list) }

/-- Empties the try table. -/
def clearTries (code : CodeItem) : CodeItem :=
  { code with tryTable := some code.tableOrEmpty.clear }

def setDebugInfo (code : CodeItem) (index : Option UInt32) : CodeItem :=
  { code with debugInfo := code.debugInfo.edited (.retarget index) }

instance : Encodable CodeItem where
  encodedSize code :=
    16 + encodedSize code.instructions + (if code.needsPadding then 2 else 0)
      + (code.writtenTable?.map encodedSize).getD 0
  encode code := do
    if code.registers < code.ins then
      throw (Fault.of (.insExceedRegisters code.ins code.registers))
    let debugInfo ← code.debugInfo.encodeWord
    let instructions ← encode code.instructions
    let table ← match code.writtenTable? with
      | some table => encode table
      | none => pure []
    return Bytes.ofUInt16 code.registers ++ Bytes.ofUInt16 code.ins ++ Bytes.ofUInt16 code.outs
      ++ Bytes.ofUInt16 code.triesSize ++ debugInfo ++ Bytes.ofCount code.instructions.length
      ++ instructions ++ (if code.needsPadding then Bytes.ofUInt16 0 else []) ++ table
  refresh code := { code with tryTable := code.tryTable.map refresh }
  isDirty code := code.tryTable.any isDirty

instance : Referring CodeItem where
  uses code :=
    (code.debugInfo.use? .debug).toList ++ uses code.instructions
      ++ (code.tryTable.map uses).getD []
  visit visitor code := do
    let debugInfo ← code.debugInfo.visit visitor .debug
    let instructions ← visit visitor code.instructions
    let tryTable ← match code.tryTable with
      | some table => some <$> visit visitor table
      | none => pure none
    return { code with debugInfo, instructions, tryTable }

/-- Takes over another item's register counts, debug info, instructions and try table, in this
order, with their references translated. Debug info and try table stay where the other item has
none. A fault ends the work and leaves what has been taken over. -/
def merge {τ : Type} (translator : Translator τ) (code other : CodeItem) :
    StateM τ (Outcome CodeItem) := do
  let code := { code with registers := other.registers, ins := other.ins, outs := other.outs }
  let debugInfo : Result (DataRef .debugInfo) ← match other.debugInfo.index with
    | none => pure (.ok code.debugInfo)
    | some index => do
      let new ← translator .debugInfo index
      pure (new.map code.debugInfo.setTarget)
  match debugInfo with
  | .error fault => return ⟨some fault, code⟩
  | .ok debugInfo =>
    let instructions ← InstructionList.merge translator other.instructions
    let code := { code with debugInfo, instructions := instructions.value }
    match instructions.fault?, other.tryTable with
    | some fault, _ => return ⟨some fault, code⟩
    | none, none => return ⟨none, code⟩
    | none, some table =>
      match ← TryTable.merge translator table with
      | .ok table => return ⟨none, { code with tryTable := some table }⟩
      | .error fault => return ⟨some fault, { code with tryTable := some code.tableOrEmpty }⟩

end CodeItem
end DexImage
