import DexImage.Item.Opcode
import DexImage.Referring
import DexImage.TrackedList
/-! # Instructions

The code of a method is a sequence of 16-bit code units. It is cut into instructions by their
opcodes and into payload tables by their headers, so that the references among the operands can
be listed and replaced; nothing else in the operands is interpreted.

An index that does not fit its operand, or a reference that is lost, leaves the unit as it is and
makes the code unwritable.

Operands are reported by units of the code, reckoned from the addresses of their instructions. They
are read and edited in their instructions, which is the same as long as a word can address all units
(`InstructionList.uses_eq_reported`, `InstructionList.visit_eq_visitReported`).
-/

namespace DexImage

/-- A table of data between the instructions. -/
inductive PayloadKind where
  | packedSwitch
  | sparseSwitch
  | fillArrayData
deriving DecidableEq, Repr

namespace PayloadKind

def ofUnit? (unit : UInt16) : Option PayloadKind :=
  if unit = 0x0100 then some packedSwitch
  else if unit = 0x0200 then some sparseSwitch
  else if unit = 0x0300 then some fillArrayData
  else none

def name : PayloadKind → String
  | packedSwitch => "PackedSwitch"
  | sparseSwitch => "SparseSwitch"
  | fillArrayData => "FillArrayData"

/-- The size in code units that a table's header declares, unless the header is cut off. -/
def size? : PayloadKind → List UInt16 → Option Nat
  | packedSwitch, _ :: count :: _ => some (4 + count.toNat * 2)
  | sparseSwitch, _ :: count :: _ => some (2 + count.toNat * 4)
  | fillArrayData, _ :: width :: low :: high :: _ =>
    some (4 + ((low.toNat + 65536 * high.toNat) * width.toNat + 1) / 2)
  | _, _ => none

theorem size?_pos {kind : PayloadKind} {units : List UInt16} {size : Nat}
    (declared : kind.size? units = some size) : 0 < size := by
  unfold size? at declared
  split at declared <;> simp at declared <;> omega

end PayloadKind

/-- What stands at a place in the code. -/
inductive InstructionShape where
  | op (opcode : Opcode)
  | payload (kind : PayloadKind)
deriving DecidableEq, Repr

/-- An instruction or payload table, the position at which it starts and its code units. -/
structure Instruction where
  position : Nat
  shape : InstructionShape
  units : List UInt16
deriving DecidableEq, Repr

/-- The address of an instruction is its position as a word, which has room for 2^32 positions. -/
def Instruction.address (instruction : Instruction) : UInt32 := instruction.position.toUInt32

/-- The code cut into instructions, up to the first one that is itself cut off. -/
structure Disassembly where
  instructions : List Instruction
  /-- The units from the instruction that is cut off. -/
  rest : List UInt16
deriving DecidableEq, Repr

/-- The shape at the front of the code and its declared size, if its header is complete. -/
def Instruction.shapeOf (first : UInt16) (units : List UInt16) : InstructionShape × Option Nat :=
  match PayloadKind.ofUnit? first with
  | some kind => (.payload kind, kind.size? units)
  | none =>
    let opcode := Opcode.ofCode first.toUInt8
    (.op opcode, some opcode.format.size)

namespace Disassembly

/-- The disassembly of code that starts at a position, of at most `fuel` instructions. -/
def ofUnitsWithin : (fuel position : Nat) → List UInt16 → List Instruction → Disassembly
  | 0, _, units, found => ⟨found.reverse, units⟩
  | _, _, [], found => ⟨found.reverse, []⟩
  | fuel + 1, position, first :: others, found =>
    let units := first :: others
    match Instruction.shapeOf first units with
    | (_, none) => ⟨found.reverse, units⟩
    | (shape, some size) =>
      let own := units.take size
      if own.length < size then ⟨found.reverse, units⟩
      else ofUnitsWithin fuel (position + size) (units.drop size) (⟨position, shape, own⟩ :: found)

def ofUnits (units : List UInt16) : Disassembly := ofUnitsWithin units.length 0 units []

/-- The fault at the instruction that is cut off, if there is one. -/
def fault? (code : Disassembly) : Option Fault :=
  if code.rest.isEmpty then none
  else
    let position := total (fun instruction => instruction.units.length) code.instructions
    some (Fault.of (.instructionCut position code.rest.length))

end Disassembly

/-- A reference among the operands of an instruction. -/
structure OperandRef where
  /-- The position of the instruction. -/
  position : Nat
  /-- The position of the index within its instruction. -/
  offset : Nat
  /-- Whether the index takes two units, the low one first. -/
  wide : Bool
  target : PoolKind
deriving DecidableEq, Repr

namespace OperandRef

/-- The address of the instruction. -/
def address (ref : OperandRef) : UInt32 := ref.position.toUInt32

/-- The unit of the code that is reported to hold the index, reckoned from the address. -/
def unit (ref : OperandRef) : Nat := ref.address.toNat + ref.offset

/-- The index that an instruction's units hold. -/
def index (ref : OperandRef) (units : List UInt16) : UInt32 :=
  let low := (units.getD ref.offset 0).toUInt32
  if ref.wide then low ||| (units.getD (ref.offset + 1) 0).toUInt32 <<< 16 else low

/-- The units with another index, unless it does not fit. -/
def setIndex? (ref : OperandRef) (units : List UInt16) (index : UInt32) : Option (List UInt16) :=
  if ref.wide then
    some ((units.set ref.offset index.toUInt16).set (ref.offset + 1) (index >>> 16).toUInt16)
  else if 0xffff < index then none
  else some (units.set ref.offset index.toUInt16)

def slot (ref : OperandRef) (units : List UInt16) : Slot :=
  ⟨ref.target, some (ref.index units), .instruction⟩

end OperandRef

namespace Instruction

/-- The references among the operands, in operand order. -/
def refs (instruction : Instruction) : List OperandRef :=
  match instruction.shape with
  | .payload _ => []
  | .op opcode =>
    (opcode.target.pool?.map fun target =>
        ⟨instruction.position, 1, opcode.format == .f31c, target⟩).toList
      ++ (opcode.secondTarget.pool?.map fun target => ⟨instruction.position, 3, false, target⟩).toList

/-- Visits the given references and updates the units; also says whether an index was lost. -/
def visitRefs {σ : Type} (visitor : Visitor σ) :
    List OperandRef → List UInt16 → StateM σ (List UInt16 × Bool)
  | [], units => pure (units, false)
  | ref :: rest, units => do
    let edited? := match ← visitor (ref.slot units) with
      | .keep | .place _ => some units
      | .retarget none => none
      | .retarget (some index) =>
        if index = ref.index units then some units else ref.setIndex? units index
    let (units, lost) ← visitRefs visitor rest (edited?.getD units)
    return (units, edited?.isNone || lost)

/-- Visits the references of each instruction in turn. -/
def visitEach {σ : Type} (visitor : Visitor σ) :
    List Instruction → StateM σ (List (List UInt16 × Bool))
  | [] => pure []
  | instruction :: rest => do
    let edited ← visitRefs visitor instruction.refs instruction.units
    return edited :: (← visitEach visitor rest)

end Instruction

/-- The code of a method. -/
structure InstructionList where
  units : List UInt16
  /-- Whether a new index did not fit its operand or a reference was lost. -/
  overflow : Bool
deriving DecidableEq, Repr

namespace InstructionList

def ofUnits (units : List UInt16) : InstructionList := ⟨units, false⟩

def length (list : InstructionList) : Nat := list.units.length

def isEmpty (list : InstructionList) : Bool := list.units.isEmpty

def disassembly (list : InstructionList) : Disassembly := .ofUnits list.units

/-- One step of an iteration over the instructions: what stands at a position, and the position to go
on from. A fault at an instruction that is cut off goes on at the end, where there is nothing. -/
def next? (list : InstructionList) (position : Nat) : Option (Result Instruction × Nat) :=
  match list.units.drop position with
  | [] => none
  | first :: others =>
    let units := first :: others
    let (shape, size?) := Instruction.shapeOf first units
    match size?.filter (· ≤ units.length) with
    | some size => some (.ok ⟨position, shape, units.take size⟩, position + size)
    | none => some (.error (Fault.of (.instructionCut position units.length)), list.length)

/-- The number of instructions, if none is cut off. -/
def validate (list : InstructionList) : Result Nat :=
  match list.disassembly.fault? with
  | some fault => .error fault
  | none => .ok list.disassembly.instructions.length

/-- The references among the operands, up to an instruction that is cut off. -/
def operandRefs (list : InstructionList) : List OperandRef :=
  list.disassembly.instructions.flatMap Instruction.refs

instance : Encodable InstructionList where
  encodedSize list := 2 * list.units.length
  encode list :=
    if list.overflow then .error (Fault.of .operandTooWide)
    else .ok (list.units.flatMap Bytes.ofUInt16)
  refresh list := list
  isDirty _ := false

instance : Referring InstructionList where
  uses list := list.disassembly.instructions.flatMap fun instruction =>
    instruction.refs.map fun ref => ⟨ref.target, ref.index instruction.units, .instruction⟩
  visit visitor list := do
    let code := list.disassembly
    let edited ← Instruction.visitEach visitor code.instructions
    return ⟨edited.flatMap Prod.fst ++ code.rest, list.overflow || edited.any Prod.snd⟩

/-- Takes over another list's units with their references translated. After a fault the units
are taken over and the references before the failing one are translated. -/
def merge {τ : Type} (translator : Translator τ) (other : InstructionList) :
    StateM τ (Outcome InstructionList) :=
  translate translator (ofUnits other.units)

end InstructionList
end DexImage
