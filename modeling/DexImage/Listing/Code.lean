import DexImage.Key
import DexImage.Text.Lines
/-! # Listings of code

The readable form of instructions, try tables, debug info, code items and class data.
-/

namespace DexImage

open Text

namespace Instruction

/-- Four bits of a unit. -/
def nibble (unit : UInt16) (position : Nat) : Nat := unit.toNat >>> (4 * position) % 16

def register (number : Nat) : String := "v" ++ decimal number

/-- The registers of the formats that name up to five of them. -/
def registerList (first third : UInt16) : String :=
  let registers :=
    [nibble third 0, nibble third 1, nibble third 2, nibble third 3, nibble first 2]
  "\x7b" ++ ", ".intercalate ((registers.take (nibble first 3)).map register) ++ "\x7d"

/-- The registers of the formats that name a range of them. -/
def registerRange (first third : UInt16) : String :=
  let count := first.toNat / 256
  let first := third.toNat
  if count = 0 then "\x7b\x7d"
  else "\x7b" ++ register first ++ " .. " ++ register (first + count - 1) ++ "\x7d"

/-- The unsigned number in some units, the low one first. -/
def number (units : List UInt16) : Nat :=
  match units with
  | [] => 0
  | unit :: rest => unit.toNat + 65536 * number rest

/-- The signed number in some units, the low one first. -/
def signedNumber (units : List UInt16) : Int :=
  Int.bmod (number units) (Bytes.capacity (2 * units.length))

/-- What the index in some units refers to. -/
def targetText (pools : Pools) (target : OperandTarget) (units : List UInt16) : String :=
  match target.pool? with
  | some kind => pools.describe kind.toSection (number units).toUInt32
  | none => "ref@" ++ decimal (number units)

section LookingUp

variable {m : Type → Type} [Monad m]

/-- The operands of an instruction, in the notation of its format. `unit` looks up the code unit at a
position of the instruction. -/
def operandsBy (pools : Pools) (opcode : Opcode) (unit : Nat → m UInt16) : m String := do
  let first ← unit 0
  let a := register (nibble first 2)
  let b := register (nibble first 3)
  let aa := register (first.toNat / 256)
  let list (parts : List String) : String := ", ".intercalate parts
  match opcode.format with
  | .f10x => return ""
  | .f12x => return list [a, b]
  | .f11n => return list [a, "#" ++ integer (Int.bmod (nibble first 3) 16)]
  | .f11x => return aa
  | .f10t => return signed (Int.bmod (first.toNat / 256) 256)
  | .f20t => return signed (signedNumber [← unit 1])
  | .f22x => return list [aa, register (← unit 1).toNat]
  | .f21t => return list [aa, signed (signedNumber [← unit 1])]
  | .f21s => return list [aa, "#" ++ integer (signedNumber [← unit 1])]
  | .f21h => return list [aa, "#0x" ++ hex (← unit 1).toNat]
  | .f21c => return list [aa, targetText pools opcode.target [← unit 1]]
  | .f23x => do
    let second ← unit 1
    return list [aa, register (second.toNat % 256), register (second.toNat / 256)]
  | .f22b => do
    let second ← unit 1
    return list [aa, register (second.toNat % 256), "#" ++ integer (Int.bmod (second.toNat / 256) 256)]
  | .f22t => return list [a, b, signed (signedNumber [← unit 1])]
  | .f22s => return list [a, b, "#" ++ integer (signedNumber [← unit 1])]
  | .f22c => return list [a, b, targetText pools opcode.target [← unit 1]]
  | .f30t => return signed (signedNumber [← unit 1, ← unit 2])
  | .f32x => return list [register (← unit 1).toNat, register (← unit 2).toNat]
  | .f31i => return list [aa, "#" ++ integer (signedNumber [← unit 1, ← unit 2])]
  | .f31t => return list [aa, signed (signedNumber [← unit 1, ← unit 2])]
  | .f31c => return list [aa, targetText pools opcode.target [← unit 1, ← unit 2]]
  | .f35c => return list [registerList first (← unit 2), targetText pools opcode.target [← unit 1]]
  | .f3rc => return list [registerRange first (← unit 2), targetText pools opcode.target [← unit 1]]
  | .f45cc =>
    return list [registerList first (← unit 2), targetText pools opcode.target [← unit 1],
      targetText pools opcode.secondTarget [← unit 3]]
  | .f4rcc =>
    return list [registerRange first (← unit 2), targetText pools opcode.target [← unit 1],
      targetText pools opcode.secondTarget [← unit 3]]
  | .f51l => return list [aa, "#" ++ integer (signedNumber [← unit 1, ← unit 2, ← unit 3, ← unit 4])]

/-- The line for an instruction, whose code units `unit` looks up by their positions. -/
def textBy (pools : Pools) (instruction : Instruction) (unit : Nat → m UInt16) : m String := do
  let address := hexPadded 4 instruction.address.toNat ++ ": "
  match instruction.shape with
  | .payload kind =>
    return address ++ kind.name ++ " payload (" ++ decimal instruction.units.length ++ " units)"
  | .op opcode =>
    if opcode.name = Opcode.unusedName then return address ++ "unused-" ++ hexPadded 2 opcode.code.toNat
    else
      let operands ← operandsBy pools opcode unit
      return if operands = "" then address ++ opcode.name else address ++ opcode.name ++ " " ++ operands

end LookingUp

def text (pools : Pools) (instruction : Instruction) : String :=
  Id.run (instruction.textBy pools fun position => pure (instruction.units.getD position 0))

end Instruction

/-- The instructions, and the fault at one that is cut off. -/
def InstructionList.lines (pools : Pools) (list : InstructionList) : Lines :=
  let code := list.disassembly
  code.instructions.flatMap (fun instruction => Lines.line (instruction.text pools))
    ++ match code.fault? with
      | some fault => Lines.line ("; " ++ fault.message)
      | none => []

/-- One line for each handler of each range whose handler list exists. -/
def TryTable.lines (pools : Pools) (table : TryTable) : Lines :=
  table.tries.flatMap fun item =>
    let past := min (item.start.toNat + item.count.toNat) 0xffffffff
    let range :=
      "\x7b:" ++ hexPadded 4 item.start.toNat ++ " .. :" ++ hexPadded 4 past ++ "\x7d :"
    match table.handlers.get? item.handler with
    | none => []
    | some list => list.handlers.flatMap fun
      | .typed type address =>
        Lines.line (".catch " ++ pools.describeRef type ++ " " ++ range
          ++ hexPadded 4 address.toNat)
      | .catchAll address => Lines.line (".catchall " ++ range ++ hexPadded 4 address.toNat)

def DebugOp.text (pools : Pools) : DebugOp → String
  | advancePc delta => "advance_pc " ++ decimal delta.toNat
  | advanceLine delta => "advance_line " ++ integer delta.toInt
  | startLocal register name type =>
    ".local v" ++ decimal register.toNat ++ ", " ++ pools.describeRef name ++ ":"
      ++ pools.describeRef type
  | startLocalExtended register name type signature =>
    ".local v" ++ decimal register.toNat ++ ", " ++ pools.describeRef name ++ ":"
      ++ pools.describeRef type ++ ", " ++ pools.describeRef signature
  | endLocal register => ".end local v" ++ decimal register.toNat
  | restartLocal register => ".restart local v" ++ decimal register.toNat
  | prologueEnd => ".prologue"
  | epilogueBegin => ".epilogue"
  | setFile name => ".source " ++ pools.describeRef name
  | special code => "special 0x" ++ hexPadded 2 code.toNat

def DebugInfo.lines (pools : Pools) (info : DebugInfo) : Lines :=
  let parameters := info.parameterNames.zipIdx.flatMap fun (name, position) =>
    Lines.line (".param p" ++ decimal position ++ ", " ++ pools.describeRef name)
  Lines.line (".debug line_start " ++ decimal info.lineStart.toNat)
    ++ Lines.indent (parameters ++ info.ops.flatMap fun op => Lines.line (op.text pools))

def CodeItem.lines (pools : Pools) (code : CodeItem) : Lines :=
  Lines.line (".registers " ++ decimal code.registers.toNat)
    ++ Lines.line (".ins " ++ decimal code.ins.toNat ++ " .outs " ++ decimal code.outs.toNat)
    ++ (match pools.resolve? code.debugInfo with
      | some info => DebugInfo.lines pools info
      | none => [])
    ++ code.instructions.lines pools
    ++ match code.tryTable with
      | some table => table.lines pools
      | none => []

/-- A keyword, the access flags and a name. -/
def memberHeading (keyword : String) (flags : UInt32) (ofMethod : Bool) (name : String) : String :=
  let access := accessNames flags ofMethod
  keyword ++ " " ++ access ++ (if access = "" then "" else " ") ++ name

def ClassData.lines (pools : Pools) (data : ClassData) : Lines :=
  let ofField (entry : DefinedField) : Lines :=
    Lines.line (memberHeading ".field" entry.access false (pools.describeRef entry.field))
  let ofMethod (entry : DefinedMethod) : Lines :=
    Lines.blank
      ++ Lines.line (memberHeading ".method" entry.access true (pools.describeRef entry.method))
      ++ (match pools.resolve? entry.code with
        | some code => Lines.indent (CodeItem.lines pools code)
        | none => [])
      ++ Lines.line ".end method"
  data.fields.flatMap ofField ++ data.methods.flatMap ofMethod

end DexImage
