import DexImage.SectionKind
/-! # Opcodes

The table of instructions: name, operand format and what the operands refer to. A code without
an instruction counts as one of a single code unit.
-/

namespace DexImage

/-- An operand format, named for its code units, its registers and the kind of its operand. -/
inductive OperandFormat where
  | f10x
  | f12x
  | f11n
  | f11x
  | f10t
  | f20t
  | f22x
  | f21t
  | f21s
  | f21h
  | f21c
  | f23x
  | f22b
  | f22t
  | f22s
  | f22c
  | f30t
  | f32x
  | f31i
  | f31t
  | f31c
  | f35c
  | f3rc
  | f45cc
  | f4rcc
  | f51l
deriving DecidableEq, Repr

namespace OperandFormat

/-- The size of an instruction in code units. -/
def size : OperandFormat → Nat
  | f10x | f12x | f11n | f11x | f10t => 1
  | f20t | f22x | f21t | f21s | f21h | f21c | f23x | f22b | f22t | f22s | f22c => 2
  | f30t | f32x | f31i | f31t | f31c | f35c | f3rc => 3
  | f45cc | f4rcc => 4
  | f51l => 5

def name : OperandFormat → String
  | f10x => "10x"
  | f12x => "12x"
  | f11n => "11n"
  | f11x => "11x"
  | f10t => "10t"
  | f20t => "20t"
  | f22x => "22x"
  | f21t => "21t"
  | f21s => "21s"
  | f21h => "21h"
  | f21c => "21c"
  | f23x => "23x"
  | f22b => "22b"
  | f22t => "22t"
  | f22s => "22s"
  | f22c => "22c"
  | f30t => "30t"
  | f32x => "32x"
  | f31i => "31i"
  | f31t => "31t"
  | f31c => "31c"
  | f35c => "35c"
  | f3rc => "3rc"
  | f45cc => "45cc"
  | f4rcc => "4rcc"
  | f51l => "51l"

theorem size_pos (format : OperandFormat) : 0 < format.size := by cases format <;> decide

end OperandFormat

/-- What an operand refers to. -/
inductive OperandTarget where
  | none
  | string
  | type
  | field
  | method
  | methodProto
  | callSite
  | methodHandle
deriving DecidableEq, Repr

def OperandTarget.name : OperandTarget → String
  | none => "None"
  | string => "String"
  | type => "Type"
  | field => "Field"
  | method => "Method"
  | methodProto => "MethodProto"
  | callSite => "CallSite"
  | methodHandle => "MethodHandle"

/-- The pool that an operand refers into; call sites and method handles have none. -/
def OperandTarget.pool? : OperandTarget → Option PoolKind
  | string => some .stringId
  | type => some .typeId
  | field => some .fieldId
  | method => some .methodId
  | methodProto => some .protoId
  | none | callSite | methodHandle => Option.none

structure Opcode where
  code : UInt8
  name : String
  format : OperandFormat
  target : OperandTarget
  /-- What the second reference of the four-unit formats refers to. -/
  secondTarget : OperandTarget
deriving DecidableEq, Repr

namespace Opcode

/-- The name of codes without an instruction. -/
def unusedName : String := "unused"

/-- Runs of instructions with consecutive codes and operands of one sort, by their first code. -/
def runs : List (Nat × OperandFormat × OperandTarget × List String) :=
  [(0x00, .f10x, .none, ["nop"]),
    (0x01, .f12x, .none, ["move"]),
    (0x02, .f22x, .none, ["move/from16"]),
    (0x03, .f32x, .none, ["move/16"]),
    (0x04, .f12x, .none, ["move-wide"]),
    (0x05, .f22x, .none, ["move-wide/from16"]),
    (0x06, .f32x, .none, ["move-wide/16"]),
    (0x07, .f12x, .none, ["move-object"]),
    (0x08, .f22x, .none, ["move-object/from16"]),
    (0x09, .f32x, .none, ["move-object/16"]),
    (0x0a, .f11x, .none,
      ["move-result", "move-result-wide", "move-result-object", "move-exception"]),
    (0x0e, .f10x, .none, ["return-void"]),
    (0x0f, .f11x, .none, ["return", "return-wide", "return-object"]),
    (0x12, .f11n, .none, ["const/4"]),
    (0x13, .f21s, .none, ["const/16"]),
    (0x14, .f31i, .none, ["const"]),
    (0x15, .f21h, .none, ["const/high16"]),
    (0x16, .f21s, .none, ["const-wide/16"]),
    (0x17, .f31i, .none, ["const-wide/32"]),
    (0x18, .f51l, .none, ["const-wide"]),
    (0x19, .f21h, .none, ["const-wide/high16"]),
    (0x1a, .f21c, .string, ["const-string"]),
    (0x1b, .f31c, .string, ["const-string/jumbo"]),
    (0x1c, .f21c, .type, ["const-class"]),
    (0x1d, .f11x, .none, ["monitor-enter", "monitor-exit"]),
    (0x1f, .f21c, .type, ["check-cast"]),
    (0x20, .f22c, .type, ["instance-of"]),
    (0x21, .f12x, .none, ["array-length"]),
    (0x22, .f21c, .type, ["new-instance"]),
    (0x23, .f22c, .type, ["new-array"]),
    (0x24, .f35c, .type, ["filled-new-array"]),
    (0x25, .f3rc, .type, ["filled-new-array/range"]),
    (0x26, .f31t, .none, ["fill-array-data"]),
    (0x27, .f11x, .none, ["throw"]),
    (0x28, .f10t, .none, ["goto"]),
    (0x29, .f20t, .none, ["goto/16"]),
    (0x2a, .f30t, .none, ["goto/32"]),
    (0x2b, .f31t, .none, ["packed-switch", "sparse-switch"]),
    (0x2d, .f23x, .none, ["cmpl-float", "cmpg-float", "cmpl-double", "cmpg-double", "cmp-long"]),
    (0x32, .f22t, .none, ["if-eq", "if-ne", "if-lt", "if-ge", "if-gt", "if-le"]),
    (0x38, .f21t, .none, ["if-eqz", "if-nez", "if-ltz", "if-gez", "if-gtz", "if-lez"]),
    (0x44, .f23x, .none, byWidth "aget" ++ byWidth "aput"),
    (0x52, .f22c, .field, byWidth "iget" ++ byWidth "iput"),
    (0x60, .f21c, .field, byWidth "sget" ++ byWidth "sput"),
    (0x6e, .f35c, .method, invocations),
    (0x74, .f3rc, .method, invocations.map (· ++ "/range")),
    (0x7b, .f12x, .none,
      ["neg-int", "not-int", "neg-long", "not-long", "neg-float", "neg-double", "int-to-long",
        "int-to-float", "int-to-double", "long-to-int", "long-to-float", "long-to-double",
        "float-to-int", "float-to-long", "float-to-double", "double-to-int", "double-to-long",
        "double-to-float", "int-to-byte", "int-to-char", "int-to-short"]),
    (0x90, .f23x, .none, arithmetic),
    (0xb0, .f12x, .none, arithmetic.map (· ++ "/2addr")),
    (0xd0, .f22s, .none,
      ["add-int/lit16", "rsub-int", "mul-int/lit16", "div-int/lit16", "rem-int/lit16",
        "and-int/lit16", "or-int/lit16", "xor-int/lit16"]),
    (0xd8, .f22b, .none,
      ["add-int/lit8", "rsub-int/lit8", "mul-int/lit8", "div-int/lit8", "rem-int/lit8",
        "and-int/lit8", "or-int/lit8", "xor-int/lit8", "shl-int/lit8", "shr-int/lit8",
        "ushr-int/lit8"]),
    (0xfa, .f45cc, .method, ["invoke-polymorphic"]),
    (0xfb, .f4rcc, .method, ["invoke-polymorphic/range"]),
    (0xfc, .f35c, .callSite, ["invoke-custom"]),
    (0xfd, .f3rc, .callSite, ["invoke-custom/range"]),
    (0xfe, .f21c, .methodHandle, ["const-method-handle"]),
    (0xff, .f21c, .methodProto, ["const-method-type"])]
where
  byWidth (name : String) : List String :=
    [name, name ++ "-wide", name ++ "-object", name ++ "-boolean", name ++ "-byte",
      name ++ "-char", name ++ "-short"]
  invocations : List String :=
    ["invoke-virtual", "invoke-super", "invoke-direct", "invoke-static", "invoke-interface"]
  arithmetic : List String :=
    ["add-int", "sub-int", "mul-int", "div-int", "rem-int", "and-int", "or-int", "xor-int",
      "shl-int", "shr-int", "ushr-int", "add-long", "sub-long", "mul-long", "div-long",
      "rem-long", "and-long", "or-long", "xor-long", "shl-long", "shr-long", "ushr-long",
      "add-float", "sub-float", "mul-float", "div-float", "rem-float", "add-double",
      "sub-double", "mul-double", "div-double", "rem-double"]

/-- The second reference of the four-unit formats is a method's proto. -/
def secondTargetOf : OperandFormat → OperandTarget
  | .f45cc | .f4rcc => .methodProto
  | _ => .none

/-- Every instruction, by increasing code. -/
def instructions : List Opcode :=
  runs.flatMap fun (first, format, target, names) =>
    names.zipIdx.map fun (name, position) =>
      { code := (first + position).toUInt8, name, format, target,
        secondTarget := secondTargetOf format }

def unused (code : UInt8) : Opcode :=
  { code, name := unusedName, format := .f10x, target := .none, secondTarget := .none }

def ofCode (code : UInt8) : Opcode :=
  (instructions.find? fun opcode => opcode.code == code).getD (unused code)

/-- The instruction with a name. -/
def ofName? (name : String) : Option Opcode :=
  instructions.find? fun opcode => opcode.name == name

end Opcode
end DexImage
