import DexImage.SectionKind
/-! # Kinds of encoded values

The low five bits of a value's descriptor byte name its kind. Kinds with a payload width of
their own declare it in the upper three bits.
-/

namespace DexImage

inductive ValueKind where
  | byte
  | short
  | char
  | int
  | long
  | float
  | double
  | methodType
  | methodHandle
  | string
  | type
  | field
  | method
  | enum
  | array
  | annotationBody
  | null
  | boolean
deriving DecidableEq, Repr

namespace ValueKind

def all : List ValueKind :=
  [byte, short, char, int, long, float, double, methodType, methodHandle, string, type, field,
    method, enum, array, annotationBody, null, boolean]

def code : ValueKind → UInt8
  | byte => 0x00
  | short => 0x02
  | char => 0x03
  | int => 0x04
  | long => 0x06
  | float => 0x10
  | double => 0x11
  | methodType => 0x15
  | methodHandle => 0x16
  | string => 0x17
  | type => 0x18
  | field => 0x19
  | method => 0x1a
  | enum => 0x1b
  | array => 0x1c
  | annotationBody => 0x1d
  | null => 0x1e
  | boolean => 0x1f

def ofCode? (code : UInt8) : Option ValueKind := all.find? fun kind => kind.code == code

theorem ofCode?_code (kind : ValueKind) : ofCode? kind.code = some kind := by cases kind <;> rfl

def name : ValueKind → String
  | byte => "byte"
  | short => "short"
  | char => "char"
  | int => "int"
  | long => "long"
  | float => "float"
  | double => "double"
  | methodType => "method_type"
  | methodHandle => "method_handle"
  | string => "string"
  | type => "type"
  | field => "field"
  | method => "method"
  | enum => "enum"
  | array => "array"
  | annotationBody => "annotation"
  | null => "null"
  | boolean => "boolean"

/-- The widest payload, or zero for kinds whose payload has no declared width. -/
def maxWidth : ValueKind → Nat
  | byte => 1
  | short | char => 2
  | long | double => 8
  | array | annotationBody | null | boolean => 0
  | _ => 4

/-- The kind of value that refers to entries of a section. -/
def forSection? : SectionKind → Option ValueKind
  | .stringId => some string
  | .typeId => some type
  | .fieldId => some field
  | .methodId => some method
  | .protoId => some methodType
  | _ => none

end ValueKind
end DexImage
