import DexImage.Cursor
import DexImage.Referring
import DexImage.Value.Kind
/-! # Scalar values

Encoded values whose payload is a little-endian number of one to eight bytes. Integers are
extended by their sign, floating point patterns by zero bytes on the right, and everything else
by zero bits. Floating point numbers are held as their bit patterns.
-/

namespace DexImage

inductive Scalar where
  | byte (value : Int8)
  | short (value : Int16)
  | char (value : UInt16)
  | int (value : Int32)
  | long (value : Int64)
  | float (bits : UInt32)
  | double (bits : UInt64)
  | methodType (ref : IdRef .protoId)
  /-- Method handles have no pool; their index is carried through. -/
  | methodHandle (index : UInt32)
  | string (ref : IdRef .stringId)
  | type (ref : IdRef .typeId)
  | field (ref : IdRef .fieldId)
  | method (ref : IdRef .methodId)
  | enum (ref : IdRef .fieldId)
deriving DecidableEq, Repr

namespace Scalar

def kind : Scalar → ValueKind
  | byte _ => .byte
  | short _ => .short
  | char _ => .char
  | int _ => .int
  | long _ => .long
  | float _ => .float
  | double _ => .double
  | methodType _ => .methodType
  | methodHandle _ => .methodHandle
  | string _ => .string
  | type _ => .type
  | field _ => .field
  | method _ => .method
  | enum _ => .enum

/-- The least number of bytes, at least one, whose two's complement holds a number. -/
def signedWidth (value : Int) : Nat :=
  Leb128.bitLength (if value < 0 then (-value - 1).toNat else value.toNat) / 8 + 1

/-- The least number of bytes, at least one, that hold a number. -/
def unsignedWidth (value : Nat) : Nat := max 1 ((Leb128.bitLength value + 7) / 8)

/-- The least number of bytes, at least one, that are left of `size` bytes when zero bytes are
dropped from the low end. -/
def rightWidth : (size value : Nat) → Nat
  | 0, _ => 1
  | 1, _ => 1
  | size + 2, value => if value % 256 = 0 then rightWidth (size + 1) (value / 256) else size + 2

/-- The payload as a number without sign. -/
def bits : Scalar → Nat
  | byte value => value.toUInt8.toNat
  | short value => value.toUInt16.toNat
  | char value => value.toNat
  | int value => value.toUInt32.toNat
  | long value => value.toUInt64.toNat
  | float bits => bits.toNat
  | double bits => bits.toNat
  | methodType ref => ref.raw.toNat
  | methodHandle index => index.toNat
  | string ref => ref.raw.toNat
  | type ref => ref.raw.toNat
  | field ref | enum ref => ref.raw.toNat
  | method ref => ref.raw.toNat

/-- The least payload width that still holds the value. -/
def leastWidth : Scalar → Nat
  | byte _ => 1
  | short value => signedWidth value.toInt
  | int value => signedWidth value.toInt
  | long value => signedWidth value.toInt
  | float bits => rightWidth 4 bits.toNat
  | double bits => rightWidth 8 bits.toNat
  | other => unsignedWidth other.bits

/-- The payload in `width` bytes. -/
def payload (scalar : Scalar) (width : Nat) : Bytes :=
  match scalar with
  | float bits => Bytes.littleEndian width (bits.toNat / Bytes.capacity (4 - width))
  | double bits => Bytes.littleEndian width (bits.toNat / Bytes.capacity (8 - width))
  | other => Bytes.littleEndian width other.bits

/-- The scalar of a kind whose payload of `width` bytes spells the number `raw`. Only kinds of
scalars are asked for. -/
def ofPayload (kind : ValueKind) (width raw : Nat) : Scalar :=
  let extended := Int.bmod raw (Bytes.capacity width)
  match kind with
  | .byte => byte (Int8.ofInt extended)
  | .short => short (Int16.ofInt extended)
  | .char => char raw.toUInt16
  | .int => int (Int32.ofInt extended)
  | .long => long (Int64.ofInt extended)
  | .float => float (raw * Bytes.capacity (4 - width)).toUInt32
  | .double => double (raw * Bytes.capacity (8 - width)).toUInt64
  | .methodType => methodType (.of raw.toUInt32)
  | .methodHandle => methodHandle raw.toUInt32
  | .string => string (.of raw.toUInt32)
  | .type => type (.of raw.toUInt32)
  | .field => field (.of raw.toUInt32)
  | .method => method (.of raw.toUInt32)
  | _ => enum (.of raw.toUInt32)

/-- Fails when the scalar is an absent reference. -/
def checkReference : Scalar → Result Unit
  | methodType ref => discard ref.required
  | string ref => discard ref.required
  | type ref => discard ref.required
  | field ref | enum ref => discard ref.required
  | method ref => discard ref.required
  | _ => .ok ()

/-- The integer that the scalar holds, if it is of an integer kind. -/
def toInt? : Scalar → Option Int
  | byte value => some value.toInt
  | short value => some value.toInt
  | char value => some value.toNat
  | int value => some value.toInt
  | long value => some value.toInt
  | _ => none

def uses : Scalar → List Use
  | methodType ref => (ref.use? .unmarked).toList
  | string ref => (ref.use? .unmarked).toList
  | type ref => (ref.use? .unmarked).toList
  | field ref | enum ref => (ref.use? .unmarked).toList
  | method ref => (ref.use? .unmarked).toList
  | _ => []

def visit {σ : Type} (visitor : Visitor σ) : Scalar → StateM σ Scalar
  | methodType ref => return methodType (← ref.visit visitor .unmarked)
  | string ref => return string (← ref.visit visitor .unmarked)
  | type ref => return type (← ref.visit visitor .unmarked)
  | field ref => return field (← ref.visit visitor .unmarked)
  | method ref => return method (← ref.visit visitor .unmarked)
  | enum ref => return enum (← ref.visit visitor .unmarked)
  | other => pure other

end Scalar
end DexImage
