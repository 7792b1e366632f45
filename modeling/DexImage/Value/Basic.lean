import DexImage.TrackedList
import DexImage.Value.Scalar
/-! # Encoded values

A value is written as a descriptor byte, whose low five bits are the code of its kind, followed
by a payload. A scalar remembers the width of the payload it was read with and is written with
that width as long as it suffices, so that what was read is written back byte for byte.

The references in a value carry no usage of their own. The array or annotation that owns the
value marks them when it lists its uses.
-/

namespace DexImage

inductive EncodedValue where
  /-- A scalar and the payload width remembered for it. -/
  | scalar (value : Scalar) (width : Nat)
  | array (elements : List EncodedValue)
  | annotationBody (type : IdRef .typeId) (elements : List (IdRef .stringId × EncodedValue))
  | null
  | boolean (value : Bool)
deriving Repr

/-- An annotation type with named values, to be ordered by the index of the name. -/
structure AnnotationBody where
  type : IdRef .typeId
  elements : List (IdRef .stringId × EncodedValue)
deriving Repr

namespace EncodedValue

/-- A scalar with the least width for it. -/
def ofScalar (value : Scalar) : EncodedValue := scalar value value.leastWidth

def ofBody (body : AnnotationBody) : EncodedValue := annotationBody body.type body.elements

def kind : EncodedValue → ValueKind
  | scalar value _ => value.kind
  | array _ => .array
  | annotationBody .. => .annotationBody
  | null => .null
  | boolean _ => .boolean

/-- A fresh value of a kind: zero, false, empty, or an absent reference. -/
def ofKind : ValueKind → EncodedValue
  | .byte => ofScalar (.byte 0)
  | .short => ofScalar (.short 0)
  | .char => ofScalar (.char 0)
  | .int => ofScalar (.int 0)
  | .long => ofScalar (.long 0)
  | .float => ofScalar (.float 0)
  | .double => ofScalar (.double 0)
  | .methodType => ofScalar (.methodType .absent)
  | .methodHandle => ofScalar (.methodHandle 0)
  | .string => ofScalar (.string .absent)
  | .type => ofScalar (.type .absent)
  | .field => ofScalar (.field .absent)
  | .method => ofScalar (.method .absent)
  | .enum => ofScalar (.enum .absent)
  | .array => array []
  | .annotationBody => annotationBody (.of 0) []
  | .null => null
  | .boolean => boolean false

/-- The width the payload is written with: the remembered one unless the value no longer fits. -/
def width : EncodedValue → Nat
  | scalar value width => min (max width value.leastWidth) value.kind.maxWidth
  | _ => 0

/-- The value with the least width for what it holds. -/
def renewed : EncodedValue → EncodedValue
  | scalar value _ => ofScalar value
  | other => other

def toInt? : EncodedValue → Option Int
  | scalar value _ => value.toInt?
  | _ => none

mutual

/-- Values are equal when they hold the same and remember the same widths. -/
def beq : EncodedValue → EncodedValue → Bool
  | scalar a v, scalar b w => a == b && v == w
  | array xs, array ys => beqList xs ys
  | annotationBody a xs, annotationBody b ys => a == b && beqElements xs ys
  | null, null => true
  | boolean a, boolean b => a == b
  | _, _ => false

def beqList : List EncodedValue → List EncodedValue → Bool
  | [], [] => true
  | x :: xs, y :: ys => x.beq y && beqList xs ys
  | _, _ => false

def beqElements :
    List (IdRef .stringId × EncodedValue) → List (IdRef .stringId × EncodedValue) → Bool
  | [], [] => true
  | (m, x) :: xs, (n, y) :: ys => m == n && x.beq y && beqElements xs ys
  | _, _ => false

end

instance : BEq EncodedValue := ⟨beq⟩

mutual

def encodedSize : EncodedValue → Nat
  | array elements => 1 + Bytes.varCountLength elements.length + sizeOfList elements
  | annotationBody type elements =>
    1 + Leb128.lengthUInt32 type.raw + Bytes.varCountLength elements.length
      + sizeOfElements elements
  | other => 1 + other.width

def sizeOfList : List EncodedValue → Nat
  | [] => 0
  | value :: rest => value.encodedSize + sizeOfList rest

def sizeOfElements : List (IdRef .stringId × EncodedValue) → Nat
  | [] => 0
  | (name, value) :: rest =>
    Leb128.lengthUInt32 name.raw + value.encodedSize + sizeOfElements rest

end

/-- The descriptor byte: an argument above the code of the kind. -/
def descriptor (kind : ValueKind) (argument : Nat) : UInt8 :=
  (argument * 32 + kind.code.toNat).toUInt8

mutual

def encode : EncodedValue → Result Bytes
  | scalar value width => do
    value.checkReference
    let width := (scalar value width).width
    return descriptor value.kind (width - 1) :: value.payload width
  | array elements => do
    return descriptor .array 0 :: Bytes.ofVarCount elements.length ++ (← encodeList elements)
  | annotationBody type elements => do
    let type ← type.required
    return descriptor .annotationBody 0 :: Leb128.encodeUInt32 type
      ++ Bytes.ofVarCount elements.length ++ (← encodeElements elements)
  | null => .ok [descriptor .null 0]
  | boolean value => .ok [descriptor .boolean value.toNat]

def encodeList : List EncodedValue → Result Bytes
  | [] => .ok []
  | value :: rest => do
    return (← value.encode) ++ (← encodeList rest)

def encodeElements : List (IdRef .stringId × EncodedValue) → Result Bytes
  | [] => .ok []
  | (name, value) :: rest => do
    let name ← name.required
    return Leb128.encodeUInt32 name ++ (← value.encode) ++ (← encodeElements rest)

end

mutual

def uses : EncodedValue → List Use
  | scalar value _ => value.uses
  | array elements => usesOfList elements
  | annotationBody type elements => (type.use? .unmarked).toList ++ usesOfElements elements
  | null | boolean _ => []

def usesOfList : List EncodedValue → List Use
  | [] => []
  | value :: rest => value.uses ++ usesOfList rest

def usesOfElements : List (IdRef .stringId × EncodedValue) → List Use
  | [] => []
  | (name, value) :: rest =>
    (name.use? .unmarked).toList ++ value.uses ++ usesOfElements rest

end

mutual

def visit {σ : Type} (visitor : Visitor σ) : EncodedValue → StateM σ EncodedValue
  | scalar value width => return scalar (← value.visit visitor) width
  | array elements => return array (← visitList visitor elements)
  | annotationBody type elements => do
    let type ← type.visit visitor .unmarked
    return annotationBody type (← visitElements visitor elements)
  | null => pure null
  | boolean value => pure (boolean value)

def visitList {σ : Type} (visitor : Visitor σ) : List EncodedValue → StateM σ (List EncodedValue)
  | [] => pure []
  | value :: rest => do
    let value ← value.visit visitor
    return value :: (← visitList visitor rest)

def visitElements {σ : Type} (visitor : Visitor σ) :
    List (IdRef .stringId × EncodedValue) → StateM σ (List (IdRef .stringId × EncodedValue))
  | [] => pure []
  | (name, value) :: rest => do
    let name ← name.visit visitor .unmarked
    let value ← value.visit visitor
    return (name, value) :: (← visitElements visitor rest)

end

instance : Encodable EncodedValue where
  encodedSize := encodedSize
  encode := encode
  refresh value := value
  isDirty _ := false

instance : Referring EncodedValue where
  uses := uses
  visit := visit

/-- Takes over another value with its references translated. On a fault nothing is taken over. -/
def merge {τ : Type} (translator : Translator τ) (other : EncodedValue) :
    StateM τ (Result EncodedValue) := do
  let outcome ← translate translator other
  return match outcome.fault? with
    | some fault => .error fault
    | none => .ok outcome.value

/-- Reads a value whose nesting is bounded by `fuel`. Running out of fuel means that no byte is left. -/
def decodeWithin : Nat → Decoder EncodedValue
  | 0 => do
    discard Decoder.u1
    return null
  | fuel + 1 => do
    let position ← Decoder.position
    let byte ← Decoder.u1
    let argument := byte.toNat / 32
    let some kind := ValueKind.ofCode? (byte % 32)
      | Reading.fail (.unknownValueKind (byte.toNat % 32) position)
    match kind with
    | .array => do
      let count ← Decoder.uleb128
      return array (← Reading.collect count.toNat fun _ => decodeWithin fuel)
    | .annotationBody => do
      let type ← Decoder.uleb128
      let count ← Decoder.uleb128
      let elements ← Reading.collect count.toNat fun _ => do
        let name ← Decoder.uleb128
        return (.of name, ← decodeWithin fuel)
      return annotationBody (.of type) elements
    | .null => return null
    | .boolean => return boolean (argument != 0)
    | kind => do
      let width := argument + 1
      if kind.maxWidth < width then
        Reading.fail (.payloadTooWide kind position width)
      else
        let payload ← Decoder.take width
        return scalar (Scalar.ofPayload kind width payload.toNatLittle) width

/-- Reads a value. Each level of nesting takes a byte, so the bytes left bound the depth. -/
def decode : Decoder EncodedValue := do decodeWithin (← Decoder.remaining)

end EncodedValue

namespace AnnotationBody

def ofType (index : UInt32) : AnnotationBody := ⟨.of index, []⟩

instance : BEq AnnotationBody :=
  ⟨fun a b => a.type == b.type && EncodedValue.beqElements a.elements b.elements⟩

/-- The body that a value holds, if it is an annotation. -/
def ofValue? : EncodedValue → Option AnnotationBody
  | .annotationBody type elements => some ⟨type, elements⟩
  | _ => none

/-- The value of the first element with the given name. -/
def get? (body : AnnotationBody) (name : UInt32) : Option EncodedValue :=
  (body.elements.find? fun element => element.1.index == some name).map Prod.snd

/-- Replaces the value of the first element with the given name, or adds an element. -/
def set (body : AnnotationBody) (name : UInt32) (value : EncodedValue) : AnnotationBody :=
  match body.elements.findIdx? fun element => element.1.index == some name with
  | some slot => { body with elements := body.elements.modify slot fun element => (element.1, value) }
  | none => { body with elements := body.elements ++ [(.of name, value)] }

/-- Orders the elements by the index of the name; elements of one name keep their order. -/
def sorted (body : AnnotationBody) : AnnotationBody :=
  { body with elements := body.elements.mergeSort fun a b => a.1.raw ≤ b.1.raw }

instance : Encodable AnnotationBody where
  encodedSize body :=
    Leb128.lengthUInt32 body.type.raw + Bytes.varCountLength body.elements.length
      + EncodedValue.sizeOfElements body.elements
  encode body := do
    let type ← body.type.required
    return Leb128.encodeUInt32 type ++ Bytes.ofVarCount body.elements.length
      ++ (← EncodedValue.encodeElements body.elements)
  refresh body := body
  isDirty _ := false

instance : Referring AnnotationBody where
  uses body := (body.type.use? .unmarked).toList ++ EncodedValue.usesOfElements body.elements
  visit visitor body := do
    let type ← body.type.visit visitor .unmarked
    return ⟨type, ← EncodedValue.visitElements visitor body.elements⟩

def decode : Decoder AnnotationBody := do
  let type ← Decoder.uleb128
  let count ← Decoder.uleb128
  let elements ← Reading.collect count.toNat fun _ => do
    let name ← Decoder.uleb128
    return (.of name, ← EncodedValue.decode)
  return { type := .of type, elements }

end AnnotationBody
end DexImage
