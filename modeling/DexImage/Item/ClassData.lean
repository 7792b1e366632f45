import DexImage.Item.Ids
/-! # Class data

The fields and methods that a class defines. In each of the four lists a member's index is
written as its difference from the member before it, so the indices must not decrease.
-/

namespace DexImage

structure DefinedField where
  field : IdRef .fieldId
  access : UInt32
deriving DecidableEq, Repr

structure DefinedMethod where
  method : IdRef .methodId
  access : UInt32
  code : DataRef .code
deriving BEq, Repr

namespace DefinedField

/-- The size of a list whose first difference is taken from `previous`. -/
def listSize : (previous : UInt32) → List DefinedField → Nat
  | _, [] => 0
  | previous, entry :: rest =>
    Leb128.lengthUInt32 (entry.field.raw - previous) + Leb128.lengthUInt32 entry.access
      + listSize entry.field.raw rest

def encodeList : (previous : UInt32) → List DefinedField → Result Bytes
  | _, [] => .ok []
  | previous, entry :: rest => do
    let index ← entry.field.required
    if index < previous then throw (Fault.of (.fieldsOutOfOrder index previous))
    return Leb128.encodeUInt32 (index - previous) ++ Leb128.encodeUInt32 entry.access
      ++ (← encodeList index rest)

/-- The entries whose differences and access flags are listed. -/
def ofDifferences : (previous : UInt32) → List (UInt32 × UInt32) → List DefinedField
  | _, [] => []
  | previous, (difference, access) :: rest =>
    ⟨.of (previous + difference), access⟩ :: ofDifferences (previous + difference) rest

/-- The entries ordered by index; entries of one field keep their order. -/
def sort (entries : List DefinedField) : List DefinedField :=
  entries.mergeSort fun a b => a.field.raw ≤ b.field.raw

def visit {σ : Type} (visitor : Visitor σ) (entry : DefinedField) : StateM σ DefinedField := do
  return { entry with field := ← entry.field.visit visitor .definition }

def decodeList (noun : String) (count : UInt32) : Decoder (List DefinedField) := do
  let entries ← Reading.collect count.toNat fun index => do
    let difference ← Decoder.uleb128
    return (difference, ← Reading.within (.nth noun index) Decoder.uleb128)
  return ofDifferences 0 entries

end DefinedField

namespace DefinedMethod

/-- The size of a list whose first difference is taken from `previous`. -/
def listSize : (previous : UInt32) → List DefinedMethod → Nat
  | _, [] => 0
  | previous, entry :: rest =>
    Leb128.lengthUInt32 (entry.method.raw - previous) + Leb128.lengthUInt32 entry.access
      + Leb128.lengthUInt32 entry.code.knownOffset + listSize entry.method.raw rest

def encodeList : (previous : UInt32) → List DefinedMethod → Result Bytes
  | _, [] => .ok []
  | previous, entry :: rest => do
    let index ← entry.method.required
    if index < previous then throw (Fault.of (.methodsOutOfOrder index previous))
    let code ← entry.code.offset
    return Leb128.encodeUInt32 (index - previous) ++ Leb128.encodeUInt32 entry.access
      ++ Leb128.encodeUInt32 code ++ (← encodeList index rest)

/-- The entries whose differences, access flags and code references are listed. -/
def ofDifferences :
    (previous : UInt32) → List (UInt32 × UInt32 × DataRef .code) → List DefinedMethod
  | _, [] => []
  | previous, (difference, access, code) :: rest =>
    ⟨.of (previous + difference), access, code⟩ :: ofDifferences (previous + difference) rest

/-- The entries ordered by index; entries of one method keep their order. -/
def sort (entries : List DefinedMethod) : List DefinedMethod :=
  entries.mergeSort fun a b => a.method.raw ≤ b.method.raw

def uses (entry : DefinedMethod) : List Use :=
  (entry.method.use? .definition).toList ++ (entry.code.use? .code).toList

def visit {σ : Type} (visitor : Visitor σ) (entry : DefinedMethod) : StateM σ DefinedMethod := do
  let method ← entry.method.visit visitor .definition
  return { entry with method, code := ← entry.code.visit visitor .code }

end DefinedMethod

structure ClassData where
  staticFields : List DefinedField
  instanceFields : List DefinedField
  directMethods : List DefinedMethod
  virtualMethods : List DefinedMethod
deriving BEq, Repr

namespace ClassData

def fields (data : ClassData) : List DefinedField := data.staticFields ++ data.instanceFields

def methods (data : ClassData) : List DefinedMethod := data.directMethods ++ data.virtualMethods

def isEmpty (data : ClassData) : Bool := data.fields.isEmpty && data.methods.isEmpty

instance : Encodable ClassData where
  encodedSize data :=
    Bytes.varCountLength data.staticFields.length + Bytes.varCountLength data.instanceFields.length
      + Bytes.varCountLength data.directMethods.length
      + Bytes.varCountLength data.virtualMethods.length
      + DefinedField.listSize 0 data.staticFields + DefinedField.listSize 0 data.instanceFields
      + DefinedMethod.listSize 0 data.directMethods + DefinedMethod.listSize 0 data.virtualMethods
  encode data := do
    return Bytes.ofVarCount data.staticFields.length ++ Bytes.ofVarCount data.instanceFields.length
      ++ Bytes.ofVarCount data.directMethods.length ++ Bytes.ofVarCount data.virtualMethods.length
      ++ (← DefinedField.encodeList 0 data.staticFields)
      ++ (← DefinedField.encodeList 0 data.instanceFields)
      ++ (← DefinedMethod.encodeList 0 data.directMethods)
      ++ (← DefinedMethod.encodeList 0 data.virtualMethods)
  refresh data :=
    { staticFields := DefinedField.sort data.staticFields
      instanceFields := DefinedField.sort data.instanceFields
      directMethods := DefinedMethod.sort data.directMethods
      virtualMethods := DefinedMethod.sort data.virtualMethods }
  isDirty _ := false

instance : Referring ClassData where
  uses data :=
    (data.fields.filterMap fun entry => entry.field.use? .definition)
      ++ data.methods.flatMap DefinedMethod.uses
  visit visitor data := do
    let staticFields ← visitAll (DefinedField.visit visitor) data.staticFields
    let instanceFields ← visitAll (DefinedField.visit visitor) data.instanceFields
    let directMethods ← visitAll (DefinedMethod.visit visitor) data.directMethods
    let virtualMethods ← visitAll (DefinedMethod.visit visitor) data.virtualMethods
    return { staticFields, instanceFields, directMethods, virtualMethods }

end ClassData

/-- The keywords for access flags, in the order of the flags; some differ between methods and
other things. -/
def accessNames (flags : UInt32) (ofMethod : Bool) : String :=
  " ".intercalate (table.filterMap fun (bit, name, methodOnly?) =>
    if flags &&& bit != 0 && methodOnly?.all (· == ofMethod) then some name else none)
where
  table : List (UInt32 × String × Option Bool) :=
    [(0x1, "public", none), (0x2, "private", none), (0x4, "protected", none),
      (0x8, "static", none), (0x10, "final", none), (0x20, "synchronized", some true),
      (0x40, "volatile", some false), (0x40, "bridge", some true),
      (0x80, "transient", some false), (0x80, "varargs", some true), (0x100, "native", none),
      (0x200, "interface", none), (0x400, "abstract", none), (0x800, "strictfp", none),
      (0x1000, "synthetic", none), (0x4000, "enum", none), (0x10000, "constructor", none)]

end DexImage
