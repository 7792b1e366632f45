import DexImage.Image.Basic
import DexImage.Key
/-! # Interning ids

Id items by what they name: each operation yields the index of an equal entry, or adds one and
whatever it is made of.
-/

namespace DexImage.Pools

/-- A step that may add items and yields an index. -/
abbrev Interning := StateM Pools UInt32

def internItem (kind : PoolKind) (item : Item kind) : Interning := fun pools =>
  pools.intern kind item

def internString (text : String) : Interning := internItem .stringId (StringData.decoded text)

def internType (descriptor : String) : Interning := do
  let string ← internString descriptor
  internItem .typeId (TypeId.ofDescriptor string)

def internTypes : List String → StateM Pools (List UInt32)
  | [] => pure []
  | descriptor :: rest => do
    let index ← internType descriptor
    return index :: (← internTypes rest)

/-- An empty parameter list is an absent one. -/
def internParameters (indices : List UInt32) : StateM Pools (DataRef .typeList) :=
  match indices with
  | [] => pure .absent
  | indices => return .unplaced (← internItem .typeList (TypeList.ofIndices indices))

def internProto (returnType : String) (parameters : List String) : Interning := do
  let shorty ← internString (String.ofList ((returnType :: parameters).map shortyChar))
  let returnType ← internType returnType
  let parameters ← internParameters (← internTypes parameters)
  internItem .protoId (ProtoId.mk (.of shorty) (.of returnType) parameters)

def internField (definer name fieldType : String) : Interning := do
  let definer ← internType definer
  let fieldType ← internType fieldType
  let name ← internString name
  internItem .fieldId (FieldId.mk (.of definer) (.of fieldType) (.of name))

def internMethod (definer name returnType : String) (parameters : List String) : Interning := do
  let definer ← internType definer
  let proto ← internProto returnType parameters
  let name ← internString name
  internItem .methodId (MethodId.mk (.of definer) (.of proto) (.of name))

/-- The class definition of the type with a descriptor. -/
def findClass? (pools : Pools) (descriptor : String) : Option UInt32 :=
  pools.classDefs.position? fun definition =>
    match TypeKey.of? pools definition.type with
    | .ok key => key.descriptor == descriptor
    | .error _ => false

end DexImage.Pools
