import DexImage.Pools
import DexImage.Text.Quoted
/-! # Keys

What an id item names, independently of its position: two references into different images
name the same thing when their keys are equal. Keys are ordered by their components in turn, and
texts by code point.
-/

namespace DexImage

namespace Pools

/-- The text of a string that has to exist. -/
def stringAt (pools : Pools) (index : UInt32) : Result String := do
  let string ← pools.require .stringId index
  return StringData.textLossy string

/-- The text of the string that a reference names. -/
def stringOf (pools : Pools) (ref : IdRef .stringId) : Result String := do
  pools.stringAt (← ref.required)

end Pools

/-- A type is named by its descriptor. -/
structure TypeKey where
  descriptor : String
deriving DecidableEq, Repr

namespace TypeKey

def at? (pools : Pools) (index : UInt32) : Result TypeKey := do
  let type ← pools.require .typeId index
  return ⟨← pools.stringOf (TypeId.descriptor type)⟩

def of? (pools : Pools) (ref : IdRef .typeId) : Result TypeKey := do
  at? pools (← ref.required)

def text (key : TypeKey) : String := key.descriptor

def order (a b : TypeKey) : Ordering := compare a.descriptor b.descriptor

end TypeKey

structure ProtoKey where
  returnType : TypeKey
  parameters : List TypeKey
deriving DecidableEq, Repr

namespace ProtoKey

/-- The key of a proto; a parameter list that does not resolve counts as empty. -/
def at? (pools : Pools) (index : UInt32) : Result ProtoKey := do
  let proto : ProtoId ← pools.require .protoId index
  let returnType ← TypeKey.of? pools proto.returnType
  let types := match pools.resolve? proto.parameters with
    | some list => TypeList.types list
    | none => []
  return { returnType, parameters := ← types.mapM (TypeKey.of? pools) }

def of? (pools : Pools) (ref : IdRef .protoId) : Result ProtoKey := do
  at? pools (← ref.required)

/-- One character for each type, that of the return type first. -/
def shorty (key : ProtoKey) : String :=
  String.ofList ((key.returnType :: key.parameters).map fun type => shortyChar type.descriptor)

def text (key : ProtoKey) : String :=
  "(" ++ String.join (key.parameters.map TypeKey.text) ++ ")" ++ key.returnType.text

def order (a b : ProtoKey) : Ordering :=
  (a.returnType.order b.returnType).then
    (compare (a.parameters.map TypeKey.descriptor) (b.parameters.map TypeKey.descriptor))

end ProtoKey

structure FieldKey where
  definer : TypeKey
  name : String
  fieldType : TypeKey
deriving DecidableEq, Repr

namespace FieldKey

def at? (pools : Pools) (index : UInt32) : Result FieldKey := do
  let field : FieldId ← pools.require .fieldId index
  let definer ← TypeKey.of? pools field.definer
  let name ← pools.stringOf field.name
  return { definer, name, fieldType := ← TypeKey.of? pools field.fieldType }

def text (key : FieldKey) : String :=
  key.definer.text ++ "->" ++ key.name ++ ":" ++ key.fieldType.text

def order (a b : FieldKey) : Ordering :=
  ((a.definer.order b.definer).then (compare a.name b.name)).then (a.fieldType.order b.fieldType)

end FieldKey

structure MethodKey where
  definer : TypeKey
  name : String
  proto : ProtoKey
deriving DecidableEq, Repr

namespace MethodKey

def at? (pools : Pools) (index : UInt32) : Result MethodKey := do
  let method : MethodId ← pools.require .methodId index
  let definer ← TypeKey.of? pools method.definer
  let name ← pools.stringOf method.name
  return { definer, name, proto := ← ProtoKey.of? pools method.proto }

def text (key : MethodKey) : String := key.definer.text ++ "->" ++ key.name ++ key.proto.text

def order (a b : MethodKey) : Ordering :=
  ((a.definer.order b.definer).then (compare a.name b.name)).then (a.proto.order b.proto)

end MethodKey

/-- The key of an entry of any id table whose entries have keys. -/
inductive EntryKey where
  | type (key : TypeKey)
  | proto (key : ProtoKey)
  | field (key : FieldKey)
  | method (key : MethodKey)
deriving DecidableEq, Repr

namespace EntryKey

/-- The key of an entry of a section, unless the section's entries have none or it does not
resolve. -/
def at? (pools : Pools) (kind : SectionKind) (index : UInt32) : Result EntryKey :=
  match kind with
  | .typeId => (TypeKey.at? pools index).map type
  | .protoId => (ProtoKey.at? pools index).map proto
  | .fieldId => (FieldKey.at? pools index).map field
  | .methodId => (MethodKey.at? pools index).map method
  | kind => .error (Fault.of (.notATarget kind))

def text : EntryKey → String
  | type key => key.text
  | proto key => key.text
  | field key => key.text
  | method key => key.text

/-- The position of the key's table among those with keys. -/
def tableRank : EntryKey → Nat
  | type _ => 0
  | proto _ => 1
  | field _ => 2
  | method _ => 3

/-- Keys of different tables are ordered as the tables are. -/
def order : EntryKey → EntryKey → Ordering
  | type a, type b => a.order b
  | proto a, proto b => a.order b
  | field a, field b => a.order b
  | method a, method b => a.order b
  | a, b => compare a.tableRank b.tableRank

end EntryKey

namespace Pools

/-- A readable name for an entry of a section, if the entry and what its name is made of resolve. -/
def nameOf? (pools : Pools) (kind : SectionKind) (index : UInt32) : Option String :=
  match kind with
  | .stringId | .stringData =>
    (pools.get? .stringId index).map fun string => Text.quote (StringData.textLossy string)
  | kind => (EntryKey.at? pools kind index).toOption.map EntryKey.text

/-- The word for entries that have no readable name. -/
def tagOf : SectionKind → String
  | .stringId | .stringData => "string"
  | .typeId => "type"
  | .protoId => "proto"
  | .fieldId => "field"
  | .methodId => "method"
  | .code => "code"
  | .debugInfo => "debug_info"
  | _ => "item"

/-- The readable name of an entry, or its kind and index. -/
def describe (pools : Pools) (kind : SectionKind) (index : UInt32) : String :=
  (pools.nameOf? kind index).getD (tagOf kind ++ "@" ++ Text.decimal index.toNat)

/-- The readable name of the target of a reference. -/
def describeRef {target : PoolKind} (pools : Pools) (ref : IdRef target) : String :=
  match ref.index with
  | some index => pools.describe target.toSection index
  | none => "<none>"

end Pools

namespace ExceptionHandler

/-- The type that a handler catches, if it catches one and its name resolves. -/
def typeKey? (pools : Pools) : ExceptionHandler → Option TypeKey
  | typed type _ => type.index.bind fun index => (TypeKey.at? pools index).toOption
  | catchAll _ => none

/-- Whether both handlers catch the same type by name, or both catch everything. -/
def sameType (pools : Pools) (handler : ExceptionHandler) (others : Pools)
    (other : ExceptionHandler) : Bool :=
  match handler, other with
  | catchAll _, catchAll _ => true
  | typed .., typed .. => handler.typeKey? pools == other.typeKey? others
  | _, _ => false

end ExceptionHandler

/-- Whether two handler lists of different images catch the same types at the same addresses. -/
def HandlerList.equivalent (pools : Pools) (list : HandlerList) (others : Pools)
    (other : HandlerList) : Bool :=
  list.handlers.length == other.handlers.length
    && (list.handlers.zip other.handlers).all fun (a, b) =>
      a.address == b.address && a.sameType pools others b

end DexImage
