import DexImage.Image.Basic
/-! # Sorting the id tables

The format wants each id table in an order of its own: strings by UTF-16 units, types by the
index of the descriptor, and the other ids by the indices they are made of. Sorting a table
renumbers the references to it, on which the order of the later tables depends.
-/

namespace DexImage

namespace Image

/-- Rearranges a pool and renumbers the references to it. -/
def reorder (image : Image) (kind : SectionKind) (order : List UInt32) : Result Image := do
  let (remap, pools) ← image.pools.reorder kind order
  let image := { image with pools }
  return if remap.isIdentity then image else image.applyRemaps [(kind, remap)]

/-- The indices of a pool in the order of their keys; equal keys keep the order of the indices. They are
counted by a word, so that none are named from the 2^32 that it has no room for. -/
def sortedIndices {α κ : Type} (pool : Pool α) (key : α → κ) (before : κ → κ → Bool) :
    List UInt32 :=
  let counted := pool.items.take pool.size.toUInt32.toNat
  let keyed := counted.zipIdx.map fun (item, index) => (key item, index.toUInt32)
  (keyed.mergeSort fun a b => before a.1 b.1).map Prod.snd

/-- Numbers in lexicographic order. -/
def numbersBefore : List UInt32 → List UInt32 → Bool
  | [], _ => true
  | _ :: _, [] => false
  | a :: as, b :: bs => a < b || (a == b && numbersBefore as bs)

/-- The indices that a proto's parameter list names, none if the list does not resolve. -/
def parameterIndices (pools : Pools) (proto : ProtoId) : List UInt32 :=
  match pools.resolve? proto.parameters with
  | some list => (TypeList.types list).map IdRef.raw
  | none => []

/-- Puts a table in the order of the numbers that its entries are compared by. -/
def sortBy (image : Image) (kind : PoolKind) (key : Item kind → List UInt32) : Result Image :=
  image.reorder kind.toSection (sortedIndices (image.pools.pool kind) key numbersBefore)

/-- Puts the id tables in the order that the format requires. -/
def sortIds (image : Image) : Result Image := do
  let strings := sortedIndices image.pools.strings id fun a b => (a.order b).isLE
  let image ← image.reorder .stringId strings
  let image ← image.sortBy .typeId fun (type : TypeId) => [type.descriptor.raw]
  let image ← image.sortBy .protoId fun (proto : ProtoId) =>
    proto.returnType.raw :: parameterIndices image.pools proto
  let image ← image.sortBy .fieldId fun (field : FieldId) =>
    [field.definer.raw, field.name.raw, field.fieldType.raw]
  image.sortBy .methodId fun (method : MethodId) =>
    [method.definer.raw, method.name.raw, method.proto.raw]

end Image
end DexImage
