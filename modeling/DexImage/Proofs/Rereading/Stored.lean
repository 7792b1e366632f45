import DexImage.Proofs.Reached.Writing
import DexImage.Proofs.Rereading.Tables
/-! # What is written of items that have been read

An image that stores items with the offsets that they have got holds the items as they will be read: they differ
in what their references know alone, which is what the image says.
-/

namespace DexImage

open Layout

variable {image : Bytes} {items placed : Pools} {layout : Layout}

namespace Layout.Complete

variable (complete : layout.Complete image placed)
include complete

/-- References to stored data items know the offsets of these. -/
theorem finder_eq {kind : PoolKind} {item : Item kind} (member : item ∈ (placed.pool kind).items) {target : PoolKind}
    {usage : Usage} {index : UInt32} {known : Option UInt32}
    (held : Held.data target usage (some (index, known)) ∈ (itemHolding kind).held item) :
    known.isSome ∧ layout.offsets.finder ⟨target, some index, usage⟩ = known :=
  complete.told kind item member target usage index known (proper_of_held item _ held)
    (complete.closed kind item member target usage index known held) held

/-- An item that has been told some offsets lies where it would have lain before. -/
theorem moved_eq {kinds : List PoolKind} {kind : PoolKind} {item placedItem : Item kind}
    (member : placedItem ∈ (placed.pool kind).items) (relocated : Relocated kinds item placedItem) :
    moved layout.offsets.finder item = moved layout.offsets.finder placedItem := by
  refine congrArg unmarked (locate_eq_of_alike relocated.alike fun target usage index known held => ?_).symm
  obtain ⟨some, told⟩ := complete.finder_eq member held
  rw [told]
  exact some

/-- What is stored of an item is what is stored of it with all offsets told. -/
theorem encode_moved {kinds : List PoolKind} {kind : PoolKind} {item placedItem : Item kind}
    (member : placedItem ∈ (placed.pool kind).items) (relocated : Relocated kinds item placedItem) :
    encode (moved layout.offsets.finder item) = encode placedItem := by
  have knows : Knows layout.offsets.finder placedItem := by
    intro target usage index known held offset told
    exact (complete.finder_eq member held).2.symm.trans told
  rw [complete.moved_eq member relocated, moved, encode_unmarked, knows.encode_locate]

theorem encoded_alike {kinds : List PoolKind} (relocated : RelocatedPools kinds items placed) (kind : PoolKind) :
    List.Forall₂ (fun item other => encode (moved layout.offsets.finder item) = encode other) (items.pool kind).items
      (placed.pool kind).items := by
  obtain ⟨edit, same, each⟩ := relocated kind
  have listed : (placed.pool kind).items = (items.pool kind).items.map edit := by rw [same, Pool.items_map]
  rw [listed]
  refine .of_map_right fun item member => complete.encode_moved ?_ (each item)
  rw [listed]
  exact List.mem_map_of_mem member

/-- The stored items lie where the layout says. -/
theorem holds {kinds : List PoolKind} (relocated : RelocatedPools kinds items placed) :
    Holds image items layout.offsets := by
  have sizes (kind : PoolKind) : (placed.pool kind).size = (items.pool kind).size := by
    obtain ⟨edit, same, -⟩ := relocated kind
    rw [same, Pool.size_map]
  refine ⟨complete.small, fun kind => sizes kind ▸ complete.sizes kind, fun kind tracked index item found => ?_,
    fun kind tracked index other offset inside first second => ?_⟩
  · obtain ⟨edit, same, each⟩ := relocated kind
    have found' : placed.get? kind index = some (edit item) := by
      rw [Pools.get?, same, Pool.get?_map]
      exact congrArg (Option.map edit) found
    have member : edit item ∈ (placed.pool kind).items := Pools.mem_of_get? found'
    obtain ⟨offset, bytes, place, nonzero, encoded, has⟩ := complete.placedAt tracked found'
    exact ⟨offset, bytes, place, nonzero, (complete.encode_moved member (each item)).trans encoded, has⟩
  · have some : (placed.pool kind).items ≠ [] := by
      intro none
      have zero : (placed.pool kind).size = 0 := by rw [← Pool.length_items, none, List.length_nil]
      have inside : index.toNat < (items.pool kind).size := inside
      rw [← sizes, zero] at inside
      exact absurd inside (Nat.not_lt_zero _)
    exact complete.index_eq tracked some first second

end Layout.Complete
end DexImage
