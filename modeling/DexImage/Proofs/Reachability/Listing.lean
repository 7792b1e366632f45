import Mathlib.Logic.Relation
import DexImage.Proofs.Reachability.Scan
/-! # The list of reachable items

A scan that ends well lists the least set of items that contains the class definitions and is closed under
references, each item once and in order, with the union of the usages under which its members refer to the item,
whatever the references are marked with. It ends with a fault when one of the members holds a reference beyond its
pool, and only then.
-/

namespace DexImage

namespace Pools

/-- Whether an item holds a reference to another. -/
def Refers (pools : Pools) (holder item : PoolKind × UInt32) : Prop := ∃ use ∈ pools.usesAt holder, use.target = item

/-- What the class definitions reach: themselves, and what one or more references lead to. -/
theorem reaches_iff {pools : Pools} {item : PoolKind × UInt32} :
    pools.Reaches item ↔
      pools.isRoot item ∨ ∃ root, pools.isRoot root ∧ Relation.TransGen pools.Refers root item := by
  constructor
  · intro reaches
    induction reaches with
    | root root => exact .inl root
    | @step holder use _ held ih =>
      have refers : pools.Refers holder use.target := ⟨use, held, rfl⟩
      rcases ih with root | ⟨root, isRoot, path⟩
      · exact .inr ⟨holder, root, .single refers⟩
      · exact .inr ⟨root, isRoot, path.tail refers⟩
  · rintro (root | ⟨root, isRoot, path⟩)
    · exact .root root
    · induction path with
      | single refers =>
        obtain ⟨use, held, rfl⟩ := refers
        exact .step (.root isRoot) held
      | tail _ refers ih =>
        obtain ⟨use, held, rfl⟩ := refers
        exact .step ih held

end Pools

namespace Image

/-- Whatever references are marked with, a scan succeeds exactly when no reachable item holds a reference beyond its
pool, and otherwise the fault is that of an index out of range. What it lists, once and in order, are the class
definitions and what they reach through references, each with the union of the usages that are granted to it. It starts
from all class definitions if a word counts them. `Image.reachable` is the scan with the markers that belong to the
places of the references (`Markers.own`). -/
theorem reachable_exact (markers : Markers) (image : Image) :
    (image.pools.classDefs.size < UInt32.size →
      ∀ item, image.pools.isRoot item ↔ item.1 = .classDef ∧ image.pools.contains item) ∧
    ((∃ found, image.reachableBy markers = .ok found) ↔ ∀ item use, image.pools.Reaches item →
      use ∈ image.pools.usesAt item → image.pools.contains use.target) ∧
    match image.reachableBy markers with
    | .ok found => found.Pairwise InOrder ∧
      (∀ item, (∃ use ∈ found, use.target = item) ↔ image.pools.isRoot item ∨
        ∃ root, image.pools.isRoot root ∧ Relation.TransGen image.pools.Refers root item) ∧
      ∀ use ∈ found, image.pools.UsageOf markers use.target use.usage
    | .error fault => fault.kind = .indexOutOfRange := by
  refine ⟨Pools.isRoot_iff, ?_⟩
  have spec := image.reachableBy_spec markers
  rcases scan : image.reachableBy markers with fault | found <;> rw [scan] at spec
  · obtain ⟨item, use, reached, marked, beyond, rfl⟩ := spec
    obtain ⟨held, member, same⟩ := Pools.exists_mem_apply.mp ⟨use, marked, rfl⟩
    refine ⟨iff_of_false (by rintro ⟨_, ⟨⟩⟩) fun closed => ?_, rfl⟩
    exact beyond (same ▸ closed item held reached member)
  · obtain ⟨reached, granted, ordered⟩ := spec
    refine ⟨iff_of_true ⟨found, rfl⟩ fun item use reaches held => ?_, ordered, fun item => ?_, fun use member => ?_⟩
    · obtain ⟨other, member, same⟩ := (reached use.target).mp (.step reaches held)
      exact same ▸ (granted other member).1
    · rw [← reached, Pools.reaches_iff]
    · exact (granted use member).2

end Image
end DexImage
