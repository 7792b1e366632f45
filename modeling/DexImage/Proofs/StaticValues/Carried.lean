import DexImage.Proofs.StaticValues.Initials
/-! # Classes that are carried along

Sorting the id tables, removing what is not reachable, copying a class and merging others each leave a class
with counterparts of all that it refers to, so that its fields keep their initial values (`Carries.initials_eq`).
-/

namespace DexImage

open Pools

/-- Whether every reference leads to an item. -/
def Pools.Resolves (pools : Pools) : Prop :=
  ∀ item, ∀ use ∈ pools.usesAt item, pools.contains use.target

theorem Pools.resolves_of_items {pools : Pools} (inside : ∀ kind ∈ PoolKind.all, ∀ item ∈ (pools.pool kind).items,
    ∀ use ∈ uses item, use.index.toNat < (pools.pool use.kind).size) : pools.Resolves := by
  rintro ⟨kind, index⟩ use held
  rw [usesAt] at held
  rcases found : pools.get? kind index with _ | item
  · rw [found] at held
    cases held
  · rw [found] at held
    exact inside kind (PoolKind.mem_all kind) item (mem_of_get? found) use held

namespace Counterparts

variable {before after : Pools}

/-- What is left when unused items are removed. -/
theorem of_trimmed {dropped : Nat} {survivors : PoolKind → List UInt32}
    (trimmed : Image.Trimmed before after dropped survivors) :
    Counterparts (fun kind old new => (survivors kind)[new.toNat]? = some old) before after where
  items := by
    intro kind old new copy _
    obtain ⟨other, there, item, found, moved⟩ := (trimmed.items kind).getElem?_left copy
    refine .inr ⟨item, other, found, Pool.get?_eq_some.mpr there, moved.form, moved.slots.imp ?_⟩
    rintro ⟨kind, first, usage⟩ ⟨kind', second, usage'⟩ ⟨same, -, leads⟩
    refine ⟨same, ?_⟩
    rcases first with _ | first <;> rcases second with _ | second
    · exact .inr ⟨rfl, by rintro _ ⟨⟩⟩
    · exact leads.elim
    · exact leads.elim
    · exact .inl ⟨first, second, rfl, rfl, leads⟩

/-- What unfolds to the same tree. -/
theorem of_sameTree : Counterparts (SameTree before after) before after where
  items := by
    intro kind old new tree plain
    obtain ⟨item, copy, found, copied, form, pairs⟩ := tree.paired plain
    refine .inr ⟨item, copy, found, copied, form, pairs.imp ?_⟩
    rintro ⟨kind, first, usage⟩ ⟨kind', second, usage'⟩ ⟨same, leads⟩
    refine ⟨same, ?_⟩
    rcases first with _ | first <;> rcases second with _ | second
    · exact .inr ⟨rfl, by rintro _ ⟨⟩⟩
    · exact leads.elim
    · exact leads.elim
    · exact .inl ⟨first, second, rfl, rfl, leads⟩

/-- What stays where it is while the pools grow. -/
theorem of_extends (resolves : before.Resolves) (grows : before.Extends after) :
    Counterparts (fun kind old new => new = old ∧ before.contains (kind, old)) before after where
  items := by
    rintro kind old new ⟨rfl, inside⟩ _
    obtain ⟨item, found⟩ : ∃ item, before.get? kind new = some item := by
      rw [contains, ← Pool.length_items] at inside
      exact ⟨_, Pool.get?_eq_some.mpr (List.getElem?_eq_getElem inside)⟩
    refine .inr ⟨item, item, found, grows.get? found, rfl, List.forall₂_same.mpr fun slot member => ⟨rfl, ?_⟩⟩
    rcases present : slot.index with _ | target
    · exact .inr ⟨rfl, by rintro _ ⟨⟩⟩
    · refine .inl ⟨target, target, rfl, rfl, rfl, ?_⟩
      have listed : Use.heldBy ⟨slot.kind, target, slot.usage⟩ kind ∈ before.usesAt (kind, new) := by
        rw [usesAt, found, Option.map_some, Option.getD_some, uses_eq_slots]
        refine List.mem_map_of_mem (List.mem_filterMap.mpr ⟨slot, member, ?_⟩)
        simp [Slot.use?, present]
      have reached := resolves _ _ listed
      rwa [Use.target, Use.kind_heldBy, Use.index_heldBy] at reached

theorem contains {related : Relation} (counterparts : Counterparts related before after) {kind : PoolKind}
    {old new : UInt32} (same : related kind old new) (plain : kind ≠ .code) (inside : before.contains (kind, old)) :
    after.contains (kind, new) := by
  have bound {pools : Pools} {index : UInt32} : pools.contains (kind, index) ↔ (pools.get? kind index).isSome := by
    rw [Pools.contains, get?, Pool.get?, Option.isSome_map, isSome_getElem?]
    rfl
  rw [bound] at inside ⊢
  rcases counterparts.items same plain with ⟨missing, -⟩ | ⟨-, other, -, there, -⟩
  · rw [missing] at inside
    cases inside
  · rw [there]
    rfl

end Counterparts

namespace Image

/-- Class definitions are all kept, in their places, if a word counts them. -/
theorem Trimmed.getElem?_classDef {before after : Pools} {dropped : Nat} {survivors : PoolKind → List UInt32}
    (trimmed : Trimmed before after dropped survivors) (few : before.classDefs.size < UInt32.size) {index : UInt32}
    (inside : index.toNat < before.classDefs.size) : (survivors .classDef)[index.toNat]? = some index := by
  have there : ((survivors .classDef).map UInt32.toNat)[index.toNat]? = some index.toNat := by
    rw [trimmed.survivors_classDef, Nat.toUInt32_eq, UInt32.toNat_ofNat', Nat.mod_eq_of_lt few,
      List.getElem?_range inside]
  rw [List.getElem?_map] at there
  obtain ⟨other, found, same⟩ := Option.map_eq_some_iff.mp there
  rw [found, UInt32.toNat_inj.mp same]

/-- How a class definition of one image comes to stand in another one. What is sorted and what is trimmed can be
counted by a word. -/
inductive Carries (first : Image) (old : UInt32) : Image → UInt32 → Prop where
  | refl (inside : first.pools.contains (.classDef, old)) : Carries first old first old
  | sorted {image after : Image} {index : UInt32} (earlier : Carries first old image index)
      (countable : Countable image.pools) (success : image.sortIds = .ok after) : Carries first old after index
  | trimmed {image after : Image} {index : UInt32} {dropped : Nat} (earlier : Carries first old image index)
      (few : image.pools.classDefs.size < UInt32.size) (success : image.removeUnused = (.ok dropped, after)) :
      Carries first old after index
  /-- The class is copied into another image. -/
  | copied {source image after : Image} {index new : UInt32} (earlier : Carries first old source index)
      (success : image.mergeClass source index = (.ok new, after)) (indexed : after.pools.Indexed) :
      Carries first old after new
  /-- Another class is copied into the image. -/
  | joined {image source : Image} {index other : UInt32} (earlier : Carries first old image index)
      (resolves : image.pools.Resolves) : Carries first old (image.mergeClass source other).2 index

/-- Whether a class definition is related to another, with all that it refers to. -/
def ClassKept (before after : Pools) (old new : UInt32) : Prop :=
  ∃ related, Counterparts related before after ∧ related .classDef old new

theorem classKept_of_sortIds {image after : Image} (countable : Countable image.pools)
    (success : image.sortIds = .ok after) (index : UInt32) : ClassKept image.pools after.pools index index := by
  obtain ⟨moves, renumbering⟩ := (sorted_of_sortIds countable success).moved
  refine ⟨_, renumbering.counterparts, ?_⟩
  by_cases inside : index.toNat < (image.pools.pool .classDef).size
  · exact .inl ⟨inside, (renumbering.fixed .classDef (by decide) _).symm⟩
  · exact .inr ⟨Nat.le_of_not_lt inside, rfl⟩

/-- A class definition that is carried along keeps its initial values. -/
theorem Carries.initials_eq {first image : Image} {old index : UInt32} (carries : Carries first old image index) :
    image.pools.contains (.classDef, index) ∧ first.pools.initials old = image.pools.initials index := by
  have step {before after : Pools} {index new : UInt32} (kept : ClassKept before after index new)
      (earlier : before.contains (.classDef, index) ∧ first.pools.initials old = before.initials index) :
      after.contains (.classDef, new) ∧ first.pools.initials old = after.initials new := by
    obtain ⟨related, counterparts, same⟩ := kept
    exact ⟨counterparts.contains same (by decide) earlier.1, earlier.2.trans (counterparts.initials_eq same)⟩
  induction carries with
  | refl inside => exact ⟨inside, rfl⟩
  | sorted _ countable success ih => exact step (classKept_of_sortIds countable success _) ih
  | trimmed _ few success ih =>
    obtain ⟨survivors, trimmed⟩ := trimmed_of_removeUnused success
    exact step ⟨_, .of_trimmed trimmed, trimmed.getElem?_classDef few ih.1⟩ ih
  | copied _ success indexed ih =>
    exact step ⟨_, .of_sameTree, sameTree_of_mergeClass success indexed⟩ ih
  | joined _ resolves ih =>
    exact step ⟨_, .of_extends resolves (extends_of_mergeClass _ _ _), rfl, ih.1⟩ ih

end Image
end DexImage
