import DexImage.Image.Merging
import DexImage.Proofs.Copying.Faithful
/-! # Merging a class is a faithful deep copy

The class definition that a merge adds unfolds to the same tree as the one it was made from, and
everything that was in the pools stays where it is, also when the merge fails.
-/

namespace DexImage.Image

open Pools Copying

/-- What a merge does: it is refused, it fails on the way, or it appends a translated definition. -/
theorem mergeClass_cases (image source : Image) (index : UInt32) :
    (∃ fault, image.mergeClass source index = (.error fault, image)) ∨
      ∃ (definition : Item .classDef) (outcome : Outcome (Item .classDef)) (copying : Copying),
        source.pools.get? .classDef index = some definition ∧
          translate (Copying.translator source.pools) definition (.into image.pools) = (outcome, copying) ∧
          ((∃ fault, image.mergeClass source index = (.error fault, { image with pools := copying.target })) ∨
            outcome.fault? = none ∧ image.mergeClass source index =
              (.ok copying.target.classDefs.nextIndex,
                { image with pools := copying.target.push .classDef outcome.value })) := by
  rcases required : source.pools.require .classDef index with fault | definition
  · left
    exact ⟨fault, by rw [mergeClass, required]; rfl⟩
  rcases named : TypeKey.of? source.pools (ClassDef.type definition) with fault | key
  · left
    refine ⟨fault, ?_⟩
    rw [mergeClass, required]
    simp only [bind, Except.bind, named]
  rw [mergeClass, required]
  simp only [bind, Except.bind, named, pure, Except.pure]
  by_cases defined : (image.pools.findClass? key.descriptor).isSome
  · left
    exact ⟨_, by rw [if_pos defined]⟩
  · right
    rcases translated : translate (Copying.translator source.pools) definition (.into image.pools) with
      ⟨outcome, copying⟩
    rw [if_neg defined]
    refine ⟨definition, outcome, copying, require_eq.mp required, translated, ?_⟩
    rcases success : outcome.fault? with _ | fault
    · exact .inr ⟨rfl, by simp only [success]⟩
    · exact .inl ⟨_, by simp only [success]; rfl⟩

/-- Everything stays where it is, whether the merge succeeds or not. -/
theorem extends_of_mergeClass (image source : Image) (index : UInt32) :
    image.pools.Extends (image.mergeClass source index).2.pools := by
  rcases mergeClass_cases image source index with
    ⟨fault, merged⟩ | ⟨definition, outcome, copying, found, translated, merged⟩
  · rw [merged]
    exact .refl _
  obtain ⟨places, -, pass⟩ := translate_spec (translator source.pools) definition (.into image.pools)
  rw [translated] at pass
  have step := step_translated (copies_translatorWithin source.pools PoolKind.all.length) pass
  rcases merged with ⟨fault, merged⟩ | ⟨-, merged⟩
  · rw [merged]
    exact step.grows
  · rw [merged]
    exact step.grows.trans (extends_push copying.target .classDef outcome.value)

/-- The new definition unfolds to the tree of the one it was made from. -/
theorem sameTree_of_mergeClass {image source after : Image} {index new : UInt32}
    (success : image.mergeClass source index = (.ok new, after)) (indexed : after.pools.Indexed) :
    SameTree source.pools after.pools .classDef index new := by
  rcases mergeClass_cases image source index with
    ⟨fault, merged⟩ | ⟨definition, outcome, copying, found, translated, ⟨fault, merged⟩ | ⟨finished, merged⟩⟩
  · cases merged.symm.trans success
  · cases merged.symm.trans success
  · obtain ⟨same, rfl⟩ := Prod.mk.inj (merged.symm.trans success)
    obtain rfl := Except.ok.inj same
    have faithful : (into image.pools).Faithful source.pools := fun _ _ _ remembered => by cases remembered
    exact tree_of_stored (copies_translatorWithin source.pools PoolKind.all.length) found translated finished faithful
      (extends_push copying.target .classDef outcome.value) indexed (get?_push indexed) (.refl _ _) (by rintro ⟨⟩)

/-- Merging a class copies it with everything that it refers to. What was in the pools stays where it
is, also on failure, and then no class definition is added. On success the new definition stands
behind the others and unfolds to the tree of the one it was made from, in which ids have equal keys
and strings are equal. The trees are those of pools whose items all have an index. -/
theorem mergeClass_faithful (image source : Image) (index : UInt32) :
    let after := (image.mergeClass source index).2
    image.pools.Extends after.pools ∧ after.header = image.header ∧ after.map = image.map ∧
      match (image.mergeClass source index).1 with
      | .error _ => after.pools.classDefs = image.pools.classDefs
      | .ok new =>
        new = image.pools.classDefs.nextIndex ∧
          after.pools.classDefs.size = image.pools.classDefs.size + 1 ∧
          (after.pools.Indexed →
            SameTree source.pools after.pools .classDef index new ∧
              ∀ kind old copy, SameTree source.pools after.pools kind old copy →
                EntryKey.at? source.pools kind.toSection old = EntryKey.at? after.pools kind.toSection copy ∧
                  (kind = .stringId → source.pools.get? kind old = after.pools.get? kind copy)) := by
  have grows := extends_of_mergeClass image source index
  rcases mergeClass_cases image source index with
    ⟨fault, merged⟩ | ⟨definition, outcome, copying, found, translated, merged⟩
  · rw [merged]
    exact ⟨.refl _, rfl, rfl, rfl⟩
  obtain ⟨places, -, pass⟩ := translate_spec (translator source.pools) definition (.into image.pools)
  rw [translated] at pass
  have step := step_translated (copies_translatorWithin source.pools PoolKind.all.length) pass
  rcases merged with ⟨fault, merged⟩ | ⟨success, merged⟩
  · rw [merged]
    exact ⟨step.grows, rfl, rfl, step.classes⟩
  have tree := @sameTree_of_mergeClass _ _ _ _ _ merged
  rw [merged] at grows ⊢
  refine ⟨grows, rfl, rfl, congrArg Pool.nextIndex step.classes, ?_, fun indexed => ⟨tree indexed, ?_⟩⟩
  · have size : (copying.target.push .classDef outcome.value).classDefs =
        copying.target.classDefs.push outcome.value := pool_push_self _ .classDef _
    rw [size, step.classes, Pool.size_push]
    rfl
  · rintro kind old copy tree
    refine ⟨tree.key_eq, ?_⟩
    rintro rfl
    exact tree.string_eq

/-- An image with a class that has one interface. -/
def withListener : Image :=
  let (listener, pools) := Pools.internType "LListener;" .empty
  let (interfaces, pools) := pools.intern .typeList (TypeList.ofIndices [listener])
  let (button, pools) := Pools.internType "LButton;" pools
  let definition := ClassDef.mk (.of button) 1 .absent (.unplaced interfaces) .absent .absent .absent .absent
  { Image.ofVersion 35 with pools := pools.push .classDef definition }

theorem mergeClass_withListener :
    ((Image.ofVersion 35).mergeClass withListener 0).1 = .ok 0 ∧
      SameTree withListener.pools ((Image.ofVersion 35).mergeClass withListener 0).2.pools .classDef 0 0 := by
  have success : ((Image.ofVersion 35).mergeClass withListener 0).1.toOption = some 0 := by decide +kernel
  have sizes : ∀ kind ∈ PoolKind.all,
      (((Image.ofVersion 35).mergeClass withListener 0).2.pools.pool kind).size ≤ UInt32.size := by
    decide +kernel
  have merged : ((Image.ofVersion 35).mergeClass withListener 0).1 = .ok 0 := by
    generalize ((Image.ofVersion 35).mergeClass withListener 0).1 = result at success
    cases result with
    | error => cases success
    | ok => exact congrArg _ (Option.some.inj success)
  have faithful := (mergeClass_faithful (.ofVersion 35) withListener 0).2.2.2
  rw [merged] at faithful
  exact ⟨merged, (faithful.2.2 fun kind => sizes kind (PoolKind.mem_all kind)).1⟩

end DexImage.Image
