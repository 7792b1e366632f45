import DexImage.Proofs.Copying.Classes
import DexImage.Proofs.Interning.Growth
import DexImage.Proofs.StaticValues.Carried
/-! # Merging shares what is named alike

A copy of an item that is spelled right is spelled right (`SameTree.spells`). So merging a class of normal pools into
unrepeated ones leaves them unrepeated, and whatever the target has a name for is not added once more
(`Image.interning_shares`).
-/

namespace DexImage

open Pools

/-- A copy is spelled right if the original is. -/
theorem SameTree.spells {source target : Pools} {kind : PoolKind} {old new : UInt32} {copy : Item kind}
    (tree : SameTree source target kind old new) (normal : source.Normal) (copied : target.get? kind new = some copy) :
    target.Spells copy := by
  cases kind with
  | stringId => exact normal.items .stringId copy (mem_of_get? (tree.string_eq.trans copied))
  | protoId =>
    obtain ⟨proto, other, found, there, shorty, returnType, parameters, present⟩ := tree.proto_eq
    obtain rfl := Option.some.inj (there.symm.trans copied)
    obtain ⟨⟨key, names, text⟩, filled⟩ := normal.items .protoId proto (mem_of_get? found)
    have types := parameters.symm.trans (Result.mapM_eq_ok.mpr names.parameters)
    refine ⟨⟨key,
      ⟨returnType.symm.trans names.returnType, Result.mapM_eq_ok.mp types⟩, shorty.symm.trans text⟩, ?_⟩
    intro is none
    rw [none] at types
    have empty := names.parameters
    rw [← show [] = key.parameters from Except.ok.inj types] at empty
    exact filled (present.symm.trans is) (List.forall₂_nil_right_iff.mp empty)
  | _ => trivial

namespace Copying

theorem isShared_of_isNamed {kind : PoolKind} (named : kind.isNamed = true) : isShared kind = true := by
  cases kind <;> first | rfl | cases named

/-- Whether a translator keeps the target of a copy unrepeated. -/
def KeepsUnrepeated (source : Pools) (translator : Translator Copying) : Prop :=
  ∀ {kind : SectionKind} {index : UInt32} {before after : Copying} {result : Result UInt32},
    translator kind index before = (result, after) → before.Faithful source → after.target.Indexed →
      before.target.Unrepeated → after.target.Unrepeated

section Items

variable {source : Pools} {translator : Translator Copying}

theorem unrepeated_translated (copies : Copies source translator) (keeps : KeepsUnrepeated source translator)
    {held places : List Held} {before after : Copying} {fault? : Option Fault}
    (run : Translated translator held before places after fault?) (faithful : before.Faithful source)
    (indexed : after.target.Indexed) (unrepeated : before.target.Unrepeated) : after.target.Unrepeated := by
  induction run with
  | done => exact unrepeated
  | absent _ _ ih => exact ih faithful indexed unrepeated
  | moved _ finds rest ih =>
    have inside := (step_translated copies rest).grows.indexed indexed
    exact ih ((copies.step finds).faithful faithful inside) indexed (keeps finds faithful inside unrepeated)
  | failed _ fails => exact keeps fails faithful indexed unrepeated

theorem unrepeated_copyItem (copies : Copies source translator) (keeps : KeepsUnrepeated source translator)
    (normal : source.Normal) {kind : PoolKind} (copyable : kind ≠ .classDef) {index : UInt32} {result : Result UInt32}
    {before after : Copying} (run : copyItem source translator kind index before = (result, after))
    (faithful : before.Faithful source) (indexed : after.target.Indexed) (unrepeated : before.target.Unrepeated) :
    after.target.Unrepeated := by
  have tree := (copyItem_spec copies copyable run).2
  rcases copyItem_cases run with ⟨fault, rfl, rfl⟩ | ⟨item, outcome, next, found, translated, stored⟩
  · exact unrepeated
  obtain ⟨places, -, pass⟩ := translate_spec translator item before
  rw [translated] at pass
  rcases stored with ⟨fault, rfl, -, rfl⟩ | ⟨new, rfl, success, stored⟩
  · exact unrepeated_translated copies keeps pass faithful indexed unrepeated
  -- Whether the stored item is spelled right is known from its tree, and thus in the pools that have it only.
  have tree := tree new rfl faithful indexed
  have inside := (store_spec source copyable stored).1.grows.indexed indexed
  have unrepeated := unrepeated_translated copies keeps pass faithful inside unrepeated
  rcases store_cases kind outcome.value next with ⟨_, -, -, same⟩ | ⟨fresh, same⟩
  · obtain ⟨rfl, rfl⟩ := Prod.mk.inj (stored.symm.trans same)
    exact unrepeated
  · obtain ⟨rfl, rfl⟩ := Prod.mk.inj (stored.symm.trans same)
    exact unrepeated.push (fun named => fresh (isShared_of_isNamed named)) (tree.spells normal (get?_push indexed))

end Items

/-- Translation by copying keeps the target unrepeated, through any number of items. -/
theorem keepsUnrepeated_translatorWithin {source : Pools} (normal : source.Normal) (depth : Nat) :
    KeepsUnrepeated source (translatorWithin source depth) := by
  induction depth with
  | zero =>
    intro _ _ _ _ _ run _ _ unrepeated
    obtain ⟨-, rfl⟩ := Prod.mk.inj run
    exact unrepeated
  | succ depth inner =>
    intro _ _ _ _ _ run faithful indexed unrepeated
    rcases translatorWithin_cases run with ⟨_, -, rfl⟩ | ⟨_, -, -, rfl⟩ | ⟨pool, next, targets, copied, done⟩
    · exact unrepeated
    · exact unrepeated
    have keeps := unrepeated_copyItem (copies_translatorWithin source depth) inner normal
      (ne_classDef_of_targetPool? targets) copied faithful
    rcases done with ⟨_, -, rfl⟩ | ⟨_, -, rfl⟩
    · exact keeps indexed unrepeated
    · exact keeps indexed unrepeated

end Copying

namespace Image

open Copying

/-- Merging a class of normal pools keeps pools unrepeated, whether it succeeds or not. -/
theorem unrepeated_mergeClass {image source : Image} (unrepeated : image.pools.Unrepeated)
    (normal : source.pools.Normal)
    (index : UInt32) (indexed : (image.mergeClass source index).2.pools.Indexed) :
    (image.mergeClass source index).2.pools.Unrepeated := by
  rcases mergeClass_cases image source index with
    ⟨fault, merged⟩ | ⟨definition, outcome, copying, found, translated, merged⟩
  · rw [merged]
    exact unrepeated
  obtain ⟨places, -, pass⟩ := translate_spec (translator source.pools) definition (.into image.pools)
  rw [translated] at pass
  have faithful : (into image.pools).Faithful source.pools := fun _ _ _ remembered => by cases remembered
  have keeps := unrepeated_translated (copies_translatorWithin source.pools PoolKind.all.length)
    (keepsUnrepeated_translatorWithin normal PoolKind.all.length) pass faithful
  rcases merged with ⟨fault, merged⟩ | ⟨success, merged⟩
  · rw [merged] at indexed ⊢
    exact keeps indexed unrepeated
  · rw [merged] at indexed ⊢
    exact (keeps ((extends_push _ _ _).indexed indexed) unrepeated).push_unnamed .classDef rfl outcome.value

/-- Nothing that unrepeated pools have a name for is added to them. Interning yields the index of what has the name and
changes nothing. It adds what is not there, and one entry of it. Merging a class of normal pools adds no entry of a name
that is there. -/
theorem interning_shares (image : Image) (unrepeated : image.pools.Unrepeated) :
    (∀ (request : Request) index, image.pools.nameAt? request.kind index = some request.name →
      request.intern image.pools = (index, image.pools)) ∧
    (∀ request : Request, (request.intern image.pools).2.Indexed →
      (request.intern image.pools).2.Unrepeated ∧
        (request.intern image.pools).2.nameAt? request.kind (request.intern image.pools).1 = some request.name) ∧
    ∀ (source : Image) index, source.pools.Normal → (image.mergeClass source index).2.pools.Indexed →
      (image.mergeClass source index).2.pools.Unrepeated ∧
        ∀ kind : PoolKind, kind.isKeyed = true → ∀ old new name, image.pools.nameAt? kind old = some name →
          (image.mergeClass source index).2.pools.nameAt? kind new = some name → new = old := by
  refine ⟨fun request index => request.intern_eq unrepeated, fun request indexed => ?_,
    fun source index normal indexed => ?_⟩
  · have grown := request.grown image.pools
    exact ⟨grown.unrepeated indexed unrepeated, grown.known indexed _ (.refl _)⟩
  · have merged := unrepeated_mergeClass unrepeated normal index indexed
    refine ⟨merged, fun kind keyed old new name before after => ?_⟩
    have stays := unrepeated.nameAt?_of_extends (extends_of_mergeClass image source index) keyed before
    exact merged.index_eq keyed after stays

/-- An image with a method. -/
def withRun : Image := { Image.ofVersion 35 with pools := Request.internAll [.method "LA;" "run" "V" ["I"]] .empty }

/-- An image with a class that defines a method. -/
def definingRun (returnType : String) : Image :=
  let pools := Request.internAll [.method "LA;" "run" returnType ["I"]] .empty
  let pools := pools.push .classData (ClassData.mk [] [] [⟨.of 0, 9, .absent⟩] [])
  let definition := ClassDef.mk (.of 0) 1 .absent .absent .absent .absent (.unplaced 0) .absent
  { Image.ofVersion 35 with pools := pools.push .classDef definition }

theorem interning_shares_run :
    withRun.pools.Unrepeated ∧ (Request.proto "V" ["I"]).intern withRun.pools = (0, withRun.pools) ∧
      ((Request.type "J").intern withRun.pools).2.Unrepeated ∧
      (withRun.mergeClass (definingRun "V") 0).1.toOption = some 0 ∧
      ∀ new, (withRun.mergeClass (definingRun "V") 0).2.pools.nameAt? .methodId new =
        some (Request.method "LA;" "run" "V" ["I"]).name → new = 0 := by
  have unrepeated : withRun.pools.Unrepeated :=
    (Request.grown_internAll _ _).unrepeated (indexed_of_sizes (by decide +kernel)) unrepeated_empty
  have normal : (definingRun "V").pools.Normal :=
    ((unrepeated.push_unnamed .classData rfl _).push_unnamed .classDef rfl _).toNormal
  obtain ⟨found, added, merged⟩ := interning_shares withRun unrepeated
  refine ⟨unrepeated, found (.proto "V" ["I"]) 0 (by decide +kernel),
    (added (.type "J") (indexed_of_sizes (by decide +kernel))).1, by decide +kernel, fun new => ?_⟩
  have shared := (merged (definingRun "V") 0 normal (indexed_of_sizes (by decide +kernel))).2
  exact shared .methodId rfl 0 new _ (by decide +kernel)

/-- Pools in which a parameter list is there twice, as it is when it was read from two places. -/
def twoLists : Pools :=
  let pools := Request.internAll [.type "I", .type "V", .string "VI", .string "II"] .empty
  let pools := (pools.push .typeList (TypeList.ofIndices [0])).push .typeList (TypeList.ofIndices [0])
  (pools.push .protoId (ProtoId.mk (.of 2) (.of 1) (.unplaced 0))).push .protoId
    (ProtoId.mk (.of 3) (.of 0) (.unplaced 1))

/-- Interning finds the first of two equal parameter lists, and then no proto with the second. So it adds a second proto
of the same name, and merging a class does too. -/
theorem interning_repeats :
    twoLists.Resolves ∧ twoLists.nameAt? .protoId 1 = some (Request.proto "I" ["I"]).name ∧
      ((Request.proto "I" ["I"]).intern twoLists).1 = 2 ∧ twoLists.protos.size = 2 ∧
      ((Request.proto "I" ["I"]).intern twoLists).2.protos.size = 3 ∧
      (({ Image.ofVersion 35 with pools := twoLists }).mergeClass (definingRun "I") 0).1.toOption = some 0 ∧
      (({ Image.ofVersion 35 with pools := twoLists }).mergeClass (definingRun "I") 0).2.pools.nameAt? .protoId 2 =
        some (Request.proto "I" ["I"]).name := by
  refine ⟨resolves_of_items (by decide +kernel), ?_⟩
  decide +kernel

end Image
end DexImage
