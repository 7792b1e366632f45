import DexImage.Proofs.Copying.Classes
import DexImage.Proofs.Reached.Operations
/-! # What merging keeps

Copying between regular pools keeps the target regular, whether the copy is finished or not: an item is stored once
its references have been translated, so that they lead to items of the target.
-/

namespace DexImage

open Pools

namespace Copying

/-- Whether the target of a copy is regular, and the indices that are remembered are those of items. -/
structure Regular (copying : Copying) : Prop where
  target : copying.target.Regular
  inside : ∀ kind index new, ((kind, index), new) ∈ copying.copied →
    ∃ pool, targetPool? kind = some pool ∧ copying.target.contains (pool, new)

theorem regular_into {target : Pools} (regular : target.Regular) : (into target).Regular :=
  ⟨regular, fun _ _ _ remembered => by cases remembered⟩

/-- What is remembered stays so while the target grows. -/
theorem Regular.of_grows {before : Copying} {target : Pools} (regular : before.Regular)
    (grows : before.target.Extends target) (after : target.Regular) : Regular { before with target } where
  target := after
  inside kind index new remembered := by
    obtain ⟨pool, targets, inside⟩ := regular.inside kind index new remembered
    exact ⟨pool, targets, contains_of_extends grows inside⟩

/-- Whether a translator keeps a copy regular and yields indices of items. -/
structure KeepsRegular (translator : Translator Copying) : Prop where
  step {kind : SectionKind} {index : UInt32} {before after : Copying} {result : Result UInt32} :
    translator kind index before = (result, after) → before.Regular → after.Regular
  inside {kind : PoolKind} {index new : UInt32} {before after : Copying} :
    translator kind.toSection index before = (.ok new, after) → before.Regular → after.target.contains (kind, new)

section Items

variable {source : Pools} {translator : Translator Copying}

theorem regular_translated (keeps : KeepsRegular translator) {held places : List Held} {before after : Copying}
    {fault? : Option Fault} (run : Translated translator held before places after fault?) (regular : before.Regular) :
    after.Regular := by
  induction run with
  | done => exact regular
  | absent _ _ ih => exact ih regular
  | moved _ finds _ ih => exact ih (keeps.step finds regular)
  | failed _ fails => exact keeps.step fails regular

/-- References that have been translated lead to items of the target. -/
theorem kept_translated (copies : Copies source translator) (keeps : KeepsRegular translator) {held places : List Held}
    {before after : Copying} {fault? : Option Fault} (run : Translated translator held before places after fault?)
    (success : fault? = none) (regular : before.Regular) :
    List.Forall₂ (Held.Kept source after.target) held places := by
  induction run with
  | done => exact .nil
  | @absent one _ _ _ _ _ missing _ ih =>
    refine .cons ⟨rfl, fun index present => ?_⟩ (ih success regular)
    cases missing.symm.trans present
  | @moved one _ _ old new before next after _ present finds rest ih =>
    refine .cons ⟨?_, fun index there => ?_⟩ (ih success (keeps.step finds regular))
    · cases one with
      | operand => simp only [Held.edited]; split_ifs <;> rfl
      | id | data => rfl
    · by_cases operand : one.isOperand = true
      · exact .inr (.inl operand)
      · left
        have arrives : (one.edited (.retarget (some new))).index = some new := by
          cases one with
          | operand => exact absurd rfl operand
          | id => rfl
          | data target usage state =>
            simp only [Held.edited, Held.index]
            split_ifs with same
            · exact same
            · rfl
        obtain rfl := Option.some.inj (arrives.symm.trans there)
        exact contains_of_extends (step_translated copies rest).grows (keeps.inside finds regular)
  | failed => cases success

/-- A copy that leads to items of the target is stored among them. -/
theorem regular_store {kind : PoolKind} {item : Item kind} {new : UInt32} {before after : Copying}
    (run : store kind item before = (new, after)) (regular : before.Regular) (formed : Formed item)
    (anchored : Anchored before.target item) : after.Regular ∧ after.target.contains (kind, new) := by
  rcases store_cases kind item before with ⟨index, -, found, stored⟩ | ⟨-, stored⟩
  · obtain ⟨rfl, rfl⟩ := Prod.mk.inj (run.symm.trans stored)
    exact ⟨regular, contains_of_find? found⟩
  · obtain ⟨rfl, rfl⟩ := Prod.mk.inj (run.symm.trans stored)
    exact ⟨regular.of_grows (extends_push _ _ _) (regular.target.push formed anchored), contains_nextIndex _ _ _⟩

/-- A translated item has its form, and its references lead to items of the target. -/
theorem regular_translate (copies : Copies source translator)
    (keeps : KeepsRegular translator) (regular : source.Regular)
    {kind : PoolKind} {item : Item kind} (member : item ∈ (source.pool kind).items) {outcome : Outcome (Item kind)}
    {before after : Copying} (run : translate translator item before = (outcome, after)) (sane : before.Regular) :
    after.Regular ∧ (outcome.fault? = none → Formed outcome.value ∧ Anchored after.target outcome.value) := by
  obtain ⟨places, value, pass⟩ := translate_spec translator item before
  rw [run] at value pass
  refine ⟨regular_translated keeps pass sane, fun success => ?_⟩
  have fits := pass.fits fun one member => (((itemHolding kind).lawful item).kept one member).2
  rw [value]
  refine ⟨formed_of_content (content_fill fits) (regular.formed kind item member), ?_⟩
  have kept := kept_translated copies keeps pass success sane
  refine (regular.anchored kind item member).of_kept ?_
  rw [((itemHolding kind).lawful item).held_fill fits, List.forall₂_map_right_iff]
  refine kept.imp fun one other step => ⟨?_, fun index present => step.leads index ?_⟩
  · cases other <;> exact step.kind
  · rwa [Held.index_settled] at present

theorem regular_copyItem (copies : Copies source translator)
    (keeps : KeepsRegular translator) (regular : source.Regular)
    {kind : PoolKind} {index : UInt32} {result : Result UInt32} {before after : Copying}
    (run : copyItem source translator kind index before = (result, after)) (sane : before.Regular) :
    after.Regular ∧ ∀ new, result = .ok new → after.target.contains (kind, new) := by
  rcases copyItem_cases run with ⟨fault, rfl, rfl⟩ | ⟨item, outcome, next, found, translated, stored⟩
  · exact ⟨sane, fun _ success => by cases success⟩
  obtain ⟨sane, finished⟩ := regular_translate copies keeps regular (mem_of_get? found) translated sane
  rcases stored with ⟨fault, rfl, -, rfl⟩ | ⟨new, rfl, success, stored⟩
  · exact ⟨sane, fun _ success => by cases success⟩
  · obtain ⟨formed, anchored⟩ := finished success
    obtain ⟨sane, inside⟩ := regular_store stored sane formed anchored
    refine ⟨sane, fun other same => ?_⟩
    obtain rfl := Except.ok.inj same
    exact inside

end Items

variable {source : Pools}

/-- What one translation by copying does, whatever the section. -/
private theorem regular_translatorWithin {depth : Nat} (regular : source.Regular) {kind : SectionKind} {index : UInt32}
    {result : Result UInt32} {before after : Copying} (inner : KeepsRegular (translatorWithin source depth))
    (run : translatorWithin source (depth + 1) kind index before = (result, after)) (sane : before.Regular) :
    after.Regular ∧ ∀ new, result = .ok new → ∃ pool,
    targetPool? kind = some pool ∧ after.target.contains (pool, new) := by
  rcases translatorWithin_cases run with ⟨fault, rfl, rfl⟩ | ⟨done, rfl, remembered, rfl⟩ |
    ⟨pool, next, targets, copied, done⟩
  · exact ⟨sane, fun _ success => by cases success⟩
  · refine ⟨sane, fun new same => ?_⟩
    obtain rfl := Except.ok.inj same
    exact sane.inside kind index done remembered
  obtain ⟨sane, inside⟩ := regular_copyItem (copies_translatorWithin source depth) inner regular copied sane
  rcases done with ⟨fault, rfl, rfl⟩ | ⟨new, rfl, rfl⟩
  · exact ⟨sane, fun _ success => by cases success⟩
  · refine ⟨⟨sane.target, ?_⟩, fun other same => ?_⟩
    · intro _ _ _ remembered
      rcases List.mem_cons.mp remembered with same | remembered
      · cases same
        exact ⟨pool, targets, inside new rfl⟩
      · exact sane.inside _ _ _ remembered
    · obtain rfl := Except.ok.inj same
      exact ⟨pool, targets, inside new rfl⟩

/-- Translation by copying keeps a copy regular, through any number of items. -/
theorem keepsRegular_translatorWithin (regular : source.Regular) (depth : Nat) :
    KeepsRegular (translatorWithin source depth) := by
  induction depth with
  | zero =>
    refine ⟨fun run sane => ?_, fun run => ?_⟩
    · obtain ⟨-, rfl⟩ := Prod.mk.inj run
      exact sane
    · cases (Prod.mk.inj run).1
  | succ depth inner =>
    refine ⟨fun run sane => (regular_translatorWithin regular inner run sane).1, fun run sane => ?_⟩
    obtain ⟨pool, targets, inside⟩ := (regular_translatorWithin regular inner run sane).2 _ rfl
    exact eq_of_targetPool? targets ▸ inside

end Copying

/-- Merging a class of regular pools leaves pools regular, whether it succeeds or not. -/
theorem Image.regular_mergeClass {image source : Image} (regular : image.pools.Regular)
    (other : source.pools.Regular) (index : UInt32) : (image.mergeClass source index).2.pools.Regular := by
  rcases mergeClass_cases image source index with
    ⟨fault, merged⟩ | ⟨definition, outcome, copying, found, translated, merged⟩
  · rw [merged]
    exact regular
  have member := mem_of_get? found
  obtain ⟨sane, finished⟩ :=
    Copying.regular_translate (Copying.copies_translatorWithin source.pools PoolKind.all.length)
    (Copying.keepsRegular_translatorWithin other PoolKind.all.length) other member translated
    (Copying.regular_into regular)
  rcases merged with ⟨fault, merged⟩ | ⟨success, merged⟩
  · rw [merged]
    exact sane.target
  · rw [merged]
    obtain ⟨formed, anchored⟩ := finished success
    exact sane.target.push formed anchored

end DexImage
