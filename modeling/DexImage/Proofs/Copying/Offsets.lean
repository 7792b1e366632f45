import DexImage.Proofs.Copying.Classes
import DexImage.Proofs.Results
/-! # Offsets that copies bring along

Everything that merging a class adds to the pools is a copy of an item of the source, in which each present
reference has been given the index that has been found for it (`Pools.GrowsByCopies`). A data reference forgets
its offset when its index changes, and only then. Where the copy of a data item gets the index of the original,
a reference to it keeps the offset of the original, which is where another image has it
(`Image.mergeClass_offsets`).
-/

namespace DexImage

/-- Whether a reference is another one, or has been given an index in its place. -/
inductive Held.Renewed : Held → Held → Prop where
  | absent {one : Held} (missing : one.index = none) : Renewed one one
  | moved {one : Held} {old : UInt32} (present : one.index = some old) (new : UInt32) :
      Renewed one (one.edited (.retarget (some new)))

/-- A translation that goes through leaves every reference as it is or gives it an index. -/
theorem Translated.renewed {τ : Type} {translator : Translator τ} {held places : List Held} {before after : τ}
    (run : Translated translator held before places after none) : List.Forall₂ Held.Renewed held places := by
  generalize done : (none : Option Fault) = fault? at run
  induction run with
  | done => exact .nil
  | absent missing _ ih => exact .cons (.absent missing) (ih done)
  | moved present _ _ ih => exact .cons (.moved present _) (ih done)
  | failed => cases done

/-- Whether an item is another one with its references renewed. -/
def CopyOf {kind : PoolKind} (origin item : Item kind) : Prop :=
  ∃ places, List.Forall₂ Held.Renewed ((itemHolding kind).held origin) places ∧
    item = (itemHolding kind).fill origin places

/-- What a translation that goes through makes of an item is a copy of it. -/
theorem copyOf_translate {τ : Type} {translator : Translator τ} {kind : PoolKind} {item : Item kind} {before after : τ}
    {outcome : Outcome (Item kind)} (run : translate translator item before = (outcome, after))
    (success : outcome.fault? = none) : CopyOf item outcome.value := by
  obtain ⟨places, value, pass⟩ := translate_spec translator item before
  rw [run] at value pass
  rw [success] at pass
  exact ⟨places, pass.renewed, value⟩

theorem Held.Renewed.fits {one other : Held} (renewed : one.Renewed other) (fits : one.Fits one) : one.Fits other := by
  cases renewed with
  | absent => exact fits
  | moved => exact fits.edited _

/-- Only a data reference becomes one. -/
theorem Held.Renewed.dataRef {one : Held} {target : PoolKind} {usage : Usage} {ref : DataRef target}
    (renewed : one.Renewed (.data target usage ref.state)) : ∃ former : DataRef target,
      one = .data target usage former.state ∧
        (former.index = none ∧ ref = former ∨ former.isPresent = true ∧ ∃ new, ref = former.setTarget new) := by
  generalize same : Held.data target usage ref.state = other at renewed
  cases renewed with
  | absent missing =>
    subst same
    exact ⟨ref, rfl, .inl ⟨ref.index_eq.trans missing, rfl⟩⟩
  | moved present new =>
    cases one with
    | id => cases same
    | operand =>
      simp only [Held.edited] at same
      split_ifs at same
    | data target' usage' state =>
      obtain ⟨former, rfl⟩ : ∃ former : DataRef target', former.state = state :=
        ⟨.ofState state, DataRef.state_ofState state⟩
      rw [DataRef.edited_state] at same
      obtain ⟨rfl, rfl, states⟩ := Held.data.inj same
      refine ⟨former, rfl, .inr ⟨?_, new, ?_⟩⟩
      · rw [DataRef.isPresent, former.index_eq]
        exact Option.isSome_of_eq_some present
      · have refs := congrArg (@DataRef.ofState target) states
        rwa [DataRef.ofState_state, DataRef.ofState_state] at refs

/-- A reference that is given an index has an offset if it had the index with that offset. -/
theorem DataRef.offset_setTarget {target : PoolKind} (former : DataRef target) (new : UInt32) :
    (former.setTarget new).index = some new ∧
      ((former.setTarget new).offset = .error (Fault.of (.offsetMissing new)) ↔
        former.index ≠ some new ∨ ∀ offset, former.offset ≠ .ok offset) ∧
      ∀ offset, (former.setTarget new).offset = .ok offset ↔ former.index = some new ∧ former.offset = .ok offset := by
  rw [setTarget]
  split_ifs with same
  · refine ⟨same, ?_, fun offset => (and_iff_right same).symm⟩
    cases former with
    | absent => cases same
    | unplaced => cases same; simp [DataRef.offset]
    | placed => simp [DataRef.offset, same]
  · refine ⟨rfl, iff_of_true rfl (.inl same), fun offset => iff_of_false (by rintro ⟨⟩) fun both => same both.1⟩

/-- A data reference in a copy is the one at its place in the original, given an index if there is a target. -/
theorem CopyOf.dataRef {kind target : PoolKind} {origin item : Item kind} (copy : CopyOf origin item) {place : Nat}
    {usage : Usage} {ref : DataRef target}
    (there : ((itemHolding kind).held item)[place]? = some (.data target usage ref.state)) : ∃ former : DataRef target,
      ((itemHolding kind).held origin)[place]? = some (.data target usage former.state) ∧
        (former.index = none ∧ ref = former ∨ former.isPresent = true ∧ ∃ new, ref = former.setTarget new) := by
  obtain ⟨places, renewed, rfl⟩ := copy
  have lawful := (itemHolding kind).lawful origin
  have fits : List.Forall₂ Held.Fits ((itemHolding kind).held origin) places :=
    List.forall₂_iff_zip.mpr ⟨renewed.length_eq, fun {one other} member =>
      ((List.forall₂_iff_zip.mp renewed).2 member).fits (lawful.kept one (List.of_mem_zip member).1).2⟩
  rw [lawful.held_fill fits, List.getElem?_map] at there
  obtain ⟨other, found, settled⟩ := Option.map_eq_some_iff.mp there
  obtain rfl : other = .data target usage ref.state := by cases other <;> first | exact settled | cases settled
  obtain ⟨one, origin, renewed⟩ := renewed.flip.getElem?_left found
  obtain ⟨former, rfl, become⟩ := Held.Renewed.dataRef renewed
  exact ⟨former, origin, become⟩

/-- Whether pools are others with copies of items of a source behind the items of each kind. -/
def Pools.GrowsByCopies (source before after : Pools) : Prop :=
  ∀ kind, ∃ added, (after.pool kind).items = (before.pool kind).items ++ added ∧
    ∀ item ∈ added, ∃ origin ∈ (source.pool kind).items, CopyOf origin item

namespace Pools.GrowsByCopies

variable {source before middle after : Pools}

protected theorem refl (source pools : Pools) : GrowsByCopies source pools pools :=
  fun _ => ⟨[], (List.append_nil _).symm, fun _ member => nomatch member⟩

protected theorem trans (first : GrowsByCopies source before middle) (second : GrowsByCopies source middle after) :
    GrowsByCopies source before after := fun kind => by
  obtain ⟨front, grown, copies⟩ := first kind
  obtain ⟨back, more, others⟩ := second kind
  refine ⟨front ++ back, by rw [more, grown, List.append_assoc], fun item member => ?_⟩
  rcases List.mem_append.mp member with member | member
  · exact copies item member
  · exact others item member

theorem push {kind : PoolKind} {origin item : Item kind} (member : origin ∈ (source.pool kind).items)
    (copy : CopyOf origin item) : GrowsByCopies source before (before.push kind item) := fun other => by
  by_cases same : other = kind
  · subst same
    refine ⟨[item], by rw [pool_push_self, Pool.items_push], ?_⟩
    rintro _ (_ | ⟨_, ⟨⟩⟩)
    exact ⟨origin, member, copy⟩
  · refine ⟨[], ?_, List.forall_mem_nil _⟩
    rw [pool_push_of_ne _ same, List.append_nil]

end Pools.GrowsByCopies

namespace Copying

open Pools

/-- Whether all that a translator does to the target of a copy is to add copies to it. -/
def AddsCopies (source : Pools) (translator : Translator Copying) : Prop :=
  ∀ {kind : SectionKind} {index : UInt32} {before after : Copying} {result : Result UInt32},
    translator kind index before = (result, after) → GrowsByCopies source before.target after.target

variable {source : Pools} {translator : Translator Copying} {before after : Copying}

theorem grows_translated (adds : AddsCopies source translator) {held places : List Held} {fault? : Option Fault}
    (run : Translated translator held before places after fault?) :
    GrowsByCopies source before.target after.target := by
  induction run with
  | done => exact .refl _ _
  | absent _ _ ih => exact ih
  | moved _ finds _ ih => exact (adds finds).trans ih
  | failed _ fails => exact adds fails

theorem grows_copyItem (adds : AddsCopies source translator) {kind : PoolKind} {index : UInt32} {result : Result UInt32}
    (run : copyItem source translator kind index before = (result, after)) :
    GrowsByCopies source before.target after.target := by
  rcases copyItem_cases run with ⟨_, -, rfl⟩ | ⟨item, outcome, next, found, translated, stored⟩
  · exact .refl _ _
  obtain ⟨places, -, pass⟩ := translate_spec translator item before
  rw [translated] at pass
  have grown := grows_translated adds pass
  rcases stored with ⟨_, -, -, rfl⟩ | ⟨new, -, success, stored⟩
  · exact grown
  rcases store_cases kind outcome.value next with ⟨_, -, -, same⟩ | ⟨-, same⟩
  · obtain ⟨-, rfl⟩ := Prod.mk.inj (stored.symm.trans same)
    exact grown
  · obtain ⟨-, rfl⟩ := Prod.mk.inj (stored.symm.trans same)
    exact grown.trans (.push (mem_of_get? found) (copyOf_translate translated success))

theorem addsCopies_translatorWithin (source : Pools) (depth : Nat) :
    AddsCopies source (translatorWithin source depth) := by
  induction depth with
  | zero =>
    intro _ _ _ _ _ run
    obtain ⟨-, rfl⟩ := Prod.mk.inj run
    exact .refl _ _
  | succ depth inner =>
    intro _ _ _ _ _ run
    rcases translatorWithin_cases run with ⟨_, -, rfl⟩ | ⟨_, -, -, rfl⟩ | ⟨pool, next, -, copied, done⟩
    · exact .refl _ _
    · exact .refl _ _
    have grown := grows_copyItem inner copied
    rcases done with ⟨_, -, rfl⟩ | ⟨_, -, rfl⟩
    · exact grown
    · exact grown

end Copying

namespace Image

open Copying

/-- All that merging a class does to the pools, whether it succeeds or not, is to add copies of items of the source. -/
theorem grows_mergeClass (image source : Image) (index : UInt32) :
    Pools.GrowsByCopies source.pools image.pools (image.mergeClass source index).2.pools := by
  rcases mergeClass_cases image source index with
    ⟨_, merged⟩ | ⟨definition, outcome, copying, found, translated, merged⟩
  · rw [merged]
    exact .refl _ _
  obtain ⟨places, -, pass⟩ := translate_spec (translator source.pools) definition (.into image.pools)
  rw [translated] at pass
  have grown := grows_translated (addsCopies_translatorWithin source.pools PoolKind.all.length) pass
  rcases merged with ⟨_, merged⟩ | ⟨success, merged⟩
  · rw [merged]
    exact grown
  · rw [merged]
    exact grown.trans (.push (Pools.mem_of_get? found) (copyOf_translate translated success))

/-- The references to data in what merging a class adds. Each is that of a source item: absent if that is
absent, and else without an offset, unless its target has been given the index that it has in the source. In
that case it has the offset that it has in the source, if it has one there. -/
theorem mergeClass_offsets (image source : Image) (index : UInt32) (kind : PoolKind) : ∃ added,
    ((image.mergeClass source index).2.pools.pool kind).items = (image.pools.pool kind).items ++ added ∧
      ∀ item ∈ added, ∃ origin ∈ (source.pools.pool kind).items,
        ∀ (place : Nat) target usage (ref : DataRef target),
        ((itemHolding kind).held item)[place]? = some (.data target usage ref.state) → ∃ former : DataRef target,
          ((itemHolding kind).held origin)[place]? = some (.data target usage former.state) ∧
            ref.isPresent = former.isPresent ∧ ∀ index, ref.index = some index →
              (ref.offset = .error (Fault.of (.offsetMissing index)) ↔
                former.index ≠ some index ∨ ∀ offset, former.offset ≠ .ok offset) ∧
              ∀ offset, ref.offset = .ok offset ↔ former.index = some index ∧ former.offset = .ok offset := by
  obtain ⟨added, grown, copies⟩ := grows_mergeClass image source index kind
  refine ⟨added, grown, fun item member => ?_⟩
  obtain ⟨origin, stands, copy⟩ := copies item member
  refine ⟨origin, stands, fun place target usage ref there => ?_⟩
  obtain ⟨former, found, become⟩ := copy.dataRef there
  refine ⟨former, found, ?_⟩
  rcases become with ⟨missing, rfl⟩ | ⟨present, new, rfl⟩
  · exact ⟨rfl, fun index is => absurd (missing.symm.trans is) (by simp)⟩
  · obtain ⟨target, spec⟩ := former.offset_setTarget new
    refine ⟨by rw [present, DataRef.isPresent, target]; rfl, fun index is => ?_⟩
    obtain rfl := Option.some.inj (target.symm.trans is)
    exact spec

/-- An image with a class that defines nothing but has class data. -/
def withEmptyData : Image :=
  let (type, pools) := Pools.internType "LEmpty;" .empty
  let pools := pools.push .classData (ClassData.mk [] [] [] [])
  let definition := ClassDef.mk (.of type) 1 .absent .absent .absent .absent (.unplaced 0) .absent
  { Image.ofVersion 35 with pools := pools.push .classDef definition }

/-- A class that is read and then merged into an image without classes refers to its class data where the image
that was read has it, and is written so. -/
theorem mergeClass_keepsOffset : ∃ bytes source merged, withEmptyData.write.1 = .ok bytes ∧
    Image.read bytes .lenient = .ok source ∧ (Image.ofVersion 35).mergeClass source 0 = (.ok 0, merged) ∧
      ∃ definition : ClassDef, merged.pools.get? .classDef 0 = some definition ∧ definition.classData.index = some 0 ∧
        definition.classData.offset = .ok 161 ∧ ∃ written, encode definition = .ok written := by
  let outcome (source : Image) : Option UInt32 × Option (DataRef .classData × Bool) :=
    let run := (Image.ofVersion 35).mergeClass source 0
    (run.1.toOption, (run.2.pools.get? .classDef 0).map fun definition : ClassDef =>
      (definition.classData, (encode definition).toOption.isSome))
  have facts : (withEmptyData.write.1 >>= fun bytes => Image.read bytes .lenient).toOption.map outcome =
      some (some 0, some (.placed 0 161, true)) := by decide +kernel
  obtain ⟨source, both, merged⟩ := Option.map_eq_some_iff.mp facts
  obtain ⟨bytes, encoded, decoded⟩ := Result.bind_eq_ok.mp (Result.toOption_eq_some.mp both)
  obtain ⟨index, definition⟩ := Prod.mk.inj merged
  obtain ⟨definition, found, kept⟩ := Option.map_eq_some_iff.mp definition
  obtain ⟨classData, written⟩ := Prod.mk.inj kept
  change ClassDef at definition
  change definition.classData = .placed 0 161 at classData
  refine ⟨bytes, source, _, encoded, decoded, Prod.ext (Result.toOption_eq_some.mp index) rfl, definition, found,
    ?_, ?_, Result.exists_of_toOption written⟩
  · rw [classData]
    rfl
  · rw [classData]
    rfl

end Image
end DexImage
