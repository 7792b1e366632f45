import DexImage.Image.Interning
import DexImage.Proofs.Reachability.Repeated
import DexImage.Proofs.Reached.Regular
import DexImage.Proofs.Sorting.Sorted
/-! # What sorting, trimming and interning keep

Regular pools stay regular when their id tables are sorted, when what is not reachable is removed, and when ids
are interned.
-/

namespace DexImage

section Moving

variable {before after : Pools} {kind : PoolKind} {order : List UInt32}
  {remap : IndexRemap} {arranged : Pool (Item kind)}

/-- A reference into a pool that is rearranged leads to an item afterwards, if it is not an operand. -/
theorem Held.kept_remap (spec : (before.pool kind).Reordered order remap arranged)
    (size : (after.pool kind).size = arranged.size) {one : Held} (target : one.kind = kind) (plain : one.isLost = false)
    (fits : one.Fits one) : one.Kept before after (one.edited (one.slot.remap remap)).settled where
  kind := (fits.edited _).settled_right.slot_eq.1
  leads := by
    intro index present
    rw [index_settled] at present
    rcases origin : one.index with _ | old
    · have keep : one.slot.remap remap = .keep := by simp [Slot.remap, Held.slot, origin]
      rw [keep, edited_keep, origin] at present
      cases present
    have answer : one.slot.remap remap = .retarget (remap.get? old) := by simp [Slot.remap, Held.slot, origin]
    rw [answer] at present
    rcases moved : remap.get? old with _ | new
    · rw [moved] at present
      rcases edited_retarget_none origin with ⟨gone, -⟩ | ⟨operand, -⟩
      · cases gone.symm.trans present
      · exact .inr (.inl operand)
    · rw [moved] at present
      rcases edited_retarget_some origin plain fits new with ⟨arrived, -⟩ | ⟨operand, -⟩
      · obtain rfl := Option.some.inj (arrived.symm.trans present)
        left
        rw [Pools.contains, target, size, spec.size]
        exact (List.getElem?_eq_some_iff.mp ((spec.inverse old new).mp moved)).1
      · exact .inr (.inl operand)

/-- What a pool that is rearranged holds was in it before. -/
theorem Pool.Reordered.mem_items {α : Type} {pool arranged : Pool α} (spec : pool.Reordered order remap arranged)
    {item : α} (member : item ∈ arranged.items) : item ∈ pool.items := by
  obtain ⟨place, found⟩ := List.getElem?_of_mem member
  have below : place < order.length := by
    rw [← spec.size, ← Pool.length_items]
    exact (List.getElem?_eq_some_iff.mp found).1
  obtain ⟨entry, there, here⟩ := spec.entries place _ (List.getElem?_eq_getElem below)
  rw [Pool.items, List.getElem?_map, Array.getElem?_toList, here] at found
  obtain rfl := Option.some.inj found
  exact List.mem_map_of_mem (Array.mem_toList_iff.mpr (Array.mem_of_getElem? there))

/-- Pools that are given a rearranged pool hold nothing that they did not hold. -/
theorem Pools.mem_items_of_setPool
    (spec : (before.pool kind).Reordered order remap arranged) {other : PoolKind} {item : Item other}
    (member : item ∈ ((before.setPool kind arranged).pool other).items) : item ∈ (before.pool other).items := by
  by_cases same : other = kind
  · subst same
    rw [pool_setPool_self] at member
    exact spec.mem_items member
  · rwa [pool_setPool_of_ne _ same] at member

/-- Rearranging a pool leaves pools regular, whether its items are all named or not. -/
theorem Pools.Regular.of_reorder {image after : Image} (regular : image.pools.Regular)
    (success : image.reorder kind.toSection order = .ok after) : after.pools.Regular := by
  obtain ⟨remap, arranged, rearranged, rfl⟩ := Image.reorder_eq_ok.mp success
  have spec := Pool.reordered_of_reorder rearranged
  split_ifs with identity
  · refine regular.of_kept fun other item member =>
      ⟨item, mem_items_of_setPool spec member, rfl, List.forall₂_same.mpr fun one _ => ?_⟩
    refine ⟨rfl, fun index present => .inr (.inr ⟨present, fun inside => ?_⟩)⟩
    by_cases same : one.kind = kind
    · rw [contains, same] at inside ⊢
      have moved := IndexRemap.get?_self_of_isIdentity identity (spec.tabled ▸ inside)
      rw [pool_setPool_self, spec.size]
      exact (List.getElem?_eq_some_iff.mp ((spec.inverse index index).mp moved)).1
    · rwa [contains, pool_setPool_of_ne _ same]
  · apply regular.of_kept
    intro other copy member
    dsimp only at member ⊢
    rw [pool_applyRemaps, Pool.items_map] at member
    obtain ⟨item, present, rfl⟩ := List.mem_map.mp member
    have fits := (itemHolding other).fits_edited item fun one => if one.kind = kind then one.slot.remap remap else .keep
    refine ⟨item, mem_items_of_setPool spec present, by rw [movedItem_singleton, content_fill fits], ?_⟩
    rw [movedItem_singleton, ((itemHolding other).lawful item).held_fill fits, List.map_map]
    refine .of_map_right fun one held => ?_
    obtain ⟨plain, fit⟩ := ((itemHolding other).lawful item).kept one held
    rw [Function.comp]
    by_cases same : one.kind = kind
    · rw [if_pos same]
      refine Held.kept_remap spec ?_ same plain fit
      rw [pool_applyRemaps, Pool.size_map, pool_setPool_self]
    · rw [if_neg same, Held.edited_keep, Held.settled_eq_self plain]
      refine ⟨rfl, fun index present => .inr (.inr ⟨present, fun inside => ?_⟩)⟩
      rwa [contains, pool_applyRemaps, Pool.size_map, pool_setPool_of_ne _ same]

theorem Pools.Regular.of_trimmed {dropped : Nat} {survivors : PoolKind → List UInt32} (regular : before.Regular)
    (trimmed : Image.Trimmed before after dropped survivors) : after.Regular := by
  apply regular.of_kept
  intro kind other member
  obtain ⟨index, -, item, found, moved⟩ := (trimmed.items kind).exists_of_mem_right member
  refine ⟨item, Pools.mem_of_get? found, content_of_form moved.form, ?_⟩
  have follows := moved.slots
  rw [slots_eq, slots_eq, List.forall₂_map_left_iff, List.forall₂_map_right_iff] at follows
  refine follows.imp fun one next step => ⟨step.1, fun new present => ?_⟩
  left
  have target := step.2.2
  rw [show next.slot.index = some new from present] at target
  cases origin : one.slot.index with
  | none =>
    rw [origin] at target
    cases target
  | some old =>
    simp only [origin] at target
    have inside := (List.getElem?_eq_some_iff.mp target).1
    rwa [(trimmed.items _).length_eq, Pool.length_items] at inside

end Moving

namespace Image

variable {image after : Image}

/-- Sorting leaves pools regular, and the header as it is. -/
theorem regular_of_sortIds (regular : image.pools.Regular) (success : image.sortIds = .ok after) :
    after.pools.Regular ∧ after.header = image.header := by
  refine @sortIds_induct (fun sorted => sorted.pools.Regular ∧ sorted.header = image.header) _ _ ⟨regular, rfl⟩
    (fun reordered kept => ⟨kept.1.of_reorder reordered, ?_⟩) success
  obtain ⟨remap, arranged, -, rfl⟩ := reorder_eq_ok.mp reordered
  rw [← kept.2]
  split_ifs <;> rfl

/-- Removing what is not reachable leaves pools regular, whether it succeeds or not. -/
theorem regular_removeUnused (regular : image.pools.Regular) : image.removeUnused.2.pools.Regular := by
  have exact := image.removeUnused_exact.2
  rcases removal : image.removeUnused with ⟨fault | dropped, after⟩
  · simp only [removal] at exact
    rwa [exact]
  · obtain ⟨survivors, trimmed⟩ := trimmed_of_removeUnused removal
    exact regular.of_trimmed trimmed

end Image

namespace Pools

/-- Whether a step on regular pools of which `pre` holds leaves them regular, only appends to them, and yields a
value of which `post` holds. -/
def Keeps {α : Type} (pre : Pools → Prop) (step : StateM Pools α) (post : Pools → α → Prop) : Prop :=
  ∀ pools : Pools, pools.Regular → pre pools →
    (step pools).2.Regular ∧ pools.Extends (step pools).2 ∧ post (step pools).2 (step pools).1

namespace Keeps

variable {α β : Type} {pre : Pools → Prop} {step : StateM Pools α} {mid post : Pools → α → Prop}

protected theorem pure {value : α} (holds : ∀ pools, pre pools → post pools value) : Keeps pre (pure value) post :=
  fun pools regular given => ⟨regular, .refl _, holds pools given⟩

protected theorem bind {next : α → StateM Pools β} {last : Pools → β → Prop} (first : Keeps pre step mid)
    (rest : ∀ value, Keeps (fun pools => mid pools value) (next value) last) : Keeps pre (step >>= next) last := by
  intro pools regular given
  obtain ⟨middle, grows, holds⟩ := first pools regular given
  obtain ⟨regular, grows', last⟩ := rest (step pools).1 (step pools).2 middle holds
  exact ⟨regular, grows.trans grows', last⟩

end Keeps

section Interning

variable {pre : Pools → Prop} {kind : PoolKind}

/-- What is found is in the pool. -/
theorem contains_of_find? {pools : Pools} {item : Item kind} {index : UInt32}
    (found : (pools.pool kind).find? item = some index) : pools.contains (kind, index) := by
  obtain ⟨position, first, rfl⟩ := Option.map_eq_some_iff.mp found
  obtain ⟨below, -, -⟩ := Array.findIdx?_eq_some_iff_getElem.mp first
  have small : position.toUInt32.toNat ≤ position := by
    rw [Nat.toUInt32_eq, UInt32.toNat_ofNat']
    exact Nat.mod_le _ _
  exact Nat.lt_of_le_of_lt small below

/-- Interning an item that is there already changes nothing. -/
theorem keeps_internItem (item : Item kind) (formed : Formed item)
    (anchored : ∀ pools, pre pools → Anchored pools item) :
    Keeps pre (internItem kind item) fun pools index => pools.contains (kind, index) := by
  intro pools regular given
  rw [internItem]
  rcases intern_cases pools kind item with ⟨index, found, run⟩ | ⟨-, run⟩
  · rw [run]
    exact ⟨regular, .refl _, contains_of_find? found⟩
  · rw [run]
    exact ⟨regular.push formed (anchored pools given), extends_push _ _ _, contains_nextIndex _ _ _⟩

theorem keeps_internString (text : String) :
    Keeps pre (internString text) fun pools index => pools.contains (.stringId, index) :=
  keeps_internItem _ trivial fun pools _ =>
    anchored_of_ids pools (by decide) (by decide) fun _ _ _ => rfl

theorem keeps_internType (descriptor : String) :
    Keeps pre (internType descriptor) fun pools index => pools.contains (.typeId, index) := by
  apply (keeps_internString descriptor).bind
  intro string
  exact keeps_internItem _ trivial fun pools _ => anchored_of_ids pools (by decide) (by decide) fun _ _ _ => rfl

theorem keeps_internTypes (descriptors : List String) : Keeps pre (internTypes descriptors) fun _ _ => True := by
  induction descriptors generalizing pre with
  | nil => exact .pure fun _ _ => trivial
  | cons descriptor rest ih =>
    apply (keeps_internType descriptor).bind
    intro index
    apply Keeps.bind ih
    intro indices
    exact .pure fun _ _ => trivial

theorem keeps_internParameters (indices : List UInt32) :
    Keeps pre (internParameters indices) fun pools parameters => parameters.Inside pools := by
  cases indices with
  | nil =>
    apply Keeps.pure
    intro pools _ index present
    cases present
  | cons first rest =>
    have list := @keeps_internItem pre .typeList (TypeList.ofIndices (first :: rest)) trivial fun pools _ =>
      anchored_of_ids pools (by decide) (by decide) fun _ _ _ => rfl
    apply list.bind
    intro index
    apply Keeps.pure
    intro pools inside other present
    obtain rfl := Option.some.inj present
    exact inside

theorem keeps_internProto (returnType : String) (parameters : List String) :
    Keeps pre (internProto returnType parameters) fun pools index => pools.contains (.protoId, index) := by
  apply (keeps_internString _).bind
  intro shorty
  apply (keeps_internType returnType).bind
  intro returnType
  apply (keeps_internTypes parameters).bind
  intro indices
  apply (keeps_internParameters indices).bind
  intro parameters
  exact keeps_internItem _ trivial fun pools inside => anchored_protoId inside

theorem keeps_internField (definer name fieldType : String) :
    Keeps pre (internField definer name fieldType) fun pools index => pools.contains (.fieldId, index) := by
  apply (keeps_internType definer).bind
  intro definer
  apply (keeps_internType fieldType).bind
  intro fieldType
  apply (keeps_internString name).bind
  intro name
  exact keeps_internItem _ trivial fun pools _ => anchored_of_ids pools (by decide) (by decide) fun _ _ _ => rfl

theorem keeps_internMethod (definer name returnType : String) (parameters : List String) :
    Keeps pre (internMethod definer name returnType parameters) fun pools index =>
      pools.contains (.methodId, index) := by
  apply (keeps_internType definer).bind
  intro definer
  apply (keeps_internProto returnType parameters).bind
  intro proto
  apply (keeps_internString name).bind
  intro name
  exact keeps_internItem _ trivial fun pools _ => anchored_of_ids pools (by decide) (by decide) fun _ _ _ => rfl

end Interning
end Pools
end DexImage
