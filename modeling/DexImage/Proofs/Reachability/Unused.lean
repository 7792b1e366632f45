import DexImage.Proofs.Reachability.Compaction
import DexImage.Proofs.References.Alike
/-! # Removing what is not reachable

The pools come out with exactly the reachable items in their old order, each with its references
leading to the same items as before, and there is nothing more to remove.
-/

namespace DexImage

/-- Whether a slot leads to the place at which its old target stands in a list of positions. -/
def Slot.Follows (survivors : PoolKind → List UInt32) (before after : Slot) : Prop :=
  after.kind = before.kind ∧ after.usage = before.usage ∧
    match before.index, after.index with
    | some old, some new => (survivors before.kind)[new.toNat]? = some old
    | none, none => True
    | _, _ => False

/-- An item whose references follow their targets and that is the same apart from them. -/
structure Moved (survivors : PoolKind → List UInt32) {kind : PoolKind} (before after : Item kind) : Prop where
  form : (itemHolding kind).form after = (itemHolding kind).form before
  slots : List.Forall₂ (Slot.Follows survivors) (slots before) (slots after)

/-- Code does not become unwritable by being moved. -/
theorem Moved.overflow_eq {survivors : PoolKind → List UInt32} {before after : CodeItem}
    (moved : @Moved survivors .code before after) :
    after.instructions.overflow = before.instructions.overflow := by
  have overflow (code : CodeItem) :
      (CodeItem.holding.form code).instructions.overflow = code.instructions.overflow := by
    let blanks := (((CodeItem.holding.held code).map Held.blank).drop 1).take code.instructions.held.length
    have none : blanks.any Held.isLost = false := by
      refine List.any_eq_false.mpr fun one member => ?_
      obtain ⟨before, -, rfl⟩ := List.mem_map.mp (List.mem_of_mem_drop (List.mem_of_mem_take member))
      simp
    exact (congrArg (code.instructions.overflow || ·) none).trans (Bool.or_false _)
  rw [← overflow after, ← overflow before]
  exact congrArg (·.instructions.overflow) moved.form

namespace Pools

/-- What a pass that moves references makes of an item. -/
def movedItem (remaps : Remaps) {kind : PoolKind} (item : Item kind) : Item kind :=
  if remaps.isEmpty then item
  else (itemHolding kind).fill item (((itemHolding kind).held item).map fun one =>
    one.edited (match remaps.lookup one.kind.toSection with
      | some remap => one.slot.remap remap
      | none => .keep))

theorem pool_applyRemaps (pools : Pools) (remaps : Remaps) (kind : PoolKind) :
    (pools.applyRemaps remaps).pool kind = (pools.pool kind).map (movedItem remaps) := by
  unfold applyRemaps movedItem
  split_ifs
  · simp [Pool.map]
  · exact pool_visit_pure (fun slot => match remaps.lookup slot.kind.toSection with
      | some remap => slot.remap remap
      | none => .keep) pools kind

/-- The pools with every item dropped that has no recorded usage, and all references moved. -/
def compacted (pools : Pools) : Pools := pools.compactAll.2.applyRemaps pools.compactAll.1

/-- The positions that survive in the pool of a kind. -/
def survivors (pools : Pools) (kind : PoolKind) : List UInt32 := (pools.pool kind).survivors

/-- The entries that are left, with their references moved. -/
theorem entries_compacted (pools : Pools) (kind : PoolKind) :
    (pools.compacted.pool kind).entries.toList = (pools.pool kind).usedEntries.map fun placed =>
      { placed.1 with item := movedItem pools.compactAll.1 placed.1.item } := by
  rw [compacted, pool_applyRemaps, pool_compactAll, Pool.map, Array.toList_map, Pool.entries_compact,
    List.map_map]
  rfl

/-- What compaction does to the place of one reference. -/
private theorem follows_edited {pools : Pools} {one : Held} (kept : one.isLost = false) (fits : one.Fits one)
    (target : ∀ old, one.index = some old → ∃ new, (pools.pool one.kind).compact.1.get? old = some new) :
    let edit := match pools.compactAll.1.lookup one.kind.toSection with
      | some remap => one.slot.remap remap
      | none => .keep
    Slot.Follows pools.survivors one.slot (one.edited edit).slot ∧ (one.edited edit).isLost = false := by
  intro edit
  have lookup := lookup_compactAll pools one.kind
  cases present : one.index with
  | none =>
    have keep : edit = .keep := by
      simp only [edit, lookup]
      split_ifs <;> simp [Slot.remap, Held.slot, present]
    rw [keep, Held.edited_keep]
    exact ⟨⟨rfl, rfl, by simp [Held.slot, present]⟩, kept⟩
  | some old =>
    obtain ⟨new, moved⟩ := target old present
    obtain ⟨place, le⟩ := Pool.survivors_of_get? moved
    -- A pool that loses nothing leaves its references alone. Others only ever lead to a lower position.
    by_cases identity : (pools.pool one.kind).compact.1.isIdentity
    · have keep : edit = .keep := by simp only [edit, lookup, identity, if_true]
      rw [IndexRemap.get?_of_isIdentity identity moved] at place
      rw [keep, Held.edited_keep]
      refine ⟨⟨rfl, rfl, ?_⟩, kept⟩
      simp only [Held.slot, present]
      exact place
    · have retarget : edit = .retarget (some new) := by
        simp only [edit, lookup, identity, Bool.false_eq_true, if_false, Slot.remap, Held.slot, present, moved]
      have narrow : ∀ target wide lost, one = .operand target wide lost old →
          Held.operandFits wide new = true := by
        rintro target wide lost rfl
        exact Held.operandFits_mono le fits.2.2
      obtain ⟨slot, kept⟩ := Held.edited_retarget present kept narrow
      rw [retarget, slot]
      refine ⟨⟨rfl, rfl, ?_⟩, kept⟩
      simp only [Held.slot, present]
      exact place

/-- An item all of whose targets survive is moved as a whole. -/
theorem moved_movedItem {pools : Pools} {kind : PoolKind} {item : Item kind}
    (targets : ∀ use ∈ uses item, ∃ new, (pools.pool use.kind).compact.1.get? use.index = some new) :
    Moved pools.survivors item (movedItem pools.compactAll.1 item) := by
  let held := (itemHolding kind).held item
  let edited (one : Held) : Held :=
    one.edited (match pools.compactAll.1.lookup one.kind.toSection with
      | some remap => one.slot.remap remap
      | none => .keep)
  have kept := ((itemHolding kind).lawful item).kept
  have each : ∀ one ∈ held, Slot.Follows pools.survivors one.slot (edited one).slot ∧
      (edited one).isLost = false := by
    intro one member
    refine follows_edited (kept one member).1 (kept one member).2 fun old present => ?_
    have listed : Use.heldBy ⟨one.kind, old, one.usage⟩ kind ∈ uses item := by
      rw [uses_itemHolding]
      refine List.mem_map.mpr ⟨_, List.mem_filterMap.mpr ⟨one, member, ?_⟩, rfl⟩
      simp [Held.slot, Slot.use?, present]
    have target := targets _ listed
    rwa [Use.kind_heldBy, Use.index_heldBy] at target
  have follows : List.Forall₂ (Slot.Follows pools.survivors) (held.map Held.slot)
      ((held.map edited).map Held.slot) := by
    rw [List.map_map]
    exact .of_map fun one member => (each one member).1
  unfold movedItem
  split_ifs with none
  · have same : held.map edited = held := by
      refine (List.map_congr_left fun one _ => ?_).trans (List.map_id held)
      simp [edited, List.isEmpty_iff.mp none]
    rw [same, ← slots_eq] at follows
    exact ⟨rfl, follows⟩
  · have fits : List.Forall₂ Held.Fits held (held.map edited) := (itemHolding kind).fits_edited item _
    have lost : ∀ one ∈ held.map edited, one.isLost = false := by
      intro one member
      obtain ⟨before, present, rfl⟩ := List.mem_map.mp member
      exact (each before present).2
    refine ⟨(itemHolding kind).form_fill fits lost, ?_⟩
    rw [slots_eq, slots_eq, (itemHolding kind).held_fill_kept fits lost]
    exact follows

end Pools

namespace Pool

variable {α : Type}

theorem mem_usedEntries {pool : Pool α} {placed : PoolEntry α × Nat} :
    placed ∈ pool.usedEntries ↔ pool.entries[placed.2]? = some placed.1 ∧ isUsed placed.1 := by
  rw [usedEntries, List.mem_filter, List.mem_zipIdx_iff_getElem?, Array.getElem?_toList]

/-- The positions of the survivors increase, as long as the used ones are indices. -/
theorem pairwise_survivors {pool : Pool α} (small : ∀ placed ∈ pool.usedEntries, placed.2 < UInt32.size) :
    pool.survivors.Pairwise (· < ·) := by
  rw [survivors, List.pairwise_map]
  have increasing : pool.entries.toList.zipIdx.Pairwise fun first second => first.2 < second.2 := by
    rw [← List.pairwise_map (f := Prod.snd), List.zipIdx_map_snd]
    exact List.pairwise_lt_range'
  refine (increasing.filter _).imp_of_mem fun {first second} firstMem secondMem less => ?_
  have firstSmall := small first firstMem
  have secondSmall := small second secondMem
  rw [UInt32.lt_iff_toNat_lt]
  simpa [Nat.mod_eq_of_lt firstSmall, Nat.mod_eq_of_lt secondSmall] using less

end Pool

namespace Pools

/-- No reference leads to a class definition. -/
theorem kind_ne_classDef {pools : Pools} {holder : PoolKind × UInt32} {use : Use} (held : use ∈ pools.usesAt holder) :
    use.kind ≠ .classDef := by
  rw [usesAt] at held
  rcases found : pools.get? holder.1 holder.2 with _ | item
  · rw [found] at held
    cases held
  rw [found, Option.map_some, Option.getD_some, uses_itemHolding] at held
  obtain ⟨use, listed, rfl⟩ := List.mem_map.mp held
  obtain ⟨one, member, shown⟩ := List.mem_filterMap.mp listed
  obtain ⟨index, -, rfl⟩ := Option.map_eq_some_iff.mp shown
  rw [Use.kind_heldBy]
  exact (proper_of_held item one member).kind_ne_classDef

/-- Class definitions are reached as those from which a scan starts. -/
theorem isRoot_of_reaches {pools : Pools} {index : UInt32} (reached : pools.Reaches (.classDef, index)) :
    pools.isRoot (.classDef, index) := by
  generalize target : (PoolKind.classDef, index) = item at reached
  cases reached with
  | root root => exact root
  | step _ held => exact absurd (Prod.mk.inj target).1.symm (kind_ne_classDef held)

end Pools

namespace Image

open Pools

/-- How the pools come out when everything unreachable has been removed. -/
structure Trimmed (before after : Pools) (dropped : Nat) (survivors : PoolKind → List UInt32) : Prop where
  ordered : ∀ kind, (survivors kind).Pairwise (· < ·)
  reachable : ∀ kind index, index ∈ survivors kind ↔ before.Reaches (kind, index)
  items : ∀ kind, List.Forall₂
    (fun index new => ∃ old, before.get? kind index = some old ∧ Moved survivors old new)
    (survivors kind) (after.pool kind).items
  dropped : dropped = total (fun kind => (before.pool kind).size - (after.pool kind).size) PoolKind.all

/-- The class definitions that a word counts are all kept, in their places. -/
theorem Trimmed.survivors_classDef {before after : Pools} {dropped : Nat} {survivors : PoolKind → List UInt32}
    (trimmed : Trimmed before after dropped survivors) :
    (survivors .classDef).map UInt32.toNat = List.range before.classDefs.size.toUInt32.toNat := by
  refine List.Pairwise.eq_of_mem_iff (List.pairwise_map.mpr ?_) List.pairwise_lt_range fun number => ?_
  · exact (trimmed.ordered .classDef).imp fun less => less
  rw [List.mem_map, List.mem_range]
  constructor
  · rintro ⟨index, member, rfl⟩
    exact UInt32.lt_iff_toNat_lt.mp (isRoot_of_reaches ((trimmed.reachable _ _).mp member)).2
  · intro below
    have same : number.toUInt32.toNat = number := Nat.mod_eq_of_lt (Nat.lt_trans below (UInt32.toNat_lt _))
    refine ⟨number.toUInt32, (trimmed.reachable _ _).mpr (.root ⟨rfl, ?_⟩), same⟩
    rw [UInt32.lt_iff_toNat_lt, same]
    exact below

section Removal

variable {pools marked : Pools}

/-- What is kept was reachable. -/
theorem reaches_of_usedEntries (recorded : Marked pools marked) {kind : PoolKind}
    {placed : PoolEntry (Item kind) × Nat} (used : placed ∈ (marked.pool kind).usedEntries) :
    ∃ index, index.toNat = placed.2 ∧ pools.Reaches (kind, index) ∧
      pools.get? kind index = some placed.1.item ∧ Recorded pools kind placed.2 placed.1.usage := by
  obtain ⟨found, isUsed⟩ := Pool.mem_usedEntries.mp used
  obtain ⟨⟨before, beforeEq, same⟩, usageOf⟩ := recorded.entry found
  obtain ⟨index, position, reached⟩ :=
    (recorded.isEmpty_iff usageOf).mp (by simpa [Pool.isUsed] using isUsed)
  refine ⟨index, position, reached, ?_, usageOf⟩
  rw [Pools.get?, Pool.get?, position, beforeEq, Option.map_some, same]

/-- What was reachable is kept. -/
theorem usedEntries_of_reaches (recorded : Marked pools marked) {kind : PoolKind} {index : UInt32}
    (reached : pools.Reaches (kind, index)) :
    ∃ entry, (entry, index.toNat) ∈ (marked.pool kind).usedEntries := by
  have present := recorded.present _ reached
  obtain ⟨entry, found⟩ : ∃ entry, (marked.pool kind).entries[index.toNat]? = some entry := by
    have size := recorded.size kind
    simp only [contains, ← size] at present
    exact ⟨_, Array.getElem?_eq_getElem present⟩
  have used := (recorded.isEmpty_iff (recorded.entry found).2).mpr ⟨index, rfl, reached⟩
  exact ⟨entry, Pool.mem_usedEntries.mpr ⟨found, by simp [Pool.isUsed, used]⟩⟩

/-- The survivors are the positions of the reachable items. -/
theorem mem_survivors (recorded : Marked pools marked) {kind : PoolKind} {index : UInt32} :
    index ∈ marked.survivors kind ↔ pools.Reaches (kind, index) := by
  refine ⟨fun member => ?_, fun reached => ?_⟩
  · obtain ⟨placed, used, rfl⟩ := List.mem_map.mp member
    obtain ⟨index, position, reached, -⟩ := reaches_of_usedEntries recorded used
    rw [← position]
    simpa using reached
  · obtain ⟨entry, used⟩ := usedEntries_of_reaches recorded reached
    exact List.mem_map.mpr ⟨_, used, by simp⟩

/-- The references of a reachable item lead to items that are kept. -/
theorem moved_of_reaches (recorded : Marked pools marked) {kind : PoolKind} {index : UInt32}
    {item : Item kind} (reached : pools.Reaches (kind, index)) (found : pools.get? kind index = some item) :
    Moved marked.survivors item (movedItem marked.compactAll.1 item) := by
  refine moved_movedItem fun use held => ?_
  have held : use ∈ pools.usesAt (kind, index) := by simpa [usesAt, found] using held
  obtain ⟨entry, used⟩ := usedEntries_of_reaches recorded (.step reached held)
  obtain ⟨found, isUsed⟩ := Pool.mem_usedEntries.mp used
  exact ⟨_, Pool.get?_compact.mpr ⟨entry, found, isUsed, rfl⟩⟩

/-- The reachable items are moved together, and nothing else is kept. -/
theorem trimmed_compactAll (recorded : Marked pools marked) :
    Trimmed pools marked.compacted
      (total (fun (_, remap) => remap.removed) marked.compactAll.1) marked.survivors where
  ordered := by
    refine fun kind => Pool.pairwise_survivors fun placed used => ?_
    obtain ⟨index, position, -⟩ := reaches_of_usedEntries recorded used
    rw [← position]
    exact index.toNat_lt
  reachable := fun kind index => mem_survivors recorded
  items := by
    intro kind
    rw [Pool.items, entries_compacted, survivors, Pool.survivors, List.map_map]
    refine .of_map fun placed used => ?_
    obtain ⟨index, position, reached, found, -⟩ := reaches_of_usedEntries recorded used
    rw [← position]
    exact ⟨placed.1.item, by simpa using found, moved_of_reaches recorded reached found⟩
  dropped := by
    rw [removed_compactAll]
    refine congrArg (total · _) (funext fun kind => ?_)
    rw [recorded.size, compacted, pool_applyRemaps, pool_compactAll, Pool.size_map]

end Removal

end Image
end DexImage
