import DexImage.Proofs.Reachability.Unused
/-! # Removing once is enough

What is left refers to itself the way it did before, so that a second scan grants every item what
the first one did, and finds nothing to remove.
-/

namespace DexImage

/-- A use that leads to the place at which its old target stands in a list of positions. -/
def Use.Follows (survivors : PoolKind → List UInt32) (before after : Use) : Prop :=
  after.kind = before.kind ∧ after.usage = before.usage ∧
    (survivors before.kind)[after.index.toNat]? = some before.index

/-- The references that a moved item lists follow their targets. -/
theorem Moved.uses {survivors : PoolKind → List UInt32} {kind : PoolKind} {before after : Item kind}
    (moved : Moved survivors before after) :
    List.Forall₂ (Use.Follows survivors) (uses before) (uses after) := by
  rw [uses_eq_slots, uses_eq_slots, List.forall₂_map_left_iff, List.forall₂_map_right_iff]
  have slots := moved.slots
  generalize DexImage.slots before = first at slots ⊢
  generalize DexImage.slots after = second at slots ⊢
  induction slots with
  | nil => exact .nil
  | cons follows _ ih =>
    rename_i first second _ _ _
    obtain ⟨kind_eq, usage_eq, index_eq⟩ := follows
    rw [List.filterMap_cons, List.filterMap_cons]
    obtain ⟨firstKind, _ | old, firstUsage⟩ := first <;> obtain ⟨secondKind, _ | new, secondUsage⟩ := second
    · exact ih
    · exact absurd index_eq id
    · exact absurd index_eq id
    · simp only at kind_eq usage_eq index_eq
      subst kind_eq usage_eq
      refine .cons ⟨?_, ?_, ?_⟩ ih
      · simp
      · cases kind <;> rfl
      · cases kind <;> exact index_eq

namespace Image

open Pools

section Copies

variable {pools marked after : Pools}

/-- Whether a position holds the copy of what stood at an old one. -/
def Copy (marked : Pools) (kind : PoolKind) (new old : UInt32) : Prop :=
  (marked.survivors kind)[new.toNat]? = some old

theorem Copy.unique_old {kind : PoolKind} {new old other : UInt32} (first : Copy marked kind new old)
    (second : Copy marked kind new other) : old = other :=
  Option.some.inj (first.symm.trans second)

variable (recorded : Marked pools marked)

include recorded

theorem Copy.unique_new {kind : PoolKind} {new other old : UInt32} (first : Copy marked kind new old)
    (second : Copy marked kind other old) : new = other := by
  have distinct : (marked.survivors kind).Nodup :=
    ((trimmed_compactAll recorded).ordered kind).imp fun less => UInt32.ne_of_lt less
  have bound := (List.getElem?_eq_some_iff.mp first).1
  have same := (List.getElem?_inj bound distinct).mp (first.trans second.symm)
  exact UInt32.toNat_inj.mp same

theorem Copy.reaches {kind : PoolKind} {new old : UInt32} (copy : Copy marked kind new old) :
    pools.Reaches (kind, old) :=
  (mem_survivors recorded).mp (List.mem_of_getElem? copy)

theorem exists_copy {kind : PoolKind} {old : UInt32} (reached : pools.Reaches (kind, old)) :
    ∃ new, Copy marked kind new old := by
  obtain ⟨entry, used⟩ := usedEntries_of_reaches recorded reached
  obtain ⟨found, isUsed⟩ := Pool.mem_usedEntries.mp used
  exact ⟨_, (Pool.survivors_of_get? (Pool.get?_compact.mpr ⟨entry, found, isUsed, rfl⟩)).1⟩

/-- What stands at a position afterwards. -/
theorem entry_compacted {kind : PoolKind} {position : Nat} {entry : PoolEntry (Item kind)}
    (found : (marked.compacted.pool kind).entries[position]? = some entry) :
    ∃ new old item, new.toNat = position ∧ Copy marked kind new old ∧ pools.get? kind old = some item ∧
      Moved marked.survivors item entry.item ∧ Recorded pools kind old.toNat entry.usage := by
  rw [← Array.getElem?_toList, entries_compacted, List.getElem?_map, Option.map_eq_some_iff] at found
  obtain ⟨placed, used, rfl⟩ := found
  obtain ⟨old, place, reached, before, usageOf⟩ :=
    reaches_of_usedEntries recorded (List.mem_of_getElem? used)
  obtain ⟨new, copy⟩ := exists_copy recorded reached
  have here : (marked.survivors kind)[position]? = some old := by
    rw [survivors, Pool.survivors, List.getElem?_map, used, Option.map_some, ← place]
    simp
  have distinct : (marked.survivors kind).Nodup :=
    ((trimmed_compactAll recorded).ordered kind).imp fun less => UInt32.ne_of_lt less
  have bound := (List.getElem?_eq_some_iff.mp copy).1
  refine ⟨new, old, placed.1.item, ?_, copy, before, moved_of_reaches recorded reached before, place ▸ usageOf⟩
  exact (List.getElem?_inj bound distinct).mp (copy.trans here.symm)

omit recorded in
theorem size_compacted (kind : PoolKind) : (marked.compacted.pool kind).size = (marked.survivors kind).length := by
  rw [Pool.size, ← Array.length_toList, entries_compacted, survivors, Pool.survivors]
  simp

omit recorded in
/-- A position is in a pool afterwards exactly if it holds a copy. -/
theorem contains_compacted {kind : PoolKind} {new : UInt32} :
    marked.compacted.contains (kind, new) ↔ ∃ old, Copy marked kind new old := by
  rw [contains, size_compacted]
  constructor
  · intro bound
    exact ⟨_, List.getElem?_eq_getElem bound⟩
  · rintro ⟨old, copy⟩
    exact (List.getElem?_eq_some_iff.mp copy).1

/-- A scan of what is left starts from all class definitions. -/
theorem isRoot_compacted (item : PoolKind × UInt32) :
    marked.compacted.isRoot item ↔ item.1 = .classDef ∧ marked.compacted.contains item := by
  refine isRoot_iff ?_ item
  have length := congrArg List.length (trimmed_compactAll recorded).survivors_classDef
  rw [List.length_map, List.length_range] at length
  change (marked.compacted.pool .classDef).size < _
  rw [size_compacted, length]
  exact UInt32.toNat_lt _

/-- A copy refers to the copies of what the old item refers to. -/
theorem usesAt_compacted {kind : PoolKind} {new old : UInt32} (copy : Copy marked kind new old) :
    List.Forall₂ (Use.Follows marked.survivors) (pools.usesAt (kind, old))
      (marked.compacted.usesAt (kind, new)) := by
  obtain ⟨entry, found⟩ : ∃ entry, (marked.compacted.pool kind).entries[new.toNat]? = some entry :=
    ⟨_, Array.getElem?_eq_getElem (contains_compacted.mpr ⟨old, copy⟩)⟩
  obtain ⟨other, origin, item, same, otherCopy, before, moved, -⟩ := entry_compacted recorded found
  obtain rfl := UInt32.toNat_inj.mp same
  obtain rfl := copy.unique_old otherCopy
  rw [usesAt, usesAt, before, Pools.get?, Pool.get?, found]
  exact moved.uses

/-- What is reached afterwards is a copy. -/
theorem copy_of_reaches {item : PoolKind × UInt32} (reached : marked.compacted.Reaches item) :
    ∃ old, Copy marked item.1 item.2 old := by
  induction reached with
  | root root =>
    rename_i item
    exact contains_compacted.mp ((isRoot_compacted recorded item).mp root).2
  | step _ held ih =>
    obtain ⟨old, copy⟩ := ih
    obtain ⟨before, -, kind, -, follows⟩ := (usesAt_compacted recorded copy).exists_of_mem_right held
    exact ⟨before.index, by rwa [← kind] at follows⟩

/-- Every copy is reached. -/
theorem reaches_of_copy {item : PoolKind × UInt32} (reached : pools.Reaches item) {new : UInt32}
    (copy : Copy marked item.1 new item.2) : marked.compacted.Reaches (item.1, new) := by
  induction reached generalizing new with
  | root root =>
    rename_i item
    obtain ⟨kind, index⟩ := item
    obtain ⟨rfl, -⟩ := root
    exact .root ((isRoot_compacted recorded _).mpr ⟨rfl, contains_compacted.mpr ⟨index, copy⟩⟩)
  | step reached held ih =>
    obtain ⟨holder, holderCopy⟩ := exists_copy recorded reached
    obtain ⟨after, held, kind, -, follows⟩ :=
      (usesAt_compacted recorded holderCopy).exists_of_mem_left held
    obtain rfl := copy.unique_new recorded follows
    have reached := Reaches.step (ih holderCopy) held
    rwa [Use.target, kind] at reached

/-- A copy is granted the usages of the old item. -/
theorem grants_compacted {kind : PoolKind} {new old : UInt32} (copy : Copy marked kind new old)
    {usage : Usage} : marked.compacted.Grants .own (kind, new) usage ↔ pools.Grants .own (kind, old) usage := by
  refine ⟨fun grants => ?_, fun grants => ?_⟩
  · generalize target : (kind, new) = item at grants
    cases grants with
    | root root =>
      subst target
      obtain ⟨rfl, -⟩ := root
      exact .root (isRoot_of_reaches (copy.reaches recorded))
    -- The holder has been copied as well, and its uses follow their targets.
    | use reached held =>
      rw [apply_own] at held
      obtain ⟨holder, holderCopy⟩ := copy_of_reaches recorded reached
      obtain ⟨before, beforeHeld, sameKind, sameUsage, follows⟩ :=
        (usesAt_compacted recorded holderCopy).exists_of_mem_right held
      obtain ⟨rfl, rfl⟩ := Prod.mk.inj target
      rw [sameKind] at copy ⊢
      obtain rfl := copy.unique_old follows
      rw [sameUsage]
      exact .use (holderCopy.reaches recorded) (by rwa [apply_own])
  · generalize target : (kind, old) = item at grants
    cases grants with
    | root root =>
      subst target
      obtain ⟨rfl, -⟩ := root
      exact .root ((isRoot_compacted recorded _).mpr ⟨rfl, contains_compacted.mpr ⟨old, copy⟩⟩)
    | use reached held =>
      rw [apply_own] at held
      obtain ⟨holder, holderCopy⟩ := exists_copy recorded reached
      obtain ⟨after, afterHeld, sameKind, sameUsage, follows⟩ :=
        (usesAt_compacted recorded holderCopy).exists_of_mem_left held
      obtain ⟨rfl, rfl⟩ := Prod.mk.inj target
      obtain rfl := copy.unique_new recorded follows
      rw [← sameKind, ← sameUsage]
      exact .use (reaches_of_copy recorded reached holderCopy) (by rwa [apply_own])

theorem recorded_compacted {kind : PoolKind} {new old : UInt32} (copy : Copy marked kind new old)
    {usage : Usage} :
    Recorded marked.compacted kind new.toNat usage ↔ Recorded pools kind old.toNat usage := by
  have reached := copy.reaches recorded
  have reachedAfter := reaches_of_copy recorded reached copy
  have usageOf {granted : Usage} :
      marked.compacted.UsageOf .own (kind, new) granted ↔ pools.UsageOf .own (kind, old) granted := by
    simp only [UsageOf, grants_compacted recorded copy]
  refine forall_congr' fun bound => iff_congr Iff.rfl ⟨fun bounded => ?_, fun bounded => ?_⟩
  · intro index granted same _ granting
    obtain rfl := UInt32.toNat_inj.mp same
    exact bounded new granted rfl reachedAfter (usageOf.mpr granting)
  · intro index granted same _ granting
    obtain rfl := UInt32.toNat_inj.mp same
    exact bounded old granted rfl reached (usageOf.mp granting)

private theorem eq_entry_of_marked {again : Pools} (recordedAgain : Marked marked.compacted again)
    (kind : PoolKind) (position : Nat) :
    (again.pool kind).entries[position]? = (marked.compacted.pool kind).entries[position]? := by
  cases found : (marked.compacted.pool kind).entries[position]? with
  | none =>
    have size := recordedAgain.size kind
    simp only [Pool.size] at size
    rw [Array.getElem?_eq_none_iff] at found ⊢
    omega
  | some entry =>
    obtain ⟨usage, after, usageOf⟩ := recordedAgain.entries kind position entry found
    obtain ⟨new, old, item, rfl, copy, -, -, entryUsage⟩ := entry_compacted recorded found
    obtain rfl := ((recorded_compacted recorded copy).mp usageOf).unique entryUsage
    exact after

/-- A scan of what is left records the usages that are there. -/
theorem eq_of_marked {again : Pools} (recordedAgain : Marked marked.compacted again) :
    again = marked.compacted := by
  refine ext_pool fun kind => ?_
  have entries : (again.pool kind).entries = (marked.compacted.pool kind).entries :=
    Array.ext_getElem? (eq_entry_of_marked recorded recordedAgain kind)
  exact congrArg Pool.mk entries

omit recorded in
/-- Everything that is left has a usage recorded. -/
theorem isUsed_compacted {kind : PoolKind} {entry : PoolEntry (Item kind)}
    (member : entry ∈ (marked.compacted.pool kind).entries.toList) : Pool.isUsed entry := by
  rw [entries_compacted] at member
  obtain ⟨placed, used, rfl⟩ := List.mem_map.mp member
  exact (Pool.mem_usedEntries.mp used).2

end Copies

end Image

namespace Pool

variable {α : Type}

/-- Nothing is dropped from a pool all of whose items have a usage recorded. -/
theorem compact_of_isUsed {pool : Pool α} (used : ∀ entry ∈ pool.entries.toList, isUsed entry) :
    pool.compact.1.isIdentity ∧ pool.compact.2 = pool := by
  refine ⟨?_, ?_⟩
  · rw [IndexRemap.isIdentity, beq_iff_eq]
    have size : pool.compact.1.size = pool.entries.size := by
      rw [IndexRemap.size, ← Array.length_toList, toList_usedTable, List.length_mapIdx, Array.length_toList]
    have table : pool.compact.1.table = (IndexRemap.identity pool.compact.1.size).table := by
      rw [size]
      refine Array.toList_inj.mp (List.ext_getElem? fun position => ?_)
      rw [toList_usedTable, List.getElem?_mapIdx]
      cases found : pool.entries.toList[position]? with
      | none =>
        rw [Array.getElem?_toList, Array.getElem?_eq_none_iff] at found
        simp [IndexRemap.identity, found]
      | some entry =>
        have bound := (List.getElem?_eq_some_iff.mp found).1
        have all : pool.usedBefore position = position := by
          rw [usedBefore, List.countP_eq_length.mpr fun entry member => used entry (List.mem_of_mem_take member)]
          simp only [List.length_take]
          omega
        rw [Array.length_toList] at bound
        simp [IndexRemap.identity, used entry (List.mem_of_getElem? found), all, bound]
    exact congrArg IndexRemap.mk table
  · have entries : pool.compact.2.entries = pool.entries := by
      rw [compact, Array.filter_eq_self]
      exact fun entry member => used entry (Array.mem_toList_iff.mpr member)
    exact congrArg Pool.mk entries

end Pool

namespace Pools

/-- Nothing is dropped where everything has a usage recorded. -/
theorem compactAll_of_isUsed {pools : Pools}
    (used : ∀ kind, ∀ entry ∈ (pools.pool kind).entries.toList, Pool.isUsed entry) :
    pools.compactAll = ([], pools) := by
  refine Prod.ext ?_ (ext_pool fun kind => ?_)
  · refine List.eq_nil_iff_forall_not_mem.mpr fun row member => ?_
    obtain ⟨kind, remap, rfl, changed⟩ := mem_compactAll member
    rw [(Pool.compact_of_isUsed (used kind)).1] at changed
    cases changed
  · rw [pool_compactAll, (Pool.compact_of_isUsed (used kind)).2]

theorem compacted_of_isUsed {pools : Pools}
    (used : ∀ kind, ∀ entry ∈ (pools.pool kind).entries.toList, Pool.isUsed entry) :
    pools.compacted = pools := by
  rw [compacted, compactAll_of_isUsed used]
  rfl

end Pools

namespace Image

open Pools

/-- Marking what is left changes nothing. -/
theorem markUsage_compacted {pools marked : Pools} (recorded : Marked pools marked) (image : Image)
    (left : image.pools = marked.compacted) : ∃ count, image.markUsage = (.ok count, image) := by
  have present : ∀ item, image.pools.Reaches item → image.pools.contains item := by
    rw [left]
    exact fun item reached => contains_compacted.mpr (copy_of_reaches recorded reached)
  rcases marking : image.markUsage with ⟨fault | count, again⟩
  · obtain ⟨-, item, use, reached, held, beyond⟩ := markUsage_eq_error marking
    exact absurd (present _ (.step reached held)) beyond
  · obtain ⟨header, map, recordedAgain⟩ := markUsage_eq_ok marking
    rw [left] at recordedAgain
    have same : again = image := by
      obtain ⟨againHeader, againPools, againMap⟩ := again
      obtain ⟨imageHeader, imagePools, imageMap⟩ := image
      obtain rfl : againHeader = imageHeader := header
      obtain rfl : againMap = imageMap := map
      obtain rfl : imagePools = marked.compacted := left
      obtain rfl := eq_of_marked recorded recordedAgain
      rfl
    exact ⟨count, by rw [same]⟩

/-- What is removed once usages have been recorded. -/
private theorem removeUnused_of_marked {image marked : Image} {count : Nat}
    (marking : image.markUsage = (.ok count, marked)) :
    image.removeUnused = (.ok (total (fun (_, remap) => remap.removed) marked.pools.compactAll.1),
      { marked with pools := marked.pools.compacted }) := by
  rw [removeUnused, marking]
  rfl

theorem trimmed_of_removeUnused {image after : Image} {dropped : Nat}
    (success : image.removeUnused = (.ok dropped, after)) :
    ∃ survivors, Trimmed image.pools after.pools dropped survivors := by
  rcases marking : image.markUsage with ⟨fault | count, marked⟩
  · rw [removeUnused, marking] at success
    cases success
  · obtain ⟨-, -, recorded⟩ := markUsage_eq_ok marking
    rw [removeUnused_of_marked marking] at success
    obtain ⟨same, rfl⟩ := Prod.mk.inj success
    obtain rfl := Except.ok.inj same
    exact ⟨_, trimmed_compactAll recorded⟩

/-- Removing what is not reachable keeps exactly the reachable items, in their old order, moves
every reference along with its target, and leaves nothing to remove. When it fails, nothing has
changed. All class definitions are reachable if a word counts them. -/
theorem removeUnused_exact (image : Image) :
    (image.pools.classDefs.size < UInt32.size →
      ∀ item, image.pools.isRoot item ↔ item.1 = .classDef ∧ image.pools.contains item) ∧
    match image.removeUnused with
    | (.ok dropped, after) =>
      after.header = image.header ∧ after.map = image.map ∧
        (∃ survivors, Trimmed image.pools after.pools dropped survivors) ∧
        after.removeUnused = (.ok 0, after)
    | (.error _, after) => after = image := by
  refine ⟨isRoot_iff, ?_⟩
  rcases marking : image.markUsage with ⟨fault | count, marked⟩
  · rw [removeUnused, marking]
    exact (markUsage_eq_error marking).1
  · obtain ⟨header, map, recorded⟩ := markUsage_eq_ok marking
    obtain ⟨count, again⟩ := markUsage_compacted recorded { marked with pools := marked.pools.compacted } rfl
    have used : ∀ kind, ∀ entry ∈ (marked.pools.compacted.pool kind).entries.toList, Pool.isUsed entry :=
      fun kind entry member => isUsed_compacted member
    rw [removeUnused_of_marked marking]
    refine ⟨header, map, ⟨_, trimmed_compactAll recorded⟩, ?_⟩
    rw [removeUnused_of_marked again]
    dsimp only
    rw [compactAll_of_isUsed used, compacted_of_isUsed used, total_nil]

end Image
end DexImage
