import DexImage.Proofs.Reachability.Marking
import Mathlib.Data.List.Induction
/-! # Compaction

Compacting a pool keeps the items with a recorded usage in their order, and its table gives their
new positions (`Pool.survivors`). The table of a pool that loses nothing is an identity and is left
out when the tables of all pools are listed.
-/

namespace DexImage
namespace Pool

variable {α : Type}

def isUsed (entry : PoolEntry α) : Bool := !entry.usage.isEmpty

/-- The entries with a recorded usage, each with its position. -/
def usedEntries (pool : Pool α) : List (PoolEntry α × Nat) :=
  pool.entries.toList.zipIdx.filter fun placed => isUsed placed.1

/-- The positions of the items with a recorded usage. -/
def survivors (pool : Pool α) : List UInt32 := pool.usedEntries.map fun placed => placed.2.toUInt32

/-- How many items before a position have a recorded usage. -/
def usedBefore (pool : Pool α) (position : Nat) : Nat := (pool.entries.toList.take position).countP isUsed

theorem entries_compact (pool : Pool α) : pool.compact.2.entries.toList = pool.usedEntries.map Prod.fst := by
  have fst : pool.entries.toList.zipIdx.map Prod.fst = pool.entries.toList := List.zipIdx_map_fst _ _
  rw [compact, usedEntries, Array.toList_filter]
  conv_lhs => rw [← fst, List.filter_map]
  rfl

/-- The items before a position that are used are as many as the place of the item at it. -/
theorem usedEntries_usedBefore {pool : Pool α} {position : Nat} {entry : PoolEntry α}
    (found : pool.entries[position]? = some entry) (used : isUsed entry) :
    pool.usedEntries[pool.usedBefore position]? = some (entry, position) := by
  have placed : pool.entries.toList.zipIdx[position]? = some (entry, position) := by
    simp [found]
  have result := List.getElem?_filter_countP (p := fun placed => isUsed placed.1) placed used
  have fst : pool.entries.toList.zipIdx.map Prod.fst = pool.entries.toList := List.zipIdx_map_fst _ _
  have count : (pool.entries.toList.zipIdx.take position).countP (fun placed => isUsed placed.1) =
      pool.usedBefore position := by
    conv_rhs => rw [usedBefore, ← fst, ← List.map_take, List.countP_map]
    rfl
  rwa [count] at result

private theorem usedTable_list (entries : List (PoolEntry α)) :
    (entries.foldl (fun (state : Array (Option UInt32) × UInt32) entry =>
        if entry.usage.isEmpty then (state.1.push none, state.2)
        else (state.1.push (some state.2), state.2 + 1)) (#[], 0)) =
      ((entries.mapIdx fun position entry =>
          if isUsed entry then some ((entries.take position).countP isUsed).toUInt32 else none).toArray,
        (entries.countP isUsed).toUInt32) := by
  induction entries using List.reverseRecOn with
  | nil => rfl
  | append_singleton entries last ih =>
    have earlier : (entries.mapIdx fun position entry =>
          if isUsed entry then some (((entries ++ [last]).take position).countP isUsed).toUInt32 else none) =
        entries.mapIdx fun position entry =>
          if isUsed entry then some ((entries.take position).countP isUsed).toUInt32 else none := by
      apply List.ext_getElem?
      intro position
      rw [List.getElem?_mapIdx, List.getElem?_mapIdx]
      cases found : entries[position]? with
      | none => rfl
      | some entry =>
        have inside : position ≤ entries.length := Nat.le_of_lt (List.getElem?_eq_some_iff.mp found).1
        rw [List.take_append_of_le_length inside]
    rw [List.foldl_append, ih, List.mapIdx_append, List.countP_append, earlier]
    cases empty : last.usage.isEmpty
    · simp [isUsed, empty]
    · simp [isUsed, empty]

/-- The table of new positions. -/
theorem toList_usedTable (pool : Pool α) :
    pool.compact.1.table.toList = pool.entries.toList.mapIdx fun position entry =>
      if isUsed entry then some (pool.usedBefore position).toUInt32 else none := by
  rw [compact, usedTable, ← Array.foldl_toList, usedTable_list]
  rfl

/-- The new position of an item is its place among those with a recorded usage. -/
theorem get?_compact {pool : Pool α} {old new : UInt32} :
    pool.compact.1.get? old = some new ↔ ∃ entry, pool.entries[old.toNat]? = some entry ∧ isUsed entry ∧
      new = (pool.usedBefore old.toNat).toUInt32 := by
  rw [IndexRemap.get?, ← Array.getElem?_toList, toList_usedTable, List.getElem?_mapIdx, Option.join_eq_some_iff,
    Array.getElem?_toList]
  cases pool.entries[old.toNat]? with
  | none => simp
  | some entry =>
    by_cases used : isUsed entry
    · simpa [used] using eq_comm
    · simp [used]

theorem usedBefore_le (pool : Pool α) (position : Nat) : pool.usedBefore position ≤ position :=
  Nat.le_trans List.countP_le_length (List.length_take_le _ _)

/-- An item moves to the place among the survivors at which its position stands, and never up. -/
theorem survivors_of_get? {pool : Pool α} {old new : UInt32} (moved : pool.compact.1.get? old = some new) :
    pool.survivors[new.toNat]? = some old ∧ new ≤ old := by
  obtain ⟨entry, found, used, rfl⟩ := get?_compact.mp moved
  have bound := pool.usedBefore_le old.toNat
  have small := old.toNat_lt
  have place : (pool.usedBefore old.toNat).toUInt32.toNat = pool.usedBefore old.toNat := by
    have inside : pool.usedBefore old.toNat < 4294967296 := by omega
    simpa using inside
  refine ⟨?_, UInt32.le_iff_toNat_le.mpr (by omega)⟩
  rw [place, survivors, List.getElem?_map, usedEntries_usedBefore found used]
  simp

theorem length_survivors (pool : Pool α) : pool.survivors.length = pool.compact.2.size := by
  rw [survivors, List.length_map, size, ← Array.length_toList, entries_compact, List.length_map]

theorem removed_compact (pool : Pool α) :
    pool.compact.1.removed = pool.size - pool.compact.2.size := by
  have split := List.length_eq_countP_add_countP (fun placed : PoolEntry α × Nat => isUsed placed.1)
    (l := pool.entries.toList.zipIdx)
  rw [← length_survivors, IndexRemap.removed, ← Array.countP_toList, toList_usedTable,
    List.mapIdx_eq_zipIdx_map, List.countP_map, survivors, List.length_map, usedEntries,
    ← List.countP_eq_length_filter, size]
  have same : (Option.isNone ∘ fun placed : PoolEntry α × Nat =>
      if isUsed placed.1 then some (pool.usedBefore placed.2).toUInt32 else none) =
      fun placed => decide ¬isUsed placed.1 := by
    funext placed
    by_cases used : isUsed placed.1 <;> simp [used]
  rw [same]
  simp only [List.length_zipIdx, Array.length_toList] at split
  omega

end Pool

namespace IndexRemap

theorem table_of_isIdentity {remap : IndexRemap} (identity : remap.isIdentity) :
    remap.table = (Array.range remap.size).map fun index => some index.toUInt32 :=
  congrArg table (eq_of_beq identity)

theorem removed_of_isIdentity {remap : IndexRemap} (identity : remap.isIdentity) : remap.removed = 0 := by
  rw [removed, table_of_isIdentity identity]
  simp

theorem get?_of_isIdentity {remap : IndexRemap} (identity : remap.isIdentity) {old new : UInt32}
    (moved : remap.get? old = some new) : new = old := by
  rw [get?, table_of_isIdentity identity, Option.join_eq_some_iff, Array.getElem?_map,
    Option.map_eq_some_iff] at moved
  obtain ⟨position, found, same⟩ := moved
  obtain ⟨bound, rfl⟩ := Array.getElem?_eq_some_iff.mp found
  simpa [eq_comm] using same

theorem get?_self_of_isIdentity {remap : IndexRemap} (identity : remap.isIdentity) {old : UInt32}
    (below : old.toNat < remap.size) : remap.get? old = some old := by
  rw [get?, table_of_isIdentity identity]
  simp [below]

end IndexRemap

namespace Pools

/-- The tables of the pools that change. -/
private def changed (pools : Pools) (kinds : List PoolKind) : Remaps :=
  kinds.flatMap fun kind =>
    let remap := (pools.pool kind).compact.1
    if remap.isIdentity then [] else [(kind.toSection, remap)]

private def compactStep (state : Remaps × Pools) (kind : PoolKind) : Remaps × Pools :=
  let (remap, pool) := (state.2.pool kind).compact
  (if remap.isIdentity then state.1 else state.1 ++ [(kind.toSection, remap)], state.2.setPool kind pool)

private theorem pool_compactStep (remaps : Remaps) (kinds : List PoolKind) (distinct : kinds.Nodup)
    (pools : Pools) :
    (kinds.foldl compactStep (remaps, pools)).1 = remaps ++ pools.changed kinds ∧
      ∀ kind, (kinds.foldl compactStep (remaps, pools)).2.pool kind =
        if kind ∈ kinds then (pools.pool kind).compact.2 else pools.pool kind := by
  induction kinds generalizing remaps pools with
  | nil => simp [changed]
  | cons first rest ih =>
    obtain ⟨fresh, distinct⟩ := List.nodup_cons.mp distinct
    let after := compactStep (remaps, pools) first
    obtain ⟨tables, each⟩ := ih after.1 distinct after.2
    have untouched : ∀ kind, kind ≠ first → after.2.pool kind = pools.pool kind :=
      fun kind differ => pool_setPool_of_ne _ differ _
    refine ⟨?_, fun kind => ?_⟩
    · have later : after.2.changed rest = pools.changed rest := by
        refine List.flatMap_congr fun kind member => ?_
        rw [untouched kind fun same => fresh (same ▸ member)]
      rw [List.foldl_cons, tables, later]
      simp only [after, compactStep, changed, List.flatMap_cons]
      split_ifs <;> simp
    · rw [List.foldl_cons, each kind]
      by_cases same : kind = first
      · subst same
        simp [fresh, after, compactStep]
      · simp [same, untouched kind same]

theorem pool_compactAll (pools : Pools) (kind : PoolKind) :
    pools.compactAll.2.pool kind = (pools.pool kind).compact.2 := by
  refine ((pool_compactStep [] PoolKind.all nodup_all pools).2 kind).trans ?_
  rw [if_pos (PoolKind.mem_all kind)]

private theorem compactAll_fst (pools : Pools) : pools.compactAll.1 = pools.changed PoolKind.all :=
  (pool_compactStep [] PoolKind.all nodup_all pools).1

private theorem lookup_changed (pools : Pools) (kind : PoolKind) (kinds : List PoolKind) :
    (pools.changed kinds).lookup kind.toSection =
      if kind ∈ kinds ∧ (pools.pool kind).compact.1.isIdentity = false
      then some (pools.pool kind).compact.1 else none := by
  induction kinds with
  | nil => rfl
  | cons first rest ih =>
    rw [changed, List.flatMap_cons, ← changed, List.lookup_append, ih]
    by_cases same : kind = first
    · subst same
      by_cases identity : (pools.pool kind).compact.1.isIdentity <;> simp [identity]
    · have section_ne : kind.toSection ≠ first.toSection := by
        intro equal
        exact same (by simpa using congrArg SectionKind.pool? equal)
      have absent : List.lookup kind.toSection (if (pools.pool first).compact.1.isIdentity then []
          else [(first.toSection, (pools.pool first).compact.1)]) = none := by
        split_ifs
        · rfl
        · rw [List.lookup_cons, beq_eq_false_iff_ne.mpr section_ne]
          rfl
      dsimp only
      rw [absent, Option.none_or]
      simp [same]

/-- The table of a pool is listed unless it is an identity. -/
theorem lookup_compactAll (pools : Pools) (kind : PoolKind) :
    pools.compactAll.1.lookup kind.toSection =
      if (pools.pool kind).compact.1.isIdentity then none else some (pools.pool kind).compact.1 := by
  rw [compactAll_fst, lookup_changed]
  cases (pools.pool kind).compact.1.isIdentity <;> simp [PoolKind.mem_all]

/-- Only tables of pools that change are listed. -/
theorem mem_compactAll {pools : Pools} {row : SectionKind × IndexRemap} (member : row ∈ pools.compactAll.1) :
    ∃ kind remap, row = (kind.toSection, remap) ∧ (pools.pool kind).compact.1.isIdentity = false := by
  rw [compactAll_fst] at member
  obtain ⟨kind, -, member⟩ := List.mem_flatMap.mp member
  cases identity : (pools.pool kind).compact.1.isIdentity
  · simp only [identity, Bool.false_eq_true, if_false, List.mem_singleton] at member
    exact ⟨kind, _, member, identity⟩
  · simp [identity] at member

/-- The tables count every item that is dropped. -/
theorem removed_compactAll (pools : Pools) :
    total (fun (_, remap) => remap.removed) pools.compactAll.1 =
      total (fun kind => (pools.pool kind).size - (pools.pool kind).compact.2.size) PoolKind.all := by
  rw [compactAll_fst]
  induction PoolKind.all with
  | nil => rfl
  | cons first rest ih =>
    rw [changed, List.flatMap_cons, ← changed, total_append, ih, total_cons, ← Pool.removed_compact]
    by_cases identity : (pools.pool first).compact.1.isIdentity
    · simp [identity, IndexRemap.removed_of_isIdentity identity]
    · simp [identity]

end Pools
end DexImage
