import DexImage.Pools
import DexImage.Proofs.References.Uses
/-! # The pools of an image, one by one

Pools are determined by the pool of each kind. A pass that goes from pool to pool and touches one at
a time does to each what its step does (`pool_foldl`). Pools grow when items are appended
(`Pools.Extends`).
-/

namespace DexImage

theorem PoolKind.toSection_injective {first second : PoolKind} (same : first.toSection = second.toSection) :
    first = second := by
  have pools := congrArg SectionKind.pool? same
  simpa using pools

theorem PoolKind.rank_injective {first second : PoolKind} (same : first.rank = second.rank) : first = second := by
  have codes := congrArg SectionKind.ofMapCode? (UInt16.toNat_inj.mp same)
  rw [SectionKind.ofMapCode?_mapCode, SectionKind.ofMapCode?_mapCode] at codes
  exact toSection_injective (Option.some.inj codes)

/-- The item that a use leads to. -/
def Use.target (use : Use) : PoolKind × UInt32 := (use.kind, use.index)

namespace Pool

variable {α : Type}

theorem get?_eq_some {pool : Pool α} {index : UInt32} {item : α} :
    pool.get? index = some item ↔ pool.items[index.toNat]? = some item := by
  simp [get?, items, Array.getElem?_toList]

/-- Pools whose entries correspond one by one are of one size. -/
theorem size_eq_of_entries {β : Type} {first : Pool α} {second : Pool β}
    (change : Nat → PoolEntry β → PoolEntry α)
    (same : ∀ position : Nat, first.entries[position]? = (second.entries[position]?).map (change position)) :
    first.size = second.size := by
  apply Nat.le_antisymm
  · rw [size, size, ← Array.getElem?_eq_none_iff, same]
    simp
  · have none := same first.size
    rw [size, Array.getElem?_eq_none (Nat.le_refl _), eq_comm, Option.map_eq_none_iff] at none
    exact Array.getElem?_eq_none_iff.mp none

@[simp] theorem size_clearUsage (pool : Pool α) : pool.clearUsage.size = pool.size := by
  simp [clearUsage, size]

@[simp] theorem size_map (pool : Pool α) (edit : α → α) : (pool.map edit).size = pool.size := by
  simp [map, size]

@[simp] theorem length_items (pool : Pool α) : pool.items.length = pool.size := by
  simp [items, size]

@[simp] theorem items_map (pool : Pool α) (edit : α → α) : (pool.map edit).items = pool.items.map edit := by
  simp [map, items, Function.comp_def]

@[simp] theorem get?_map (pool : Pool α) (edit : α → α) (index : UInt32) :
    (pool.map edit).get? index = (pool.get? index).map edit := by
  simp [map, get?, Function.comp_def]

@[simp] theorem items_push (pool : Pool α) (item : α) : (pool.push item).items = pool.items ++ [item] := by
  simp [push, items]

@[simp] theorem size_push (pool : Pool α) (item : α) : (pool.push item).size = pool.size + 1 := by
  simp [push, size]

/-- The next index is the number of items, as long as the pool is not too long. -/
theorem toNat_nextIndex {pool : Pool α} (few : pool.size < UInt32.size) : pool.nextIndex.toNat = pool.size := by
  rw [nextIndex, Nat.toUInt32_eq, UInt32.toNat_ofNat', Nat.mod_eq_of_lt few]

/-- Edits that do the same to every item do the same to the pool. -/
theorem map_congr {pool : Pool α} {edit other : α → α} (same : ∀ item ∈ pool.items, edit item = other item) :
    pool.map edit = pool.map other := by
  obtain ⟨entries⟩ := pool
  refine congrArg Pool.mk (Array.ext_getElem? fun position => ?_)
  rw [Array.getElem?_map, Array.getElem?_map]
  rcases found : entries[position]? with _ | entry
  · rfl
  · have member : entry.item ∈ (Pool.mk entries).items :=
      List.mem_map_of_mem (List.mem_of_getElem? (by rw [Array.getElem?_toList, found]))
    exact congrArg (fun item => some { entry with item }) (same entry.item member)

/-- An edit that leaves every item as it is leaves the pool as it is. -/
theorem map_of_fixed {pool : Pool α} {edit : α → α} (fixed : ∀ item ∈ pool.items, edit item = item) :
    pool.map edit = pool :=
  (map_congr fixed).trans (congrArg Pool.mk (Array.map_id' pool.entries))

/-- The index that an appended item gets leads to it, as long as the pool is not too long. -/
theorem get?_push_nextIndex {pool : Pool α} {item : α} (fits : (pool.push item).size ≤ UInt32.size) :
    (pool.push item).get? pool.nextIndex = some item := by
  rw [size_push] at fits
  rw [get?_eq_some, items_push, toNat_nextIndex (Nat.lt_of_succ_le fits), ← length_items, List.getElem?_concat_length]

/-- What is found is an item that equals the one looked for. -/
theorem get?_of_find? [BEq α] {pool : Pool α} {item : α} {index : UInt32}
    (fits : pool.size ≤ UInt32.size) (found : pool.find? item = some index) :
    ∃ other, pool.get? index = some other ∧ (other == item) = true := by
  obtain ⟨position, first, rfl⟩ := Option.map_eq_some_iff.mp found
  obtain ⟨bound, equal, -⟩ := Array.findIdx?_eq_some_iff_getElem.mp first
  have index : position.toUInt32.toNat = position := by
    rw [Nat.toUInt32_eq, UInt32.toNat_ofNat']
    exact Nat.mod_eq_of_lt (Nat.lt_of_lt_of_le bound fits)
  exact ⟨pool.entries[position].item, by simp [get?, index, bound], equal⟩

/-- The first item that equals the one looked for is found. -/
theorem find?_eq_some [BEq α] {pool : Pool α} {index : UInt32} {item sought : α} (there : pool.get? index = some item)
    (same : (item == sought) = true)
    (first : ∀ earlier other, earlier < index.toNat → pool.items[earlier]? = some other → (other == sought) = false) :
    pool.find? sought = some index := by
  obtain ⟨entry, present, rfl⟩ := Option.map_eq_some_iff.mp there
  obtain ⟨below, rfl⟩ := Array.getElem?_eq_some_iff.mp present
  refine Option.map_eq_some_iff.mpr ⟨index.toNat, ?_, UInt32.ofNat_toNat⟩
  refine Array.findIdx?_eq_some_iff_getElem.mpr ⟨below, same, fun earlier before equal => ?_⟩
  have inside : earlier < pool.entries.size := before.trans below
  have differ := first earlier pool.entries[earlier].item before (by simp [items, inside])
  exact Bool.false_ne_true (differ.symm.trans equal)

/-- Where nothing is found, no item equals the one looked for. -/
theorem ne_of_find?_eq_none [BEq α] {pool : Pool α} {sought : α} (fresh : pool.find? sought = none) :
    ∀ item ∈ pool.items, (item == sought) = false := by
  intro item member
  obtain ⟨entry, present, rfl⟩ := List.mem_map.mp member
  have missing := Array.findIdx?_eq_none_iff.mp (Option.map_eq_none_iff.mp fresh)
  exact missing entry (Array.mem_toList_iff.mp present)

end Pool

namespace Pools

theorem ext_pool {first second : Pools} (same : ∀ kind, first.pool kind = second.pool kind) :
    first = second := by
  obtain ⟨⟩ := first
  obtain ⟨⟩ := second
  simp only [Pools.mk.injEq]
  exact ⟨same .stringId, same .typeId, same .protoId, same .fieldId, same .methodId, same .classDef,
    same .typeList, same .annotationSetRefList, same .annotationSet, same .classData, same .code,
    same .debugInfo, same .annotationItem, same .encodedArray, same .annotationsDirectory⟩

@[simp] theorem pool_modify_self (pools : Pools) (kind : PoolKind)
    (edit : Pool (Item kind) → Pool (Item kind)) :
    (pools.modify kind edit).pool kind = edit (pools.pool kind) := by
  simp [modify]

theorem pool_modify_of_ne (pools : Pools) {kind other : PoolKind} (differ : other ≠ kind)
    (edit : Pool (Item kind) → Pool (Item kind)) :
    (pools.modify kind edit).pool other = pools.pool other := by
  simp [modify, pool_setPool_of_ne _ differ]

theorem pool_push_self (pools : Pools) (kind : PoolKind) (item : Item kind) :
    (pools.push kind item).pool kind = (pools.pool kind).push item :=
  pool_modify_self pools kind _

theorem pool_push_of_ne (pools : Pools) {kind other : PoolKind} (differ : other ≠ kind) (item : Item kind) :
    (pools.push kind item).pool other = pools.pool other :=
  pool_modify_of_ne pools differ _

/-- Steps that each edit the pool of their kind. -/
theorem pool_foldl {step : Pools → PoolKind → Pools}
    (edit : (kind : PoolKind) → Pool (Item kind) → Pool (Item kind))
    (step_self : ∀ pools kind, (step pools kind).pool kind = edit kind (pools.pool kind))
    (step_of_ne : ∀ pools kind other, other ≠ kind → (step pools kind).pool other = pools.pool other)
    {kinds : List PoolKind} (distinct : kinds.Nodup) (pools : Pools) (kind : PoolKind) :
    (kinds.foldl step pools).pool kind =
      if kind ∈ kinds then edit kind (pools.pool kind) else pools.pool kind := by
  induction kinds generalizing pools with
  | nil => simp
  | cons first rest ih =>
    obtain ⟨fresh, distinct⟩ := List.nodup_cons.mp distinct
    rw [List.foldl_cons, ih distinct]
    by_cases same : kind = first
    · subst same
      simp [fresh, step_self]
    · simp [same, step_of_ne _ _ _ same]

theorem nodup_all : PoolKind.all.Nodup := by decide

/-- Steps for all kinds that each edit the pool of their kind. -/
theorem pool_foldl_all {step : Pools → PoolKind → Pools}
    (edit : (kind : PoolKind) → Pool (Item kind) → Pool (Item kind))
    (step_self : ∀ pools kind, (step pools kind).pool kind = edit kind (pools.pool kind))
    (step_of_ne : ∀ pools kind other, other ≠ kind → (step pools kind).pool other = pools.pool other)
    (pools : Pools) (kind : PoolKind) :
    (PoolKind.all.foldl step pools).pool kind = edit kind (pools.pool kind) := by
  rw [pool_foldl edit step_self step_of_ne nodup_all, if_pos (PoolKind.mem_all kind)]

@[simp] theorem pool_clearUsage (pools : Pools) (kind : PoolKind) :
    pools.clearUsage.pool kind = (pools.pool kind).clearUsage :=
  pool_foldl_all (fun _ => Pool.clearUsage) (fun _ _ => pool_modify_self _ _ _)
    (fun _ _ _ differ => pool_modify_of_ne _ differ _) pools kind

theorem pool_foldl_refresh (pools : Pools) (kind : PoolKind) :
    (PoolKind.all.foldl (fun pools kind => pools.modify kind fun pool => pool.map refresh) pools).pool kind =
      (pools.pool kind).map refresh :=
  pool_foldl_all (fun _ pool => pool.map refresh) (fun _ _ => pool_modify_self _ _ _)
    (fun _ _ _ differ => pool_modify_of_ne _ differ _) pools kind

/-- Apart from the order within annotation sets, every item is brought up to date by itself. -/
theorem pool_refreshAll {kind : PoolKind} (other : kind ≠ .annotationSet) (pools : Pools) :
    pools.refreshAll.pool kind = (pools.pool kind).map refresh := by
  rw [refreshAll, sortAnnotationSets, pool_modify_of_ne _ other, pool_foldl_refresh]

theorem get?_refreshAll {kind : PoolKind} (other : kind ≠ .annotationSet) (pools : Pools) (index : UInt32) :
    pools.refreshAll.get? kind index = (pools.get? kind index).map refresh := by
  rw [get?, pool_refreshAll other, Pool.get?_map, get?]

/-- A pass with an edit for every slot that depends on the slot alone. -/
theorem pool_visit_pure (edit : Slot → Edit) (pools : Pools) (kind : PoolKind) :
    (pools.visit (fun slot => (pure (edit slot) : StateM Unit Edit)) ()).1.pool kind =
      (pools.pool kind).map fun item => (itemHolding kind).fill item
        (((itemHolding kind).held item).map fun one => one.edited (edit one.slot)) := by
  let fill (kind : PoolKind) (item : Item kind) : Item kind :=
    (itemHolding kind).fill item (((itemHolding kind).held item).map fun one => one.edited (edit one.slot))
  have pass : pools.visit (fun slot => (pure (edit slot) : StateM Unit Edit)) =
      pure (PoolKind.all.foldl (fun pools kind => pools.setPool kind ((pools.pool kind).map (fill kind))) pools) := by
    rw [Pools.visit, ← List.foldlM_pure]
    congr 1
    funext pools kind
    simp only [Pool.mapM, ← visit_itemHolding, Holding.visit_pure, pure_bind, Array.mapM_pure]
    rfl
  rw [pass]
  exact pool_foldl_all (fun kind pool => pool.map (fill kind)) (fun _ _ => pool_setPool_self _ _ _)
    (fun _ _ _ differ => pool_setPool_of_ne _ differ _) pools kind

/-- Whether the items of pools stand unchanged at the front of those of others. -/
def Extends (before after : Pools) : Prop :=
  ∀ kind, (before.pool kind).entries.toList <+: (after.pool kind).entries.toList

/-- Whether every item has an index, which is a number of 32 bits. -/
def Indexed (pools : Pools) : Prop := ∀ kind, (pools.pool kind).size ≤ UInt32.size

theorem indexed_of_sizes {pools : Pools} (sizes : ∀ kind ∈ PoolKind.all, (pools.pool kind).size ≤ UInt32.size) :
    pools.Indexed :=
  fun kind => sizes kind (PoolKind.mem_all kind)

theorem mem_of_get? {pools : Pools} {kind : PoolKind} {index : UInt32} {item : Item kind}
    (found : pools.get? kind index = some item) : item ∈ (pools.pool kind).items :=
  List.mem_of_getElem? (Pool.get?_eq_some.mp found)

theorem Extends.refl (pools : Pools) : pools.Extends pools := fun _ => List.prefix_rfl

theorem Extends.trans {first second third : Pools} (before : first.Extends second)
    (after : second.Extends third) : first.Extends third :=
  fun kind => (before kind).trans (after kind)

theorem Extends.get? {before after : Pools} (grows : before.Extends after) {kind : PoolKind}
    {index : UInt32} {item : Item kind} (found : before.get? kind index = some item) :
    after.get? kind index = some item := by
  simp only [Pools.get?, Pool.get?, Option.map_eq_some_iff, ← Array.getElem?_toList] at found ⊢
  obtain ⟨entry, found, same⟩ := found
  obtain ⟨rest, grown⟩ := grows kind
  refine ⟨entry, ?_, same⟩
  rw [← grown, List.getElem?_append_left (List.getElem?_eq_some_iff.mp found).1]
  exact found

theorem Extends.size_le {before after : Pools} (grows : before.Extends after) (kind : PoolKind) :
    (before.pool kind).size ≤ (after.pool kind).size := by
  have length := (grows kind).length_le
  rwa [Array.length_toList, Array.length_toList] at length

theorem Extends.indexed {before after : Pools} (grows : before.Extends after) (indexed : after.Indexed) :
    before.Indexed :=
  fun kind => Nat.le_trans (grows.size_le kind) (indexed kind)

theorem extends_push (pools : Pools) (kind : PoolKind) (item : Item kind) :
    pools.Extends (pools.push kind item) := by
  intro other
  by_cases same : other = kind
  · subst same
    simp [pool_push_self, Pool.push]
  · simp [pool_push_of_ne _ same]

/-- Interning finds an equal item, or appends the item. -/
theorem intern_cases (pools : Pools) (kind : PoolKind) (item : Item kind) :
    (∃ index, (pools.pool kind).find? item = some index ∧ pools.intern kind item = (index, pools)) ∨
      (pools.pool kind).find? item = none ∧
        pools.intern kind item = ((pools.pool kind).nextIndex, pools.push kind item) := by
  rw [intern]
  cases (pools.pool kind).find? item with
  | none => exact .inr ⟨rfl, rfl⟩
  | some index => exact .inl ⟨index, rfl, rfl⟩

/-- What is in a pool has been there before it was appended to, or is what was appended. -/
theorem mem_push {pools : Pools} {kind one : PoolKind} {item : Item kind} {other : Item one}
    (member : other ∈ ((pools.push kind item).pool one).items) :
    other ∈ (pools.pool one).items ∨ ∃ same : one = kind, same ▸ other = item := by
  by_cases same : one = kind
  · subst same
    rw [pool_push_self, Pool.items_push] at member
    rcases List.mem_append.mp member with old | new
    · exact .inl old
    · exact .inr ⟨rfl, List.mem_singleton.mp new⟩
  · rw [pool_push_of_ne _ same] at member
    exact .inl member

/-- An item that has to exist, where it does. -/
theorem require_eq {pools : Pools} {kind : PoolKind} {index : UInt32} {item : Item kind} :
    pools.require kind index = .ok item ↔ pools.get? kind index = some item := by
  rw [Pools.require, Pool.require, Pools.get?]
  cases (pools.pool kind).get? index with
  | none => exact iff_of_false (by rintro ⟨⟩) (by rintro ⟨⟩)
  | some other =>
    constructor
    · intro same
      exact congrArg some (Except.ok.inj same)
    · intro same
      rw [Option.some.inj same]
      rfl

/-- An appended item is found at the index that it was given. -/
theorem get?_push {pools : Pools} {kind : PoolKind} {item : Item kind}
    (indexed : (pools.push kind item).Indexed) :
    (pools.push kind item).get? kind (pools.pool kind).nextIndex = some item := by
  have fits := indexed kind
  rw [pool_push_self] at fits
  rw [Pools.get?, pool_push_self]
  exact Pool.get?_push_nextIndex fits

end Pools
end DexImage
