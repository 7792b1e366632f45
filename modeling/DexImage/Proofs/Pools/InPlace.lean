import DexImage.Proofs.Reachability.Compaction
import DexImage.Proofs.Sorting.Reordering
/-! # Compacting and reordering in place

What stays of a pool that is compacted are the items with a recorded usage, in their order, and the table tells
where each of them is (`Pool.Compacted`). Items and usages may also be kept in two lists that are taken apart
and built up again (`Columns`). Every change of these is a change of a pool (`Columns.apply_columns`), whatever
comes before it, so that the lists stay of one length; a pool that is not reordered is left as it is
(`Pool.rearranged_in_place`).
-/

namespace DexImage

namespace Pool

variable {α : Type} {pool : Pool α}

/-- What compaction makes of a pool, and the table of the indices that stay. -/
structure Compacted (pool : Pool α) (remap : IndexRemap) (compacted : Pool α) : Prop where
  entries : ∀ old new : UInt32, remap.get? old = some new →
    ∃ entry, pool.entries[old.toNat]? = some entry ∧ compacted.entries[new.toNat]? = some entry
  dropped : ∀ (old : UInt32) usage, pool.usage? old = some usage → (remap.get? old = none ↔ usage.isEmpty)
  increasing : ∀ old old' new new' : UInt32, remap.get? old = some new → remap.get? old' = some new' → old < old' →
    new < new'
  kept : compacted.entries.toList = pool.entries.toList.filter isUsed
  tabled : remap.size = pool.size

theorem usedBefore_mono (pool : Pool α) {first second : Nat} (before : first ≤ second) :
    pool.usedBefore first ≤ pool.usedBefore second :=
  (List.take_prefix_take_left before).sublist.countP_le

theorem usedBefore_lt {first second : Nat} {entry : PoolEntry α} (found : pool.entries[first]? = some entry)
    (used : isUsed entry) (before : first < second) : pool.usedBefore first < pool.usedBefore second := by
  have next : pool.usedBefore (first + 1) = pool.usedBefore first + 1 := by
    rw [usedBefore, List.take_add_one, List.countP_append, Array.getElem?_toList, found]
    simp [usedBefore, used]
  have rest := pool.usedBefore_mono (show first + 1 ≤ second from before)
  omega

theorem compacted (pool : Pool α) : pool.Compacted pool.compact.1 pool.compact.2 := by
  have place (old : UInt32) : (pool.usedBefore old.toNat).toUInt32.toNat = pool.usedBefore old.toNat :=
    toNat_toUInt32 (Nat.lt_of_le_of_lt (pool.usedBefore_le _) old.toNat_lt) (Nat.le_refl UInt32.size)
  refine ⟨fun old new moved => ?_, fun old usage recorded => ?_,
    fun old old' new new' moved moved' before => ?_, ?_, ?_⟩
  · obtain ⟨entry, found, used, rfl⟩ := get?_compact.mp moved
    refine ⟨entry, found, ?_⟩
    rw [place, ← Array.getElem?_toList, entries_compact, List.getElem?_map, usedEntries_usedBefore found used]
    rfl
  · obtain ⟨entry, found, rfl⟩ := Option.map_eq_some_iff.mp recorded
    cases empty : entry.usage.isEmpty with
    | true =>
      refine iff_of_true (Option.eq_none_iff_forall_ne_some.mpr fun new moved => ?_) rfl
      obtain ⟨other, found', used, -⟩ := get?_compact.mp moved
      obtain rfl := Option.some.inj (found.symm.trans found')
      rw [isUsed, empty] at used
      cases used
    | false =>
      have moved := get?_compact.mpr ⟨entry, found, by rw [isUsed, empty]; rfl, rfl⟩
      rw [moved]
      exact iff_of_false (by rintro ⟨⟩) (by rintro ⟨⟩)
  · obtain ⟨entry, found, used, rfl⟩ := get?_compact.mp moved
    obtain ⟨entry', found', used', rfl⟩ := get?_compact.mp moved'
    rw [UInt32.lt_iff_toNat_lt, place, place]
    exact usedBefore_lt found used (UInt32.lt_iff_toNat_lt.mp before)
  · exact Array.toList_filter
  · rw [IndexRemap.size, ← Array.length_toList, toList_usedTable, List.length_mapIdx]
    rfl

end Pool

/-- The items and the usages of a pool in lists of their own. -/
structure Columns (α : Type) where
  items : List α
  usages : List Usage

def Pool.columns {α : Type} (pool : Pool α) : Columns α := ⟨pool.items, pool.usages⟩

namespace Columns

variable {α : Type}

/-- The columns with one more item and its usage. -/
def append (columns : Columns α) (item : α) (usage : Usage) : Columns α :=
  ⟨columns.items ++ [item], columns.usages ++ [usage]⟩

/-- The table is counted from the usages. Then the columns are emptied, and what has a usage is put back. -/
def compact (columns : Columns α) : IndexRemap × Columns α :=
  let count (state : Array (Option UInt32) × UInt32) (usage : Usage) :=
    if usage.isEmpty then (state.1.push none, state.2) else (state.1.push (some state.2), state.2 + 1)
  let put (kept : Columns α) (taken : α × Usage) :=
    if taken.2.isEmpty then kept else kept.append taken.1 taken.2
  (⟨(columns.usages.foldl count (#[], 0)).1⟩, (columns.items.zip columns.usages).foldl put ⟨[], []⟩)

/-- Puts back the item that an index names, if it is there still, with its usage. -/
def putBack (usages : List Usage) (state : List (Option α) × Columns α) (old : UInt32) : List (Option α) × Columns α :=
  match state.1[old.toNat]?.join, usages[old.toNat]? with
  | some item, some usage => (state.1.set old.toNat none, state.2.append item usage)
  | _, _ => state

/-- The table is made first; only then are the columns emptied, and what the order names is put back, each item once. -/
def reorder (columns : Columns α) (order : List UInt32) : Result IndexRemap × Columns α :=
  match Pool.orderTable order (Array.replicate columns.items.length none) with
  | .error fault => (.error fault, columns)
  | .ok remap => (.ok remap, (order.foldl (putBack columns.usages) (columns.items.map some, ⟨[], []⟩)).2)

end Columns

namespace Pool

variable {α : Type} {pool : Pool α} {order : List UInt32}

theorem columns_compact (pool : Pool α) : pool.columns.compact = (pool.compact.1, pool.compact.2.columns) := by
  have put (entries : List (PoolEntry α)) (kept : Columns α) :
      ((entries.map PoolEntry.item).zip (entries.map PoolEntry.usage)).foldl
        (fun (kept : Columns α) (taken : α × Usage) =>
        if taken.2.isEmpty then kept else kept.append taken.1 taken.2) kept =
      ⟨kept.items ++ (entries.filter isUsed).map PoolEntry.item,
        kept.usages ++ (entries.filter isUsed).map PoolEntry.usage⟩ := by
    induction entries generalizing kept with
    | nil => simp
    | cons entry entries ih =>
      rw [List.map_cons, List.map_cons, List.zip_cons_cons, List.foldl_cons, ih, List.filter_cons, isUsed]
      cases entry.usage.isEmpty <;> simp [Columns.append]
  refine Prod.ext ?_ ?_
  · rw [Columns.compact, columns, usages, compact, usedTable, ← Array.foldl_toList, List.foldl_map]
  · refine (put pool.entries.toList ⟨[], []⟩).trans ?_
    rw [columns, items, usages, pool.compacted.kept]
    rfl

theorem foldl_putBack (nodup : order.Nodup) {items : List (Option α)} {kept : Columns α}
    (there : ∀ old ∈ order, ∃ entry, pool.entries[old.toNat]? = some entry ∧
      items[old.toNat]? = some (some entry.item)) :
    (order.foldl (Columns.putBack pool.usages) (items, kept)).2 =
      ⟨kept.items ++ (order.filterMap fun old => pool.entries[old.toNat]?).map PoolEntry.item,
        kept.usages ++ (order.filterMap fun old => pool.entries[old.toNat]?).map PoolEntry.usage⟩ := by
  induction order generalizing items kept with
  | nil => simp
  | cons first rest ih =>
    obtain ⟨fresh, nodup⟩ := List.nodup_cons.mp nodup
    obtain ⟨⟨entry, found, here⟩, others⟩ := List.forall_mem_cons.mp there
    have usage : pool.usages[first.toNat]? = some entry.usage := by
      rw [usages, List.getElem?_map, Array.getElem?_toList, found]
      rfl
    have step : Columns.putBack pool.usages (items, kept) first =
        (items.set first.toNat none, kept.append entry.item entry.usage) := by
      simp only [Columns.putBack, here, usage, Option.join_some]
    rw [List.foldl_cons, step, ih nodup, List.filterMap_cons]
    · simp [Columns.append, found]
    · intro old member
      obtain ⟨other, found', there⟩ := others old member
      have differ : first.toNat ≠ old.toNat := fun same => fresh (UInt32.toNat_inj.mp same ▸ member)
      exact ⟨other, found', by rw [List.getElem?_set_ne differ, there]⟩

theorem columns_reorder_ok {remap : IndexRemap} {arranged : Pool α}
    (success : pool.reorder order = .ok (remap, arranged)) :
    pool.columns.reorder order = (.ok remap, arranged.columns) := by
  have orders := reorder_eq_ok_iff.mp ⟨_, _, success⟩
  obtain ⟨table, tabled, same⟩ := Result.bind_eq_ok.mp success
  obtain ⟨rfl, rfl⟩ := Prod.mk.inj (Except.ok.inj same)
  have there : ∀ old ∈ order, ∃ entry, pool.entries[old.toNat]? = some entry ∧
      (pool.items.map some)[old.toNat]? = some (some entry.item) := by
    intro old member
    have inside := orders.inside old member
    refine ⟨pool.entries[old.toNat], Array.getElem?_eq_getElem inside, ?_⟩
    rw [List.getElem?_map, items, List.getElem?_map, Array.getElem?_toList, Array.getElem?_eq_getElem inside]
    rfl
  rw [← length_items] at tabled
  rw [Columns.reorder, columns]
  simp only [tabled, foldl_putBack orders.nodup there]
  rfl

theorem columns_reorder_error {fault : Fault} (failure : pool.reorder order = .error fault) :
    pool.columns.reorder order = (.error fault, pool.columns) := by
  rw [Columns.reorder, columns, length_items]
  cases tabled : orderTable order (Array.replicate pool.size none) with
  | error other =>
    rw [reorder, tabled] at failure
    obtain rfl := Except.error.inj failure
    rfl
  | ok remap =>
    rw [reorder, tabled] at failure
    cases failure

end Pool

/-- What is done to a pool. -/
inductive Change (α : Type) where
  | append (item : α)
  | modify (index : UInt32) (edit : α → α)
  | mark (index : UInt32) (usage : Usage)
  | clearUsage
  | truncate (size : Nat)
  | compact
  | reorder (order : List UInt32)

variable {α : Type}

/-- What a change makes of a pool. A change that fails leaves it as it is. -/
def Pool.apply (pool : Pool α) : Change α → Pool α
  | .append item => pool.push item
  | .modify index edit => pool.modify index edit
  | .mark index usage =>
    match pool.mark index usage with
    | .ok (_, marked) => marked
    | .error _ => pool
  | .clearUsage => pool.clearUsage
  | .truncate size => pool.truncate size
  | .compact => pool.compact.2
  | .reorder order =>
    match pool.reorder order with
    | .ok (_, arranged) => arranged
    | .error _ => pool

/-- What a change makes of items and usages that are kept apart. -/
def Columns.apply (columns : Columns α) : Change α → Columns α
  | .append item => columns.append item .unmarked
  | .modify index edit => { columns with items := columns.items.modify index.toNat edit }
  | .mark index usage => { columns with usages := columns.usages.modify index.toNat fun before => before.union usage }
  | .clearUsage => { columns with usages := columns.usages.map fun _ => .unmarked }
  | .truncate size => ⟨columns.items.take size, columns.usages.take size⟩
  | .compact => columns.compact.2
  | .reorder order => (columns.reorder order).2

/-- To edit a member and then look at one side of every member is to edit that side. -/
private theorem map_modify {β γ : Type} (view : β → γ) {edit : β → β}
    {edit' : γ → γ} {entries : List β} {position : Nat}
    (seen : ∀ entry, entries[position]? = some entry → view (edit entry) = edit' (view entry)) :
    (entries.modify position edit).map view = (entries.map view).modify position edit' := by
  apply List.ext_getElem?
  intro place
  rw [List.getElem?_map, List.getElem?_modify, List.getElem?_modify, List.getElem?_map]
  by_cases same : position = place
  · subst same
    cases found : entries[position]? with
    | none => rfl
    | some entry => simpa using seen entry found
  · cases entries[place]? <;> simp [same]

namespace Columns

/-- A change of items and usages that are kept apart is one of the pool. -/
theorem apply_columns (pool : Pool α) (change : Change α) :
    pool.columns.apply change = (pool.apply change).columns := by
  cases change with
  | append item => simp [apply, Pool.apply, append, Pool.push, Pool.columns, Pool.items, Pool.usages]
  | modify index edit =>
    have items : (pool.modify index edit).items = pool.items.modify index.toNat edit := by
      rw [Pool.items, Pool.modify, Array.toList_modify]
      exact map_modify PoolEntry.item fun _ _ => rfl
    have usages : (pool.modify index edit).usages = pool.usages.modify index.toNat id := by
      rw [Pool.usages, Pool.modify, Array.toList_modify]
      exact map_modify PoolEntry.usage fun _ _ => rfl
    rw [apply, Pool.apply, Pool.columns, Pool.columns, items, usages, List.modify_id]
  | mark index usage =>
    rw [apply, Pool.apply, Pool.mark]
    cases found : pool.usage? index with
    | none =>
      have beyond : pool.usages[index.toNat]? = none := by
        rwa [Pool.usages, List.getElem?_map, Array.getElem?_toList]
      rw [Pool.columns, List.modify_eq_self (List.getElem?_eq_none_iff.mp beyond)]
    | some before =>
      have items : (pool.entries.toList.modify index.toNat fun entry => { entry with usage := before.union usage }).map
          PoolEntry.item = pool.items.modify index.toNat id := map_modify PoolEntry.item fun _ _ => rfl
      have usages : (pool.entries.toList.modify index.toNat fun entry => { entry with usage := before.union usage }).map
          PoolEntry.usage = pool.usages.modify index.toNat fun before => before.union usage := by
        refine map_modify PoolEntry.usage fun entry there => ?_
        rw [Pool.usage?, ← Array.getElem?_toList, there] at found
        rw [← Option.some.inj found]
      rw [← Array.toList_modify, List.modify_id] at items
      rw [← Array.toList_modify] at usages
      exact (congrArg₂ mk items usages).symm
  | clearUsage => simp [apply, Pool.apply, Pool.clearUsage, Pool.columns, Pool.items, Pool.usages]
  | truncate size => simp [apply, Pool.apply, Pool.truncate, Pool.columns, Pool.items, Pool.usages]
  | compact => rw [apply, Pool.columns_compact]; rfl
  | reorder order =>
    rw [apply, Pool.apply]
    cases rearranged : pool.reorder order with
    | error fault => rw [Pool.columns_reorder_error rearranged]
    | ok result => rw [Pool.columns_reorder_ok rearranged]

/-- Whatever is done to items and usages that are kept apart is done to the pool. -/
theorem foldl_apply (pool : Pool α) (changes : List (Change α)) :
    changes.foldl apply pool.columns = (changes.foldl Pool.apply pool).columns := by
  induction changes generalizing pool with
  | nil => rfl
  | cons change changes ih => rw [List.foldl_cons, apply_columns, ih, List.foldl_cons]

end Columns

/-- Compaction keeps the entries with a recorded usage, and its table tells where they are. Just the orders that
name indices of the pool, each once, are carried out, and the table is the inverse of the order. Where items and
usages are kept apart, the same is done to them, an order that is refused leaves them as they are, and they are
as many as each other whatever is done. -/
theorem Pool.rearranged_in_place (pool : Pool α) (order : List UInt32) (changes : List (Change α)) :
    pool.Compacted pool.compact.1 pool.compact.2 ∧ pool.columns.compact = (pool.compact.1, pool.compact.2.columns) ∧
      ((∃ remap arranged, pool.reorder order = .ok (remap, arranged)) ↔
        order.Nodup ∧ ∀ old ∈ order, old.toNat < pool.size) ∧
      (∀ remap arranged, pool.reorder order = .ok (remap, arranged) →
        pool.Reordered order remap arranged ∧ pool.columns.reorder order = (.ok remap, arranged.columns)) ∧
      (∀ fault, pool.reorder order = .error fault → pool.columns.reorder order = (.error fault, pool.columns)) ∧
      (changes.foldl Columns.apply pool.columns).items.length =
      (changes.foldl Columns.apply pool.columns).usages.length := by
  refine ⟨pool.compacted, pool.columns_compact, ?_, fun remap arranged success => ?_,
    fun fault => columns_reorder_error, ?_⟩
  · rw [reorder_eq_ok_iff]
    exact ⟨fun orders => ⟨orders.nodup, orders.inside⟩, fun orders => ⟨orders.1, orders.2⟩⟩
  · exact ⟨reordered_of_reorder success, columns_reorder_ok success⟩
  · rw [Columns.foldl_apply]
    simp [columns, items, usages]

end DexImage
