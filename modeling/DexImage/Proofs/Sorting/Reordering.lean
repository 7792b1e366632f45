import DexImage.Image.Sorting
import DexImage.Proofs.Pools
import DexImage.Proofs.Results
import Mathlib.Data.List.Nodup
import Mathlib.Data.List.Perm.Subperm
/-! # Putting a pool in order

A pool is rearranged by an order that names some of its items once, and the table that comes with it is the
inverse of the order (`Pool.Reordered`). The indices of a pool, sorted by keys, name every item once, so that
rearranging the pool by them moves each item to the place of its index among them (`Pool.Arranged`).
-/

namespace DexImage

/-- The indices of so many items. -/
def indices (size : Nat) : List UInt32 := (List.range size).map Nat.toUInt32

/-- The place that an order of indices gives to the item at a position. -/
def placeOf (order : List UInt32) (position : Nat) : Nat :=
  if position < order.length then order.idxOf position.toUInt32 else position

theorem length_indices (size : Nat) : (indices size).length = size := by simp [indices]

theorem toNat_toUInt32 {position size : Nat} (below : position < size) (fits : size ≤ UInt32.size) :
    position.toUInt32.toNat = position := by
  rw [Nat.toUInt32_eq, UInt32.toNat_ofNat', Nat.mod_eq_of_lt (Nat.lt_of_lt_of_le below fits)]

/-- A word counts no more items than there are. -/
theorem toUInt32_le (size : Nat) : size.toUInt32.toNat ≤ size := by
  rw [Nat.toUInt32_eq, UInt32.toNat_ofNat']
  exact Nat.mod_le _ _

theorem mem_indices {size : Nat} (fits : size ≤ UInt32.size) {index : UInt32} :
    index ∈ indices size ↔ index.toNat < size := by
  rw [indices, List.mem_map]
  constructor
  · rintro ⟨position, member, rfl⟩
    have below := List.mem_range.mp member
    rwa [toNat_toUInt32 below fits]
  · exact fun below => ⟨index.toNat, List.mem_range.mpr below, UInt32.ofNat_toNat⟩

/-- There are no more distinct indices than numbers of 32 bits. -/
theorem length_le_of_nodup {order : List UInt32} (nodup : order.Nodup) : order.length ≤ UInt32.size := by
  have subset : order.map UInt32.toNat ⊆ List.range UInt32.size := by
    intro position member
    obtain ⟨old, -, rfl⟩ := List.mem_map.mp member
    exact List.mem_range.mpr old.toNat_lt
  have distinct : (order.map UInt32.toNat).Nodup := nodup.map fun _ _ => UInt32.toNat_inj.mp
  have fewer := (distinct.subperm subset).length_le
  rwa [List.length_map, List.length_range] at fewer

theorem le_of_nodup_indices {size : Nat} (nodup : (indices size).Nodup) : size ≤ UInt32.size :=
  (length_indices size).symm.trans_le (length_le_of_nodup nodup)

theorem nodup_indices {size : Nat} (fits : size ≤ UInt32.size) : (indices size).Nodup := by
  refine List.Nodup.map_on (fun first member second member' same => ?_) List.nodup_range
  have same := congrArg UInt32.toNat same
  rwa [toNat_toUInt32 (List.mem_range.mp member) fits, toNat_toUInt32 (List.mem_range.mp member') fits] at same

theorem placeOf_indices {size : Nat} (fits : size ≤ UInt32.size) (position : Nat) :
    placeOf (indices size) position = position := by
  rw [placeOf, length_indices]
  split_ifs with below
  · have there : (indices size)[position]? = some position.toUInt32 := by simp [indices, below]
    obtain ⟨inside, there⟩ := List.getElem?_eq_some_iff.mp there
    rw [← there, (nodup_indices fits).idxOf_getElem]
  · rfl

namespace Pool

variable {α : Type}

section Tables

variable {order : List UInt32} {new : UInt32} {table : Array (Option UInt32)}

theorem getElem?_set_index {old index : UInt32} (inside : table[old.toNat]? = some none) :
    (table.set! old.toNat (some new))[index.toNat]? = if index = old then some (some new) else table[index.toNat]? := by
  obtain ⟨bound, -⟩ := Array.getElem?_eq_some_iff.mp inside
  rw [Array.set!_eq_setIfInBounds, Array.getElem?_setIfInBounds, if_pos bound]
  simp only [UInt32.toNat_inj, eq_comm (a := old)]

/-- An index is entered into a table if it is one of the table that has not been named. -/
theorem orderTable_go_cons_eq_ok {first : UInt32} {rest : List UInt32} {remap : IndexRemap} :
    orderTable.go (first :: rest) new table = .ok remap ↔ table[first.toNat]? = some none ∧
      orderTable.go rest (new + 1) (table.set! first.toNat (some new)) = .ok remap := by
  rw [orderTable.go]
  rcases table[first.toNat]? with _ | _ | taken <;> simp

/-- A table is made of an order that names each index once and no other index. -/
theorem orderTable_go_eq_ok {remap : IndexRemap} (success : orderTable.go order new table = .ok remap) :
    order.Nodup ∧ remap.table.size = table.size ∧ (∀ old ∈ order, table[old.toNat]? = some none) ∧
      ∀ old : UInt32, remap.table[old.toNat]? =
        if old ∈ order then some (some (new + (order.idxOf old).toUInt32)) else table[old.toNat]? := by
  induction order generalizing new table with
  | nil =>
    obtain rfl := Except.ok.inj success
    exact ⟨.nil, rfl, by simp, by simp⟩
  | cons first rest ih =>
    obtain ⟨free, success⟩ := orderTable_go_cons_eq_ok.mp success
    obtain ⟨nodup, size, others, each⟩ := ih success
    -- The others are entered where the place of the first one is taken.
    have fresh : first ∉ rest := by
      intro member
      have taken := others first member
      rw [getElem?_set_index free, if_pos rfl] at taken
      cases taken
    refine ⟨List.nodup_cons.mpr ⟨fresh, nodup⟩, size.trans (by simp), ?_, ?_⟩
    · refine List.forall_mem_cons.mpr ⟨free, fun old member => ?_⟩
      have there := others old member
      rwa [getElem?_set_index free, if_neg (by rintro rfl; exact fresh member)] at there
    · intro old
      rw [each old, getElem?_set_index free]
      by_cases same : old = first
      · subst same
        rw [if_neg fresh, if_pos rfl, if_pos List.mem_cons_self, List.idxOf_cons_self]
        exact congrArg (some ∘ some) (UInt32.add_zero new).symm
      · rw [if_neg same]
        by_cases member : old ∈ rest
        · rw [if_pos member, if_pos (List.mem_cons_of_mem _ member), List.idxOf_cons_ne _ (Ne.symm same)]
          have next : (rest.idxOf old + 1).toUInt32 = 1 + (rest.idxOf old).toUInt32 := by
            rw [← UInt32.toNat_inj]
            simp [Nat.add_comm]
          rw [Nat.succ_eq_add_one, next, UInt32.add_assoc]
        · rw [if_neg member, if_neg (by simp [same, member])]

theorem orderTable_go_ok (nodup : order.Nodup) (free : ∀ old ∈ order, table[old.toNat]? = some none) :
    ∃ remap, orderTable.go order new table = .ok remap := by
  induction order generalizing new table with
  | nil => exact ⟨_, rfl⟩
  | cons first rest ih =>
    obtain ⟨fresh, nodup⟩ := List.nodup_cons.mp nodup
    obtain ⟨here, others⟩ := List.forall_mem_cons.mp free
    have free : ∀ old ∈ rest, (table.set! first.toNat (some new))[old.toNat]? = some none := by
      intro old member
      rw [getElem?_set_index here, if_neg (by rintro rfl; exact fresh member)]
      exact others old member
    obtain ⟨remap, tabled⟩ := @ih (new + 1) _ nodup free
    exact ⟨remap, orderTable_go_cons_eq_ok.mpr ⟨here, tabled⟩⟩

end Tables

variable {pool arranged : Pool α} {order : List UInt32} {remap : IndexRemap}

/-- What an order of indices makes of a pool, and the table of the indices that it names. -/
structure Reordered (pool : Pool α) (order : List UInt32) (remap : IndexRemap) (arranged : Pool α) : Prop where
  entries : ∀ (position : Nat) (old : UInt32), order[position]? = some old →
    ∃ entry, pool.entries[old.toNat]? = some entry ∧ arranged.entries[position]? = some entry
  size : arranged.size = order.length
  inverse : ∀ old new : UInt32, remap.get? old = some new ↔ order[new.toNat]? = some old
  tabled : remap.size = pool.size

/-- The order that a pool is rearranged by. -/
structure Orders (order : List UInt32) (pool : Pool α) : Prop where
  nodup : order.Nodup
  inside : ∀ old ∈ order, old.toNat < pool.size

/-- Just the orders of its indices are carried out on a pool. -/
theorem reorder_eq_ok_iff : (∃ remap arranged, pool.reorder order = .ok (remap, arranged)) ↔ Orders order pool := by
  constructor
  · rintro ⟨remap, arranged, success⟩
    obtain ⟨table, tabled, -⟩ := Result.bind_eq_ok.mp success
    obtain ⟨nodup, -, free, -⟩ := orderTable_go_eq_ok tabled
    refine ⟨nodup, fun old member => ?_⟩
    obtain ⟨inside, -⟩ := Array.getElem?_eq_some_iff.mp (free old member)
    rwa [Array.size_replicate] at inside
  · rintro ⟨nodup, inside⟩
    obtain ⟨remap, tabled⟩ := @orderTable_go_ok order 0 (Array.replicate pool.size none) nodup
      fun old member => by simp [inside old member]
    refine ⟨remap, ⟨(order.filterMap fun old => pool.entries[old.toNat]?).toArray⟩, ?_⟩
    rw [reorder, orderTable, tabled]
    rfl

theorem reordered_of_reorder (success : pool.reorder order = .ok (remap, arranged)) :
    pool.Reordered order remap arranged := by
  have orders := reorder_eq_ok_iff.mp ⟨_, _, success⟩
  obtain ⟨table, tabled, same⟩ := Result.bind_eq_ok.mp success
  obtain ⟨rfl, rfl⟩ := Prod.mk.inj (Except.ok.inj same)
  obtain ⟨nodup, size, -, each⟩ := orderTable_go_eq_ok tabled
  have present : ∀ old ∈ order, (pool.entries[old.toNat]?).isSome := fun old member => by
    rw [Array.getElem?_eq_getElem (orders.inside old member)]
    rfl
  refine ⟨fun position old there => ?_, ?_, fun old new => ?_, by simpa [IndexRemap.size] using size⟩
  · obtain ⟨entry, found⟩ := Option.isSome_iff_exists.mp (present old (List.mem_of_getElem? there))
    refine ⟨entry, found, ?_⟩
    rw [List.getElem?_toArray, List.getElem?_filterMap_of_isSome present, there, Option.bind_some, found]
  · rw [Pool.size, List.size_toArray, List.filterMap_length_eq_length]
    exact present
  · rw [IndexRemap.get?, each old]
    by_cases member : old ∈ order
    · have below : order.idxOf old < order.length := List.idxOf_lt_length_iff.mpr member
      have place := toNat_toUInt32 below (length_le_of_nodup nodup)
      rw [if_pos member, UInt32.zero_add, Option.join_some, Option.some.injEq]
      constructor
      · rintro rfl
        rw [place]
        exact List.getElem?_idxOf member
      · intro there
        obtain ⟨inside, rfl⟩ := List.getElem?_eq_some_iff.mp there
        rw [nodup.idxOf_getElem]
        exact UInt32.ofNat_toNat
    · have absent : ((Array.replicate pool.size (none : Option UInt32))[old.toNat]?).join = none := by
        rw [Array.getElem?_replicate]
        split_ifs <;> rfl
      rw [if_neg member, absent]
      exact iff_of_false (by rintro ⟨⟩) fun there => member (List.mem_of_getElem? there)

/-- How a pool is rearranged by an order of all its indices. -/
structure Arranged (pool : Pool α) (order : List UInt32) (remap : IndexRemap) (arranged : Pool α) : Prop where
  perm : order.Perm (indices pool.size)
  nodup : order.Nodup
  fits : pool.size ≤ UInt32.size
  table : remap.table.size = pool.size ∧ ∀ old : UInt32, old.toNat < pool.size →
    remap.get? old = some (placeOf order old.toNat).toUInt32
  size : arranged.size = pool.size
  entries : ∀ (position : Nat) (old : UInt32), order[position]? = some old →
    arranged.entries[position]? = pool.entries[old.toNat]?

theorem arranged_of_reorder (perm : order.Perm (indices pool.size))
    (success : pool.reorder order = .ok (remap, arranged)) :
    pool.Arranged order remap arranged := by
  have spec := reordered_of_reorder success
  have nodup := (reorder_eq_ok_iff.mp ⟨_, _, success⟩).nodup
  have fits := le_of_nodup_indices (perm.nodup_iff.mp nodup)
  have length : order.length = pool.size := perm.length_eq.trans (length_indices _)
  have member {old : UInt32} (below : old.toNat < pool.size) :
    old ∈ order := perm.mem_iff.mpr ((mem_indices fits).mpr below)
  refine ⟨perm, nodup, fits, ⟨spec.tabled, fun old below => ?_⟩,
    spec.size.trans length, fun position old there => ?_⟩
  · have place : order.idxOf old < order.length := List.idxOf_lt_length_iff.mpr (member below)
    rw [spec.inverse, placeOf, length, if_pos below, show old.toNat.toUInt32 = old from UInt32.ofNat_toNat,
      toNat_toUInt32 place (length ▸ fits)]
    exact List.getElem?_idxOf (member below)
  · obtain ⟨entry, found, moved⟩ := spec.entries position old there
    rw [found, moved]

namespace Arranged

theorem items_eq (spec : pool.Arranged order remap arranged) {position : Nat} {old : UInt32}
    (there : order[position]? = some old) : arranged.items[position]? = pool.items[old.toNat]? := by
  simp only [items, List.getElem?_map, Array.getElem?_toList, spec.entries position old there]

theorem getElem?_placeOf (spec : pool.Arranged order remap arranged) {position : Nat} (below : position < pool.size) :
    order[placeOf order position]? = some position.toUInt32 := by
  have member : position.toUInt32 ∈ order := by
    rw [spec.perm.mem_iff, mem_indices spec.fits, toNat_toUInt32 below spec.fits]
    exact below
  rw [placeOf, if_pos (by rwa [spec.perm.length_eq, length_indices])]
  exact List.getElem?_idxOf member

/-- The item at a position moves to the place of the position. -/
theorem items_placeOf (spec : pool.Arranged order remap arranged) {position : Nat} (below : position < pool.size) :
    arranged.items[placeOf order position]? = pool.items[position]? := by
  rw [spec.items_eq (spec.getElem?_placeOf below), toNat_toUInt32 below spec.fits]

theorem placeOf_lt (spec : pool.Arranged order remap arranged) {position : Nat} (below : position < pool.size) :
    placeOf order position < pool.size := by
  obtain ⟨there, -⟩ := List.getElem?_eq_some_iff.mp (spec.getElem?_placeOf below)
  rwa [spec.perm.length_eq, length_indices] at there

theorem placeOf_injective (spec : pool.Arranged order remap arranged) {first second : Nat} (here : first < pool.size)
    (there : second < pool.size) (same : placeOf order first = placeOf order second) : first = second := by
  have index := (spec.getElem?_placeOf here).symm.trans (same ▸ spec.getElem?_placeOf there)
  have number := congrArg UInt32.toNat (Option.some.inj index)
  rwa [toNat_toUInt32 here spec.fits, toNat_toUInt32 there spec.fits] at number

/-- The table gives the place of an item as its new index. -/
theorem get?_eq (spec : pool.Arranged order remap arranged) {old : UInt32} (below : old.toNat < pool.size) :
    ∃ new, remap.get? old = some new ∧ new.toNat = placeOf order old.toNat :=
  ⟨_, spec.table.2 old below, toNat_toUInt32 (spec.placeOf_lt below) spec.fits⟩

theorem get?_of_le (spec : pool.Arranged order remap arranged) {old : UInt32} (beyond : pool.size ≤ old.toNat) :
    remap.get? old = none := by
  rw [IndexRemap.get?, Array.getElem?_eq_none (spec.table.1 ▸ beyond)]
  rfl

end Arranged

/-- An order that names every index once is carried out. -/
theorem reorder_ok (perm : order.Perm (indices pool.size)) (fits : pool.size ≤ UInt32.size) :
    ∃ remap arranged, pool.reorder order = .ok (remap, arranged) ∧ pool.Arranged order remap arranged := by
  have orders : Orders order pool :=
    ⟨perm.nodup_iff.mpr (nodup_indices fits), fun old member => (mem_indices fits).mp (perm.mem_iff.mp member)⟩
  obtain ⟨remap, arranged, success⟩ := reorder_eq_ok_iff.mpr orders
  exact ⟨remap, arranged, success, arranged_of_reorder perm success⟩

/-- The indices in order leave a pool as it is. -/
theorem reorder_indices (fits : pool.size ≤ UInt32.size) :
    ∃ remap, pool.reorder (indices pool.size) = .ok (remap, pool) ∧ remap.isIdentity := by
  obtain ⟨remap, arranged, success, spec⟩ := reorder_ok (List.Perm.refl (indices pool.size)) fits
  have same : arranged = pool := by
    have entries : arranged.entries = pool.entries := by
      refine Array.ext spec.size fun position there here => ?_
      have index : (indices pool.size)[position]? = some position.toUInt32 := by
        rw [indices, List.getElem?_map, List.getElem?_range (show position < pool.size from here)]
        rfl
      have found := spec.entries position _ index
      rw [toNat_toUInt32 here fits, Array.getElem?_eq_getElem there, Array.getElem?_eq_getElem here] at found
      exact Option.some.inj found
    exact congrArg Pool.mk entries
  refine ⟨remap, same ▸ success, ?_⟩
  have table : remap.table = (Array.range remap.size).map fun index => some index.toUInt32 := by
    refine Array.ext (by simp [IndexRemap.size]) fun position here _ => ?_
    have below : position < pool.size := spec.table.1 ▸ here
    have moved := spec.table.2 position.toUInt32 (by rwa [toNat_toUInt32 below fits])
    rw [toNat_toUInt32 below fits, placeOf_indices fits, IndexRemap.get?, toNat_toUInt32 below fits,
      Array.getElem?_eq_getElem here, Option.join_some] at moved
    simpa using moved
  exact beq_iff_eq.mpr (congrArg IndexRemap.mk table)

end Pool

namespace Image

variable {α κ : Type} {pool arranged : Pool α} {key : α → κ} {before : κ → κ → Bool}

/-- The items of a pool that are counted by a word, by their keys, with their indices. -/
private def keyed (pool : Pool α) (key : α → κ) : List (κ × UInt32) :=
  (pool.items.take pool.size.toUInt32.toNat).zipIdx.map fun placed => (key placed.1, placed.2.toUInt32)

private theorem sortedIndices_eq :
    sortedIndices pool key before = ((keyed pool key).mergeSort fun a b => before a.1 b.1).map Prod.snd :=
  rfl

private theorem mem_keyed {entry : κ × UInt32} (member : entry ∈ keyed pool key) :
    ∃ (position : Nat) (item : α), pool.items[position]? = some item ∧ entry = (key item, position.toUInt32) := by
  obtain ⟨placed, listed, rfl⟩ := List.mem_map.mp member
  have found := List.mem_zipIdx_iff_getElem?.mp listed
  rw [List.getElem?_take] at found
  split_ifs at found
  exact ⟨placed.2, placed.1, found, rfl⟩

private theorem keyed_indices : (keyed pool key).map Prod.snd = indices pool.size.toUInt32.toNat := by
  have length : (pool.items.take pool.size.toUInt32.toNat).length = pool.size.toUInt32.toNat := by
    rw [List.length_take, Pool.length_items]
    exact Nat.min_eq_left (toUInt32_le pool.size)
  rw [keyed, List.map_map]
  conv_rhs => rw [indices, ← length, List.range_eq_range', ← List.zipIdx_map_snd, List.map_map]
  rfl

/-- The sorted indices name every item once that is counted. -/
theorem sortedIndices_perm : (sortedIndices pool key before).Perm (indices pool.size.toUInt32.toNat) := by
  rw [sortedIndices_eq, ← keyed_indices]
  exact (List.mergeSort_perm _ _).map _

/-- The items come out in the order of their keys. -/
theorem pairwise_of_arranged {remap : IndexRemap} (spec : pool.Arranged (sortedIndices pool key before) remap arranged)
    (trans : ∀ a ∈ pool.items, ∀ b ∈ pool.items, ∀ c ∈ pool.items, before (key a) (key b) →
      before (key b) (key c) →
      before (key a) (key c))
    (total : ∀ a ∈ pool.items, ∀ b ∈ pool.items, before (key a) (key b) || before (key b) (key a)) :
    arranged.items.Pairwise fun a b => before (key a) (key b) := by
  have keys {entry : κ × UInt32} (member : entry ∈ keyed pool key) : ∃ item ∈ pool.items, entry.1 = key item := by
    obtain ⟨position, item, found, rfl⟩ := mem_keyed member
    exact ⟨item, List.mem_of_getElem? found, rfl⟩
  have sorted : ((keyed pool key).mergeSort fun a b => before a.1 b.1).Pairwise fun a b => before a.1 b.1 := by
    refine List.pairwise_mergeSort_of_mem (fun a first b second c third => ?_) fun a first b second => ?_
    · obtain ⟨x, first, sameX⟩ := keys first
      obtain ⟨y, second, sameY⟩ := keys second
      obtain ⟨z, third, sameZ⟩ := keys third
      rw [sameX, sameY, sameZ]
      exact trans x first y second z third
    · obtain ⟨x, first, sameX⟩ := keys first
      obtain ⟨y, second, sameY⟩ := keys second
      rw [sameX, sameY]
      exact total x first y second
  have length : ((keyed pool key).mergeSort fun a b => before a.1 b.1).length = arranged.items.length := by
    have length := spec.perm.length_eq
    rwa [sortedIndices_eq, List.length_map, length_indices, ← spec.size, ← Pool.length_items] at length
  -- The item at each position has the key that stands there.
  have placed : List.Forall₂ (fun (entry : κ × UInt32) item => entry.1 = key item)
      ((keyed pool key).mergeSort fun a b => before a.1 b.1) arranged.items := by
    refine .of_getElem? length fun position entry there => ?_
    obtain ⟨old, item, found, rfl⟩ := mem_keyed (List.mem_mergeSort.mp (List.mem_of_getElem? there))
    have below : old < pool.size := Pool.length_items pool ▸ (List.getElem?_eq_some_iff.mp found).1
    have index : (sortedIndices pool key before)[position]? = some old.toUInt32 := by
      rw [sortedIndices_eq, List.getElem?_map, there]
      rfl
    exact ⟨item, by rw [spec.items_eq index, toNat_toUInt32 below spec.fits, found], rfl⟩
  refine placed.pairwise (fun same same' less => ?_) sorted
  rwa [same, same'] at less

/-- Items that are in order are not rearranged. -/
theorem sortedIndices_of_pairwise (sorted : pool.items.Pairwise fun a b => before (key a) (key b)) :
    sortedIndices pool key before = indices pool.size.toUInt32.toNat := by
  have counted := sorted.sublist (List.take_sublist pool.size.toUInt32.toNat pool.items)
  have items :
      (pool.items.take pool.size.toUInt32.toNat).zipIdx.map Prod.fst = pool.items.take pool.size.toUInt32.toNat :=
    List.zipIdx_map_fst _ _
  have keyedSorted : (keyed pool key).Pairwise fun a b => before a.1 b.1 := by
    rw [keyed, List.pairwise_map]
    rw [← items, List.pairwise_map] at counted
    exact counted
  rw [sortedIndices_eq, List.mergeSort_of_pairwise keyedSorted, keyed_indices]

end Image
end DexImage
