import DexImage.Proofs.Rereading.Tidy
/-! # Refreshing a try table

Refreshing drops the handler lists that no range names, numbers the others anew and sorts the ranges by where they
start. Each range keeps its place in the code and the handlers that it names (`TryTable.coverage`), so that what the
table covers is sorted and nothing else, if every range names a handler list.
-/

namespace DexImage

/-- A range of code units with the handlers that it is covered by. -/
structure Coverage where
  start : UInt32
  count : UInt16
  handlers : Option HandlerList
deriving DecidableEq, Repr

/-- The coverage with the catch-all last. -/
def Coverage.normalized (coverage : Coverage) : Coverage :=
  { coverage with handlers := coverage.handlers.map HandlerList.normalized }

/-- The coverage with handlers in place of none. -/
def Coverage.orElse (substitute? : Option HandlerList) (coverage : Coverage) : Coverage :=
  { coverage with handlers := coverage.handlers.or substitute? }

namespace TryTable

/-- The ranges of a table, each with the contents of the handler list that it names. -/
def coverage (table : TryTable) : List Coverage :=
  table.tries.map fun item => ⟨item.start, item.count, table.handlers.get? item.handler⟩

/-- The handler lists that some range names, in the order of their slots. -/
def namedLists (table : TryTable) : List HandlerList :=
  (table.handlers.items.zipIdx.filter fun placed => table.names placed.2).map Prod.fst

/-- The handlers that pruning gives to a range that names none: those of the first list that it keeps, if it
drops one. -/
def substitute? (table : TryTable) : Option HandlerList :=
  if ∀ slot < table.handlers.length, table.names slot = true then none else table.namedLists.head?

variable {table : TryTable}

theorem length_renumbering (next : Nat) (used : List Bool) : (renumbering next used).length = used.length := by
  induction used generalizing next with
  | nil => rfl
  | cons first rest ih => cases first <;> exact congrArg Nat.succ (ih _)

/-- A slot that is used gets the number of the slots before it that are used. -/
theorem getElem?_renumbering {used : List Bool} {slot : Nat} (there : used[slot]? = some true) (next : Nat) :
    (renumbering next used)[slot]? = some (next + (used.take slot).countP id) := by
  induction used generalizing slot next with
  | nil => cases there
  | cons first rest ih =>
    cases slot with
    | zero =>
      obtain rfl := Option.some.inj there
      rfl
    | succ slot =>
      cases first with
      | false =>
        rw [renumbering, List.getElem?_cons_succ, ih there next]
        rfl
      | true =>
        rw [renumbering, List.getElem?_cons_succ, ih there (next + 1), List.take_succ_cons, List.countP_cons_of_pos rfl,
          Nat.add_assoc, Nat.add_comm 1]

theorem items_pruned (table : TryTable) : table.pruned.handlers.items = table.namedLists := by
  rw [pruned, namedLists]
  split_ifs with all
  · have every :
        table.handlers.items.zipIdx.filter (fun placed => table.names placed.2) = table.handlers.items.zipIdx := by
      rw [List.filter_eq_self]
      rintro ⟨list, slot⟩ member
      have inside := List.snd_lt_of_mem_zipIdx member
      rw [List.all_eq_true] at all
      exact all _ (List.mem_map.mpr ⟨slot, List.mem_range.mpr inside, rfl⟩)
    rw [every, List.zipIdx_map_fst]
  · change ((table.handlers.items.zip _).filter Prod.snd).map Prod.fst = _
    rw [TrackedList.length, List.zipIdx_eq_zip_range', ← List.range_eq_range', List.zip_map_right, List.filter_map,
      List.map_map]
    rfl

/-- A named list is kept behind those named lists that stand before it. -/
theorem getElem?_namedLists {slot : Nat} (named : table.names slot = true) (inside : slot < table.handlers.length) :
    table.namedLists[(List.range slot).countP table.names]? = table.handlers.get? slot := by
  have before : slot ≤ table.handlers.items.length := Nat.le_of_lt inside
  have placed : table.handlers.items.zipIdx[slot]? = some (table.handlers.items[slot], slot) := by
    rw [List.getElem?_zipIdx, List.getElem?_eq_getElem inside, Option.map_some, Nat.zero_add]
  have kept := List.getElem?_filter_countP (p := fun placed => table.names placed.2) placed named
  have slots : (table.handlers.items.zipIdx.take slot).map Prod.snd = List.range slot := by
    rw [List.map_take, List.zipIdx_map_snd, ← List.range_eq_range', List.take_range, Nat.min_eq_left before]
  have count : (table.handlers.items.zipIdx.take slot).countP (fun placed => table.names placed.2) =
      (List.range slot).countP table.names := by
    rw [← slots, List.countP_map]
    rfl
  rw [namedLists, List.getElem?_map, ← count, kept]
  exact (List.getElem?_eq_getElem inside).symm

/-- Pruning keeps the handlers of every range that names some. -/
theorem coverage_pruned (table : TryTable) :
    table.pruned.coverage = table.coverage.map (Coverage.orElse table.substitute?) := by
  by_cases every : ∀ slot < table.handlers.length, table.names slot = true
  · have all : ((List.range table.handlers.length).map table.names).all id := by
      simpa [List.all_eq_true] using every
    have same : Coverage.orElse none = id := funext fun one => congrArg (Coverage.mk _ _) Option.or_none
    rw [pruned, if_pos all, substitute?, if_pos every, same, List.map_id]
  · have all : ¬((List.range table.handlers.length).map table.names).all id := by
      simpa [List.all_eq_true] using every
    have tries : table.pruned.tries = table.tries.map fun item =>
        { item with
          handler := (renumbering 0 ((List.range table.handlers.length).map table.names)).getD item.handler 0 } := by
      rw [pruned, if_neg all]
    rw [coverage, coverage, tries, List.map_map, List.map_map, substitute?, if_neg every]
    refine List.map_congr_left fun item member => congrArg (Coverage.mk item.start item.count) ?_
    change table.pruned.handlers.items[List.getD _ _ _]? = (table.handlers.get? item.handler).or _
    rw [List.getD_eq_getElem?_getD, items_pruned]
    rcases Nat.lt_or_ge item.handler table.handlers.length with inside | outside
    · have used : table.names item.handler = true := names_eq_true.mpr ⟨item, member, rfl⟩
      have slot : ((List.range table.handlers.length).map table.names)[item.handler]? = some true := by
        rw [List.getElem?_map, List.getElem?_range inside, Option.map_some, used]
      have number : ((List.range table.handlers.length).map table.names).take item.handler =
          (List.range item.handler).map table.names := by
        rw [← List.map_take, List.take_range, Nat.min_eq_left (Nat.le_of_lt inside)]
      -- the number of the slot is that of the named slots before it, which is where its list is kept
      have found := getElem?_renumbering slot 0
      rw [number, List.countP_map, Nat.zero_add] at found
      have kept : table.namedLists[(List.range item.handler).countP (id ∘ table.names)]? = _ :=
        getElem?_namedLists used inside
      rw [found, Option.getD_some, kept, TrackedList.get?, List.getElem?_eq_getElem inside]
      rfl
    · -- a slot that is not numbered counts as the first
      have unnumbered : (renumbering 0 ((List.range table.handlers.length).map table.names))[item.handler]? = none := by
        rw [List.getElem?_eq_none_iff, length_renumbering, List.length_map, List.length_range]
        exact outside
      rw [unnumbered, TrackedList.get?, List.getElem?_eq_none_iff.mpr outside, Option.none_or, Option.getD_none,
        List.head?_eq_getElem?]

theorem coverage_pruned_of_named (named : ∀ item ∈ table.tries, item.handler < table.handlers.length) :
    table.pruned.coverage = table.coverage := by
  rw [coverage_pruned]
  refine (List.map_congr_left fun one member => ?_).trans (List.map_id _)
  obtain ⟨item, there, rfl⟩ := List.mem_map.mp member
  rw [Coverage.orElse, TrackedList.get?, List.getElem?_eq_getElem (named item there)]
  rfl

/-- Refreshing a table sorts what is left of its coverage by pruning, with catch-alls last. -/
theorem coverage_refresh_eq (table : TryTable) : (refresh table).coverage =
    (table.pruned.coverage.map Coverage.normalized).mergeSort fun a b => a.start ≤ b.start := by
  have lists (slot : Nat) : (refresh table).handlers.get? slot =
      (table.pruned.handlers.get? slot).map HandlerList.normalized := List.getElem?_map
  rw [coverage, coverage, List.map_map]
  change (table.pruned.tries.mergeSort fun a b => a.start ≤ b.start).map _ = _
  simp only [lists]
  exact List.map_mergeSort fun _ _ _ _ => rfl

theorem coverage_refresh (named : ∀ item ∈ table.tries, item.handler < table.handlers.length) :
    (refresh table).coverage =
      (table.coverage.map Coverage.normalized).mergeSort fun a b => a.start ≤ b.start := by
  rw [coverage_refresh_eq, coverage_pruned_of_named named]

/-- What a table covers is sorted by refreshing, and nothing else. -/
theorem stablySorted_refresh (named : ∀ item ∈ table.tries, item.handler < table.handlers.length) :
    StablySorted Coverage.start (table.coverage.map Coverage.normalized) (refresh table).coverage := by
  rw [coverage_refresh named]
  exact stablySorted_mergeSort Coverage.start _

theorem namedLists_sublist (table : TryTable) : table.namedLists.Sublist table.handlers.items := by
  have kept :=
    (List.filter_sublist (p := fun placed => table.names placed.2) (l := table.handlers.items.zipIdx)).map Prod.fst
  rwa [List.zipIdx_map_fst] at kept

theorem refresh_refresh (table : TryTable) : refresh (refresh table) = refresh table :=
  refresh_of_tidy table.tidy_refresh

theorem named_refresh (named : ∀ item ∈ table.tries, item.handler < table.handlers.length) :
    ∀ item ∈ (refresh table).tries, item.handler < (refresh table).handlers.length := by
  intro item member
  have covered : ⟨item.start, item.count, (refresh table).handlers.get? item.handler⟩ ∈ (refresh table).coverage :=
    List.mem_map_of_mem member
  rw [coverage_refresh named, List.mem_mergeSort] at covered
  obtain ⟨_, present, same⟩ := List.mem_map.mp covered
  obtain ⟨origin, there, rfl⟩ := List.mem_map.mp present
  have found : (table.handlers.get? origin.handler).map HandlerList.normalized =
      (refresh table).handlers.get? item.handler := congrArg Coverage.handlers same
  rw [TrackedList.get?, List.getElem?_eq_getElem (named origin there), Option.map_some] at found
  exact (List.getElem?_eq_some_iff.mp found.symm).1

/-- Refreshing a table whose ranges all name handler lists sorts what it covers by where the ranges start, with
ranges of one start in their old order, and moves catch-alls last. The lists that are left are those that were
named, in their old order, and each of them is still named. The table bears no edit mark, and to refresh it
again changes nothing. -/
theorem refresh_sorts_coverage (table : TryTable) (named : ∀ item ∈ table.tries, item.handler < table.handlers.length) :
    StablySorted Coverage.start (table.coverage.map Coverage.normalized) (refresh table).coverage ∧
      (∀ item ∈ (refresh table).tries, item.handler < (refresh table).handlers.length) ∧
      (∀ slot < (refresh table).handlers.length, ∃ item ∈ (refresh table).tries, item.handler = slot) ∧
      (refresh table).handlers.items = table.namedLists.map HandlerList.normalized ∧
      table.namedLists.Sublist table.handlers.items ∧
      isDirty (refresh table) = false ∧ refresh (refresh table) = refresh table := by
  refine ⟨stablySorted_refresh named, named_refresh named, fun slot inside => names_eq_true.mp
    (table.tidy_refresh.named slot inside),
    ?_, table.namedLists_sublist, ?_, table.refresh_refresh⟩
  · rw [← items_pruned]
    rfl
  · simp only [isDirty, refresh, Bool.false_or, List.any_map]
    exact List.any_eq_false.mpr fun _ _ => Bool.false_ne_true

/-- Three ranges that are out of order, and a handler list that none of them names. -/
def outOfOrder : TryTable :=
  ⟨[⟨4, 2, 2⟩, ⟨0, 4, 0⟩, ⟨4, 1, 0⟩],
    ⟨[⟨[.catchAll 9, .typed (.of 1) 3]⟩, ⟨[.typed (.of 7) 7]⟩, ⟨[.typed (.of 2) 5]⟩], true⟩⟩

theorem refresh_sorts_coverage_outOfOrder :
    (∀ item ∈ outOfOrder.tries, item.handler < outOfOrder.handlers.length) ∧
      (refresh outOfOrder).coverage = [⟨0, 4, some ⟨[.typed (.of 1) 3, .catchAll 9]⟩⟩,
        ⟨4, 2, some ⟨[.typed (.of 2) 5]⟩⟩, ⟨4, 1, some ⟨[.typed (.of 1) 3, .catchAll 9]⟩⟩] ∧
      StablySorted Coverage.start (outOfOrder.coverage.map Coverage.normalized) (refresh outOfOrder).coverage ∧
      isDirty (refresh outOfOrder) = false ∧ refresh (refresh outOfOrder) = refresh outOfOrder := by
  have named : ∀ item ∈ outOfOrder.tries, item.handler < outOfOrder.handlers.length := by decide
  obtain ⟨sorted, -, -, -, -, clean, settled⟩ := refresh_sorts_coverage outOfOrder named
  have covered : outOfOrder.coverage.map Coverage.normalized = [⟨4, 2, some ⟨[.typed (.of 2) 5]⟩⟩,
      ⟨0, 4, some ⟨[.typed (.of 1) 3, .catchAll 9]⟩⟩,
        ⟨4, 1, some ⟨[.typed (.of 1) 3, .catchAll 9]⟩⟩] := by decide
  refine ⟨named, ?_, sorted, clean, settled⟩
  rw [coverage_refresh named, covered]
  simp [List.mergeSort]

end TryTable
end DexImage
