import DexImage.Proofs.TryTables.Ranges
import DexImage.Proofs.TryTables.Refreshed
/-! # Looking up an address in a try table

Of the ranges that cover an address the last in the table tells the handlers. After refreshing, which sorts the ranges,
this is the range that starts last, and only of several that start there the last in the table (`TryTable.latestAt?`).
The two are the same where the ranges that cover the address stand in order, but not in general: a range that surrounds
an earlier one takes its place in the table before refreshing, and gives way to it afterwards.
-/

namespace DexImage

namespace StablySorted

variable {α : Type} {key : α → UInt32} {items sorted : List α}

protected theorem filter (stably : StablySorted key items sorted) (keep : α → Bool) :
    StablySorted key (items.filter keep) (sorted.filter keep) where
  perm := stably.perm.filter keep
  ordered := List.Pairwise.sublist (List.filter_sublist.map key) stably.ordered
  stable wanted := by
    rw [List.filter_comm, stably.stable wanted, List.filter_comm]

/-- Behind all others stands, of the members with the greatest key, the one that stood last. -/
theorem getLast?_eq (stably : StablySorted key items sorted) :
    sorted.getLast? = (items.filter fun item => items.all fun other => key other ≤ key item).getLast? := by
  rcases sorted.eq_nil_or_concat' with rfl | ⟨front, last, rfl⟩
  · rw [stably.perm.symm.eq_nil]
    rfl
  · have greatest (other : α) (member : other ∈ items) : key other ≤ key last := by
      have ordered := stably.ordered
      rw [InOrder, List.map_append, List.pairwise_append] at ordered
      rcases List.mem_append.mp (stably.perm.mem_iff.mpr member) with before | same
      · exact ordered.2.2 _ (List.mem_map_of_mem before) _ List.mem_cons_self
      · rw [List.mem_singleton.mp same]
        exact UInt32.le_refl _
    have there : last ∈ items := stably.perm.mem_iff.mp (by simp)
    -- the key of the last member is the greatest, and stability tells the order of those that have it
    have tops : (items.filter fun item => items.all fun other => key other ≤ key item) =
        items.filter fun item => key item = key last := by
      refine List.filter_congr fun item member => ?_
      rw [Bool.eq_iff_iff, List.all_eq_true, decide_eq_true_eq]
      constructor
      · exact fun top => UInt32.le_antisymm (greatest item member) (of_decide_eq_true (top last there))
      · exact fun same other present => decide_eq_true (same ▸ greatest other present)
    rw [tops, ← stably.stable, List.filter_append]
    simp

end StablySorted

/-- Whether the range is one that an address can lie in and lies in. -/
def Coverage.covers (coverage : Coverage) (address : UInt32) : Bool :=
  TryItem.covers ⟨coverage.start, coverage.count, 0⟩ address

namespace TryTable

variable {table : TryTable} {address : UInt32}

/-- Of the ranges that cover an address the one that starts last, and of several that start there the last of them. -/
def latestAt? (table : TryTable) (address : UInt32) : Option TryItem :=
  let covering := table.tries.filter fun item => item.covers address
  (covering.filter fun item => covering.all fun other => other.start ≤ item.start).getLast?

/-- The handlers for an address are those of the last range that covers it. -/
theorem handlersAt?_eq (table : TryTable) (address : UInt32) : table.handlersAt? address =
    ((table.tries.filter fun item => item.covers address).getLast?).bind fun item => table.handlers.get? item.handler :=
  table.lookup?_eq address

theorem handlersAt?_eq_coverage (table : TryTable) (address : UInt32) : table.handlersAt? address =
    ((table.coverage.filter fun one => one.covers address).getLast?).bind Coverage.handlers := by
  rw [handlersAt?_eq, coverage, List.filter_map, List.getLast?_map, Option.bind_map]
  rfl

/-- What covers an address has handlers if every range names a handler list. -/
theorem handlersAt?_eq_none (named : ∀ item ∈ table.tries, item.handler < table.handlers.length) :
    table.handlersAt? address = none ↔ ∀ one ∈ table.coverage, one.covers address = false := by
  have handled (one : Coverage) (member : one ∈ table.coverage) : one.handlers ≠ none := by
    obtain ⟨item, there, rfl⟩ := List.mem_map.mp member
    exact fun missing => absurd (List.getElem?_eq_none_iff.mp missing) (Nat.not_le.mpr (named item there))
  rw [handlersAt?_eq_coverage]
  rcases last : (table.coverage.filter fun one => one.covers address).getLast? with _ | one
  · rw [last]
    rw [List.getLast?_eq_none_iff, List.filter_eq_nil_iff] at last
    exact iff_of_true rfl fun one member => Bool.eq_false_iff.mpr (last one member)
  · rw [last]
    obtain ⟨member, covers⟩ := List.mem_filter.mp (List.mem_of_getLast? last)
    exact iff_of_false (handled one member) fun all => Bool.false_ne_true ((all one member).symm.trans covers)

/-- After refreshing, the range that starts last tells the handlers. -/
theorem handlersAt?_refresh (named : ∀ item ∈ table.tries, item.handler < table.handlers.length)
    (address : UInt32) : (refresh table).handlersAt? address =
      ((table.latestAt? address).bind fun item => table.handlers.get? item.handler).map HandlerList.normalized := by
  rw [handlersAt?_eq_coverage, ((stablySorted_refresh named).filter fun one => one.covers address).getLast?_eq]
  simp only [coverage, List.filter_map, List.map_map, List.all_map, List.getLast?_map, latestAt?, Option.bind_map,
    Option.map_bind]
  rfl

/-- Where the ranges that cover an address stand in order, the last of them starts last. -/
theorem latestAt?_of_ascending
    (ascending : (table.tries.filter fun item => item.covers address).Pairwise fun a b => a.start ≤ b.start) :
    table.latestAt? address = (table.tries.filter fun item => item.covers address).getLast? := by
  have sorted : StablySorted TryItem.start (table.tries.filter fun item => item.covers address)
      (table.tries.filter fun item => item.covers address) :=
    ⟨.refl _, List.pairwise_map.mpr ascending, fun _ => rfl⟩
  exact sorted.getLast?_eq.symm

/-- Refreshing a table whose ranges all name handler lists makes of the handlers for an address those of the
range that starts last of all that cover it, with the catch-all last. An address has handlers afterwards just if
it had some before, and the same ones where the ranges that cover it stand in order of their starts. -/
theorem lookup_refresh (table : TryTable) (named : ∀ item ∈ table.tries, item.handler < table.handlers.length)
    (address : UInt32) :
    (refresh table).handlersAt? address =
        ((table.latestAt? address).bind fun item => table.handlers.get? item.handler).map HandlerList.normalized ∧
      ((refresh table).handlersAt? address = none ↔ table.handlersAt? address = none) ∧
      ((table.tries.filter fun item => item.covers address).Pairwise (fun a b => a.start ≤ b.start) →
        (refresh table).handlersAt? address = (table.handlersAt? address).map HandlerList.normalized) := by
  refine ⟨handlersAt?_refresh named address, ?_, fun ascending => ?_⟩
  · rw [handlersAt?_eq_none (named_refresh named), handlersAt?_eq_none named]
    simp only [(stablySorted_refresh named).perm.mem_iff, List.forall_mem_map]
    rfl
  · rw [handlersAt?_refresh named, latestAt?_of_ascending ascending, handlersAt?_eq]

/-- A range, behind it one that lies within it, and behind both one that is disjoint from them. -/
def nested : TryTable :=
  ((empty.add 0 8 ⟨[.catchAll 20]⟩).add 4 2 ⟨[.catchAll 10, .typed (.of 1) 12]⟩).add 8 1 ⟨[.catchAll 20]⟩

/-- Where the ranges stand in order, the inner of two nested ranges tells the handlers before refreshing and after. -/
theorem lookup_refresh_nested : (∀ item ∈ nested.tries, item.handler < nested.handlers.length) ∧
    ((nested.tries.filter fun item => item.covers 4).Pairwise fun a b => a.start ≤ b.start) ∧
      nested.handlersAt? 4 = some ⟨[.catchAll 10, .typed (.of 1) 12]⟩ ∧
      (refresh nested).handlersAt? 4 = some ⟨[.typed (.of 1) 12, .catchAll 10]⟩ := by
  have named : ∀ item ∈ nested.tries, item.handler < nested.handlers.length := by decide
  have ascending : (nested.tries.filter fun item => item.covers 4).Pairwise fun a b => a.start ≤ b.start := by decide
  have before : nested.handlersAt? 4 = some ⟨[.catchAll 10, .typed (.of 1) 12]⟩ := by decide
  refine ⟨named, ascending, before, ?_⟩
  rw [(lookup_refresh nested named 4).2.2 ascending, before]
  decide

/-- A range, and behind it another that surrounds it and starts earlier. -/
def surrounded : TryTable := (empty.add 4 2 ⟨[.catchAll 10]⟩).add 0 8 ⟨[.catchAll 20]⟩

/-- Refreshing moves a range that starts later behind one that it gave way to, so that its handlers are found
instead. -/
theorem lookup_surrounded : (∀ item ∈ surrounded.tries, item.handler < surrounded.handlers.length) ∧
    surrounded.handlersAt? 4 = some ⟨[.catchAll 20]⟩ ∧
      (refresh surrounded).handlersAt? 4 = some ⟨[.catchAll 10]⟩ ∧
      (refresh surrounded).handlersAt? 4 ≠ (surrounded.handlersAt? 4).map HandlerList.normalized := by
  have named : ∀ item ∈ surrounded.tries, item.handler < surrounded.handlers.length := by decide
  have before : surrounded.handlersAt? 4 = some ⟨[.catchAll 20]⟩ := by decide
  have afterwards : (refresh surrounded).handlersAt? 4 = some ⟨[.catchAll 10]⟩ := by
    rw [handlersAt?_refresh named]
    decide
  refine ⟨named, before, afterwards, ?_⟩
  rw [before, afterwards]
  decide

end TryTable
end DexImage
