import DexImage.Item.TryTable
import Mathlib.Data.List.Induction
/-! # Looking up an address through a map from ranges

A lookup enters the ranges of a table into a map one after the other, each over what it overlaps, and asks the
map for the address. A scan of the table comes to the same: the last range that the address lies in tells the
handlers, whatever map is used, as long as it is lawful. `IntervalMap` is, though it cuts, drops and joins what
it holds at every insertion.
-/

namespace DexImage

namespace Stretch

variable {ν : Type} {bound address : UInt32}

/-- The value of the first stretch that holds an address. -/
def valueAt? (stretches : List (Stretch ν)) (address : UInt32) : Option ν :=
  (stretches.find? (·.holds address)).map (·.value)

theorem valueAt?_cons (stretch : Stretch ν) (rest : List (Stretch ν)) (address : UInt32) :
    valueAt? (stretch :: rest) address =
      if stretch.start ≤ address ∧ address < stretch.stop then some stretch.value else valueAt? rest address := by
  have holds : stretch.holds address = true ↔ stretch.start ≤ address ∧ address < stretch.stop := by
    rw [Stretch.holds, Bool.and_eq_true, decide_eq_true_eq, decide_eq_true_eq]
  rw [valueAt?, List.find?_cons, ← if_congr holds rfl rfl]
  cases stretch.holds address <;> rfl

theorem valueAt?_append (stretches others : List (Stretch ν)) (address : UInt32) :
    valueAt? (stretches ++ others) address = (valueAt? stretches address).or (valueAt? others address) := by
  rw [valueAt?, List.find?_append, Option.map_or]
  rfl

theorem valueAt?_below (stretches : List (Stretch ν)) : valueAt? (stretches.filterMap (below bound)) address =
    if address < bound then valueAt? stretches address else none := by
  induction stretches with
  | nil => exact (ite_self _).symm
  | cons stretch rest ih =>
    rw [List.filterMap_cons, below, valueAt?_cons]
    split_ifs <;> simp only [valueAt?_cons, ih] <;> grind

theorem valueAt?_above (stretches : List (Stretch ν)) : valueAt? (stretches.filterMap (above bound)) address =
    if bound ≤ address then valueAt? stretches address else none := by
  induction stretches with
  | nil => exact (ite_self _).symm
  | cons stretch rest ih =>
    rw [List.filterMap_cons, above, valueAt?_cons]
    split_ifs <;> simp only [valueAt?_cons, ih] <;> grind

/-- Joining stretches leaves every address its value. -/
theorem valueAt?_joined [DecidableEq ν] (stretches : List (Stretch ν)) :
    valueAt? (joined stretches) address = valueAt? stretches address := by
  induction stretches with
  | nil => rfl
  | cons stretch rest ih =>
    rw [valueAt?_cons, ← ih]
    rcases same : joined rest with _ | ⟨next, others⟩
    · simp only [joined, same, valueAt?_cons]
    · simp only [joined, same]
      split
      case isTrue touch =>
        -- an address lies in the joined stretch if it lies in one of the two
        have first := stretch.nonempty
        have second := next.nonempty
        simp only [valueAt?_cons]
        grind
      case isFalse => rw [valueAt?_cons]

end Stretch

namespace IntervalMap

variable {ν : Type} [DecidableEq ν]

theorem get?_insert (map : IntervalMap ν) {start stop : UInt32}
    (nonempty : start < stop) (value : ν) (address : UInt32) :
    (map.insert start stop value).get? address =
      if start ≤ address ∧ address < stop then some value else map.get? address := by
  have cut : (map.insert start stop value).get? address =
      Stretch.valueAt? (overwritten map.stretches ⟨start, stop, value, nonempty⟩) address := by
    rw [insert, dif_pos nonempty]
    exact Stretch.valueAt?_joined _
  rw [cut, overwritten, Stretch.valueAt?_append, Stretch.valueAt?_cons, Stretch.valueAt?_below, Stretch.valueAt?_above]
  change _ = if _ then _ else Stretch.valueAt? map.stretches address
  grind

instance : LawfulRangeMap (IntervalMap ν) := ⟨fun _ => rfl, fun map => map.get?_insert⟩

end IntervalMap

/-- Entering a range gives its slot to the addresses that lie in it, and to no others. -/
theorem TryItem.get?_enter {μ : Type} [RangeMap μ Nat] [LawfulRangeMap μ]
    (item : TryItem) (slots : μ) (address : UInt32) :
    RangeMap.get? (item.enter slots) address =
      if item.covers address then some item.handler else RangeMap.get? slots address := by
  rw [enter, stop?, covers]
  by_cases counted : 0 < item.count
  · by_cases bounded : item.start.toNat + item.count.toNat < UInt32.size
    · have stop : (item.start + item.count.toUInt32).toNat = item.start.toNat + item.count.toNat := by
        rw [UInt32.toNat_add, UInt16.toNat_toUInt32, Nat.mod_eq_of_lt bounded]
      have nonempty : item.start < item.start + item.count.toUInt32 := by
        have positive : 0 < item.count.toNat := counted
        rw [UInt32.lt_iff_toNat_lt, stop]
        omega
      simp only [counted, bounded, if_true, LawfulRangeMap.get?_insert _ nonempty,
        UInt32.lt_iff_toNat_lt (b := _ + _), stop, decide_true, Bool.true_and, Bool.and_eq_true, decide_eq_true_eq]
    · simp [counted, bounded]
  · simp [counted]

namespace TryTable

variable {μ : Type} [RangeMap μ Nat] [LawfulRangeMap μ]

theorem get?_foldl_enter (items : List TryItem) (slots : μ) (address : UInt32) :
    RangeMap.get? (items.foldl (fun slots item => item.enter slots) slots) address =
      (((items.filter fun item => item.covers address).getLast?).map TryItem.handler).or
      (RangeMap.get? slots address) := by
  induction items generalizing slots with
  | nil => rfl
  | cons item rest ih =>
    rw [List.foldl_cons, ih, item.get?_enter]
    by_cases covers : item.covers address = true
    · rw [if_pos covers, List.filter_cons, if_pos covers, List.getLast?_cons]
      cases (rest.filter fun item => item.covers address).getLast? <;> rfl
    · rw [if_neg covers, List.filter_cons, if_neg covers]

/-- The handlers for an address are those of the last range that covers it. -/
theorem lookup?_eq (table : TryTable) (address : UInt32) : table.lookup? μ address =
    ((table.tries.filter fun item => item.covers address).getLast?).bind fun item =>
      table.handlers.get? item.handler := by
  rw [lookup?, slotMap, get?_foldl_enter, LawfulRangeMap.get?_empty, Option.or_none, Option.bind_map]
  rfl

/-- Whatever map a lookup goes through, it finds the handlers that the last range names which covers the
address: which is not empty, ends within the address space and has the address between its ends. It finds none
if there is no such range, or if the slot of the range holds no handlers. -/
theorem lookup?_last (table : TryTable) (address : UInt32) :
    table.lookup? μ address = table.handlersAt? address ∧
      ((∃ earlier item later, table.tries = earlier ++ item :: later ∧ item.covers address = true ∧
          (∀ other ∈ later, other.covers address = false) ∧
          table.handlersAt? address = table.handlers.get? item.handler) ∨
        (∀ item ∈ table.tries, item.covers address = false) ∧ table.handlersAt? address = none) := by
  have scanned : table.handlersAt? address = _ := table.lookup?_eq address
  refine ⟨(table.lookup?_eq address).trans scanned.symm, ?_⟩
  rcases last : (table.tries.filter fun item => item.covers address).getLast? with _ | item
  · rw [last] at scanned
    rw [List.getLast?_eq_none_iff, List.filter_eq_nil_iff] at last
    exact .inr ⟨fun item member => Bool.eq_false_iff.mpr (last item member), scanned⟩
  · rw [last] at scanned
    obtain ⟨front, ends⟩ := List.getLast?_eq_some_iff.mp last
    obtain ⟨before, rest, tries, -, alone⟩ := List.filter_eq_append_iff.mp ends
    obtain ⟨between, later, split, -, covers, none⟩ := List.filter_eq_cons_iff.mp alone
    refine .inl ⟨before ++ between, item, later, ?_, covers, fun other member => ?_, scanned⟩
    · rw [tries, split, List.append_assoc]
    · exact Bool.eq_false_iff.mpr (List.filter_eq_nil_iff.mp none other member)

/-- Two ranges within a third that touch and share their handlers, an empty range, one that runs past the
address space, and one that names no handlers. -/
def crossing : TryTable :=
  ⟨[⟨0, 8, 0⟩, ⟨4, 2, 1⟩, ⟨2, 2, 1⟩, ⟨5, 0, 0⟩, ⟨0xfffffffe, 4, 1⟩, ⟨20, 5, 2⟩],
    .ofList [⟨[.catchAll 10]⟩, ⟨[.typed (.of 1) 12]⟩]⟩

theorem lookup?_last_crossing : LawfulRangeMap (IntervalMap Nat) ∧
    crossing.lookup? (IntervalMap Nat) 5 = some ⟨[.typed (.of 1) 12]⟩ ∧
      crossing.handlersAt? 6 = some ⟨[.catchAll 10]⟩ ∧ crossing.handlersAt? 21 = none ∧
      ∃ earlier item later, crossing.tries = earlier ++ item :: later ∧ item.covers 5 = true ∧
        (∀ other ∈ later, other.covers 5 = false) ∧ crossing.handlersAt? 5 = crossing.handlers.get? item.handler := by
  obtain ⟨same, last | ⟨uncovered, -⟩⟩ := lookup?_last (μ := IntervalMap Nat) crossing 5
  · exact ⟨inferInstance, same.trans (by decide), by decide, by decide, last⟩
  · exact absurd uncovered (by decide)

end TryTable
end DexImage
