/-! # Maps from ranges

Maps from addresses to values that are filled by whole ranges: a range gives its value to all
addresses from its start to before its end. `RangeMap` is what a use of such a map relies on, and
`IntervalMap` is one that keeps the addresses in order, as few stretches of one value each.
-/

namespace DexImage

class RangeMap (μ : Type) (ν : outParam Type) where
  empty : μ
  /-- Gives a value to the addresses from `start` to before `stop`. -/
  insert : μ → (start stop : UInt32) → ν → μ
  get? : μ → UInt32 → Option ν

/-- Whether an insertion overwrites what it overlaps of earlier ranges and leaves the rest. -/
class LawfulRangeMap (μ : Type) {ν : outParam Type} [RangeMap μ ν] : Prop where
  get?_empty (address : UInt32) : RangeMap.get? (RangeMap.empty : μ) address = none
  get?_insert (map : μ) {start stop : UInt32} (nonempty : start < stop) (value : ν) (address : UInt32) :
    RangeMap.get? (RangeMap.insert map start stop value) address =
      if start ≤ address ∧ address < stop then some value else RangeMap.get? map address

/-- The addresses from `start` to before `stop`, with the value that they share. -/
structure Stretch (ν : Type) where
  start : UInt32
  stop : UInt32
  value : ν
  nonempty : start < stop

namespace Stretch

variable {ν : Type}

def holds (stretch : Stretch ν) (address : UInt32) : Bool :=
  stretch.start ≤ address && address < stretch.stop

/-- What a stretch holds below a bound. -/
def below (bound : UInt32) (stretch : Stretch ν) : Option (Stretch ν) :=
  if stretch.stop ≤ bound then some stretch
  else if inside : stretch.start < bound then some { stretch with stop := bound, nonempty := inside }
  else none

/-- What a stretch holds from a bound on. -/
def above (bound : UInt32) (stretch : Stretch ν) : Option (Stretch ν) :=
  if bound ≤ stretch.start then some stretch
  else if inside : bound < stretch.stop then some { stretch with start := bound, nonempty := inside }
  else none

/-- Whether a stretch ends before another, or where the other starts with another value. -/
def Apart (a b : Stretch ν) : Prop := a.stop ≤ b.start ∧ (a.stop = b.start → a.value ≠ b.value)

/-- Joins the stretches that touch and have the same value. -/
def joined [DecidableEq ν] : List (Stretch ν) → List (Stretch ν)
  | [] => []
  | stretch :: rest =>
    match joined rest with
    | [] => [stretch]
    | next :: others =>
      if touch : stretch.stop = next.start ∧ stretch.value = next.value then
        { stretch with
          stop := next.stop
          nonempty := UInt32.lt_trans stretch.nonempty (touch.1 ▸ next.nonempty) } :: others
      else stretch :: next :: others

theorem le_of_mem_joined [DecidableEq ν] {bound : UInt32} {stretches : List (Stretch ν)}
    (behind : ∀ stretch ∈ stretches, bound ≤ stretch.start) :
    ∀ stretch ∈ joined stretches, bound ≤ stretch.start := by
  induction stretches with
  | nil => exact behind
  | cons first rest ih =>
    obtain ⟨head, tail⟩ := List.forall_mem_cons.mp behind
    have others := ih tail
    rcases same : joined rest with _ | ⟨next, later⟩
    · simpa only [joined, same, List.forall_mem_singleton] using head
    · rw [same] at others
      simp only [joined, same]
      split
      · exact List.forall_mem_cons.mpr ⟨head, (List.forall_mem_cons.mp others).2⟩
      · exact List.forall_mem_cons.mpr ⟨head, others⟩

/-- Stretches that do not overlap are apart from each other when those that can be joined are. -/
theorem apart_joined [DecidableEq ν] {stretches : List (Stretch ν)}
    (ordered : stretches.Pairwise fun a b => a.stop ≤ b.start) : (joined stretches).Pairwise Apart := by
  induction stretches with
  | nil => exact .nil
  | cons first rest ih =>
    obtain ⟨head, tail⟩ := List.pairwise_cons.mp ordered
    have others := ih tail
    have behind := le_of_mem_joined head
    rcases same : joined rest with _ | ⟨next, later⟩
    · simp only [joined, same, List.pairwise_singleton]
    · rw [same] at others behind
      obtain ⟨apart, -⟩ := List.pairwise_cons.mp others
      have adjacent := behind next List.mem_cons_self
      simp only [joined, same]
      split
      case isTrue touch =>
        have later := (List.pairwise_cons.mp others).2
        exact List.pairwise_cons.mpr ⟨fun one member => touch.2 ▸ apart one member, later⟩
      case isFalse apartFirst =>
        refine List.pairwise_cons.mpr ⟨List.forall_mem_cons.mpr ⟨⟨adjacent, fun touch same => ?_⟩, ?_⟩, others⟩
        · exact apartFirst ⟨touch, same⟩
        · intro one member
          -- the stretch between the two is not empty, so that they do not touch
          have between := UInt32.lt_of_lt_of_le next.nonempty (apart one member).1
          have before := UInt32.lt_of_le_of_lt adjacent between
          exact ⟨UInt32.le_of_lt before, fun touch => absurd touch (UInt32.ne_of_lt before)⟩

theorem below_spec {bound : UInt32} {stretch part : Stretch ν} (found : stretch.below bound = some part) :
    part.start = stretch.start ∧ part.stop ≤ stretch.stop ∧ part.stop ≤ bound := by
  rw [below] at found
  split at found
  case isTrue whole =>
    obtain rfl := Option.some.inj found
    exact ⟨rfl, UInt32.le_refl _, whole⟩
  case isFalse cut =>
    split at found
    · obtain rfl := Option.some.inj found
      exact ⟨rfl, UInt32.le_of_lt (UInt32.not_le.mp cut), UInt32.le_refl _⟩
    · cases found

theorem above_spec {bound : UInt32} {stretch part : Stretch ν} (found : stretch.above bound = some part) :
    part.stop = stretch.stop ∧ stretch.start ≤ part.start ∧ bound ≤ part.start := by
  rw [above] at found
  split at found
  case isTrue whole =>
    obtain rfl := Option.some.inj found
    exact ⟨rfl, UInt32.le_refl _, whole⟩
  case isFalse cut =>
    split at found
    · obtain rfl := Option.some.inj found
      exact ⟨rfl, UInt32.le_of_lt (UInt32.not_le.mp cut), UInt32.le_refl _⟩
    · cases found

end Stretch

/-- Stretches in order of their addresses, of which no two could be one. -/
structure IntervalMap (ν : Type) where
  stretches : List (Stretch ν)
  apart : stretches.Pairwise Stretch.Apart

namespace IntervalMap

variable {ν : Type}

def empty : IntervalMap ν := ⟨[], .nil⟩

/-- A stretch in place of all that is held between its ends. -/
def overwritten (stretches : List (Stretch ν)) (stretch : Stretch ν) : List (Stretch ν) :=
  stretches.filterMap (Stretch.below stretch.start) ++ stretch :: stretches.filterMap (Stretch.above stretch.stop)

theorem ordered_overwritten {stretches : List (Stretch ν)} (apart : stretches.Pairwise Stretch.Apart)
    (stretch : Stretch ν) : (overwritten stretches stretch).Pairwise fun a b => a.stop ≤ b.start := by
  have before : ∀ part ∈ stretches.filterMap (Stretch.below stretch.start), part.stop ≤ stretch.start := by
    intro part member
    obtain ⟨whole, -, found⟩ := List.mem_filterMap.mp member
    exact (Stretch.below_spec found).2.2
  have behind : ∀ part ∈ stretches.filterMap (Stretch.above stretch.stop), stretch.stop ≤ part.start := by
    intro part member
    obtain ⟨whole, -, found⟩ := List.mem_filterMap.mp member
    exact (Stretch.above_spec found).2.2
  have inside := UInt32.le_of_lt stretch.nonempty
  refine List.pairwise_append.mpr ⟨?_, List.pairwise_cons.mpr ⟨behind, ?_⟩, fun part member => ?_⟩
  · refine apart.filterMap _ fun a b apart part found other there => ?_
    obtain ⟨-, shorter, -⟩ := Stretch.below_spec found
    exact UInt32.le_trans shorter ((Stretch.below_spec there).1 ▸ apart.1)
  · refine apart.filterMap _ fun a b apart part found other there => ?_
    obtain ⟨-, later, -⟩ := Stretch.above_spec there
    exact UInt32.le_trans ((Stretch.above_spec found).1 ▸ apart.1) later
  · refine List.forall_mem_cons.mpr ⟨before part member, fun other there => ?_⟩
    exact UInt32.le_trans (before part member) (UInt32.le_trans inside (behind other there))

variable [DecidableEq ν]

/-- Overwrites what a range overlaps; an empty range overlaps nothing. -/
def insert (map : IntervalMap ν) (start stop : UInt32) (value : ν) : IntervalMap ν :=
  if nonempty : start < stop then
    ⟨Stretch.joined (overwritten map.stretches ⟨start, stop, value, nonempty⟩),
      Stretch.apart_joined (ordered_overwritten map.apart _)⟩
  else map

/-- The value of the stretch that holds an address. -/
def get? (map : IntervalMap ν) (address : UInt32) : Option ν :=
  (map.stretches.find? (·.holds address)).map (·.value)

instance : RangeMap (IntervalMap ν) ν := ⟨empty, insert, get?⟩

end IntervalMap
end DexImage
