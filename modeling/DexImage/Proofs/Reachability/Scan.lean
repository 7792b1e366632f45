import DexImage.Image.Reachability
import DexImage.Proofs.Pools
/-! # The reachability scan

What the class definitions reach is the least set that contains them and every target of a
reference held by a member (`Reaches`). The scan works on a list of pending items. Its invariant
(`Scanned`) speaks of the items that are done, whose references have been entered: what has been
found is done or pending, and the usage of a found item joins what the class definitions and the
items that are done grant it. At the end nothing is pending, so that the scan has found exactly what
is reachable, or a reference that leads beyond its pool (`reachable_spec`).
-/

namespace DexImage

namespace Usage

/-- A usage is below another one that has all its markers. -/
instance : LE Usage := ⟨fun a b => a.union b = b⟩

theorem le_def {a b : Usage} : a ≤ b ↔ a.union b = b := Iff.rfl

theorem le_refl (a : Usage) : a ≤ a := by simp [le_def, union]

theorem le_antisymm {a b : Usage} (first : a ≤ b) (second : b ≤ a) : a = b := by
  rw [le_def] at first second
  rw [← second, union, UInt16.or_comm]
  exact first

theorem union_le {a b c : Usage} : a.union b ≤ c ↔ a ≤ c ∧ b ≤ c := by
  have bits {x y : Usage} : x ≤ y ↔ x.bits ||| y.bits = y.bits := by
    rw [le_def, union]
    exact Usage.mk.injEq _ _ ▸ Iff.rfl
  simp only [bits, union]
  refine ⟨fun bound => ⟨?_, ?_⟩, fun ⟨first, second⟩ => ?_⟩
  · rw [← bound, ← UInt16.or_assoc, ← UInt16.or_assoc, UInt16.or_self]
  · rw [← bound, UInt16.or_comm a.bits, UInt16.or_assoc, ← UInt16.or_assoc, UInt16.or_self]
  · rw [UInt16.or_assoc, second, first]

/-- Usages with the same bounds are the same. -/
theorem eq_of_bounds {a b : Usage} (same : ∀ bound, a ≤ bound ↔ b ≤ bound) : a = b :=
  le_antisymm ((same b).mpr (le_refl b)) ((same a).mp (le_refl a))

theorem unmarked_le (a : Usage) : unmarked ≤ a := by simp [le_def, union, unmarked]

theorem isEmpty_iff {a : Usage} : a.isEmpty ↔ a ≤ unmarked := by
  simp [le_def, union, isEmpty, unmarked]

end Usage

namespace Pools

/-- The references that the item at a position holds. -/
def usesAt (pools : Pools) (item : PoolKind × UInt32) : List Use :=
  ((pools.get? item.1 item.2).map uses).getD []

def contains (pools : Pools) (item : PoolKind × UInt32) : Prop :=
  item.2.toNat < (pools.pool item.1).size

/-- Whether a scan starts from an item: from the class definitions, as far as a word counts them. -/
def isRoot (pools : Pools) (item : PoolKind × UInt32) : Prop :=
  item.1 = .classDef ∧ item.2 < pools.classDefs.size.toUInt32

theorem contains_of_isRoot {pools : Pools} {item : PoolKind × UInt32} (root : pools.isRoot item) :
    pools.contains item := by
  obtain ⟨kind, index⟩ := item
  obtain ⟨rfl, below⟩ := root
  refine Nat.lt_of_lt_of_le (UInt32.lt_iff_toNat_lt.mp below) ?_
  rw [Nat.toUInt32_eq, UInt32.toNat_ofNat']
  exact Nat.mod_le _ _

/-- A scan starts from all class definitions if a word counts them. -/
theorem isRoot_iff {pools : Pools} (few : pools.classDefs.size < UInt32.size) (item : PoolKind × UInt32) :
    pools.isRoot item ↔ item.1 = .classDef ∧ pools.contains item := by
  obtain ⟨kind, index⟩ := item
  refine and_congr_right ?_
  rintro rfl
  rw [UInt32.lt_iff_toNat_lt, Nat.toUInt32_eq, UInt32.toNat_ofNat', Nat.mod_eq_of_lt few]
  rfl

/-- The items that the class definitions reach. -/
inductive Reaches (pools : Pools) : PoolKind × UInt32 → Prop where
  | root {item : PoolKind × UInt32} (root : pools.isRoot item) : Reaches pools item
  | step {item : PoolKind × UInt32} {use : Use} (reached : Reaches pools item)
      (held : use ∈ pools.usesAt item) : Reaches pools use.target

/-- The usages under which class definitions and reachable items refer to an item. -/
inductive Grants (pools : Pools) (markers : Markers) : PoolKind × UInt32 → Usage → Prop where
  | root {item : PoolKind × UInt32} (root : pools.isRoot item) : Grants pools markers item .definition
  | use {item : PoolKind × UInt32} {use : Use} (reached : Reaches pools item)
      (held : use ∈ markers.apply item (pools.usesAt item)) : Grants pools markers use.target use.usage

/-- The union of the usages that are granted to an item. -/
def UsageOf (pools : Pools) (markers : Markers) (item : PoolKind × UInt32) (usage : Usage) : Prop :=
  ∀ bound, usage ≤ bound ↔ ∀ granted, pools.Grants markers item granted → granted ≤ bound

theorem UsageOf.unique {pools : Pools} {markers : Markers} {item : PoolKind × UInt32} {first second : Usage}
    (firstOf : pools.UsageOf markers item first) (secondOf : pools.UsageOf markers item second) : first = second :=
  Usage.eq_of_bounds fun bound => (firstOf bound).trans (secondOf bound).symm

theorem usesOf_eq {pools : Pools} {kind : PoolKind} {index : UInt32}
    (present : pools.contains (kind, index)) :
    pools.usesOf kind.toSection index = .ok (pools.usesAt (kind, index)) := by
  have found : ∃ item, pools.get? kind index = some item := by
    simp only [get?, Pool.get?, Option.map_eq_some_iff]
    exact ⟨_, _, Array.getElem?_eq_getElem present, rfl⟩
  obtain ⟨item, found⟩ := found
  simp [usesOf, usesAt, found]

/-- References lead to the same items whatever they are marked with. -/
theorem exists_mem_apply {markers : Markers} {holder : PoolKind × UInt32}
    {held : List Use} {target : PoolKind × UInt32} :
    (∃ use ∈ markers.apply holder held, use.target = target) ↔ ∃ use ∈ held, use.target = target := by
  simp only [Markers.apply, List.mem_mapIdx]
  constructor
  · rintro ⟨_, ⟨position, bound, rfl⟩, same⟩
    exact ⟨_, List.getElem_mem bound, same⟩
  · rintro ⟨use, member, same⟩
    obtain ⟨position, bound, rfl⟩ := List.mem_iff_getElem.mp member
    exact ⟨_, ⟨position, bound, rfl⟩, same⟩

@[simp] theorem apply_own (holder : PoolKind × UInt32) (held : List Use) : Markers.own.apply holder held = held :=
  List.ext_getElem? fun position => by
    rw [Markers.apply, List.getElem?_mapIdx]
    exact Option.map_id'

/-- Whether a reference leads beyond its pool, and the fault with which a scan ends there. -/
def IsDangling (pools : Pools) (holder : PoolKind × UInt32) (use : Use) (fault : Fault) : Prop :=
  ¬pools.contains use.target ∧ fault = Fault.of (.danglingUse holder.1.toSection holder.2 use.kind.toSection use.index
    (pools.pool use.kind).size)

/-- The positions of all items. -/
def positions (pools : Pools) : List (PoolKind × Nat) :=
  PoolKind.all.flatMap fun kind => (List.range (pools.pool kind).size).map fun index => (kind, index)

theorem mem_positions {pools : Pools} {position : PoolKind × Nat} :
    position ∈ pools.positions ↔ position.2 < (pools.pool position.1).size := by
  obtain ⟨kind, index⟩ := position
  simp [positions, PoolKind.mem_all]

theorem length_positions (pools : Pools) : pools.positions.length = Image.itemTotal pools := by
  rw [positions, length_flatMap_eq_total]
  simp only [List.length_map, List.length_range]
  rfl

end Pools

namespace Image

open Pools

variable {markers : Markers} {pools : Pools} {marks marks' marks'' : Marks}
  {pending pending' pending'' : List (PoolKind × UInt32)}

/-- The number of items that have not been found. -/
def unmarked (pools : Pools) (marks : Marks) : Nat :=
  pools.positions.countP fun position => (marks.lookup (position.1, position.2.toUInt32)).isNone

/-- The marks and the pending items before and after references are entered. -/
structure Entered (pools : Pools) (entered : List Use) (marks : Marks)
    (pending : List (PoolKind × UInt32)) (marks' : Marks) (pending' : List (PoolKind × UInt32)) :
    Prop where
  present : ∀ use ∈ entered, pools.contains use.target
  found : ∀ item, (marks'.lookup item).isSome ↔
    (marks.lookup item).isSome ∨ ∃ use ∈ entered, use.target = item
  kept : ∀ item ∈ pending, item ∈ pending'
  awaited : ∀ item, (marks'.lookup item).isSome → (marks.lookup item).isSome ∨ item ∈ pending'
  fresh : ∀ item ∈ pending', item ∈ pending ∨ (marks'.lookup item).isSome
  usage : ∀ item usage', marks'.lookup item = some usage' → ∀ bound, usage' ≤ bound ↔
    (∀ usage, marks.lookup item = some usage → usage ≤ bound) ∧
      ∀ use ∈ entered, use.target = item → use.usage ≤ bound
  listed : (∀ mark ∈ marks, marks.lookup mark.1 = some mark.2) →
    ∀ mark ∈ marks', marks'.lookup mark.1 = some mark.2
  distinct : (marks.map Prod.fst).Nodup → (marks'.map Prod.fst).Nodup
  measure : pending'.length + unmarked pools marks' ≤ pending.length + unmarked pools marks

theorem Entered.refl : Entered pools [] marks pending marks pending where
  present := by simp
  found := by simp
  kept := fun _ member => member
  awaited := fun _ found => .inl found
  fresh := fun _ member => .inl member
  usage := by
    intro item usage' found bound
    simp [found]
  listed := id
  distinct := id
  measure := Nat.le_refl _

/-- The bounds of what is known of an item, whether it has been found or not. -/
theorem Entered.bounds {entered : List Use} (step : Entered pools entered marks pending marks' pending')
    (item : PoolKind × UInt32) (bound : Usage) :
    (∀ usage', marks'.lookup item = some usage' → usage' ≤ bound) ↔
      (∀ usage, marks.lookup item = some usage → usage ≤ bound) ∧
        ∀ use ∈ entered, use.target = item → use.usage ≤ bound := by
  cases found' : marks'.lookup item with
  | some usage' =>
    rw [← step.usage item usage' found' bound]
    simp
  | none =>
    have unfound := (step.found item).not.mp (by simp [found'])
    obtain ⟨unmarked, unnamed⟩ := not_or.mp unfound
    have unmarked := Option.not_isSome_iff_eq_none.mp unmarked
    refine ⟨fun _ => ⟨by simp [unmarked], fun use member same => ?_⟩, fun _ => by simp⟩
    exact absurd ⟨use, member, same⟩ unnamed

theorem Entered.trans {first second : List Use} (left : Entered pools first marks pending marks' pending')
    (right : Entered pools second marks' pending' marks'' pending'') :
    Entered pools (first ++ second) marks pending marks'' pending'' where
  present := by
    intro use member
    rcases List.mem_append.mp member with member | member
    · exact left.present use member
    · exact right.present use member
  found := by
    intro item
    rw [right.found, left.found, or_assoc]
    simp only [List.mem_append, or_and_right, exists_or]
  kept := fun item member => right.kept item (left.kept item member)
  awaited := by
    intro item found
    rcases right.awaited item found with found | member
    · rcases left.awaited item found with found | member
      · exact .inl found
      · exact .inr (right.kept item member)
    · exact .inr member
  fresh := by
    intro item member
    rcases right.fresh item member with member | found
    · rcases left.fresh item member with member | found
      · exact .inl member
      · exact .inr ((right.found item).mpr (.inl found))
    · exact .inr found
  usage := by
    intro item usage'' found'' bound
    have entered : (∀ use ∈ first ++ second, use.target = item → use.usage ≤ bound) ↔
        (∀ use ∈ first, use.target = item → use.usage ≤ bound) ∧
          ∀ use ∈ second, use.target = item → use.usage ≤ bound := by
      simp only [List.mem_append, or_imp, forall_and]
    rw [right.usage item usage'' found'' bound, left.bounds, entered, and_assoc]
  listed := fun listed => right.listed (left.listed listed)
  distinct := fun distinct => right.distinct (left.distinct distinct)
  measure := Nat.le_trans right.measure left.measure

private theorem lookup_add (marks : Marks) (use : Use) (item : PoolKind × UInt32) :
    (marks.add use).lookup item =
      (marks.lookup item).map fun usage =>
        if item = use.target then usage.union use.usage else usage := by
  induction marks with
  | nil => rfl
  | cons mark rest ih =>
    obtain ⟨marked, usage⟩ := mark
    rw [Marks.add, List.map_cons, List.lookup_cons, List.lookup_cons]
    by_cases same : item = marked
    · subst same
      simp only [beq_self_eq_true, Option.map_some]
      rfl
    · simp only [beq_eq_false_iff_ne.mpr same]
      exact ih

/-- Entering a reference to an item that has been found. -/
private theorem entered_add {use : Use} (present : pools.contains use.target) {usage : Usage}
    (found : marks.lookup use.target = some usage) :
    Entered pools [use] marks pending (marks.add use) pending where
  present := by simpa using present
  found := by
    intro item
    rw [lookup_add, Option.isSome_map]
    refine ⟨.inl, fun marked => marked.elim id fun ⟨other, member, same⟩ => ?_⟩
    obtain rfl := List.mem_singleton.mp member
    rw [← same, found]
    rfl
  kept := fun _ member => member
  awaited := fun item marked => .inl (by rwa [lookup_add, Option.isSome_map] at marked)
  fresh := fun _ member => .inl member
  usage := by
    intro item usage' marked bound
    rw [lookup_add] at marked
    obtain ⟨before, beforeEq, rfl⟩ := Option.map_eq_some_iff.mp marked
    rw [beforeEq]
    by_cases same : item = use.target
    · simp [same, Usage.union_le]
    · simp [same, Ne.symm same]
  listed := by
    intro listed mark member
    obtain ⟨before, beforeMem, rfl⟩ := List.mem_map.mp member
    rw [lookup_add, listed before beforeMem]
    rfl
  distinct := by
    intro distinct
    rwa [Marks.add, List.map_map]
  measure := by
    have same : unmarked pools (marks.add use) = unmarked pools marks := by
      simp only [unmarked, lookup_add, Option.isNone_map]
    exact Nat.le_of_eq (by rw [same])

private theorem countP_lt {α : Type} {p q : α → Bool} {items : List α}
    (weaker : ∀ item, q item → p item) (item : α) (member : item ∈ items) (holds : p item)
    (fails : q item = false) : items.countP q < items.countP p := by
  induction items with
  | nil => cases member
  | cons first rest ih =>
    have mono : rest.countP q ≤ rest.countP p := List.countP_mono_left fun item _ => weaker item
    rcases List.mem_cons.mp member with rfl | member
    · rw [List.countP_cons_of_pos holds, List.countP_cons_of_neg (by simp [fails])]
      omega
    · have rest := ih member
      have head := weaker first
      rw [List.countP_cons, List.countP_cons]
      split_ifs <;> first | omega | simp_all

private theorem lookup_cons_of_ne {item first : PoolKind × UInt32}
    (differ : item ≠ first) (usage : Usage) (marks : Marks) :
    ((first, usage) :: marks).lookup item = marks.lookup item := by
  rw [List.lookup_cons, beq_eq_false_iff_ne.mpr differ]

/-- Every item that is found is one less that has not been found. -/
private theorem unmarked_cons_lt {use : Use} (present : pools.contains use.target)
    (unfound : marks.lookup use.target = none) :
    unmarked pools ((use.target, use.usage) :: marks) < unmarked pools marks := by
  refine countP_lt ?_ (use.kind, use.index.toNat) (mem_positions.mpr present) ?_ ?_
  · intro position
    rw [List.lookup_cons]
    split <;> simp
  · rw [show ((use.kind, use.index.toNat.toUInt32) : PoolKind × UInt32) = use.target by simp [Use.target],
      unfound]
    rfl
  · simp [Use.target]

/-- Entering a reference to an item that has not been found. -/
private theorem entered_cons {use : Use} (present : pools.contains use.target)
    (unfound : marks.lookup use.target = none) :
    Entered pools [use] marks pending ((use.target, use.usage) :: marks) (use.target :: pending) where
  present := by simpa using present
  found := by
    intro item
    by_cases same : item = use.target
    · simp [same]
    · simp [lookup_cons_of_ne same, Ne.symm same]
  kept := fun _ member => List.mem_cons_of_mem _ member
  awaited := by
    intro item marked
    by_cases same : item = use.target
    · exact .inr (same ▸ List.mem_cons_self)
    · exact .inl (by rwa [lookup_cons_of_ne same] at marked)
  fresh := by
    intro item member
    rcases List.mem_cons.mp member with rfl | member
    · exact .inr (by simp)
    · exact .inl member
  usage := by
    intro item usage' marked bound
    by_cases same : item = use.target
    · subst same
      simp only [List.lookup_cons_self, Option.some.injEq] at marked
      simp [unfound, marked]
    · rw [lookup_cons_of_ne same] at marked
      simp [marked, Ne.symm same]
  listed := by
    intro listed mark member
    rcases List.mem_cons.mp member with rfl | member
    · simp
    · have differ : mark.1 ≠ use.target := by
        intro same
        have found := listed mark member
        rw [same, unfound] at found
        cases found
      rw [lookup_cons_of_ne differ]
      exact listed mark member
  distinct := by
    intro distinct
    refine List.nodup_cons.mpr ⟨fun member => ?_, distinct⟩
    obtain ⟨mark, present, same⟩ := List.mem_map.mp member
    have differ := List.lookup_eq_none_iff.mp unfound mark present
    rw [same] at differ
    exact absurd rfl (bne_iff_ne.mp differ)
  measure := by
    have less := unmarked_cons_lt present unfound
    rw [List.length_cons]
    omega

/-- References are entered up to one that leads beyond its pool. -/
theorem enterUses_spec (pools : Pools) (kind : PoolKind) (index : UInt32) (entered : List Use)
    (marks : Marks) (pending : List (PoolKind × UInt32)) :
    match enterUses pools kind index entered marks pending with
    | .ok (marks', pending') => Entered pools entered marks pending marks' pending'
    | .error fault => ∃ use ∈ entered, pools.IsDangling (kind, index) use fault := by
  induction entered generalizing marks pending with
  | nil => exact .refl
  | cons use others ih =>
    have dangling {fault : Fault} : (∃ use ∈ others, pools.IsDangling (kind, index) use fault) →
        ∃ other ∈ use :: others, pools.IsDangling (kind, index) other fault :=
      fun ⟨other, member, beyond⟩ => ⟨other, List.mem_cons_of_mem _ member, beyond⟩
    rw [enterUses]
    by_cases beyond : (pools.pool use.kind).size ≤ use.index.toNat
    · rw [if_pos beyond]
      exact ⟨use, List.mem_cons_self, Nat.not_lt.mpr beyond, rfl⟩
    · have present : pools.contains use.target := Nat.not_le.mp beyond
      rw [if_neg beyond]
      cases found : marks.usage? use.kind use.index with
      | some usage =>
        have rest := ih (marks.add use) pending
        dsimp only
        generalize enterUses pools kind index others (marks.add use) pending = result at rest ⊢
        cases result with
        | ok entered => exact (entered_add present found).trans rest
        | error _ => exact dangling rest
      | none =>
        have rest := ih (((use.kind, use.index), use.usage) :: marks) ((use.kind, use.index) :: pending)
        dsimp only
        generalize enterUses pools kind index others (((use.kind, use.index), use.usage) :: marks)
          ((use.kind, use.index) :: pending) = result at rest ⊢
        cases result with
        | ok entered => exact (entered_cons present found).trans rest
        | error _ => exact dangling rest

/-- The state of the scan when the references of some items have been entered. -/
structure Scanned (markers : Markers) (pools : Pools) (done : List (PoolKind × UInt32)) (marks : Marks)
    (pending : List (PoolKind × UInt32)) : Prop where
  root : ∀ item, pools.isRoot item → (marks.lookup item).isSome
  sound : ∀ item, (marks.lookup item).isSome → pools.Reaches item ∧ pools.contains item
  found : ∀ item, (marks.lookup item).isSome ↔ item ∈ done ∨ item ∈ pending
  closed : ∀ item ∈ done, ∀ use ∈ markers.apply item (pools.usesAt item), (marks.lookup use.target).isSome
  usage : ∀ item usage, marks.lookup item = some usage → ∀ bound, usage ≤ bound ↔
    (pools.isRoot item → .definition ≤ bound) ∧
      ∀ holder ∈ done, ∀ use ∈ markers.apply holder (pools.usesAt holder), use.target = item → use.usage ≤ bound
  listed : ∀ mark ∈ marks, marks.lookup mark.1 = some mark.2
  distinct : (marks.map Prod.fst).Nodup

/-- The bounds of what is known of an item, whether it has been found or not. -/
theorem Scanned.bounds {done : List (PoolKind × UInt32)} (scanned : Scanned markers pools done marks pending)
    (item : PoolKind × UInt32) (bound : Usage) :
    (∀ usage, marks.lookup item = some usage → usage ≤ bound) ↔
      (pools.isRoot item → .definition ≤ bound) ∧
        ∀ holder ∈ done, ∀ use ∈ markers.apply holder (pools.usesAt holder), use.target = item →
          use.usage ≤ bound := by
  cases found : marks.lookup item with
  | some usage => simpa using scanned.usage item usage found bound
  | none =>
    have unfound : ¬(marks.lookup item).isSome := by simp [found]
    refine ⟨fun _ => ⟨fun root => absurd (scanned.root item root) unfound, ?_⟩, by simp⟩
    intro holder member use held same
    exact absurd (same ▸ scanned.closed holder member use held) unfound

/-- Scanning one item. -/
theorem Scanned.step {done : List (PoolKind × UInt32)} {item : PoolKind × UInt32}
    (scanned : Scanned markers pools done marks (item :: pending))
    (entered : Entered pools (markers.apply item (pools.usesAt item)) marks pending marks' pending') :
    Scanned markers pools (item :: done) marks' pending' where
  root := fun root isRoot => (entered.found root).mpr (.inl (scanned.root root isRoot))
  sound := by
    intro other found
    rcases (entered.found other).mp found with found | ⟨use, marked, rfl⟩
    · exact scanned.sound other found
    · have reached := (scanned.sound item ((scanned.found item).mpr (.inr List.mem_cons_self))).1
      obtain ⟨held, member, same⟩ := exists_mem_apply.mp ⟨use, marked, rfl⟩
      exact ⟨same ▸ .step reached member, entered.present use marked⟩
  found := by
    intro other
    refine ⟨fun found => ?_, fun member => ?_⟩
    · rcases entered.awaited other found with found | member
      · rcases (scanned.found other).mp found with member | member
        · exact .inl (List.mem_cons_of_mem _ member)
        · rcases List.mem_cons.mp member with rfl | member
          · exact .inl List.mem_cons_self
          · exact .inr (entered.kept other member)
      · exact .inr member
    · have before : other ∈ done ∨ other ∈ item :: pending → (marks'.lookup other).isSome :=
        fun member => (entered.found other).mpr (.inl ((scanned.found other).mpr member))
      rcases member with member | member
      · rcases List.mem_cons.mp member with rfl | member
        · exact before (.inr List.mem_cons_self)
        · exact before (.inl member)
      · rcases entered.fresh other member with member | found
        · exact before (.inr (List.mem_cons_of_mem _ member))
        · exact found
  closed := by
    intro holder member use held
    rcases List.mem_cons.mp member with rfl | member
    · exact (entered.found _).mpr (.inr ⟨use, held, rfl⟩)
    · exact (entered.found _).mpr (.inl (scanned.closed holder member use held))
  usage := by
    intro other usage' found' bound
    -- What an item had been granted by those scanned before is joined by what this one grants it.
    rw [entered.usage other usage' found' bound, scanned.bounds, List.forall_mem_cons, and_assoc,
      and_comm (a := ∀ use ∈ markers.apply item _, _)]
  listed := entered.listed scanned.listed
  distinct := entered.distinct scanned.distinct

/-- The scan ends with nothing pending, or at a reference that leads beyond its pool. -/
theorem scan_spec {fuel : Nat} {done : List (PoolKind × UInt32)}
    (scanned : Scanned markers pools done marks pending)
    (enough : pending.length + unmarked pools marks ≤ fuel) :
    match scan markers pools fuel marks pending with
    | .ok marks' => ∃ done', Scanned markers pools done' marks' []
    | .error fault => ∃ item use, pools.Reaches item ∧ use ∈ markers.apply item (pools.usesAt item) ∧
        pools.IsDangling item use fault := by
  induction fuel generalizing marks pending done with
  | zero =>
    obtain rfl : pending = [] := List.length_eq_zero_iff.mp (by omega)
    exact ⟨done, scanned⟩
  | succ fuel ih =>
    cases pending with
    | nil => exact ⟨done, scanned⟩
    | cons item pending =>
      obtain ⟨kind, index⟩ := item
      obtain ⟨reached, present⟩ :=
        scanned.sound _ ((scanned.found _).mpr (.inr (List.mem_cons_self (a := (kind, index)))))
      have spec :=
        enterUses_spec pools kind index (markers.apply (kind, index) (pools.usesAt (kind, index))) marks pending
      rw [scan, usesOf_eq present]
      simp only [Result.within, bind, Except.bind]
      generalize enterUses pools kind index (markers.apply (kind, index) (pools.usesAt (kind, index))) marks pending =
        result at spec ⊢
      cases result with
      | ok entered =>
        have measure := spec.measure
        simp only [List.length_cons] at enough
        exact ih (scanned.step spec) (by omega)
      | error _ =>
        obtain ⟨use, member, beyond⟩ := spec
        exact ⟨(kind, index), use, reached, member, beyond⟩

/-- At the end the items found are those that are reachable, with what is granted to them. -/
theorem Scanned.complete {done : List (PoolKind × UInt32)} (scanned : Scanned markers pools done marks []) :
    (∀ item, (marks.lookup item).isSome ↔ pools.Reaches item) ∧
      ∀ item usage, marks.lookup item = some usage → pools.UsageOf markers item usage := by
  have found_iff : ∀ item, (marks.lookup item).isSome ↔ item ∈ done := by simpa using scanned.found
  have reached : ∀ item, (marks.lookup item).isSome ↔ pools.Reaches item := by
    refine fun item => ⟨fun found => (scanned.sound item found).1, fun reaches => ?_⟩
    induction reaches with
    | root root => exact scanned.root _ root
    | step _ held ih =>
      obtain ⟨use, marked, same⟩ := exists_mem_apply.mpr ⟨_, held, rfl⟩
      exact same ▸ scanned.closed _ ((found_iff _).mp ih) use marked
  refine ⟨reached, fun item usage found bound => ?_⟩
  rw [scanned.usage item usage found bound]
  refine ⟨fun ⟨root, uses⟩ granted grants => ?_, fun bounded => ⟨?_, ?_⟩⟩
  · cases grants with
    | root isRoot => exact root isRoot
    | use holder held => exact uses _ ((found_iff _).mp ((reached _).mpr holder)) _ held rfl
  · exact fun isRoot => bounded _ (.root isRoot)
  · rintro holder member use held rfl
    exact bounded _ (.use ((reached _).mp ((found_iff _).mpr member)) held)

private theorem lookup_roots {roots : List (PoolKind × UInt32)} {item : PoolKind × UInt32} {usage : Usage} :
    (roots.map fun root => (root, Usage.definition)).lookup item = some usage ↔
      item ∈ roots ∧ usage = .definition := by
  induction roots with
  | nil => simp
  | cons root rest ih =>
    rw [List.map_cons, List.lookup_cons]
    by_cases same : item = root
    · simp [same, eq_comm]
    · simp [beq_eq_false_iff_ne.mpr same, same, ih]

/-- The class definitions, last first, as the scan takes them up. -/
private def roots (pools : Pools) : List (PoolKind × UInt32) :=
  (List.range pools.classDefs.size.toUInt32.toNat).reverse.map fun index => (.classDef, index.toUInt32)

/-- A position among those that a word counts is an index. -/
private theorem toNat_of_lt_count {index : Nat} {count : UInt32} (below : index < count.toNat) :
    index.toUInt32.toNat = index :=
  Nat.mod_eq_of_lt (Nat.lt_trans below count.toNat_lt)

private theorem mem_roots {item : PoolKind × UInt32} : item ∈ roots pools ↔ pools.isRoot item := by
  simp only [roots, List.mem_map, List.mem_reverse, List.mem_range, isRoot, UInt32.lt_iff_toNat_lt]
  constructor
  · rintro ⟨index, below, rfl⟩
    exact ⟨rfl, (toNat_of_lt_count below).symm ▸ below⟩
  · rintro ⟨kind, below⟩
    exact ⟨item.2.toNat, below, by rw [← kind]; simp⟩

private theorem nodup_roots : (roots pools).Nodup := by
  refine (List.nodup_reverse.mpr List.nodup_range).map_on fun first left second right same => ?_
  have bounded {index : Nat} (member : index ∈ (List.range pools.classDefs.size.toUInt32.toNat).reverse) :
      index.toUInt32.toNat = index :=
    toNat_of_lt_count (List.mem_range.mp (List.mem_reverse.mp member))
  rw [← bounded left, ← bounded right, (Prod.mk.inj same).2]

private theorem scanned_roots (markers : Markers) (pools : Pools) :
    Scanned markers pools [] ((roots pools).map fun root => (root, Usage.definition)) (roots pools) := by
  have found_iff : ∀ item, (((roots pools).map fun root => (root, Usage.definition)).lookup item).isSome ↔
      item ∈ roots pools := by
    intro item
    simp only [Option.isSome_iff_exists, lookup_roots, exists_and_left, exists_eq, and_true]
  refine ⟨?_, ?_, ?_, by simp, ?_, ?_, ?_⟩
  · exact fun item root => (found_iff item).mpr (mem_roots.mpr root)
  · intro item found
    have root := mem_roots.mp ((found_iff item).mp found)
    exact ⟨.root root, contains_of_isRoot root⟩
  · simp [found_iff]
  · intro item usage found bound
    obtain ⟨member, rfl⟩ := lookup_roots.mp found
    simp [mem_roots.mp member]
  · intro mark member
    obtain ⟨root, isRoot, rfl⟩ := List.mem_map.mp member
    exact lookup_roots.mpr ⟨isRoot, rfl⟩
  · rw [List.map_map]
    exact nodup_roots.map fun _ _ same => same

private theorem measure_roots :
    (roots pools).length + unmarked pools ((roots pools).map fun root => (root, Usage.definition)) ≤
      itemTotal pools := by
  let place (kind : PoolKind) := (List.range (pools.pool kind).size).map fun index => (kind, index)
  let marks : Marks := (roots pools).map fun root => (root, Usage.definition)
  let unfound (position : PoolKind × Nat) := (marks.lookup (position.1, position.2.toUInt32)).isNone
  have split : pools.positions = (PoolKind.all.take 5).flatMap place ++ (place .classDef ++
      (PoolKind.all.drop 6).flatMap place) := by
    rw [← List.flatMap_cons, ← List.flatMap_append]
    rfl
  -- The definitions that are counted have been found.
  have classDefs : (roots pools).length + (place .classDef).countP unfound ≤ (place .classDef).length := by
    have fewer : pools.classDefs.size.toUInt32.toNat ≤ (pools.pool .classDef).size := by
      rw [Nat.toUInt32_eq, UInt32.toNat_ofNat']
      exact Nat.mod_le _ _
    obtain ⟨others, same⟩ := Nat.exists_eq_add_of_le fewer
    have none : ((List.range pools.classDefs.size.toUInt32.toNat).map fun index => (PoolKind.classDef, index)).countP
        unfound = 0 := by
      rw [List.countP_eq_zero]
      intro position member
      obtain ⟨index, below, rfl⟩ := List.mem_map.mp member
      have below := List.mem_range.mp below
      have root : (PoolKind.classDef, index.toUInt32) ∈ roots pools :=
        mem_roots.mpr ⟨rfl, UInt32.lt_iff_toNat_lt.mpr ((toNat_of_lt_count below).symm ▸ below)⟩
      simp only [unfound, marks, lookup_roots.mpr ⟨root, rfl⟩]
      simp
    simp only [place, same, List.range_add, List.map_append, List.countP_append, none, List.length_append, roots,
      List.length_map, List.length_reverse, List.length_range]
    have rest := List.countP_le_length (p := unfound)
      (l := ((List.range others).map (pools.classDefs.size.toUInt32.toNat + ·)).map fun index =>
        (PoolKind.classDef, index))
    simp only [List.length_map, List.length_range] at rest
    omega
  change (roots pools).length + pools.positions.countP unfound ≤ _
  have first := List.countP_le_length (p := unfound) (l := (PoolKind.all.take 5).flatMap place)
  have last := List.countP_le_length (p := unfound) (l := (PoolKind.all.drop 6).flatMap place)
  rw [← length_positions, split, List.countP_append, List.countP_append, List.length_append, List.length_append]
  omega

theorem Marks.mem_toUses {marks : Marks} {use : Use} : use ∈ marks.toUses ↔ (use.target, use.usage) ∈ marks := by
  simp only [Marks.toUses, List.mem_mergeSort, List.mem_map]
  refine ⟨?_, fun member => ⟨_, member, rfl⟩⟩
  rintro ⟨mark, member, rfl⟩
  exact member

/-- Uses in the order of their kinds, and of their indices within a kind. -/
def InOrder (a b : Use) : Prop := a.kind.rank < b.kind.rank ∨ a.kind = b.kind ∧ a.index < b.index

/-- Items that are found once are listed in strict order. -/
theorem Marks.inOrder_toUses {marks : Marks} (distinct : (marks.map Prod.fst).Nodup) :
    marks.toUses.Pairwise InOrder := by
  let before (a b : Use) : Bool := a.kind.rank < b.kind.rank || (a.kind.rank == b.kind.rank && a.index ≤ b.index)
  have before_iff {a b : Use} : before a b = true ↔
      a.kind.rank < b.kind.rank ∨ a.kind.rank = b.kind.rank ∧ a.index.toNat ≤ b.index.toNat := by
    simp only [before, Bool.or_eq_true, Bool.and_eq_true, decide_eq_true_eq, beq_iff_eq, UInt32.le_iff_toNat_le]
  have sorted : marks.toUses.Pairwise fun a b => before a b = true := by
    refine List.pairwise_mergeSort (fun a b c => ?_) (fun a b => ?_) _
    · simp only [before_iff]
      omega
    · simp only [Bool.or_eq_true, before_iff]
      omega
  have apart : (marks.toUses.map Use.target).Nodup := by
    have perm : marks.toUses.Perm (marks.map fun mark => ⟨mark.1.1, mark.1.2, mark.2⟩) :=
      List.mergeSort_perm ..
    rw [(perm.map Use.target).nodup_iff, List.map_map]
    exact distinct
  refine (sorted.and (List.pairwise_map.mp apart)).imp fun {a b} both => ?_
  obtain ⟨order, differ⟩ := both
  rcases before_iff.mp order with less | ⟨same, most⟩
  · exact .inl less
  · have kind : a.kind = b.kind := PoolKind.rank_injective same
    refine .inr ⟨kind, UInt32.lt_iff_toNat_lt.mpr (Nat.lt_of_le_of_ne most fun index => differ ?_)⟩
    exact Prod.ext kind (UInt32.toNat_inj.mp index)

/-- What a scan yields: the reachable items, each with the usages granted to it, or a fault at a
reachable item that holds a reference beyond its pool. -/
theorem reachableBy_spec (markers : Markers) (image : Image) :
    match image.reachableBy markers with
    | .ok found =>
      (∀ item, image.pools.Reaches item ↔ ∃ use ∈ found, use.target = item) ∧
        (∀ use ∈ found, image.pools.contains use.target ∧ image.pools.UsageOf markers use.target use.usage) ∧
        found.Pairwise InOrder
    | .error fault => ∃ item use, image.pools.Reaches item ∧ use ∈ markers.apply item (image.pools.usesAt item) ∧
        image.pools.IsDangling item use fault := by
  have spec := scan_spec (scanned_roots markers image.pools) measure_roots
  change match (scan markers image.pools (itemTotal image.pools) ((roots image.pools).map _) (roots image.pools) >>=
    fun marks => pure marks.toUses) with | .ok _ => _ | .error _ => _
  generalize scan markers image.pools (itemTotal image.pools) _ (roots image.pools) = result at spec ⊢
  cases result with
  | error fault => exact spec
  | ok marks =>
    obtain ⟨done, scanned⟩ := spec
    obtain ⟨reached, usage⟩ := scanned.complete
    refine ⟨fun item => ?_, fun use found => ?_, Marks.inOrder_toUses scanned.distinct⟩
    · rw [← reached item]
      refine ⟨fun found => ?_, ?_⟩
      · obtain ⟨usage, found⟩ := Option.isSome_iff_exists.mp found
        obtain ⟨mark, marked, same⟩ := List.lookup_isSome_iff.mp (Option.isSome_of_eq_some found)
        obtain rfl := eq_of_beq same
        exact ⟨⟨mark.1.1, mark.1.2, mark.2⟩, Marks.mem_toUses.mpr marked, rfl⟩
      · rintro ⟨use, found, rfl⟩
        rw [scanned.listed _ (Marks.mem_toUses.mp found)]
        rfl
    · have marked := scanned.listed _ (Marks.mem_toUses.mp found)
      exact ⟨(scanned.sound use.target (by simp [marked])).2, usage _ _ marked⟩

/-- What a scan yields where references are marked with their places. -/
theorem reachable_spec (image : Image) :
    match image.reachable with
    | .ok found =>
      (∀ item, image.pools.Reaches item ↔ ∃ use ∈ found, use.target = item) ∧
        (∀ use ∈ found, image.pools.contains use.target ∧ image.pools.UsageOf .own use.target use.usage) ∧
        found.Pairwise InOrder
    | .error fault => ∃ item use, image.pools.Reaches item ∧ use ∈ image.pools.usesAt item ∧
        image.pools.IsDangling item use fault := by
  have spec := image.reachableBy_spec .own
  simp only [apply_own] at spec
  exact spec

end Image
end DexImage
