import DexImage.Proofs.Reachability.Scan
/-! # Recording usages

Marking replaces the recorded usages by those of a scan. It changes no item, and leaves exactly the
reachable items with a usage (`markUsage_eq_ok`). A scan that fails leaves the image as it was.
-/

namespace DexImage

/-- What is recorded for a usage; an empty one counts as that of an id item. -/
def Usage.recorded (usage : Usage) : Usage := if usage.isEmpty then .idItem else usage

theorem Usage.isEmpty_recorded (usage : Usage) : usage.recorded.isEmpty = false := by
  unfold recorded
  split_ifs with empty
  · rfl
  · simpa using empty

/-- An entry with more markers if they are meant for it. -/
def PoolEntry.marked {α : Type} (entry : PoolEntry α) (meant : Bool) (usage : Usage) : PoolEntry α :=
  if meant then { entry with usage := entry.usage.union usage } else entry

theorem Pool.mark_eq {α : Type} {pool : Pool α} {index : UInt32} (present : index.toNat < pool.size)
    (usage : Usage) :
    ∃ first marked, pool.mark index usage = .ok (first, marked) ∧ ∀ position : Nat,
      marked.entries[position]? = (pool.entries[position]?).map (·.marked (position = index.toNat) usage) := by
  have found : pool.usage? index = some pool.entries[index.toNat].usage := by
    simp [usage?, Array.getElem?_eq_getElem present]
  refine ⟨_, _, by rw [mark, found], fun position => ?_⟩
  simp only [Array.getElem?_modify]
  by_cases same : index.toNat = position
  · subst same
    simp [Array.getElem?_eq_getElem present, PoolEntry.marked]
  · have other : ¬position = index.toNat := fun equal => same equal.symm
    simp [same, other, PoolEntry.marked]

namespace Pools

/-- The markers that uses give to the item at a position, besides those it has. -/
def gathered (found : List Use) (kind : PoolKind) (position : Nat) (start : Usage) : Usage :=
  found.foldl (fun usage use =>
    if use.kind = kind ∧ position = use.index.toNat then usage.union use.usage.recorded else usage) start

theorem gathered_le {found : List Use} {kind : PoolKind} {position : Nat} {start bound : Usage} :
    gathered found kind position start ≤ bound ↔ start ≤ bound ∧ ∀ use ∈ found,
      use.kind = kind → position = use.index.toNat → use.usage.recorded ≤ bound := by
  induction found generalizing start with
  | nil => simp [gathered]
  | cons use rest ih =>
    have step := @ih (if use.kind = kind ∧ position = use.index.toNat
      then start.union use.usage.recorded else start)
    rw [gathered, List.foldl_cons, ← gathered, step, List.forall_mem_cons]
    split_ifs with meant
    · simp [Usage.union_le, meant, and_assoc]
    · refine and_congr_right fun _ => (and_iff_right ?_).symm
      exact fun same position => absurd ⟨same, position⟩ meant

end Pools

namespace Image

open Pools

private theorem recordUse_eq {pools : Pools} {use : Use} (present : pools.contains use.target) :
    ∃ marked, recordUse pools use = .ok marked ∧ ∀ kind (position : Nat),
      (marked.pool kind).entries[position]? = ((pools.pool kind).entries[position]?).map
        (·.marked (use.kind = kind ∧ position = use.index.toNat) use.usage.recorded) := by
  have spec := Pool.mark_eq (show use.index.toNat < (pools.pool use.kind).size from present)
    use.usage.recorded
  obtain ⟨first, pool, marked, entries⟩ := spec
  have result : recordUse pools use = .ok (pools.setPool use.kind pool) := by
    change (do return (← pools.mark use.kind.toSection use.index use.usage.recorded).2) = _
    rw [Pools.mark, PoolKind.pool?_toSection]
    dsimp only
    rw [marked]
    rfl
  refine ⟨_, result, fun kind position => ?_⟩
  by_cases same : kind = use.kind
  · subst same
    simp only [pool_setPool_self, entries, true_and]
  · rw [pool_setPool_of_ne _ same]
    simp [PoolEntry.marked, Ne.symm same]

/-- Uses of items that exist are all recorded. -/
theorem recordUses_eq {found : List Use} {pools : Pools}
    (present : ∀ use ∈ found, pools.contains use.target) :
    ∃ marked, recordUses found pools = (.ok (), marked) ∧ ∀ kind (position : Nat),
      (marked.pool kind).entries[position]? = ((pools.pool kind).entries[position]?).map
        fun entry => { entry with usage := gathered found kind position entry.usage } := by
  induction found generalizing pools with
  | nil => exact ⟨pools, rfl, fun kind position => by simp [gathered]⟩
  | cons use rest ih =>
    obtain ⟨first, present⟩ := List.forall_mem_cons.mp present
    obtain ⟨step, recorded, entries⟩ := recordUse_eq first
    have sizes kind := Pool.size_eq_of_entries _ (entries kind)
    have present : ∀ other ∈ rest, step.contains other.target := fun other member => by
      rw [Pools.contains, sizes]
      exact present other member
    obtain ⟨marked, result, rest⟩ := ih present
    refine ⟨marked, by rw [recordUses, recorded]; exact result, fun kind position => ?_⟩
    rw [rest, entries, Option.map_map]
    refine congrArg (Option.map · _) (funext fun entry => ?_)
    simp only [Function.comp, PoolEntry.marked, gathered, List.foldl_cons, decide_eq_true_eq]
    split_ifs <;> rfl

/-- What is recorded for the item at a position once the image has been scanned. -/
def Recorded (pools : Pools) (kind : PoolKind) (position : Nat) (usage : Usage) : Prop :=
  ∀ bound, usage ≤ bound ↔ ∀ index granted, index.toNat = position → pools.Reaches (kind, index) →
    pools.UsageOf .own (kind, index) granted → granted.recorded ≤ bound

theorem Recorded.unique {pools : Pools} {kind : PoolKind} {position : Nat} {first second : Usage}
    (firstOf : Recorded pools kind position first) (secondOf : Recorded pools kind position second) :
    first = second :=
  Usage.eq_of_bounds fun bound => (firstOf bound).trans (secondOf bound).symm

/-- Pools that refer to nothing beyond them, and those with the usages of a scan recorded. -/
structure Marked (pools marked : Pools) : Prop where
  present : ∀ item, pools.Reaches item → pools.contains item
  granted : ∀ item, pools.Reaches item → ∃ usage, pools.UsageOf .own item usage
  size : ∀ kind, (marked.pool kind).size = (pools.pool kind).size
  entries : ∀ kind (position : Nat) entry, (pools.pool kind).entries[position]? = some entry →
    ∃ usage, (marked.pool kind).entries[position]? = some ⟨entry.item, usage⟩ ∧
      Recorded pools kind position usage

/-- What stands at a position once usages are recorded. -/
theorem Marked.entry {pools marked : Pools} (recorded : Marked pools marked) {kind : PoolKind}
    {position : Nat} {entry : PoolEntry (Item kind)}
    (found : (marked.pool kind).entries[position]? = some entry) :
    (∃ before, (pools.pool kind).entries[position]? = some before ∧ before.item = entry.item) ∧
      Recorded pools kind position entry.usage := by
  obtain ⟨before, beforeEq⟩ : ∃ before, (pools.pool kind).entries[position]? = some before := by
    have bound := (Array.getElem?_eq_some_iff.mp found).1
    have size := recorded.size kind
    exact ⟨_, Array.getElem?_eq_getElem (by simp only [Pool.size] at size; omega)⟩
  obtain ⟨usage, after, usageOf⟩ := recorded.entries kind position before beforeEq
  have same := Option.some.inj (after.symm.trans found)
  rw [← same]
  exact ⟨⟨before, beforeEq, rfl⟩, usageOf⟩

/-- An item has a usage recorded exactly if it is reachable. -/
theorem Marked.isEmpty_iff {pools marked : Pools} (recorded : Marked pools marked) {kind : PoolKind}
    {position : Nat} {usage : Usage} (usageOf : Recorded pools kind position usage) :
    usage.isEmpty = false ↔ ∃ index, index.toNat = position ∧ pools.Reaches (kind, index) := by
  rw [← Bool.not_eq_true, Usage.isEmpty_iff, usageOf]
  refine ⟨fun some => ?_, ?_⟩
  · by_contra none
    exact some fun index granted same reached => absurd ⟨index, same, reached⟩ none
  · rintro ⟨index, same, reached⟩ bounded
    obtain ⟨granted, granting⟩ := recorded.granted _ reached
    have empty := Usage.isEmpty_iff.mpr (bounded index granted same reached granting)
    rw [granted.isEmpty_recorded] at empty
    cases empty

/-- Uses of items of the image are recorded in pools without usages. -/
theorem recordUses_clearUsage {pools : Pools} {found : List Use} (present : ∀ use ∈ found, pools.contains use.target) :
    ∃ marked, recordUses found pools.clearUsage = (.ok (), marked) ∧ ∀ kind (position : Nat),
      (marked.pool kind).entries[position]? = ((pools.pool kind).entries[position]?).map
        fun entry => ⟨entry.item, gathered found kind position .unmarked⟩ := by
  have present : ∀ use ∈ found, pools.clearUsage.contains use.target := fun use member => by
    rw [contains, pool_clearUsage, Pool.size_clearUsage]
    exact present use member
  obtain ⟨marked, recorded, entries⟩ := recordUses_eq present
  refine ⟨marked, recorded, fun kind position => ?_⟩
  rw [entries, pool_clearUsage]
  simp [Pool.clearUsage, Function.comp_def]

/-- What the uses of a scan give to the item at a position is recorded for it. -/
theorem recorded_gathered {pools : Pools} {found : List Use}
    (reached : ∀ item, pools.Reaches item ↔ ∃ use ∈ found, use.target = item)
    (granted : ∀ use ∈ found, pools.UsageOf .own use.target use.usage) (kind : PoolKind) (position : Nat) :
    Recorded pools kind position (gathered found kind position .unmarked) := by
  intro bound
  rw [gathered_le]
  constructor
  · rintro ⟨_, bounded⟩ index usage same reaches usageOf
    obtain ⟨use, member, target⟩ := (reached _).mp reaches
    have granting := granted use member
    rw [target] at granting
    obtain ⟨rfl, rfl⟩ := Prod.mk.inj target
    rw [usageOf.unique granting]
    exact bounded use member rfl same.symm
  · refine fun bounded => ⟨Usage.unmarked_le bound, ?_⟩
    rintro use member rfl rfl
    exact bounded use.index use.usage rfl ((reached _).mpr ⟨use, member, rfl⟩) (granted use member)

/-- Marking fails where a reachable item holds a reference beyond its pool, and then leaves the image
as it was. -/
theorem markUsage_eq_error {image marked : Image} {fault : Fault}
    (run : image.markUsage = (.error fault, marked)) : marked = image ∧ ∃ item use, image.pools.Reaches item ∧
      use ∈ image.pools.usesAt item ∧ ¬image.pools.contains use.target := by
  have spec := image.reachable_spec
  rw [markUsage] at run
  cases result : image.reachable with
  | error _ =>
    rw [result] at spec run
    obtain ⟨item, use, reached, held, beyond, -⟩ := spec
    exact ⟨(Prod.mk.inj run).2.symm, item, use, reached, held, beyond⟩
  | ok found =>
    rw [result] at spec run
    obtain ⟨marked, recorded, -⟩ := recordUses_clearUsage fun use member => (spec.2.1 use member).1
    simp only [recorded, Except.map] at run
    cases (Prod.mk.inj run).1

/-- Marking records the usages of the scan. -/
theorem markUsage_eq_ok {image marked : Image} {count : Nat} (run : image.markUsage = (.ok count, marked)) :
    marked.header = image.header ∧ marked.map = image.map ∧ Marked image.pools marked.pools := by
  have spec := image.reachable_spec
  rw [markUsage] at run
  cases result : image.reachable with
  | error _ =>
    rw [result] at run
    cases (Prod.mk.inj run).1
  | ok found =>
    rw [result] at spec run
    obtain ⟨reached, granted, -⟩ := spec
    obtain ⟨marked, recorded, entries⟩ := recordUses_clearUsage fun use member => (granted use member).1
    simp only [recorded, Except.map] at run
    obtain rfl := (Prod.mk.inj run).2
    refine ⟨rfl, rfl, ?_, ?_, fun kind => Pool.size_eq_of_entries _ (entries kind), ?_⟩
    · intro item reaches
      obtain ⟨use, member, rfl⟩ := (reached item).mp reaches
      exact (granted use member).1
    · intro item reaches
      obtain ⟨use, member, rfl⟩ := (reached item).mp reaches
      exact ⟨_, (granted use member).2⟩
    · intro kind position entry there
      refine ⟨gathered found kind position .unmarked, ?_,
        recorded_gathered reached (fun use member => (granted use member).2) kind position⟩
      rw [entries, there]
      rfl

end Image
end DexImage
