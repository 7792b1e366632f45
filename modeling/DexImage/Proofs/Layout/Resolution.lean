import DexImage.Proofs.Layout.Stored
/-! # Which references a plan resolves

A plan resolves every reference into a section that has items: the target exists, and the reference knows
where the target is written. It fails at a reference beyond such a section. References into sections
without items are passed over, and what they know is not looked at (`plan_resolves`).
-/

namespace DexImage

/-- Whether a reference to a data item stands in some item. -/
def Pools.Holds (pools : Pools) {target : PoolKind} (ref : DataRef target) : Prop :=
  ∃ kind, ∃ item ∈ (pools.pool kind).items, ∃ usage,
    Held.data target usage ref.state ∈ (itemHolding kind).held item

/-- Whether the target of a reference exists and is written where the reference says, if there is one. -/
def DataRef.Resolved {target : PoolKind} (ref : DataRef target) (placed : Pools) (layout : Layout) : Prop :=
  ∀ index, ref.index = some index → ∃ item offset, placed.get? target index = some item ∧
    ref.offset = .ok offset ∧ layout.offsets.offset? target.toSection index = some offset ∧
      ∀ header image, Layout.emit header placed layout = .ok image →
        ∃ bytes, encode item = .ok bytes ∧ image.HasAt offset.toNat bytes

namespace Pools

variable {pools : Pools} {target : PoolKind}

/-- Only items in data sections are referred to by offsets. -/
theorem Holds.isIdTable {ref : DataRef target} (holds : pools.Holds ref) : target.toSection.isIdTable = false := by
  obtain ⟨kind, item, -, usage, held⟩ := holds
  exact proper_of_held item _ held

/-- The slots that lead into a data section are those of the references that the pools hold. -/
theorem mem_slots_iff (apart : target.toSection.isIdTable = false) {index : UInt32} :
    (∃ slot ∈ pools.slots, slot.target? = some (target, index)) ↔
      ∃ ref : DataRef target, pools.Holds ref ∧ ref.index = some index := by
  constructor
  · rintro ⟨slot, member, leads⟩
    obtain ⟨kind, item, present, member⟩ := Layout.mem_slots.mp member
    rw [slots_eq] at member
    obtain ⟨one, held, rfl⟩ := List.mem_map.mp member
    obtain ⟨other, found, same⟩ := Option.map_eq_some_iff.mp leads
    obtain ⟨rfl, rfl⟩ := Prod.mk.inj same
    have proper := proper_of_held item one held
    cases one with
    | data _ usage state =>
      refine ⟨.ofState state, ⟨kind, item, present, usage, ?_⟩, ?_⟩
      · rwa [DataRef.state_ofState]
      · rwa [DataRef.index_eq, DataRef.state_ofState]
    | id => exact absurd (proper.1.symm.trans apart) (by decide)
    | operand => exact absurd (proper.2.1.symm.trans apart) (by decide)
  · rintro ⟨ref, ⟨kind, item, present, usage, held⟩, found⟩
    refine ⟨_, Layout.mem_slots_of_held present held, ?_⟩
    rw [DataRef.index_eq] at found
    simp only [Slot.target?, Held.slot, Held.kind, Held.index, found, Option.map_some]

end Pools

namespace Layout

/-- Plans leave the slots of the items as they are. -/
theorem RelocatedPools.slots {kinds : List PoolKind} {before after : Pools}
    (relocated : RelocatedPools kinds before after) :
    after.slots = before.slots := by
  refine List.flatMap_congr fun kind _ => ?_
  obtain ⟨edit, same, each⟩ := relocated kind
  rw [same, Pool.items_map, List.flatMap_map]
  refine List.flatMap_congr fun item _ => ?_
  rw [slots_eq, slots_eq]
  exact (each item).alike.slots

variable {header : Header} {pools placed : Pools} {layout : Layout}

/-- A section that has items has an offset for each of them. -/
theorem Planned.row (planned : Planned header pools layout placed) {target : PoolKind}
    (some : (placed.pool target).items ≠ []) :
    ∃ row : Array UInt32, layout.offsets.row? target.toSection = Option.some row ∧
    row.size = (placed.pool target).size := by
  have count : itemCount placed target.toSection ≠ 0 := by
    rwa [itemCount_toSection, ne_eq, List.length_eq_zero_iff]
  obtain ⟨entry, -, -, same, plan, -⟩ := planned.get? (by cases target <;> decide) count
  obtain ⟨row, found, numbers, -⟩ :=
    plan.row (by rw [same]; cases target <;> decide) (by rw [same]; cases target <;> decide)
  refine ⟨row, same ▸ found, ?_⟩
  have length := congrArg List.length numbers
  rwa [List.length_map, length_starts, length_sizesOf, same, size_toSection, Array.length_toList] at length

/-- References into a section that has items are resolved. -/
theorem Planned.resolved (planned : Planned header pools layout placed) {target : PoolKind} {ref : DataRef target}
    (holds : placed.Holds ref) (some : (placed.pool target).items ≠ []) : ref.Resolved placed layout := by
  intro index present
  have apart := holds.isIdTable
  obtain ⟨kind, item, member, usage, held⟩ := holds
  obtain ⟨known, state⟩ : ∃ known, ref.state = Option.some (index, known) := by
    cases ref <;> cases present <;> exact ⟨_, rfl⟩
  rw [state] at held
  obtain ⟨offset, found, rfl⟩ := planned.told target (by cases target <;> first | rfl | cases apart)
    (by rwa [itemCount_toSection, ne_eq, List.length_eq_zero_iff]) kind item member usage index known held
  obtain ⟨row, listed, size⟩ := planned.row some
  have there : row.toList[index.toNat]? = Option.some offset := by
    rw [Array.getElem?_toList, ← offset?_of_row? listed, found]
  have inside : index.toNat < (placed.pool target).items.length := by
    rw [Pool.length_items, ← size, ← Array.length_toList]
    exact (List.getElem?_eq_some_iff.mp there).1
  have target' : placed.get? target index = Option.some (placed.pool target).items[index.toNat] :=
    Pool.get?_eq_some.mpr (List.getElem?_eq_getElem inside)
  refine ⟨_, offset, target', ?_, found, ?_⟩
  · rw [← DataRef.ofState_state ref, state]
    rfl
  · intro header' image success
    obtain ⟨row', listed', -, each⟩ := storedData planned (emit_spec success) apart some
    obtain rfl := Option.some.inj (listed.symm.trans listed')
    obtain ⟨other, otherThere, -, bytes, encoded, stands⟩ := each.getElem?_left there
    obtain rfl := Option.some.inj (otherThere.symm.trans (List.getElem?_eq_getElem inside))
    exact ⟨bytes, encoded, stands⟩

/-- A reference into a section without items is not resolved. -/
theorem not_resolved_of_empty {target : PoolKind} {ref : DataRef target} (present : ref.isPresent = true)
    (none : (placed.pool target).items = []) : ¬ ref.Resolved placed layout := by
  intro resolved
  obtain ⟨index, found⟩ := Option.isSome_iff_exists.mp present
  obtain ⟨item, -, there, -⟩ := resolved index found
  have member := Pools.mem_of_get? there
  rw [none] at member
  cases member

/-! ## Why a plan fails -/

/-- Whether a reference leads beyond the items of a section that has some. -/
structure Dangling (pools : Pools) (target : PoolKind) (index : UInt32) : Prop where
  held : ∃ ref : DataRef target, pools.Holds ref ∧ ref.index = some index
  some : (pools.pool target).items ≠ []
  beyond : pools.get? target index = none

theorem get?_eq_none_iff {target : PoolKind} {index : UInt32} :
    pools.get? target index = none ↔ (pools.pool target).size ≤ index.toNat := by
  rw [← Pool.length_items, ← List.getElem?_eq_none_iff, Option.eq_none_iff_forall_ne_some,
    Option.eq_none_iff_forall_ne_some]
  exact forall_congr' fun item => not_congr Pool.get?_eq_some

/-- References lead beyond the items while a plan is made if they did so before. -/
theorem RelocatedPools.dangling {kinds : List PoolKind} {before after : Pools} {target : PoolKind} {index : UInt32}
    (relocated : RelocatedPools kinds before after) (dangling : Dangling after target index) :
    Dangling before target index := by
  obtain ⟨held, some, beyond⟩ := dangling
  have apart : target.toSection.isIdTable = false := by
    obtain ⟨ref, holds, -⟩ := held
    exact holds.isIdTable
  have size : (after.pool target).size = (before.pool target).size := by
    rw [← size_toSection, ← size_toSection, relocated.size]
  refine ⟨?_, ?_, ?_⟩
  · rwa [← Pools.mem_slots_iff apart, ← relocated.slots, Pools.mem_slots_iff apart]
  · rwa [ne_eq, ← List.length_eq_zero_iff, Pool.length_items, ← size, ← Pool.length_items, List.length_eq_zero_iff]
  · rwa [get?_eq_none_iff, ← size, ← get?_eq_none_iff]

/-- Where a plan that has come to a section lets it start. -/
def startOf (kind : SectionKind) (reached : Planning) : Nat :=
  reached.position + Bytes.padding reached.position kind.alignment

/-- Whether a plan comes to a section that has items, in some state. -/
structure Arrives (header : Header) (pools : Pools) (kind : SectionKind) (reached : Planning) : Prop where
  sections : ∃ earlier later, order = earlier ++ kind :: later ∧
    planSections header earlier ⟨.empty, 0, pools⟩ = (.ok (), reached)
  some : itemCount reached.pools kind ≠ 0

/-- The offsets that a plan computes: where the sections start that it comes to, where their items start, and where
the image ends. -/
inductive Computes (header : Header) (pools : Pools) : Nat → Prop where
  | start {kind : SectionKind} {reached : Planning} (arrives : Arrives header pools kind reached) :
      Computes header pools (startOf kind reached)
  | item {kind : SectionKind} {reached : Planning} {offset : Nat} (arrives : Arrives header pools kind reached)
      (member : offset ∈ starts (alignmentOf kind) (startOf kind reached) (sizesOf reached.pools kind)) :
      Computes header pools offset
  | last {reached : Planning} (sections : planSections header order ⟨.empty, 0, pools⟩ = (.ok (), reached)) :
      Computes header pools reached.position

/-- Why a plan of pools can fail: an offset that it computes needs more than 32 bits, or a reference leads beyond the
items of a section that has some. -/
inductive PlanFault (header : Header) (pools : Pools) : Fault → Prop where
  | wide (offset : Nat) (computed : Computes header pools offset) (wide : UInt32.size ≤ offset) :
      PlanFault header pools (.of (.offsetTooWide offset))
  | dangling (target : PoolKind) (index : UInt32) (dangling : Dangling pools target index) :
      PlanFault header pools (.of (.notLaidOut target.toSection index))

/-- Why a section cannot be placed. -/
inductive SectionFault (pools : Pools) (kind : SectionKind) (start : Nat) : Fault → Prop where
  | wide (offset : Nat) (computed : offset = start ∨ offset ∈ starts (alignmentOf kind) start (sizesOf pools kind))
      (wide : UInt32.size ≤ offset) : SectionFault pools kind start (.of (.offsetTooWide offset))
  | dangling (target : PoolKind) (index : UInt32) (dangling : Dangling pools target index) :
      SectionFault pools kind start (.of (.notLaidOut target.toSection index))

theorem word_eq_error {offset : Nat} {fault : Fault} (failure : word offset = .error fault) :
    UInt32.size ≤ offset ∧ fault = .of (.offsetTooWide offset) := by
  rw [word] at failure
  split_ifs at failure with fits
  exact ⟨Nat.le_of_not_lt fits, (Except.error.inj failure).symm⟩

theorem placeItems_eq_error {alignment position : Nat} {sizes : List Nat} {found : Array UInt32} {fault : Fault}
    (failure : placeItems alignment position sizes found = .error fault) :
    ∃ offset ∈ starts alignment position sizes, UInt32.size ≤ offset ∧ fault = .of (.offsetTooWide offset) := by
  induction sizes generalizing position found with
  | nil => cases failure
  | cons size rest ih =>
    rw [placeItems] at failure
    rcases first : word (position + Bytes.padding position alignment) with other | offset
    · rw [first] at failure
      obtain rfl := Except.error.inj failure
      exact ⟨_, List.mem_cons_self, word_eq_error first⟩
    · rw [first] at failure
      obtain ⟨offset, member, wide⟩ := ih failure
      exact ⟨offset, List.mem_cons_of_mem _ member, wide⟩

theorem updateRefs_eq_some {offsets : OffsetTable} {kind : PoolKind} {row : Array UInt32} {fault : Fault}
    (apart : kind.toSection.isIdTable = false) (size : row.size = (pools.pool kind).size) (some : row.size ≠ 0)
    (failure : (updateRefs (offsets.setRow kind.toSection row) kind pools).fault? = Option.some fault) :
    ∃ index, Dangling pools kind index ∧ fault = .of (.notLaidOut kind.toSection index) := by
  rw [fault_updateRefs] at failure
  obtain ⟨slot, member, found⟩ := List.exists_of_findSome?_eq_some failure
  obtain ⟨target, _ | index, usage⟩ := slot
  · simp [missing?] at found
  rw [missing?] at found
  split_ifs at found with same
  obtain rfl : target = kind := same
  simp only [Option.bind_some, offset?_of_row? (row?_setRow_self offsets _ row)] at found
  split_ifs at found with inside
  refine ⟨index, ⟨(Pools.mem_slots_iff apart).mp ⟨_, member, rfl⟩, ?_, ?_⟩, (Option.some.inj found).symm⟩
  · rwa [ne_eq, ← List.length_eq_zero_iff, Pool.length_items, ← size]
  · rw [get?_eq_none_iff, ← size]
    simpa using inside

private theorem eq_some_of_elim {fault? : Option Fault} {fault : Fault}
    (failure : fault?.elim (.ok ()) .error = (.error fault : Result Unit)) : fault? = some fault := by
  cases fault? with
  | none => cases failure
  | some other => exact congrArg some (Except.error.inj failure)

theorem placeSection_eq_error {kind : SectionKind} {start : Nat} {before after : Planning} {fault : Fault}
    (some : itemCount before.pools kind ≠ 0)
    (failure : placeSection header kind start before = (.error fault, after)) :
    SectionFault before.pools kind start fault := by
  rcases cases_section kind with rfl | rfl | ⟨notHeader, notMap⟩
  · cases placeSection_header.symm.trans failure
  · cases placeSection_mapList.symm.trans failure
  rw [itemCount_eq notHeader notMap] at some
  rcases placed : placeItems (alignmentOf kind) start (sizesOf before.pools kind) #[] with other | ⟨offsets, position⟩
  · rw [placeSection_of_error notHeader notMap placed] at failure
    obtain rfl := Except.error.inj (Prod.mk.inj failure).1
    obtain ⟨offset, member, wide, rfl⟩ := placeItems_eq_error placed
    exact .wide offset (.inr member) wide
  rw [placeSection_of_ok notHeader notMap placed] at failure
  have told := eq_some_of_elim (Prod.mk.inj failure).1
  rw [toldPools, trackedPool?] at told
  split_ifs at told with tracked
  obtain ⟨pool, known⟩ := exists_pool notHeader notMap
  simp only [known] at told
  obtain rfl := toSection_of_tracked tracked known
  have size : offsets.size = (before.pools.pool pool).size := by
    obtain ⟨-, numbers, listed, same⟩ := placeItems_eq_ok placed
    have length := congrArg List.length same
    rw [List.length_map, length_starts] at length
    rw [← Array.length_toList, listed, List.length_append, length]
    change 0 + (sizesOf before.pools pool.toSection).length = _
    rw [length_sizesOf, size_toSection, Nat.zero_add]
  have apart : pool.toSection.isIdTable = false := by simpa using (Bool.and_eq_true_iff.mp tracked).1
  obtain ⟨index, dangling, rfl⟩ := updateRefs_eq_some apart size (by rwa [size, ← size_toSection]) told
  exact .dangling pool index dangling

theorem planSection_eq_error {kind : SectionKind} {before after : Planning} {fault : Fault}
    (failure : planSection header kind before = (.error fault, after)) :
    itemCount before.pools kind ≠ 0 ∧ SectionFault before.pools kind (startOf kind before) fault := by
  by_cases none : itemCount before.pools kind = 0
  · cases (planSection_of_empty none).symm.trans failure
  refine ⟨none, ?_⟩
  rw [planSection_of_items none rfl] at failure
  have start (asked : word (startOf kind before) = .error fault) :
      SectionFault before.pools kind (startOf kind before) fault := by
    obtain ⟨wide, rfl⟩ := word_eq_error asked
    exact .wide _ (.inl rfl) wide
  have entered {noted : Planning} (pools : noted.pools = before.pools)
      (failure : enterSection header kind (itemCount before.pools kind) (startOf kind before) noted =
        (.error fault, after)) : SectionFault before.pools kind (startOf kind before) fault := by
    rcases enterSection_eq_error failure with placing | asked
    · exact pools ▸ placeSection_eq_error (by rwa [pools]) placing
    · exact start asked
  split_ifs at failure
  · rcases Reading.bind_eq_error failure with asked | ⟨offset, _, found, noting⟩
    · exact start (Reading.ofResult_eq_error asked)
    obtain ⟨-, rfl⟩ := Reading.ofResult_eq_ok.mp found
    exact @entered (withDataOffset kind offset _) rfl noting
  · exact entered rfl failure

/-- Sections that cannot all be planned are planned up to one that cannot be placed. -/
theorem planSections_eq_error {kinds : List SectionKind} {before after : Planning} {fault : Fault}
    (failure : planSections header kinds before = (.error fault, after)) : ∃ earlier kind later reached,
      kinds = earlier ++ kind :: later ∧ planSections header earlier before = (.ok (), reached) ∧
        planSection header kind reached = (.error fault, after) := by
  induction kinds generalizing before with
  | nil => cases failure
  | cons kind rest ih =>
    rcases Reading.bind_eq_error failure with here | ⟨_, between, first, others⟩
    · exact ⟨[], kind, rest, before, rfl, rfl, here⟩
    · obtain ⟨earlier, other, later, reached, rfl, sections, here⟩ := ih others
      exact ⟨kind :: earlier, other, later, reached, rfl, (Reading.bind_ok first).trans sections, here⟩

theorem plan_eq_error {fault : Fault} (failure : plan header pools = (.error fault, placed)) :
    PlanFault header pools fault := by
  unfold plan at failure
  extract_lets step at failure
  split at failure
  rename_i result planned run
  obtain ⟨rfl, rfl⟩ := Prod.mk.inj failure
  rcases Reading.bind_eq_error run with sections | ⟨_, reached, sections, rest⟩
  · obtain ⟨earlier, kind, later, reached, split, sections, failing⟩ := planSections_eq_error sections
    obtain ⟨some, faulty⟩ := planSection_eq_error failing
    have arrives : Arrives header pools kind reached := ⟨⟨earlier, later, split, sections⟩, some⟩
    have relocated := (planSections_spec sections).pools
    cases faulty with
    | wide offset computed wide =>
      refine .wide offset ?_ wide
      rcases computed with rfl | member
      · exact .start arrives
      · exact .item arrives member
    | dangling target index dangling => exact .dangling target index (relocated.dangling dangling)
  rcases Reading.bind_eq_error rest with ⟨⟨⟩⟩ | ⟨_, same, got, rest⟩
  cases got
  rcases Reading.bind_eq_error rest with asked | ⟨_, _, _, done⟩
  · obtain ⟨wide, rfl⟩ := word_eq_error (Reading.ofResult_eq_error asked)
    exact .wide _ (.last sections) wide
  · cases done

/-- Where all offsets fit, a plan fails at a reference only. -/
theorem PlanFault.kind_eq {fault : Fault} (faulty : PlanFault header pools fault)
    (fits : ∀ offset, Computes header pools offset → offset < UInt32.size) : fault.kind = .unresolvedReference := by
  cases faulty with
  | wide offset computed wide => exact absurd (fits offset computed) (Nat.not_lt_of_le wide)
  | dangling => rfl

namespace Planned

variable {header : Header} {pools placed : Pools} {layout : Layout} (planned : Planned header pools layout placed)
include planned

theorem items_eq_nil_iff (target : PoolKind) : (placed.pool target).items = [] ↔ (pools.pool target).items = [] := by
  rw [← List.length_eq_zero_iff, ← List.length_eq_zero_iff, ← itemCount_toSection, ← itemCount_toSection,
    planned.pools.itemCount]

/-- The references of both pools lead to the same places. -/
theorem exists_holds_iff {target : PoolKind} (apart : target.toSection.isIdTable = false) (index : UInt32) :
    (∃ ref : DataRef target, placed.Holds ref ∧ ref.index = some index) ↔
      ∃ ref : DataRef target, pools.Holds ref ∧ ref.index = some index := by
  rw [← Pools.mem_slots_iff apart, ← Pools.mem_slots_iff apart, planned.pools.slots]

/-- All references are resolved if none leads into a section without items. -/
theorem resolved_iff : (∀ (target : PoolKind) (ref : DataRef target), placed.Holds ref → ref.Resolved placed layout) ↔
    ∀ (target : PoolKind) (ref : DataRef target), pools.Holds ref →
      ref.isPresent → (pools.pool target).items ≠ [] := by
  constructor
  · intro resolved target ref holds present none
    obtain ⟨index, found⟩ := Option.isSome_iff_exists.mp present
    obtain ⟨ref', holds', found'⟩ := (planned.exists_holds_iff holds.isIdTable index).mpr ⟨ref, holds, found⟩
    have present' : ref'.isPresent = true := Option.isSome_iff_exists.mpr ⟨index, found'⟩
    exact not_resolved_of_empty present' ((planned.items_eq_nil_iff target).mpr none) (resolved target ref' holds')
  · intro some target ref holds index found
    obtain ⟨ref', holds', found'⟩ := (planned.exists_holds_iff holds.isIdTable index).mp ⟨ref, holds, found⟩
    have present' : ref'.isPresent = true := Option.isSome_iff_exists.mpr ⟨index, found'⟩
    exact planned.resolved holds (mt (planned.items_eq_nil_iff target).mp
      (some target ref' holds' present')) index found

/-- No reference into a section that has items leads beyond it. -/
theorem not_dangling {target : PoolKind} {index : UInt32} : ¬ Dangling pools target index := by
  rintro ⟨⟨ref, holds, found⟩, some, beyond⟩
  obtain ⟨ref', holds', found'⟩ := (planned.exists_holds_iff holds.isIdTable index).mpr ⟨ref, holds, found⟩
  obtain ⟨item, -, there, -⟩ := planned.resolved holds' (mt (planned.items_eq_nil_iff target).mp some) index found'
  have inside : index.toNat < (placed.pool target).size := by
    rw [← Pool.length_items]
    exact (List.getElem?_eq_some_iff.mp (Pool.get?_eq_some.mp there)).1
  rw [← size_toSection, planned.pools.size, size_toSection] at inside
  exact Nat.not_le_of_lt inside (get?_eq_none_iff.mp beyond)

end Planned

/-- A plan that succeeds resolves the references into sections that have items, and it resolves all
references exactly if none leads into a section without items. A reference beyond a section that has
items makes it fail, as unresolved if all offsets that are computed fit. It fails only at such a
reference, or where an offset that it computes needs more than 32 bits. -/
theorem plan_resolves (header : Header) (pools : Pools) :
    (∀ layout, (plan header pools).1 = .ok layout →
      (∀ (target : PoolKind) (ref : DataRef target), (plan header pools).2.Holds ref →
        (pools.pool target).items ≠ [] → ref.Resolved (plan header pools).2 layout) ∧
      ((∀ (target : PoolKind) (ref : DataRef target), (plan header pools).2.Holds ref →
          ref.Resolved (plan header pools).2 layout) ↔
        ∀ (target : PoolKind) (ref : DataRef target), pools.Holds ref → ref.isPresent →
          (pools.pool target).items ≠ [])) ∧
    (∀ (target : PoolKind) (ref : DataRef target) index, pools.Holds ref → ref.index = some index →
      (pools.pool target).items ≠ [] → pools.get? target index = none →
        ∃ fault, (plan header pools).1 = .error fault ∧
          ((∀ offset, Computes header pools offset → offset < UInt32.size) → fault.kind = .unresolvedReference)) ∧
    ∀ fault, (plan header pools).1 = .error fault → PlanFault header pools fault := by
  rcases run : plan header pools with ⟨fault | layout, placed⟩
  · have faulty := plan_eq_error run
    refine ⟨fun layout success => (by cases success), fun _ _ _ _ _ _ _ => ⟨fault, rfl, faulty.kind_eq⟩, ?_⟩
    intro other same
    obtain rfl := Except.error.inj same
    exact faulty
  · have planned := plan_spec run
    refine ⟨?_, ?_, fun fault failure => (by cases failure)⟩
    · intro other same
      obtain rfl := Except.ok.inj same
      exact ⟨fun target ref holds some => planned.resolved holds (mt (planned.items_eq_nil_iff target).mp some),
        planned.resolved_iff⟩
    · intro target ref index holds found some none
      exact absurd ⟨⟨ref, holds, found⟩, some, none⟩ planned.not_dangling

/-- Static values beyond the encoded arrays that there are. -/
example : (plan (.ofVersion 35) { Pools.empty with
    classDefs := .ofList [{ type := .absent, access := 1, superclass := .absent, interfaces := .absent,
                            sourceFile := .absent, annotations := .absent, classData := .absent,
                            staticValues := .unplaced 4 }]
    encodedArrays := .ofList [.empty] }).1 = .error (Fault.of (.notLaidOut .encodedArray 4)) := by decide +kernel

/-- Pools whose only item is a class definition with class data that they do not have. -/
def classWithoutData : Pools :=
  { Pools.empty with
    classDefs := .ofList [{ type := .absent, access := 1, superclass := .absent, interfaces := .absent,
                            sourceFile := .absent, annotations := .absent, classData := .placed 0 112,
                            staticValues := .absent }] }

/-- The layout of `classWithoutData`: the class definition and the map. -/
def classWithoutDataLayout : Layout where
  offsets := ⟨[(.classDef, #[112])]⟩
  map := ⟨[⟨.header, 1, 0⟩, ⟨.classDef, 1, 112⟩, ⟨.mapList, 1, 144⟩]⟩
  dataOffset := 144
  fileSize := 184

/-- A plan can succeed with a reference to an item that is not there, which keeps the offset it came with. -/
theorem plan_keeps_stale_offset :
    plan (.ofVersion 35) classWithoutData = (.ok classWithoutDataLayout, classWithoutData) ∧
      ∃ ref : DataRef .classData, classWithoutData.Holds ref ∧ ref.index = some 0 ∧ ref.offset = .ok 112 ∧
        classWithoutData.get? .classData 0 = none ∧ ¬ ref.Resolved classWithoutData classWithoutDataLayout := by
  refine ⟨by rfl, .placed 0 112, ?_, rfl, rfl, rfl, not_resolved_of_empty rfl rfl⟩
  refine ⟨.classDef, _, List.mem_singleton_self _, .definition, ?_⟩
  decide

end Layout
end DexImage
