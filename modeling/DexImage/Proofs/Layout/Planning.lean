import DexImage.Proofs.Layout.Sections
/-! # Plans

A plan places the sections that have items in turn. What is known of each section when it has been placed
(`Layout.PlannedSection`) still holds when all of them have been (`Layout.PlannedRun`): of the items, which have learnt
further offsets and are as long as they were, of the rows of offsets, and of the entries in the map.
-/

namespace DexImage.Layout

/-- How sections are planned in turn. -/
inductive PlannedRun (header : Header) : List SectionKind → Planning → Planning → Prop where
  | nil {planning : Planning} : PlannedRun header [] planning planning
  | cons {kind : SectionKind} {rest : List SectionKind} {before between after : Planning}
      (first : PlannedSection header kind before between) (others : PlannedRun header rest between after) :
      PlannedRun header (kind :: rest) before after

theorem planSections_spec {header : Header} {kinds : List SectionKind} {before after : Planning}
    (success : planSections header kinds before = (.ok (), after)) : PlannedRun header kinds before after := by
  induction kinds generalizing before with
  | nil =>
    obtain ⟨-, rfl⟩ := Reading.pure_eq_ok.mp success
    exact .nil
  | cons kind rest ih =>
    obtain ⟨_, between, first, others⟩ := Reading.bind_eq_ok.mp success
    exact .cons (planSection_spec first) (ih others)

section Relocation

/-- How an item changes while sections are placed: some of its references learn offsets. -/
inductive Relocated (kinds : List PoolKind) {kind : PoolKind} (item : Item kind) : Item kind → Prop where
  | refl : Relocated kinds item item
  | told {other : Item kind} (offsets : OffsetTable) {target : PoolKind} (member : target ∈ kinds)
      (relocated : Relocated kinds item other) : Relocated kinds item (locate (finder offsets target) other)

variable {kinds : List PoolKind} {kind : PoolKind} {item other : Item kind}

theorem Relocated.mono {more : List PoolKind} (relocated : Relocated kinds item other) (subset : kinds ⊆ more) :
    Relocated more item other := by
  induction relocated with
  | refl => exact .refl
  | told offsets member _ ih => exact .told offsets (subset member) ih

theorem Relocated.trans {third : Item kind} (first : Relocated kinds item other)
    (second : Relocated kinds other third) : Relocated kinds item third := by
  induction second with
  | refl => exact first
  | told offsets member _ ih => exact .told offsets member ih

theorem Relocated.alike (relocated : Relocated kinds item other) : Alike other item := by
  induction relocated with
  | refl => exact .refl _ _
  | told offsets _ _ ih => exact (alike_locate _ _).trans ih

theorem Relocated.size (relocated : Relocated kinds item other) (steady : kind = .classData → .code ∉ kinds) :
    encodedSize other = encodedSize item := by
  induction relocated with
  | refl => rfl
  | @told _ offsets target member _ ih =>
    refine (encodedSize_locate _ _ fun data slot code => ?_).trans ih
    have differ : slot.kind ≠ target := fun same => steady data (code ▸ same ▸ member)
    rw [finder, if_neg differ]

/-- References into other sections stay as they were. -/
theorem Relocated.mem_held (relocated : Relocated kinds item other) {one : Held}
    (member : one ∈ (itemHolding kind).held other) (untold : one.kind ∉ kinds) :
    one ∈ (itemHolding kind).held item := by
  induction relocated with
  | refl => exact member
  | @told _ offsets target told _ ih =>
    rw [held_locate] at member
    obtain ⟨old, present, rfl⟩ := List.mem_map.mp member
    by_cases same : old.slot.kind = target
    · refine absurd told (same ▸ ?_)
      have kept : (old.edited ((finder offsets target).edit old.slot)).kind = old.kind := by
        rw [Finder.edit]
        cases finder offsets target old.slot <;> cases old <;> rfl
      rw [kept] at untold
      exact untold
    · have kept : old.edited ((finder offsets target).edit old.slot) = old := by
        rw [Finder.edit, finder, if_neg same, Held.edited_keep]
      rw [kept] at ih ⊢
      exact ih present

/-- How pools change while sections are placed. -/
def RelocatedPools (kinds : List PoolKind) (before after : Pools) : Prop :=
  ∀ kind, ∃ edit : Item kind → Item kind, after.pool kind = (before.pool kind).map edit ∧
    ∀ item, Relocated kinds item (edit item)

variable {before between after : Pools}

theorem RelocatedPools.refl (kinds : List PoolKind) (pools : Pools) : RelocatedPools kinds pools pools :=
  fun _ => ⟨id, by simp [Pool.map], fun _ => .refl⟩

theorem RelocatedPools.trans (first : RelocatedPools kinds before between)
    (second : RelocatedPools kinds between after) : RelocatedPools kinds before after := by
  intro kind
  obtain ⟨edit, same, each⟩ := first kind
  obtain ⟨edit', same', each'⟩ := second kind
  refine ⟨edit' ∘ edit, ?_, fun item => (each item).trans (each' (edit item))⟩
  rw [same', same]
  simp [Pool.map, Function.comp_def]

theorem RelocatedPools.mono {more : List PoolKind} (relocated : RelocatedPools kinds before after)
    (subset : kinds ⊆ more) : RelocatedPools more before after := by
  intro kind
  obtain ⟨edit, same, each⟩ := relocated kind
  exact ⟨edit, same, fun item => (each item).mono subset⟩

theorem RelocatedPools.size (relocated : RelocatedPools kinds before after) (kind : SectionKind) :
    after.size kind = before.size kind := by
  rw [Pools.size, Pools.size]
  cases kind.pool? with
  | none => rfl
  | some pool =>
    obtain ⟨edit, same, -⟩ := relocated pool
    simp only [same, Pool.size_map]

theorem RelocatedPools.itemCount (relocated : RelocatedPools kinds before after) (kind : SectionKind) :
    Layout.itemCount after kind = Layout.itemCount before kind := by
  cases kind <;> simp only [Layout.itemCount, relocated.size]

/-- Sizes stay, unless class data learns where its code is. -/
theorem RelocatedPools.sizesOf (relocated : RelocatedPools kinds before after) {kind : SectionKind}
    (steady : kind = .classData → .code ∉ kinds) : sizesOf after kind = sizesOf before kind := by
  rw [Layout.sizesOf, Layout.sizesOf, relocated.size, Pools.itemSizes, Pools.itemSizes]
  rcases found : kind.pool? with _ | pool
  · rfl
  · obtain ⟨edit, same, each⟩ := relocated pool
    have sizes : (after.pool pool).items.map encodedSize = (before.pool pool).items.map encodedSize := by
      rw [same, Pool.items_map, List.map_map]
      refine List.map_congr_left fun item _ => (each item).size ?_
      rintro rfl
      exact steady (by cases kind <;> cases found; rfl)
    simp only [sizes]

end Relocation

section Rows

theorem offset?_of_row? {offsets : OffsetTable} {kind : SectionKind}
    {row : Array UInt32} (found : offsets.row? kind = some row)
    (index : UInt32) : offsets.offset? kind index = row[index.toNat]? := by
  rw [OffsetTable.offset?, found]
  rfl

theorem offset?_eq_row (offsets : OffsetTable) (kind : SectionKind) (index : UInt32) :
    offsets.offset? kind index = (offsets.row kind)[index.toNat]? := by
  rw [OffsetTable.offset?, OffsetTable.row]
  cases offsets.row? kind with
  | none => rfl
  | some row => rfl

@[simp] theorem row?_setRow_self (offsets : OffsetTable) (kind : SectionKind) (row : Array UInt32) :
    (offsets.setRow kind row).row? kind = some row := by
  simp [OffsetTable.setRow, OffsetTable.row?]

theorem row?_setRow_of_ne (offsets : OffsetTable) {kind other : SectionKind} (differ : other ≠ kind)
    (row : Array UInt32) : (offsets.setRow kind row).row? other = offsets.row? other := by
  obtain ⟨rows⟩ := offsets
  have first : (other == kind) = false := beq_eq_false_iff_ne.mpr differ
  rw [OffsetTable.setRow, OffsetTable.row?, OffsetTable.row?, List.lookup_cons, first]
  induction rows with
  | nil => rfl
  | cons entry rest ih =>
    obtain ⟨one, offsets⟩ := entry
    by_cases same : one = kind
    · subst same
      simp only [List.filter_cons, List.lookup_cons, first]
      simpa using ih
    · simp only [List.filter_cons, bne_iff_ne, ne_eq, same, not_false_eq_true, if_true, List.lookup_cons]
      cases other == one
      · simpa using ih
      · rfl

end Rows

section Runs

variable {header : Header} {kinds : List SectionKind} {kind : SectionKind} {before after : Planning}

/-- Whether the items of a section are referred to by their offsets. -/
def isTracked (kind : SectionKind) : Bool := !kind.isIdTable && kind != .stringData && kind.pool?.isSome

/-- The pools of some sections. -/
def poolsOf (kinds : List SectionKind) : List PoolKind := kinds.filterMap SectionKind.pool?

theorem exists_pool (notHeader : kind ≠ .header) (notMap : kind ≠ .mapList) : ∃ pool, kind.pool? = some pool := by
  cases kind <;> first | contradiction | exact ⟨_, rfl⟩

theorem toSection_of_tracked {pool : PoolKind} (tracked : (!kind.isIdTable && kind != .stringData) = true)
    (known : kind.pool? = some pool) : pool.toSection = kind := by
  cases kind <;> cases known <;> first | rfl | cases tracked

/-- Placing a section changes pools only where references lead into it: they learn the offsets of their targets. -/
theorem PlannedSection.telling (section' : PlannedSection header kind before after) :
    (isTracked kind = true → itemCount before.pools kind = 0) ∧ after.pools = before.pools ∨
      isTracked kind = true ∧ itemCount before.pools kind ≠ 0 ∧
        ∃ target : PoolKind, target.toSection = kind ∧
        Located after.layout.offsets target before.pools after.pools := by
  cases section' with
  | empty none => exact .inl ⟨fun _ => none, rfl⟩
  | placed start some _ _ items =>
    rcases cases_section kind with rfl | rfl | ⟨notHeader, notMap⟩
    · exact .inl ⟨fun tracked => absurd tracked (by decide), items.2.2⟩
    · exact .inl ⟨fun tracked => absurd tracked (by decide), items.2.2⟩
    obtain ⟨pool, known⟩ := exists_pool notHeader notMap
    have told := ((placedItems_iff notHeader notMap).mp items).2
    split_ifs at told with tracked
    · exact .inr ⟨by rw [isTracked, tracked, known]; rfl, some, pool,
        toSection_of_tracked tracked known, told pool known⟩
    · refine .inl ⟨fun both => absurd ?_ tracked, told⟩
      rw [isTracked, Bool.and_eq_true] at both
      exact both.1

theorem PlannedSection.pools (section' : PlannedSection header kind before after) :
    RelocatedPools (poolsOf [kind]) before.pools after.pools := by
  rcases section'.telling with ⟨-, same⟩ | ⟨-, -, target, rfl, located⟩
  · exact same ▸ .refl _ _
  · intro other
    exact ⟨_, located.pools other, fun item => .told _ (by simp [poolsOf]) .refl⟩

theorem PlannedSection.row?_of_ne (section' : PlannedSection header kind before after) {other : SectionKind}
    (differ : other ≠ kind) : after.layout.offsets.row? other = before.layout.offsets.row? other := by
  cases section' with
  | empty => rfl
  | placed start _ _ _ items =>
    rcases cases_section kind with rfl | rfl | ⟨notHeader, notMap⟩
    · rw [items.2.1]
    · rw [items.2.1]
    obtain ⟨⟨offsets, -, same⟩, -⟩ := (placedItems_iff notHeader notMap).mp items
    rw [same, row?_setRow_of_ne _ differ]

/-- What is known of a section in the map of a plan. -/
structure PlannedEntry (planning : Planning) (entry : MapEntry) : Prop where
  size : entry.size = (itemCount planning.pools entry.kind).toUInt32
  some : itemCount planning.pools entry.kind ≠ 0
  row : entry.kind ≠ .header → entry.kind ≠ .mapList → ∃ offsets,
    planning.layout.offsets.row? entry.kind = Option.some offsets ∧
    offsets.toList.map UInt32.toNat =
      starts (alignmentOf entry.kind) entry.offset.toNat (sizesOf planning.pools entry.kind) ∧
    behind (alignmentOf entry.kind) entry.offset.toNat (sizesOf planning.pools entry.kind) ≤ planning.position

/-- Sections that may be placed one after the other: code is placed before class data, and nothing behind
the map list. -/
def Apart (first second : SectionKind) : Prop :=
  first ≠ second ∧ (first = .classData → second ≠ .code) ∧ first ≠ .mapList

instance (first second : SectionKind) : Decidable (Apart first second) := inferInstanceAs (Decidable (_ ∧ _ ∧ _))

/-- A section that has items is entered into the map as it is placed. -/
theorem PlannedSection.entered (section' : PlannedSection header kind before after) :
    (itemCount before.pools kind = 0 ∧ after = before) ∨ ∃ entry, entry.kind = kind ∧
      after.layout.map.entries = before.layout.map.entries ++ [entry] ∧ PlannedEntry after entry ∧
      before.position ≤ entry.offset.toNat ∧ entry.offset.toNat ≤ after.position ∧
      entry.offset.toNat = before.position + Bytes.padding before.position kind.alignment := by
  have relocated := section'.pools
  cases section' with
  | empty none => exact .inl ⟨none, rfl⟩
  | placed start some aligned entered items =>
    refine .inr ⟨⟨kind, (itemCount before.pools kind).toUInt32, start⟩, rfl, entered, ?_, ?_, ?_, aligned⟩
    · refine ⟨by rw [relocated.itemCount], by rwa [relocated.itemCount], fun notHeader notMap => ?_⟩
      obtain ⟨⟨offsets, placed, same⟩, -⟩ := (placedItems_iff notHeader notMap).mp items
      obtain ⟨last, numbers, listed, numbered⟩ := placeItems_eq_ok placed
      have sizes : sizesOf after.pools kind = sizesOf before.pools kind :=
        relocated.sizesOf fun data => by subst data; decide
      refine ⟨offsets, by rw [same, row?_setRow_self], ?_, ?_⟩
      · rw [listed, sizes, List.nil_append, numbered]
      · rw [sizes, last]
    · exact Nat.le_trans (Nat.le_add_right _ _) (Nat.le_of_eq aligned.symm)
    · rcases cases_section kind with rfl | rfl | ⟨notHeader, notMap⟩
      · exact items.1 ▸ Nat.le_add_right _ _
      · exact items.1 ▸ Nat.le_trans (Nat.le_add_right _ _) (Nat.le_add_right _ _)
      · obtain ⟨⟨offsets, placed, -⟩, -⟩ := (placedItems_iff notHeader notMap).mp items
        rw [(placeItems_eq_ok placed).1]
        exact le_behind _ _ _

theorem PlannedSection.position_le (section' : PlannedSection header kind before after) :
    before.position ≤ after.position := by
  rcases section'.entered with ⟨-, rfl⟩ | ⟨entry, -, -, -, first, second, -⟩
  · exact Nat.le_refl _
  · exact Nat.le_trans first second

theorem PlannedRun.pools (run : PlannedRun header kinds before after) :
    RelocatedPools (poolsOf kinds) before.pools after.pools := by
  induction run with
  | nil => exact .refl _ _
  | @cons kind rest _ _ _ first _ ih =>
    have split : poolsOf (kind :: rest) = poolsOf [kind] ++ poolsOf rest := List.filterMap_append (l := [kind])
    rw [split]
    exact (first.pools.mono (List.subset_append_left _ _)).trans (ih.mono (List.subset_append_right _ _))

theorem PlannedRun.row?_of_notMem (run : PlannedRun header kinds before after) {other : SectionKind}
    (absent : other ∉ kinds) : after.layout.offsets.row? other = before.layout.offsets.row? other := by
  induction run with
  | nil => rfl
  | cons first _ ih =>
    simp only [List.mem_cons, not_or] at absent
    rw [ih absent.2, first.row?_of_ne absent.1]

theorem PlannedRun.position_le (run : PlannedRun header kinds before after) : before.position ≤ after.position := by
  induction run with
  | nil => exact Nat.le_refl _
  | cons first _ ih => exact Nat.le_trans first.position_le ih

theorem mem_poolsOf_code {kinds : List SectionKind} (member : PoolKind.code ∈ poolsOf kinds) :
    SectionKind.code ∈ kinds := by
  obtain ⟨kind, present, found⟩ := List.mem_filterMap.mp member
  cases kind <;> cases found
  exact present

/-- What is known of a section stays so while other sections are placed. -/
theorem PlannedEntry.later {entry : MapEntry} (planned : PlannedEntry before entry)
    (run : PlannedRun header kinds before after) (apart : ∀ kind ∈ kinds, Apart entry.kind kind) :
    PlannedEntry after entry := by
  have count := run.pools.itemCount entry.kind
  have sizes : sizesOf after.pools entry.kind = sizesOf before.pools entry.kind :=
    run.pools.sizesOf fun data code => (apart _ (mem_poolsOf_code code)).2.1 data rfl
  have absent : entry.kind ∉ kinds := fun member => (apart _ member).1 rfl
  have row := run.row?_of_notMem absent
  refine ⟨by rw [count, planned.size], by rw [count]; exact planned.some, fun notHeader notMap => ?_⟩
  obtain ⟨offsets, found, numbers, last⟩ := planned.row notHeader notMap
  exact ⟨offsets, row.trans found, by rw [sizes, numbers], by rw [sizes]; exact Nat.le_trans last run.position_le⟩

/-- The sections that have items are entered into the map in the order in which they are placed. -/
theorem PlannedRun.entered (run : PlannedRun header kinds before after) (apart : kinds.Pairwise Apart) :
    ∃ added, after.layout.map.entries = before.layout.map.entries ++ added ∧
      (added.map MapEntry.kind).Sublist kinds ∧
      (∀ entry ∈ added, PlannedEntry after entry ∧ before.position ≤ entry.offset.toNat) ∧
      ∀ kind ∈ kinds, itemCount after.pools kind ≠ 0 → ∃ entry ∈ added, entry.kind = kind := by
  induction run with
  | nil => exact ⟨[], by simp, .slnil, by simp, by simp⟩
  | @cons kind rest _ _ _ first others ih =>
    obtain ⟨fresh, apart⟩ := List.pairwise_cons.mp apart
    obtain ⟨added, same, sublist, planned, entered⟩ := ih apart
    rcases first.entered with ⟨none, rfl⟩ | ⟨entry, rfl, now, plan, lower, -⟩
    · refine ⟨added, same, .cons _ sublist, planned, fun other member some => ?_⟩
      rcases List.mem_cons.mp member with rfl | member
      · rw [others.pools.itemCount] at some
        exact absurd none some
      · exact entered other member some
    · refine ⟨entry :: added, by rw [same, now, List.append_assoc, List.singleton_append], sublist.cons_cons _, ?_, ?_⟩
      · refine List.forall_mem_cons.mpr ⟨⟨plan.later others fresh, lower⟩, fun other member => ?_⟩
        exact ⟨(planned other member).1, Nat.le_trans first.position_le (planned other member).2⟩
      · intro other member some
        rcases List.mem_cons.mp member with rfl | member
        · exact ⟨entry, List.mem_cons_self, rfl⟩
        · obtain ⟨found, present, same⟩ := entered other member some
          exact ⟨found, List.mem_cons_of_mem _ present, same⟩

/-- What comes next is placed behind the items of a section. -/
theorem PlannedSection.behind (section' : PlannedSection header kind before after) :
    after = before ∨ ∃ entry, entry.kind = kind ∧ after.layout.map.entries = before.layout.map.entries ++ [entry] ∧
      entry.offset.toNat = before.position + Bytes.padding before.position kind.alignment ∧
      after.position =
        Layout.behind kind.alignment entry.offset.toNat (sizesIn header after.layout.map after.pools kind) := by
  have relocated := section'.pools
  cases section' with
  | empty none => exact .inl rfl
  | placed start some aligned entered items =>
    refine .inr ⟨_, rfl, entered, aligned, ?_⟩
    have dvd : kind.alignment ∣ start.toNat := aligned ▸ dvd_add_padding (alignment_pos kind) _
    rcases cases_section kind with rfl | rfl | ⟨notHeader, notMap⟩
    · exact items.1.trans (by rw [sizesIn, Layout.behind, padding_of_dvd dvd, Layout.behind, Nat.add_zero])
    · have size : encodedSize after.layout.map = 4 + 12 * (before.layout.map.entries.length + 1) := by
        change 4 + 12 * after.layout.map.entries.length = _
        rw [entered, List.length_append, List.length_singleton]
      refine items.1.trans ?_
      rw [sizesIn, Layout.behind, padding_of_dvd dvd, Layout.behind, size, Nat.add_zero]
      exact Nat.add_assoc _ _ _
    · obtain ⟨⟨offsets, placed, -⟩, -⟩ := (placedItems_iff notHeader notMap).mp items
      rw [sizesIn_eq notHeader notMap,
        relocated.sizesOf fun data => by subst data; decide, ← (placed_alignmentOf _ dvd).2]
      exact (placeItems_eq_ok placed).1

/-- Sections that are planned in turn lie one behind the other. -/
theorem PlannedRun.chained (run : PlannedRun header kinds before after) (apart : kinds.Pairwise Apart) :
    ∃ added, after.layout.map.entries = before.layout.map.entries ++ added ∧
      Chained (sizesIn header after.layout.map after.pools) before.position added after.position := by
  induction run with
  | nil => exact ⟨[], (List.append_nil _).symm, .nil⟩
  | @cons kind rest before between after first others ih =>
    obtain ⟨fresh, apart⟩ := List.pairwise_cons.mp apart
    obtain ⟨added, same, chained⟩ := ih apart
    rcases first.behind with rfl | ⟨entry, rfl, now, aligned, last⟩
    · exact ⟨added, same, chained⟩
    · refine ⟨entry :: added, by rw [same, now, List.append_assoc, List.singleton_append], .cons aligned ?_⟩
      -- Nothing is placed behind the map list, so that its size is what it is in the end.
      have sizes : sizesIn header after.layout.map after.pools entry.kind =
          sizesIn header between.layout.map between.pools entry.kind := by
        by_cases notMap : entry.kind = .mapList
        · cases others with
          | nil => rfl
          | @cons next => exact absurd notMap (fresh next List.mem_cons_self).2.2
        by_cases notHeader : entry.kind = .header
        · rw [notHeader]
          rfl
        rw [sizesIn_eq notHeader notMap, sizesIn_eq notHeader notMap]
        exact others.pools.sizesOf fun data code => (fresh _ (mem_poolsOf_code code)).2.1 data rfl
      rw [sizes, ← last]
      exact chained

/-- Whether the references into a section know the offsets of their targets. -/
def Told (planning : Planning) (target : PoolKind) : Prop :=
  ∀ kind, ∀ item ∈ (planning.pools.pool kind).items, ∀ usage index known,
    Held.data target usage (some (index, known)) ∈ (itemHolding kind).held item →
      ∃ offset, planning.layout.offsets.offset? target.toSection index = some offset ∧ known = some offset

/-- A present data reference that is told nothing knows what it knew. -/
theorem eq_data_of_edited {one : Held} {find : Finder} {target : PoolKind} {usage : Usage} {index : UInt32}
    {known : Option UInt32} (same : one.edited (find.edit one.slot) = .data target usage (some (index, known))) :
    ∃ before, one = .data target usage (some (index, before)) ∧
      known = (find ⟨target, some index, usage⟩).or before := by
  rw [Finder.edit] at same
  rcases told : find one.slot with _ | offset
  · rw [told] at same
    refine ⟨known, by rw [← same, Held.edited_keep], ?_⟩
    rw [Held.edited_keep] at same
    subst same
    change find ⟨target, some index, usage⟩ = none at told
    rw [told, Option.none_or]
  · rw [told] at same
    cases one with
    | data _ _ state =>
      rcases state with _ | ⟨place, before⟩
      · cases same
      · cases same
        change find ⟨target, some index, usage⟩ = some offset at told
        exact ⟨before, rfl, by rw [told, Option.some_or]⟩
    | id | operand => cases same

theorem mem_poolsOf {kinds : List SectionKind} {target : PoolKind} (tracked : isTracked target.toSection = true)
    (member : target ∈ poolsOf kinds) : target.toSection ∈ kinds := by
  obtain ⟨kind, present, found⟩ := List.mem_filterMap.mp member
  cases kind <;> cases found <;> first | exact present | cases tracked

theorem PlannedSection.told {target : PoolKind} (section' : PlannedSection header target.toSection before after)
    (tracked : isTracked target.toSection = true) (some : itemCount after.pools target.toSection ≠ 0) :
    Told after target := by
  rw [section'.pools.itemCount] at some
  rcases section'.telling with ⟨none, -⟩ | ⟨-, -, pool, home, located⟩
  · exact absurd (none tracked) some
  obtain rfl := PoolKind.toSection_injective home
  intro kind item member usage index known held
  rw [located.pools, Pool.items_map] at member
  obtain ⟨old, present, rfl⟩ := List.mem_map.mp member
  rw [held_locate] at held
  obtain ⟨one, there, same⟩ := List.mem_map.mp held
  obtain ⟨known', rfl, rfl⟩ := eq_data_of_edited same
  obtain ⟨offset, found⟩ := Option.isSome_iff_exists.mp
    (located.found _ (mem_slots_of_held present there) rfl index rfl)
  exact ⟨offset, found, by simp only [finder, if_true, Option.bind_some, found, Option.some_or]⟩

/-- References that know the offsets of their targets know them while other sections are placed. -/
theorem Told.later {target : PoolKind} (told : Told before target) (tracked : isTracked target.toSection = true)
    (run : PlannedRun header kinds before after) (apart : ∀ kind ∈ kinds, Apart target.toSection kind) :
    Told after target := by
  have absent : target.toSection ∉ kinds := fun member => (apart _ member).1 rfl
  intro kind item member usage index known held
  obtain ⟨edit, same, each⟩ := run.pools kind
  rw [same, Pool.items_map] at member
  obtain ⟨old, present, rfl⟩ := List.mem_map.mp member
  have kept := (each old).mem_held held fun member => absent (mem_poolsOf tracked member)
  rw [OffsetTable.offset?, run.row?_of_notMem absent]
  exact told kind old present usage index known kept

theorem PlannedRun.told (run : PlannedRun header kinds before after) (apart : kinds.Pairwise Apart)
    {target : PoolKind} (tracked : isTracked target.toSection = true) (member : target.toSection ∈ kinds)
    (some : itemCount after.pools target.toSection ≠ 0) : Told after target := by
  induction run with
  | nil => cases member
  | @cons kind rest _ _ _ first others ih =>
    obtain ⟨fresh, apart⟩ := List.pairwise_cons.mp apart
    rcases List.mem_cons.mp member with same | member
    · subst same
      rw [others.pools.itemCount] at some
      exact (first.told tracked some).later tracked others fresh
    · exact ih apart member some

end Runs

/-- What is known of a plan that succeeds: the pools differ in the offsets that references know, the header
comes first in the map and then every section that has items, and the references to data items know where
these are laid out. -/
structure Planned (header : Header) (pools : Pools) (layout : Layout) (placed : Pools) : Prop where
  pools : RelocatedPools PoolKind.all pools placed
  chained : Chained (sizesIn header layout.map placed) 0 layout.map.entries layout.fileSize.toNat
  header : ∃ added, layout.map.entries = ⟨.header, 1, 0⟩ :: added ∧
    (added.map MapEntry.kind).Sublist (order.drop 1) ∧ ∀ entry ∈ added,
      PlannedEntry ⟨layout, layout.fileSize.toNat, placed⟩ entry ∧ encodedSize header ≤ entry.offset.toNat
  entered : ∀ kind, itemCount placed kind ≠ 0 → ∃ entry ∈ layout.map.entries, entry.kind = kind
  told : ∀ target : PoolKind, isTracked target.toSection = true → itemCount placed target.toSection ≠ 0 →
    Told ⟨layout, layout.fileSize.toNat, placed⟩ target

/-- A plan succeeds when every section can be placed, and the image is not too long. -/
theorem plan_eq_ok {header : Header} {pools placed : Pools} {layout : Layout} :
    plan header pools = (.ok layout, placed) ↔ ∃ planned fileSize,
      planSections header order ⟨.empty, 0, pools⟩ = (.ok (), planned) ∧ word planned.position = .ok fileSize ∧
        { planned.layout with fileSize } = layout ∧ planned.pools = placed := by
  unfold plan
  extract_lets step
  constructor
  · intro success
    split at success
    rename_i result planned run
    obtain ⟨rfl, rfl⟩ := Prod.mk.inj success
    obtain ⟨_, between, sections, rest⟩ := Reading.bind_eq_ok.mp run
    obtain ⟨reached, same, got, rest⟩ := Reading.bind_eq_ok.mp rest
    cases got
    obtain ⟨fileSize, same, asked, done⟩ := Reading.bind_eq_ok.mp rest
    obtain ⟨found, rfl⟩ := Reading.ofResult_eq_ok.mp asked
    obtain ⟨rfl, rfl⟩ := Reading.pure_eq_ok.mp done
    exact ⟨planned, fileSize, sections, found, rfl, rfl⟩
  · rintro ⟨planned, fileSize, sections, found, rfl, rfl⟩
    have run : step ⟨.empty, 0, pools⟩ = (.ok { planned.layout with fileSize }, planned) :=
      (Reading.bind_ok sections).trans ((Reading.bind_ok rfl).trans
        ((Reading.bind_ok (Reading.ofResult_eq_ok.mpr ⟨found, rfl⟩)).trans rfl))
    rw [run]

theorem plan_spec {header : Header} {pools placed : Pools} {layout : Layout}
    (success : plan header pools = (.ok layout, placed)) : Planned header pools layout placed := by
  obtain ⟨planned, fileSize, sections, found, rfl, rfl⟩ := plan_eq_ok.mp success
  obtain ⟨-, number⟩ := word_eq_ok found
  have apart : order.Pairwise Apart := by decide
  have run := planSections_spec sections
  have every (kind : SectionKind) (some : itemCount planned.pools kind ≠ 0) : kind ∈ order := by
    cases kind <;> decide
  have told {target : PoolKind} (tracked : isTracked target.toSection = true)
      (some : itemCount planned.pools target.toSection ≠ 0) := run.told apart tracked (every _ some) some
  refine ⟨run.pools.mono (by decide), ?_, ?_, ?_, ?_⟩
  -- The map lists the sections behind one another up to the end of the file.
  · obtain ⟨added, listed, chained⟩ := run.chained apart
    obtain rfl : planned.layout.map.entries = added := listed
    rw [number]
    exact chained
  -- The header comes first and takes what stands in front of all other sections.
  · cases run with
    | cons first others =>
      rcases first.entered with ⟨none, -⟩ | ⟨entry, same, now, plan, -, -, start⟩
      · cases none
      obtain ⟨kind, size, offset⟩ := entry
      obtain rfl : kind = .header := same
      obtain ⟨added, listed, sublist, each, -⟩ := others.entered (List.pairwise_cons.mp apart).2
      obtain rfl : size = 1 := plan.size
      have zero : 0 + Bytes.padding 0 SectionKind.header.alignment = 0 := by decide
      obtain rfl : offset = 0 := UInt32.toNat_inj.mp (start.trans zero)
      refine ⟨added, by rw [listed, now]; rfl, sublist, fun entry member => ?_⟩
      obtain ⟨⟨size, some, row⟩, lower⟩ := each entry member
      refine ⟨⟨size, some, ?_⟩, Nat.le_trans ?_ lower⟩
      · simp only [number]
        exact row
      · cases first with
        | empty none => cases none
        | placed start _ _ _ items => exact items.1 ▸ Nat.le_add_left _ _
  · intro kind some
    obtain ⟨added, listed, -, -, entered⟩ := run.entered apart
    obtain ⟨entry, member, same⟩ := entered kind (every kind some) some
    exact ⟨entry, by rw [listed]; exact List.mem_append_right _ member, same⟩
  · intro target tracked some
    exact told tracked some

end DexImage.Layout
