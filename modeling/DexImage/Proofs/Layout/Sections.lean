import DexImage.Proofs.Traversals
/-! # Sections that are placed

A section is placed behind the one before it, and in it one item behind the other. References into it are told the
offsets of their targets. What is known of a section once it has been placed is said by `Layout.PlannedSection`.
-/

namespace DexImage.Layout

/-- Where items of the given sizes start that are placed from a position on. -/
def starts (alignment : Nat) : (position : Nat) → List Nat → List Nat
  | _, [] => []
  | position, size :: rest =>
    (position + Bytes.padding position alignment) ::
      starts alignment (position + Bytes.padding position alignment + size) rest

/-- The position behind items of the given sizes. -/
def behind (alignment : Nat) : (position : Nat) → List Nat → Nat
  | position, [] => position
  | position, size :: rest => behind alignment (position + Bytes.padding position alignment + size) rest

theorem word_eq_ok {offset : Nat} {value : UInt32} (success : word offset = .ok value) :
    offset < UInt32.size ∧ value.toNat = offset := by
  rw [word] at success
  split_ifs at success with fits
  obtain rfl := Except.ok.inj success
  exact ⟨fits, toNat_toUInt32_of_lt fits⟩

theorem placeItems_eq_ok {alignment position last : Nat} {sizes : List Nat} {found offsets : Array UInt32}
    (success : placeItems alignment position sizes found = .ok (offsets, last)) :
    last = behind alignment position sizes ∧
      ∃ placed : List UInt32, offsets.toList = found.toList ++ placed ∧
        placed.map UInt32.toNat = starts alignment position sizes := by
  induction sizes generalizing position found with
  | nil =>
    obtain ⟨rfl, rfl⟩ := Prod.mk.inj (Except.ok.inj success)
    exact ⟨rfl, [], by simp, rfl⟩
  | cons size rest ih =>
    obtain ⟨offset, first, success⟩ := Result.bind_eq_ok.mp success
    obtain ⟨same, placed, listed, numbers⟩ := ih success
    refine ⟨same, offset :: placed, by simp [listed], ?_⟩
    rw [List.map_cons, numbers, (word_eq_ok first).2, starts]

theorem length_starts (alignment position : Nat) (sizes : List Nat) :
    (starts alignment position sizes).length = sizes.length := by
  induction sizes generalizing position with
  | nil => rfl
  | cons size rest ih => rw [starts, List.length_cons, ih, List.length_cons]

theorem le_behind (alignment position : Nat) (sizes : List Nat) : position ≤ behind alignment position sizes := by
  induction sizes generalizing position with
  | nil => exact Nat.le_refl _
  | cons size rest ih => exact Nat.le_trans (by omega) (ih _)

/-- Items start at the position or behind it. -/
theorem le_of_mem_starts {alignment position start : Nat} {sizes : List Nat}
    (member : start ∈ starts alignment position sizes) : position ≤ start := by
  induction sizes generalizing position with
  | nil => cases member
  | cons size rest ih =>
    rcases List.mem_cons.mp member with rfl | member
    · exact Nat.le_add_right _ _
    · exact Nat.le_trans (by omega) (ih member)

/-- Items that are not empty start one behind the other. -/
theorem pairwise_starts {alignment position : Nat} {sizes : List Nat} (nonempty : ∀ size ∈ sizes, 0 < size) :
    (starts alignment position sizes).Pairwise (· < ·) := by
  induction sizes generalizing position with
  | nil => exact .nil
  | cons size rest ih =>
    obtain ⟨pos, others⟩ := List.forall_mem_cons.mp nonempty
    refine .cons (fun start member => ?_) (ih others)
    have := le_of_mem_starts member
    omega

/-- Items that are not empty take at least as many bytes as there are of them. -/
theorem length_le_behind {alignment position : Nat} {sizes : List Nat} (nonempty : ∀ size ∈ sizes, 0 < size) :
    position + sizes.length ≤ behind alignment position sizes := by
  induction sizes generalizing position with
  | nil => exact Nat.le_refl _
  | cons size rest ih =>
    obtain ⟨pos, others⟩ := List.forall_mem_cons.mp nonempty
    have := @ih (position + Bytes.padding position alignment + size) others
    rw [behind, List.length_cons]
    omega

theorem padding_of_dvd {position alignment : Nat} (aligned : alignment ∣ position) :
    Bytes.padding position alignment = 0 := by
  rw [Bytes.padding]
  split_ifs
  · rfl
  · rw [Nat.mod_eq_zero_of_dvd aligned, Nat.sub_zero, Nat.mod_self]

theorem dvd_add_padding {alignment : Nat} (pos : 0 < alignment) (position : Nat) :
    alignment ∣ position + Bytes.padding position alignment := by
  rw [Bytes.padding]
  split_ifs with small
  · obtain rfl : alignment = 1 := by omega
    exact Nat.one_dvd _
  · have below := Nat.mod_lt position pos
    rcases Nat.eq_zero_or_pos (position % alignment) with zero | some
    · rw [zero, Nat.sub_zero, Nat.mod_self, Nat.add_zero]
      exact Nat.dvd_of_mod_eq_zero zero
    · rw [Nat.mod_eq_of_lt (by omega : alignment - position % alignment < alignment)]
      have split := Nat.div_add_mod position alignment
      refine ⟨position / alignment + 1, ?_⟩
      rw [Nat.mul_add, Nat.mul_one]
      omega

/-- Items of aligned sizes are placed without gaps from an aligned position on. -/
theorem placed_of_dvd {alignment position : Nat} {sizes : List Nat} (aligned : alignment ∣ position)
    (each : ∀ size ∈ sizes, alignment ∣ size) :
    starts 1 position sizes = starts alignment position sizes ∧
      behind 1 position sizes = behind alignment position sizes := by
  induction sizes generalizing position with
  | nil => exact ⟨rfl, rfl⟩
  | cons size rest ih =>
    obtain ⟨first, others⟩ := List.forall_mem_cons.mp each
    obtain ⟨same, last⟩ := ih (Nat.dvd_add aligned first) others
    simp only [starts, behind, padding_of_dvd aligned, padding_of_dvd (Nat.one_dvd _),
      Nat.add_zero, same, last, and_self]

/-- What is wrong with a slot whose target of a kind has no offset. -/
def missing? (offsets : OffsetTable) (kind : PoolKind) (slot : Slot) : Option Fault :=
  if slot.kind = kind then
    slot.index.bind fun index =>
      if (offsets.offset? kind.toSection index).isSome then none
      else some (Fault.of (.notLaidOut kind.toSection index))
  else none

theorem shown_telling (offsets : OffsetTable) (kind : PoolKind) (slots : List Slot) :
    (telling offsets kind).shown none slots = slots.findSome? (missing? offsets kind) := by
  have stays (fault : Fault) (slots : List Slot) : (telling offsets kind).shown (some fault) slots = some fault := by
    induction slots with
    | nil => rfl
    | cons slot rest ih => exact ih
  induction slots with
  | nil => rfl
  | cons slot rest ih =>
    have first : (telling offsets kind slot none).2 = missing? offsets kind slot := by
      obtain ⟨target, index, usage⟩ := slot
      by_cases same : target = kind
      · subst same
        cases index with
        | none => simp [telling, missing?, Slot.placement]
        | some index =>
          cases found : offsets.offset? target.toSection index <;>
            simp [telling, missing?, Slot.placement, found]
      · simp [telling, missing?, same]
    rw [Visitor.shown_cons, first, List.findSome?_cons]
    cases missing? offsets kind slot with
    | none => exact ih
    | some fault => exact stays fault rest

/-- Telling the references into a section fails at the first whose target has no offset. -/
theorem fault_updateRefs (offsets : OffsetTable) (kind : PoolKind) (pools : Pools) :
    (updateRefs offsets kind pools).fault? = pools.slots.findSome? (missing? offsets kind) := by
  rw [updateRefs_eq, ← shown_telling, ← Pools.shown_visit]

/-- How pools change when the references into a section learn the offsets of their targets. -/
structure Located (offsets : OffsetTable) (kind : PoolKind) (before after : Pools) : Prop where
  pools : ∀ other, after.pool other = (before.pool other).map (locate (finder offsets kind))
  found : ∀ slot ∈ before.slots, slot.kind = kind → ∀ index, slot.index = some index →
    (offsets.offset? kind.toSection index).isSome

theorem located_of_updateRefs {offsets : OffsetTable} {kind : PoolKind} {pools : Pools}
    (success : (updateRefs offsets kind pools).fault? = none) :
    Located offsets kind pools (updateRefs offsets kind pools).value where
  pools := updateRefs_spec success
  found slot member same index present := by
    rw [fault_updateRefs, List.findSome?_eq_none_iff] at success
    have found := success slot member
    simp only [missing?, if_pos same, present, Option.bind_some] at found
    by_contra absent
    rw [if_neg absent] at found
    cases found

theorem mem_slots {pools : Pools} {slot : Slot} :
    slot ∈ pools.slots ↔ ∃ kind, ∃ item ∈ (pools.pool kind).items, slot ∈ slots item := by
  simp only [Pools.slots, List.mem_flatMap, PoolKind.mem_all, true_and]

theorem mem_slots_of_held {pools : Pools} {kind : PoolKind} {item : Item kind} (member : item ∈ (pools.pool kind).items)
    {one : Held} (held : one ∈ (itemHolding kind).held item) : one.slot ∈ pools.slots := by
  refine mem_slots.mpr ⟨kind, item, member, ?_⟩
  rw [slots_eq]
  exact List.mem_map_of_mem held

/-- The sizes of the items of a section. -/
def sizesOf (pools : Pools) (kind : SectionKind) : List Nat :=
  if kind.isIdTable then List.replicate (pools.size kind) (idEntrySize kind) else pools.itemSizes kind

/-- The alignment that the items of a section are placed with. -/
def alignmentOf (kind : SectionKind) : Nat := if kind.isIdTable then 1 else kind.alignment

theorem alignment_pos (kind : SectionKind) : 0 < kind.alignment := by cases kind <;> decide

/-- The entries of an id table are placed as if each had the alignment of the table. -/
theorem placed_alignmentOf (pools : Pools) {kind : SectionKind} {start : Nat} (aligned : kind.alignment ∣ start) :
    starts (alignmentOf kind) start (sizesOf pools kind) = starts kind.alignment start (sizesOf pools kind) ∧
      behind (alignmentOf kind) start (sizesOf pools kind) = behind kind.alignment start (sizesOf pools kind) := by
  by_cases table : kind.isIdTable = true
  · rw [alignmentOf, sizesOf, if_pos table, if_pos table]
    refine placed_of_dvd aligned fun size member => ?_
    rw [List.eq_of_mem_replicate member]
    cases kind <;> decide
  · rw [alignmentOf, if_neg table]
    exact ⟨rfl, rfl⟩

/-- The sizes of the items of a section, header and map list included. -/
def sizesIn (header : Header) (map : MapList) (pools : Pools) : SectionKind → List Nat
  | .header => [encodedSize header]
  | .mapList => [encodedSize map]
  | kind => sizesOf pools kind

theorem sizesIn_eq {kind : SectionKind} (notHeader : kind ≠ .header) (notMap : kind ≠ .mapList) (header : Header)
    (map : MapList) (pools : Pools) : sizesIn header map pools kind = sizesOf pools kind := by
  cases kind <;> first | contradiction | rfl

/-- Whether sections with items of some sizes lie one behind the other, from a position to another. -/
inductive Chained (sizes : SectionKind → List Nat) : Nat → List MapEntry → Nat → Prop where
  | nil {position : Nat} : Chained sizes position [] position
  | cons {position last : Nat} {entry : MapEntry} {rest : List MapEntry}
      (aligned : entry.offset.toNat = position + Bytes.padding position entry.kind.alignment)
      (others : Chained sizes (behind entry.kind.alignment entry.offset.toNat (sizes entry.kind)) rest last) :
      Chained sizes position (entry :: rest) last

/-- How the items of a section are placed. -/
def PlacedItems (header : Header) (start : Nat) (before after : Planning) : SectionKind → Prop
  | .header =>
    after.position = start + encodedSize header ∧ after.layout.offsets = before.layout.offsets ∧
      after.pools = before.pools
  | .mapList =>
    after.position = start + 4 + 12 * (before.layout.map.entries.length + 1) ∧
      after.layout.offsets = before.layout.offsets ∧ after.pools = before.pools
  | kind =>
    (∃ offsets, placeItems (alignmentOf kind) start (sizesOf before.pools kind) #[] = .ok (offsets, after.position) ∧
      after.layout.offsets = before.layout.offsets.setRow kind offsets) ∧
    if !kind.isIdTable && kind != .stringData then
      ∀ pool, kind.pool? = some pool → Located after.layout.offsets pool before.pools after.pools
    else after.pools = before.pools

/-- Header and map list are placed in a way of their own, and all other sections in the same way. -/
theorem cases_section (kind : SectionKind) :
    kind = .header ∨ kind = .mapList ∨ kind ≠ .header ∧ kind ≠ .mapList := by
  cases kind <;> decide

theorem placedItems_iff {header : Header} {kind : SectionKind} (notHeader : kind ≠ .header) (notMap : kind ≠ .mapList)
    {start : Nat} {before after : Planning} : PlacedItems header start before after kind ↔
      (∃ offsets, placeItems (alignmentOf kind) start (sizesOf before.pools kind) #[] = .ok (offsets, after.position) ∧
        after.layout.offsets = before.layout.offsets.setRow kind offsets) ∧
      if !kind.isIdTable && kind != .stringData then
        ∀ pool, kind.pool? = some pool → Located after.layout.offsets pool before.pools after.pools
      else after.pools = before.pools := by
  cases kind <;> first | contradiction | exact Iff.rfl

/-- Whether a section counts as data: header and id tables do not. -/
def isData (kind : SectionKind) : Bool := !kind.isIdTable && kind != .header

/-- How a section is planned: it is passed over, or it is placed and entered into the map, and noted where it is the
first data. -/
inductive PlannedSection (header : Header) (kind : SectionKind) : Planning → Planning → Prop where
  | empty {planning : Planning} (none : itemCount planning.pools kind = 0) :
    PlannedSection header kind planning planning
  | placed {before after : Planning} (start : UInt32) (some : itemCount before.pools kind ≠ 0)
      (aligned : start.toNat = before.position + Bytes.padding before.position kind.alignment)
      (entered : after.layout.map.entries =
        before.layout.map.entries ++ [⟨kind, (itemCount before.pools kind).toUInt32, start⟩])
      (items : PlacedItems header start.toNat before after kind)
      (noted : after.layout.dataOffset =
        if before.layout.dataOffset = 0 && isData kind then start else before.layout.dataOffset) :
      PlannedSection header kind before after

section Placing

variable {header : Header} {kind : SectionKind} {start position : Nat}
  {before after : Planning} {offsets : Array UInt32}

/-- The state in which the items of a section have been given offsets. -/
def withRow (kind : SectionKind) (offsets : Array UInt32) (position : Nat) (planning : Planning) : Planning :=
  { planning with
    position
    layout := { planning.layout with offsets := planning.layout.offsets.setRow kind offsets } }

/-- The pool into which the references to a section lead, unless none of them knows an offset. -/
def trackedPool? (kind : SectionKind) : Option PoolKind :=
  if !kind.isIdTable && kind != .stringData then kind.pool? else none

/-- The pools when the references to a section have been told where its items lie. -/
def toldPools (kind : SectionKind) (planning : Planning) : Outcome Pools :=
  match trackedPool? kind with
  | some pool => updateRefs planning.layout.offsets pool planning.pools
  | none => ⟨none, planning.pools⟩

theorem placeSection_header : placeSection header .header start before =
    (.ok (), { before with position := start + encodedSize header }) := rfl

theorem placeSection_mapList : placeSection header .mapList start before =
    (.ok (), { before with position := start + 4 + 12 * (before.layout.map.entries.length + 1) }) := rfl

theorem placeSection_of_error {fault : Fault} (notHeader : kind ≠ .header) (notMap : kind ≠ .mapList)
    (failure : placeItems (alignmentOf kind) start (sizesOf before.pools kind) #[] = .error fault) :
    placeSection header kind start before = (.error fault, before) := by
  unfold placeSection
  rw [Reading.bind_ok (Reading.get_run before)]
  split
  · contradiction
  · contradiction
  have run := Reading.ofResult_run (placeItems (alignmentOf kind) start (sizesOf before.pools kind) #[]) before
  exact Reading.bind_error (run.trans (by rw [failure]))

/-- The items of a section are given offsets, and then the references to them are told. -/
theorem placeSection_of_ok (notHeader : kind ≠ .header) (notMap : kind ≠ .mapList)
    (placed : placeItems (alignmentOf kind) start (sizesOf before.pools kind) #[] = .ok (offsets, position)) :
    placeSection header kind start before =
      ((toldPools kind (withRow kind offsets position before)).fault?.elim (.ok ()) .error,
        { withRow kind offsets position before with
          pools := (toldPools kind (withRow kind offsets position before)).value }) := by
  unfold placeSection
  rw [Reading.bind_ok (Reading.get_run before)]
  split
  · contradiction
  · contradiction
  have run := (Reading.ofResult_run (placeItems (alignmentOf kind) start (sizesOf before.pools kind) #[]) before).trans
    (by rw [placed])
  refine (Reading.bind_ok run).trans ((Reading.bind_ok rfl).trans ((Reading.bind_ok rfl).trans ?_))
  rw [toldPools, trackedPool?]
  split_ifs with tracked
  · cases kind.pool? with
    | none => rfl
    | some pool =>
      refine (Reading.bind_ok (Reading.get_run _)).trans ((Reading.bind_ok (Reading.set_run _ _)).trans ?_)
      dsimp only [withRow]
      cases (updateRefs (before.layout.offsets.setRow kind offsets) pool before.pools).fault? <;> rfl
  · rfl

theorem located_of_toldPools {planning : Planning} (success : (toldPools kind planning).fault? = none) :
    if !kind.isIdTable && kind != .stringData then
      ∀ pool, kind.pool? =
        some pool → Located planning.layout.offsets pool planning.pools (toldPools kind planning).value
    else (toldPools kind planning).value = planning.pools := by
  rw [toldPools, trackedPool?] at success ⊢
  split_ifs with tracked
  · intro pool known
    simp only [if_pos tracked, known] at success ⊢
    exact located_of_updateRefs success
  · rfl

/-- Whether all references to a section lead to its items can be told from the slots. -/
theorem fault_toldPools_congr {planning : Planning} {pools : Pools} (slots : pools.slots = planning.pools.slots) :
    (toldPools kind { planning with pools }).fault? = (toldPools kind planning).fault? := by
  rw [toldPools, toldPools]
  cases trackedPool? kind with
  | none => rfl
  | some pool => simp only [fault_updateRefs, slots]

private theorem eq_none_of_elim {fault? : Option Fault}
    (success : fault?.elim (.ok ()) .error = (.ok () : Result Unit)) :
    fault? = none := by
  cases fault? with
  | none => rfl
  | some fault => cases success

private theorem placeSection_spec (success : placeSection header kind start before = (.ok (), after)) :
    PlacedItems header start before after kind ∧ after.layout.map = before.layout.map ∧
      after.layout.dataOffset = before.layout.dataOffset := by
  rcases cases_section kind with rfl | rfl | ⟨notHeader, notMap⟩
  · obtain ⟨-, rfl⟩ := Prod.mk.inj (placeSection_header.symm.trans success)
    exact ⟨⟨rfl, rfl, rfl⟩, rfl, rfl⟩
  · obtain ⟨-, rfl⟩ := Prod.mk.inj (placeSection_mapList.symm.trans success)
    exact ⟨⟨rfl, rfl, rfl⟩, rfl, rfl⟩
  rcases placed : placeItems (alignmentOf kind) start (sizesOf before.pools kind) #[] with fault | ⟨offsets, position⟩
  · rw [placeSection_of_error notHeader notMap placed] at success
    cases success
  rw [placeSection_of_ok notHeader notMap placed] at success
  obtain ⟨told, rfl⟩ := Prod.mk.inj success
  refine ⟨(placedItems_iff notHeader notMap).mpr ⟨⟨offsets, placed, rfl⟩, ?_⟩, rfl, rfl⟩
  exact located_of_toldPools (eq_none_of_elim told)

/-- The state in which the offset of a section is noted, where it is the first data. -/
def withDataOffset (kind : SectionKind) (start : UInt32) (planning : Planning) : Planning :=
  { planning with layout := { planning.layout with
    dataOffset := if planning.layout.dataOffset = 0 && isData kind then start else planning.layout.dataOffset } }

/-- The state in which a section that has been placed is entered into the map. -/
def withEntry (entry : MapEntry) (planning : Planning) : Planning :=
  { planning with layout := { planning.layout with map := ⟨planning.layout.map.entries ++ [entry]⟩ } }

theorem withDataOffset_of_first {planning : Planning} (first : (planning.layout.dataOffset = 0 && isData kind) = true)
    (start : UInt32) : withDataOffset kind start planning =
      { planning with layout := { planning.layout with dataOffset := start } } := by
  rw [withDataOffset, if_pos first]

theorem withDataOffset_of_later {planning : Planning} (later : ¬ (planning.layout.dataOffset = 0 && isData kind) = true)
    (start : UInt32) : withDataOffset kind start planning = planning := by
  rw [withDataOffset, if_neg later]

/-- A section without items is passed over. -/
theorem planSection_of_empty (none : itemCount before.pools kind = 0) :
    planSection header kind before = (.ok (), before) := by
  unfold planSection
  rw [Reading.bind_ok (Reading.get_run before)]
  dsimp only
  rw [if_pos none]
  rfl

/-- Places a section from where it starts, and enters it into the map. -/
def enterSection (header : Header) (kind : SectionKind) (count place : Nat) : Reading Planning Unit := do
  placeSection header kind place
  let start ← Reading.ofResult (word place)
  modify (withEntry ⟨kind, count.toUInt32, start⟩)

theorem enterSection_eq_ok {count place : Nat} : enterSection header kind count place before = (.ok (), after) ↔
    ∃ start placed, word place = .ok start ∧ placeSection header kind place before = (.ok (), placed) ∧
      after = withEntry ⟨kind, count.toUInt32, start⟩ placed := by
  constructor
  · intro run
    obtain ⟨_, _, first, run⟩ := Reading.bind_eq_ok.mp run
    obtain ⟨start, placed, asked, entering⟩ := Reading.bind_eq_ok.mp run
    obtain ⟨found, rfl⟩ := Reading.ofResult_eq_ok.mp asked
    exact ⟨start, placed, found, first, Reading.modify_eq_ok.mp entering⟩
  · rintro ⟨start, placed, found, first, rfl⟩
    exact (Reading.bind_ok first).trans (Reading.bind_ok (Reading.ofResult_eq_ok.mpr ⟨found, rfl⟩))

theorem enterSection_eq_error {count place : Nat} {fault : Fault}
    (failure : enterSection header kind count place before = (.error fault, after)) :
    placeSection header kind place before = (.error fault, after) ∨ word place = .error fault := by
  rcases Reading.bind_eq_error failure with failing | ⟨_, _, _, rest⟩
  · exact .inl failing
  rcases Reading.bind_eq_error rest with asked | ⟨_, _, _, entering⟩
  · exact .inr (Reading.ofResult_eq_error asked)
  · cases entering

/-- A section that has items is entered where it starts, once the offset of the first data has been noted. -/
theorem planSection_of_items (some : itemCount before.pools kind ≠ 0) {place : Nat}
    (here : before.position + Bytes.padding before.position kind.alignment = place) :
    planSection header kind before =
      if before.layout.dataOffset = 0 && isData kind then
        (do set (withDataOffset kind (← Reading.ofResult (word place)) before)
            enterSection header kind (itemCount before.pools kind) place : Reading Planning Unit) before
      else enterSection header kind (itemCount before.pools kind) place before := by
  subst here
  unfold planSection
  rw [Reading.bind_ok (Reading.get_run before)]
  dsimp only
  rw [if_neg some]
  by_cases first : (before.layout.dataOffset = 0 && isData kind) = true
  · rw [if_pos first, if_pos (by rwa [Bool.and_assoc])]
    simp only [withDataOffset_of_first first]
    rfl
  · rw [if_neg first, if_neg (by rwa [Bool.and_assoc])]
    rfl

/-- A section is passed over, or it is placed behind what has been placed and entered into the map. -/
theorem planSection_eq_ok : planSection header kind before = (.ok (), after) ↔
    itemCount before.pools kind = 0 ∧ after = before ∨
      itemCount before.pools kind ≠ 0 ∧ ∃ start placed,
        word (before.position + Bytes.padding before.position kind.alignment) = .ok start ∧
        placeSection header kind (before.position + Bytes.padding before.position kind.alignment)
          (withDataOffset kind start before) = (.ok (), placed) ∧
        after = withEntry ⟨kind, (itemCount before.pools kind).toUInt32, start⟩ placed := by
  by_cases none : itemCount before.pools kind = 0
  · rw [planSection_of_empty none, or_iff_left fun filled => filled.1 none, and_iff_right none]
    exact ⟨fun same => (Prod.mk.inj same).2.symm, fun same => same ▸ rfl⟩
  rw [planSection_of_items none rfl, or_iff_right fun empty => none empty.1, and_iff_right none]
  generalize before.position + Bytes.padding before.position kind.alignment = place
  by_cases first : (before.layout.dataOffset = 0 && isData kind) = true
  · rw [if_pos first]
    constructor
    · intro run
      obtain ⟨start, _, asked, noting⟩ := Reading.bind_eq_ok.mp run
      obtain ⟨found, rfl⟩ := Reading.ofResult_eq_ok.mp asked
      obtain ⟨again, placed, same, rest⟩ := enterSection_eq_ok.mp noting
      obtain rfl := Except.ok.inj (found.symm.trans same)
      exact ⟨start, placed, found, rest⟩
    · rintro ⟨start, placed, found, rest⟩
      exact (Reading.bind_ok (Reading.ofResult_eq_ok.mpr ⟨found, rfl⟩)).trans
        (enterSection_eq_ok.mpr ⟨start, placed, found, rest⟩)
  · rw [if_neg first, enterSection_eq_ok]
    simp only [withDataOffset_of_later first]

theorem planSection_spec (success : planSection header kind before = (.ok (), after)) :
    PlannedSection header kind before after := by
  rcases planSection_eq_ok.mp success with ⟨none, rfl⟩ | ⟨some, start, placed, found, placing, rfl⟩
  · exact .empty none
  obtain ⟨items, map, noted⟩ := placeSection_spec placing
  obtain ⟨-, number⟩ := word_eq_ok found
  rw [← number] at items
  refine .placed start some number ?_ ?_ noted
  · rw [withEntry, map]
    rfl
  · rcases cases_section kind with rfl | rfl | ⟨notHeader, notMap⟩
    · exact items
    · exact items
    · exact (placedItems_iff notHeader notMap).mpr ((placedItems_iff notHeader notMap).mp items)

end Placing

end DexImage.Layout
