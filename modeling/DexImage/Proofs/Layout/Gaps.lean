import DexImage.Proofs.Layout.Stored
import DexImage.Proofs.References.Offsets
import Mathlib.Data.List.Induction
/-! # Gaps in offset tables

An offset table has a row of offsets for each kind of section. A row grows where an offset is entered past its
end, and the places that are passed over are filled with zeros (`OffsetTable.offset?_enter`). So a table tells
the offset that was entered last for an item, and none for an item behind all those that were entered; but for
an item that was passed over (`OffsetTable.PassedOver`) it tells the offset zero, and a reference to it becomes
one that is written like an absent one. The offsets of a section that is planned are entered one after the
other, so that they become its row (`OffsetTable.foldl_enter_row`): the table of a plan has no gaps
(`Layout.gapless_of_plan`).
-/

namespace DexImage.OffsetTable

/-- An offset that is entered for an item. -/
structure Entry where
  kind : SectionKind
  index : UInt32
  offset : UInt32

/-- Whether an entry is that of an item. -/
def Entry.names (entry : Entry) (kind : SectionKind) (index : UInt32) : Bool :=
  kind == entry.kind && index == entry.index

/-- Whether an entry is that of a later item of the kind. -/
def Entry.passes (entry : Entry) (kind : SectionKind) (index : UInt32) : Bool :=
  kind == entry.kind && index < entry.index

def enter (table : OffsetTable) (entry : Entry) : OffsetTable := table.insert entry.kind entry.index entry.offset

def ofEntries (entries : List Entry) : OffsetTable := entries.foldl enter empty

/-- The offset that was entered last for an item. -/
def last? (entries : List Entry) (kind : SectionKind) (index : UInt32) : Option UInt32 :=
  ((entries.filter fun entry => entry.names kind index).getLast?).map Entry.offset

/-- Whether nothing was entered for an item, but something for a later one of the kind. -/
def PassedOver (entries : List Entry) (kind : SectionKind) (index : UInt32) : Prop :=
  last? entries kind index = none ∧ ∃ entry ∈ entries, kind = entry.kind ∧ index < entry.index

variable {table : OffsetTable} {entries : List Entry} {kind other : SectionKind} {index place offset : UInt32}

/-! ## Single entries -/

theorem offset?_eq_row (table : OffsetTable) (kind : SectionKind) (index : UInt32) :
    table.offset? kind index = (table.row kind)[index.toNat]? := by
  rw [offset?, row]
  cases table.row? kind with
  | none => rfl
  | some offsets => rfl

theorem row_insert (table : OffsetTable) (kind : SectionKind) (index offset : UInt32) :
    (table.insert kind index offset).row kind =
      (table.row kind ++ Array.replicate (index.toNat + 1 - (table.row kind).size) 0).set! index.toNat offset := by
  rw [insert, row, Layout.row?_setRow_self, Option.getD_some]

theorem row_insert_of_ne (differ : other ≠ kind) : (table.insert kind index offset).row other = table.row other := by
  rw [insert, row, Layout.row?_setRow_of_ne _ differ, row]

/-- What a row holds once it has been filled up to a place and an offset has been put there. -/
theorem getElem?_filled (offsets : Array UInt32) (offset : UInt32) (place other : Nat) :
    ((offsets ++ Array.replicate (place + 1 - offsets.size) 0).set! place offset)[other]? =
      if other = place then some offset else if other < place then some (offsets[other]?.getD 0)
        else offsets[other]? := by
  have long : place < (offsets ++ Array.replicate (place + 1 - offsets.size) (0 : UInt32)).size := by
    rw [Array.size_append, Array.size_replicate]
    omega
  rw [Array.set!_eq_setIfInBounds, Array.getElem?_setIfInBounds]
  by_cases same : other = place
  · rw [if_pos same.symm, if_pos same, if_pos long]
  · rw [if_neg (Ne.symm same), if_neg same, Array.getElem?_append, Array.getElem?_replicate]
    by_cases inside : other < offsets.size
    · rw [if_pos inside, Array.getElem?_eq_getElem inside, Option.getD_some, ite_self]
    · rw [if_neg inside, Array.getElem?_eq_none (Nat.not_lt.mp inside), Option.getD_none]
      split_ifs <;> first | rfl | omega

/-- The offset of an item after one more entry: an earlier item of the kind that had none now has zero. -/
theorem offset?_enter (table : OffsetTable) (entry : Entry) (kind : SectionKind) (index : UInt32) :
    (table.enter entry).offset? kind index =
      if entry.names kind index then some entry.offset
      else if entry.passes kind index then some ((table.offset? kind index).getD 0)
      else table.offset? kind index := by
  rw [offset?_eq_row, offset?_eq_row, enter, Entry.names, Entry.passes]
  by_cases same : kind = entry.kind
  · subst same
    rw [row_insert, getElem?_filled]
    simp only [beq_self_eq_true, Bool.true_and, beq_iff_eq, decide_eq_true_eq, UInt32.lt_iff_toNat_lt, UInt32.toNat_inj]
  · rw [row_insert_of_ne same, beq_eq_false_iff_ne.mpr same]
    rfl

/-! ## Any entries -/

theorem last?_eq_none_iff : last? entries kind index = none ↔ ∀ entry ∈ entries, entry.names kind index = false := by
  simp only [last?, Option.map_eq_none_iff, List.getLast?_eq_none_iff, List.filter_eq_nil_iff, Bool.not_eq_true]

theorem last?_concat (entries : List Entry) (entry : Entry) (kind : SectionKind) (index : UInt32) :
    last? (entries ++ [entry]) kind index =
      if entry.names kind index then some entry.offset else last? entries kind index := by
  rw [last?, List.filter_append, List.filter_singleton]
  cases entry.names kind index with
  | false => rw [cond_false, List.append_nil]; rfl
  | true => rw [cond_true, List.getLast?_concat]; rfl

/-- A table tells the last offset that was entered for an item, or zero if only later items were entered, or none. -/
theorem offset?_ofEntries (entries : List Entry) (kind : SectionKind) (index : UInt32) :
    (ofEntries entries).offset? kind index =
      (last? entries kind index).or (if entries.any fun entry => entry.passes kind index then some 0 else none) := by
  induction entries using List.reverseRecOn with
  | nil => rfl
  | append_singleton entries entry ih =>
    have step : ofEntries (entries ++ [entry]) = (ofEntries entries).enter entry :=
      List.foldl_concat _ _ _ _
    rw [step, offset?_enter, ih, last?_concat, List.any_append, List.any_cons, List.any_nil, Bool.or_false]
    -- Both sides look only at whether the entry is that of the item or of a later one, and at what was told before it.
    cases entry.names kind index <;> cases entry.passes kind index <;> cases last? entries kind index <;>
      cases entries.any fun entry => entry.passes kind index <;> rfl

theorem passedOver_iff : PassedOver entries kind index ↔
    last? entries kind index = none ∧ (entries.any fun entry => entry.passes kind index) = true := by
  simp only [PassedOver, List.any_eq_true, Entry.passes, Bool.and_eq_true, beq_iff_eq, decide_eq_true_eq]

theorem offset?_of_passedOver (passed : PassedOver entries kind index) :
    (ofEntries entries).offset? kind index = some 0 := by
  obtain ⟨none, later⟩ := passedOver_iff.mp passed
  rw [offset?_ofEntries, none, later]
  rfl

theorem offset?_of_not_passedOver (kept : ¬PassedOver entries kind index) :
    (ofEntries entries).offset? kind index = last? entries kind index := by
  rw [offset?_ofEntries]
  cases found : last? entries kind index with
  | some offset => rfl
  | none =>
    have early : ¬(entries.any fun entry => entry.passes kind index) = true :=
      fun later => kept (passedOver_iff.mpr ⟨found, later⟩)
    rw [if_neg early]
    rfl

/-- A table that offsets were entered into tells of an item the offset that was entered last, or that there was
none, just if the item was not passed over. A reference whose target was never entered cannot be placed, just if
the target was not passed over; else it takes the offset zero, that of an absent reference. -/
theorem offset?_eq_last?_iff (entries : List Entry) (kind : SectionKind) (index : UInt32) :
    ((ofEntries entries).offset? kind index = last? entries kind index ↔ ¬PassedOver entries kind index) ∧
      (PassedOver entries kind index → (ofEntries entries).offset? kind index = some 0) ∧
      ∀ (target : PoolKind) (ref : DataRef target), target.toSection = kind → ref.index = some index →
        last? entries kind index = none →
        ((∃ fault, ref.updateOffset (ofEntries entries) = (.error fault, ref) ∧ fault.kind = .unresolvedReference) ↔
            ¬PassedOver entries kind index) ∧
          (PassedOver entries kind index → ref.updateOffset (ofEntries entries) = (.ok (), .placed index 0) ∧
            (DataRef.placed index 0 : DataRef target).offset = (DataRef.absent : DataRef target).offset) := by
  have faithful : (ofEntries entries).offset? kind index = last? entries kind index ↔
      ¬PassedOver entries kind index := by
    refine ⟨fun same passed => ?_, offset?_of_not_passedOver⟩
    rw [offset?_of_passedOver passed, passed.1] at same
    cases same
  refine ⟨faithful, offset?_of_passedOver, ?_⟩
  rintro target ref rfl present never
  have resolved (passed : PassedOver entries target.toSection index) :
      ref.updateOffset (ofEntries entries) = (.ok (), .placed index 0) :=
    DataRef.updateOffset_of_found present (offset?_of_passedOver passed)
  refine ⟨⟨?_, fun kept => ?_⟩, fun passed => ⟨resolved passed, rfl⟩⟩
  · rintro ⟨fault, failure, -⟩ passed
    rw [resolved passed] at failure
    cases failure
  · have missing := (offset?_of_not_passedOver kept).trans never
    exact ⟨_, DataRef.updateOffset_of_missing present missing, rfl⟩

/-- An offset was entered for the third code item alone. The table tells zero for the first one, and a reference
to it becomes one that is written like an absent one. -/
theorem passedOver_placed :
    let entries : List Entry := [⟨.code, 2, 0x100⟩]
    last? entries .code 0 = none ∧ (ofEntries entries).offset? .code 0 = some 0 ∧
      (DataRef.unplaced 0 : DataRef .code).updateOffset (ofEntries entries) = (.ok (), .placed 0 0) := by
  refine ⟨rfl, by decide, ?_⟩
  exact DataRef.updateOffset_of_found rfl (by decide)

/-! ## Sections that are entered as a whole -/

/-- The entries of a section whose items have the given offsets, first to last. -/
def Entry.row (kind : SectionKind) (offsets : List UInt32) : List Entry :=
  offsets.mapIdx fun index offset => ⟨kind, index.toUInt32, offset⟩

theorem setRow_setRow (table : OffsetTable) (kind : SectionKind) (first second : Array UInt32) :
    (table.setRow kind first).setRow kind second = table.setRow kind second := by
  simp [setRow, List.filter_filter]

/-- What is entered right behind the end of a row is appended to it. -/
theorem enter_end {offsets : List UInt32} (few : offsets.length < UInt32.size) (same : table.row kind = offsets.toArray)
    (last : UInt32) :
    table.enter ⟨kind, offsets.length.toUInt32, last⟩ = table.setRow kind (offsets ++ [last]).toArray := by
  have place : offsets.length.toUInt32.toNat = offsets.length := toNat_toUInt32_of_lt few
  rw [enter, insert, same, place]
  refine congrArg (table.setRow kind) (Array.ext_getElem? fun other => ?_)
  rw [getElem?_filled, List.getElem?_toArray, List.getElem?_toArray, List.getElem?_append]
  by_cases inside : other < offsets.length
  · rw [if_neg (Nat.ne_of_lt inside), if_pos inside, if_pos inside, List.getElem?_eq_getElem inside, Option.getD_some]
  · rw [if_neg inside, if_neg inside, List.getElem?_singleton, List.getElem?_eq_none (Nat.not_lt.mp inside)]
    refine if_congr ?_ rfl rfl
    omega

/-- Offsets that are entered one after the other are the row of the section. -/
theorem foldl_enter_row {offsets : List UInt32} (few : offsets.length ≤ UInt32.size) (some : offsets ≠ [])
    (fresh : table.row? kind = none) :
    (Entry.row kind offsets).foldl enter table = table.setRow kind offsets.toArray := by
  induction offsets using List.reverseRecOn with
  | nil => exact absurd rfl some
  | append_singleton offsets last ih =>
    have few : offsets.length < UInt32.size := by rwa [List.length_append, List.length_singleton] at few
    rw [Entry.row, List.mapIdx_append, List.foldl_append]
    change ((Entry.row kind offsets).foldl enter table).enter ⟨kind, (0 + offsets.length).toUInt32, last⟩ = _
    rw [Nat.zero_add]
    by_cases first : offsets = []
    · subst first
      have row : ((Entry.row kind []).foldl enter table).row kind = #[] := by
        change (table.row? kind).getD #[] = #[]
        rw [fresh, Option.getD_none]
      exact enter_end few row last
    · have before := ih (Nat.le_of_lt few) first
      have row : ((Entry.row kind offsets).foldl enter table).row kind = offsets.toArray := by
        rw [before, row, Layout.row?_setRow_self, Option.getD_some]
      rw [enter_end few row, before, setRow_setRow]

/-- A section that is entered as a whole passes no item over. -/
theorem not_passedOver_row {offsets : List UInt32} (few : offsets.length ≤ UInt32.size)
    (other : SectionKind) (index : UInt32) :
    ¬PassedOver (Entry.row kind offsets) other index := by
  rintro ⟨missing, entry, member, rfl, before⟩
  obtain ⟨place, inside, rfl⟩ := List.mem_mapIdx.mp member
  have number : place.toUInt32.toNat = place := toNat_toUInt32_of_lt (Nat.lt_of_lt_of_le inside few)
  have inside : index.toNat < offsets.length := by
    have before := UInt32.lt_iff_toNat_lt.mp before
    dsimp only at before
    omega
  have entered : (⟨kind, index, offsets[index.toNat]⟩ : Entry) ∈ Entry.row kind offsets :=
    List.mem_mapIdx.mpr ⟨index.toNat, inside, by rw [Nat.toUInt32_eq, UInt32.ofNat_toNat]⟩
  have unnamed := last?_eq_none_iff.mp missing _ entered
  simp [Entry.names] at unnamed

/-- Whether a table comes from entries that pass no item over. -/
def Gapless (table : OffsetTable) : Prop :=
  ∃ entries, table = ofEntries entries ∧ ∀ kind index, ¬PassedOver entries kind index

theorem gapless_empty : empty.Gapless := by
  refine ⟨[], rfl, fun kind index => ?_⟩
  rintro ⟨-, entry, member, -⟩
  exact List.not_mem_nil member

theorem PassedOver.of_append {more : List Entry} (passed : PassedOver (entries ++ more) kind index) :
    PassedOver entries kind index ∨ PassedOver more kind index := by
  obtain ⟨missing, entry, member, later⟩ := passed
  obtain ⟨before, behind⟩ := List.forall_mem_append.mp (last?_eq_none_iff.mp missing)
  rcases List.mem_append.mp member with member | member
  · exact .inl ⟨last?_eq_none_iff.mpr before, entry, member, later⟩
  · exact .inr ⟨last?_eq_none_iff.mpr behind, entry, member, later⟩

theorem Gapless.setRow (gapless : table.Gapless) {offsets : List UInt32} (few : offsets.length ≤ UInt32.size)
    (some : offsets ≠ []) (fresh : table.row? kind = none) : (table.setRow kind offsets.toArray).Gapless := by
  obtain ⟨entries, rfl, kept⟩ := gapless
  refine ⟨entries ++ Entry.row kind offsets, ?_, fun other index passed => ?_⟩
  · exact ((List.foldl_append).trans (foldl_enter_row few some fresh)).symm
  · exact passed.of_append.elim (kept other index) (not_passedOver_row few other index)

end DexImage.OffsetTable

/-! ## Plans -/

namespace DexImage.Layout

variable {header : Header} {kind : SectionKind} {kinds : List SectionKind} {before after : Planning}

/-- A section is entered as a whole, and has fewer items than the image has bytes. -/
theorem PlannedSection.gapless (section' : PlannedSection header kind before after)
    (small : after.position < UInt32.size)
    (fresh : before.layout.offsets.row? kind = none) (gapless : before.layout.offsets.Gapless) :
    after.layout.offsets.Gapless := by
  cases section' with
  | empty => exact gapless
  | placed start some _ _ items =>
    rcases cases_section kind with rfl | rfl | ⟨notHeader, notMap⟩
    · rwa [items.2.1]
    · rwa [items.2.1]
    obtain ⟨⟨offsets, placed, same⟩, -⟩ := (placedItems_iff notHeader notMap).mp items
    obtain ⟨last, numbers, listed, numbered⟩ := placeItems_eq_ok placed
    have count : offsets.toList.length = before.pools.size kind := by
      rw [listed, List.nil_append, ← List.length_map UInt32.toNat, numbered, length_starts, length_sizesOf]
    have least := @length_le_behind (alignmentOf kind) start.toNat _ (@sizesOf_pos before.pools kind)
    rw [← last, length_sizesOf] at least
    rw [itemCount_eq notHeader notMap, ← count] at some
    rw [same, ← offsets.toArray_toList]
    exact gapless.setRow (by omega) (List.ne_nil_of_length_pos (Nat.pos_of_ne_zero some)) fresh

theorem PlannedRun.gapless (run : PlannedRun header kinds before after) (small : after.position < UInt32.size)
    (apart : kinds.Nodup) (fresh : ∀ kind ∈ kinds, before.layout.offsets.row? kind = none)
    (gapless : before.layout.offsets.Gapless) : after.layout.offsets.Gapless := by
  induction run with
  | nil => exact gapless
  | @cons kind rest _ _ _ first others ih =>
    obtain ⟨differ, apart⟩ := List.nodup_cons.mp apart
    obtain ⟨now, later⟩ := List.forall_mem_cons.mp fresh
    have still := first.gapless (Nat.lt_of_le_of_lt others.position_le small) now gapless
    refine ih small apart (fun other member => ?_) still
    have distinct : other ≠ kind := fun same => differ (same ▸ member)
    rw [first.row?_of_ne distinct, later other member]

/-- The offsets of a plan tell of every item where it is placed, or that it is not. -/
theorem gapless_of_plan {pools placed : Pools} {layout : Layout} (success : plan header pools = (.ok layout, placed)) :
    layout.offsets.Gapless := by
  obtain ⟨planned, fileSize, sections, found, rfl, rfl⟩ := plan_eq_ok.mp success
  obtain ⟨small, -⟩ := word_eq_ok found
  exact (planSections_spec sections).gapless small (by decide) (fun _ _ => rfl) OffsetTable.gapless_empty

end DexImage.Layout
