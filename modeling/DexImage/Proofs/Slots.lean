import DexImage.Item.EncodedArray
import DexImage.Proofs.Codec.TryTables
/-! # Slots and their offsets

The offset of a slot adds up the sizes of the children before it. The slot at an offset is found by adding up
sizes until they come to the offset, so that it is the first slot that has it
(`TrackedList.slotAt?_eq_some_iff_first`). Where every child takes a byte at least, offsets grow from slot to
slot (`TrackedList.offsetOf_lt`), and each of the two look-ups undoes the other (`TrackedList.Addressed`).
Values and handler lists are such children.
-/

namespace DexImage

namespace TrackedList

variable {α : Type} [Encodable α] {list : TrackedList α}

/-- Whether the look-ups of slots and of offsets undo each other, and offsets grow from slot to slot up to the
size of the whole list. -/
structure Addressed (list : TrackedList α) : Prop where
  slotAt?_eq_some_iff : ∀ offset slot, list.slotAt? offset = some slot ↔
    slot < list.length ∧ list.offsetOf slot = offset
  increasing : ∀ first second, first < second → second ≤ list.length → list.offsetOf first < list.offsetOf second
  offsetOf_length : list.offsetOf list.length = encodedSize list

theorem offsetOf_length (list : TrackedList α) : list.offsetOf list.length = encodedSize list := by
  rw [offsetOf, length, List.take_length]
  rfl

theorem offsetOf_succ {slot : Nat} {child : α} (there : list.get? slot = some child) :
    list.offsetOf (slot + 1) = list.offsetOf slot + encodedSize child := by
  have there : list.items[slot]? = some child := there
  rw [offsetOf, List.take_add_one, there, total_append]
  rfl

/-- Going through children from a slot and an offset on finds the first of them that starts at the wanted offset. -/
theorem slotAt?_go_eq_some_iff {offset start slot found : Nat} {items : List α} :
    slotAt?.go offset items slot start = some found ↔
      ∃ place < items.length, slot + place = found ∧ start + total encodedSize (items.take place) = offset ∧
        ∀ earlier < place, start + total encodedSize (items.take earlier) ≠ offset := by
  induction items generalizing slot start with
  | nil =>
    refine iff_of_false (by rintro ⟨⟩) ?_
    rintro ⟨place, beyond, -⟩
    exact Nat.not_lt_zero place beyond
  | cons child rest ih =>
    rw [slotAt?.go]
    split_ifs with here
    · constructor
      · rintro ⟨⟩
        refine ⟨0, Nat.succ_pos _, rfl, here, ?_⟩
        exact fun earlier before => absurd before (Nat.not_lt_zero earlier)
      · rintro ⟨place, -, rfl, -, first⟩
        cases place with
        | zero => rfl
        | succ place => exact absurd here (first 0 (Nat.succ_pos place))
    -- A place behind the first child is one in the rest, which starts behind the size of that child.
    · have behind (place : Nat) : start + total encodedSize ((child :: rest).take (place + 1)) =
          start + encodedSize child + total encodedSize (rest.take place) := by
        rw [List.take_succ_cons, total_cons, Nat.add_assoc]
      rw [ih]
      constructor
      · rintro ⟨place, inside, rfl, reached, first⟩
        refine ⟨place + 1, Nat.succ_lt_succ inside, by omega, by rw [behind, reached], ?_⟩
        rintro (_ | earlier) before
        · exact here
        · rw [behind]
          exact first earlier (Nat.lt_of_succ_lt_succ before)
      · rintro ⟨place, inside, rfl, reached, first⟩
        cases place with
        | zero => exact absurd reached here
        | succ place =>
          refine ⟨place, Nat.lt_of_succ_lt_succ inside, by omega, by rw [← behind, reached], ?_⟩
          intro earlier before
          rw [← behind]
          exact first (earlier + 1) (Nat.succ_lt_succ before)

/-- The slot at an offset is the first one that has it, also where children take no bytes. -/
theorem slotAt?_eq_some_iff_first {offset slot : Nat} :
    list.slotAt? offset = some slot ↔
      slot < list.length ∧ list.offsetOf slot = offset ∧ ∀ earlier < slot, list.offsetOf earlier ≠ offset := by
  rw [slotAt?, slotAt?_go_eq_some_iff]
  simp only [Nat.zero_add, exists_eq_left, offsetOf, length, and_left_comm]

/-- Where every child takes a byte at least, later slots have greater offsets. -/
theorem offsetOf_lt (each : ∀ child ∈ list.items, 0 < encodedSize child) {first second : Nat} (before : first < second)
    (inside : second ≤ list.length) : list.offsetOf first < list.offsetOf second := by
  have next {slot : Nat} (inside : slot < list.length) : list.offsetOf slot < list.offsetOf (slot + 1) := by
    have there : list.get? slot = some list.items[slot] := List.getElem?_eq_getElem inside
    have size := each list.items[slot] (List.getElem_mem inside)
    rw [offsetOf_succ there]
    omega
  induction before with
  | refl => exact next inside
  | step _ ih => exact (ih (Nat.le_of_succ_le inside)).trans (next inside)

theorem addressed (each : ∀ child ∈ list.items, 0 < encodedSize child) : list.Addressed where
  slotAt?_eq_some_iff offset slot := by
    rw [slotAt?_eq_some_iff_first]
    refine and_congr_right fun inside => and_iff_left_of_imp ?_
    rintro rfl earlier before
    exact (offsetOf_lt each before (Nat.le_of_lt inside)).ne
  increasing first second := offsetOf_lt each
  offsetOf_length := list.offsetOf_length

/-- Slots with the same offset are the same. -/
theorem Addressed.injective (addressed : list.Addressed) {first second : Nat} (inside : first < list.length)
    (inside' : second < list.length) (same : list.offsetOf first = list.offsetOf second) : first = second := by
  have found := (addressed.slotAt?_eq_some_iff _ first).mpr ⟨inside, rfl⟩
  have found' := (addressed.slotAt?_eq_some_iff _ second).mpr ⟨inside', rfl⟩
  rw [same, found'] at found
  exact (Option.some.inj found).symm

end TrackedList

/-- A value takes the byte that tells its kind at least. -/
theorem EncodedValue.encodedSize_pos (value : EncodedValue) : 0 < value.encodedSize := by
  cases value <;> simp only [EncodedValue.encodedSize] <;> omega

/-- In an array of values with placeholders, and in the handler lists of a table, the slot at an offset is the
slot that has this offset, and offsets grow from slot to slot up to the size of them all. So no two handler
lists of a table are named alike by the ranges. -/
theorem TrackedList.slots_addressed (values : TrackedList ValueSlot)
    (lists : TrackedList HandlerList) (table : TryTable) :
    values.Addressed ∧ lists.Addressed ∧
      ∀ first second, first < table.handlers.length → second < table.handlers.length →
        table.handlerOffset first = table.handlerOffset second → first = second := by
  have handlers (lists : TrackedList HandlerList) : lists.Addressed := addressed fun list _ => list.encodedSize_pos
  refine ⟨addressed fun slot _ => (slot.getD .null).encodedSize_pos, handlers lists, ?_⟩
  intro first second inside inside' same
  rw [TryTable.handlerOffset, TryTable.handlerOffset] at same
  exact (handlers table.handlers).injective inside inside' (Nat.add_left_cancel same)

end DexImage
