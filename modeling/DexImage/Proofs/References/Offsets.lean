import DexImage.IndexRemap
import Mathlib.Data.List.Basic
/-! # The offset of a data reference

A data reference is made, retargeted, and told the offset of its target again and again. What matters to its
offset is the latest `DataRef.Event` of this history: either an offset was assigned, at the start or by an
update, or the target changed. Each operation keeps that the latest event tells the offset
(`DataRef.Tells.step`), and so does a whole history (`DataRef.tells_run`). An index, an offset and a mark
whether the offset is that of the target may also be kept apart (`DataRef.Fields`); every operation on these is
one on the reference (`DataRef.Fields.apply_view`).
-/

namespace DexImage.DataRef

variable {target : PoolKind}

/-- What can be done to a data reference. -/
inductive Operation where
  | setTarget (index : UInt32)
  | setIndex (index : Option UInt32)
  | remap (remap : IndexRemap)
  | clear
  | updateOffset (offsets : OffsetTable)

/-- Looks the offset of the target up and records it, as a pass over the references does when their targets are
placed. -/
def updateOffset (ref : DataRef target) (offsets : OffsetTable) : Result Unit × DataRef target :=
  match (ref.slot .unmarked).placement offsets with
  | .ok edit => (.ok (), ref.edited edit)
  | .error fault => (.error fault, ref.edited .keep)

def apply (ref : DataRef target) : Operation → Result Unit × DataRef target
  | .setTarget index => (.ok (), ref.setTarget index)
  | .setIndex index => (.ok (), ref.edited (.retarget index))
  | .remap remap => (.ok (), ref.edited ((ref.slot .unmarked).remap remap))
  | .clear => (.ok (), absent)
  | .updateOffset offsets => ref.updateOffset offsets

def run (start : DataRef target) (history : List Operation) : DataRef target :=
  history.foldl (fun ref operation => (ref.apply operation).2) start

/-- What bears on the offset of a reference. -/
inductive Event where
  /-- The target is present and its offset is recorded. -/
  | assigned (offset : UInt32)
  /-- The target is another one than before, or present after it was absent, or absent after it was present. -/
  | retargeted

/-- A reference may be made with an offset. -/
def creation? : DataRef target → Option Event
  | placed _ offset => some (.assigned offset)
  | absent | unplaced _ => none

/-- The offset that an update finds for a present target. -/
def assignment? (ref : DataRef target) : Operation → Option Event
  | .updateOffset offsets => (ref.index.bind (offsets.offset? target.toSection)).map .assigned
  | _ => none

def event? (ref : DataRef target) (operation : Operation) : Option Event :=
  if (ref.apply operation).2.index = ref.index then ref.assignment? operation else some .retargeted

def events : DataRef target → List Operation → List Event
  | _, [] => []
  | ref, operation :: rest => (ref.event? operation).toList ++ events (ref.apply operation).2 rest

/-- The latest of the creation with an offset, the assignments and the changes of the target. -/
def latest? (start : DataRef target) (history : List Operation) : Option Event :=
  (start.creation?.toList ++ start.events history).getLast?

/-- Whether the latest event tells the offset of a reference: it has been assigned, or the reference has none. -/
def Tells (latest : Option Event) : DataRef target → Prop
  | absent => True
  | unplaced _ => ∀ offset, latest ≠ some (.assigned offset)
  | placed _ offset => latest = some (.assigned offset)

/-! ## Single operations -/

variable {ref : DataRef target} {index : UInt32} {offsets : OffsetTable}

theorem updateOffset_of_absent (missing : ref.index = none) (offsets : OffsetTable) :
    ref.updateOffset offsets = (.ok (), ref) := by
  simp only [updateOffset, slot, Slot.placement, missing, edited]

theorem updateOffset_of_found {offset : UInt32} (present : ref.index = some index)
    (found : offsets.offset? target.toSection index = some offset) :
    ref.updateOffset offsets = (.ok (), placed index offset) := by
  simp only [updateOffset, slot, Slot.placement, present, found, edited]

/-- An update that finds no offset fails and leaves the reference as it is. -/
theorem updateOffset_of_missing (present : ref.index = some index)
    (missing : offsets.offset? target.toSection index = none) :
    ref.updateOffset offsets = (.error (Fault.of (.notLaidOut target.toSection index)), ref) := by
  simp only [updateOffset, slot, Slot.placement, present, missing, edited]

/-- Whatever makes an update fail, the reference is left as it is. -/
theorem updateOffset_failed {fault : Fault} (failure : (ref.updateOffset offsets).1 = .error fault) :
    (ref.updateOffset offsets).2 = ref := by
  rw [updateOffset] at failure ⊢
  cases found : (ref.slot .unmarked).placement offsets with
  | error other => rfl
  | ok edit =>
    rw [found] at failure
    cases failure

/-- What an operation can come to, and the event that it is: the reference stays as it is, there is no target
any more, there is another one, or the offset of the target is recorded. -/
inductive Change (ref : DataRef target) : Option Event → DataRef target → Prop where
  | kept : ref.Change none ref
  | dropped (event : Option Event) : ref.Change event absent
  | moved (index : UInt32) : ref.Change (some .retargeted) (unplaced index)
  | recorded (index offset : UInt32) : ref.Change (some (.assigned offset)) (placed index offset)

theorem change_of_kept {operation : Operation} (same : (ref.apply operation).2 = ref)
    (quiet : ref.assignment? operation = none) : ref.Change (ref.event? operation) (ref.apply operation).2 := by
  rw [event?, same, if_pos rfl, quiet]
  exact .kept

/-- A new index drops the offset; to take over the index that is there already changes nothing. -/
theorem change_of_retarget {operation : Operation} (index : Option UInt32)
    (same : (ref.apply operation).2 = ref.edited (.retarget index)) (quiet : ref.assignment? operation = none) :
    ref.Change (ref.event? operation) (ref.apply operation).2 := by
  cases index with
  | none =>
    rw [same]
    exact .dropped _
  | some new =>
    by_cases there : ref.index = some new
    · exact change_of_kept (same.trans (if_pos there)) quiet
    · have moved : (ref.apply operation).2 = unplaced new := same.trans (if_neg there)
      have differ : (unplaced new : DataRef target).index ≠ ref.index := Ne.symm there
      rw [event?, moved, if_neg differ]
      exact .moved new

theorem change_apply (ref : DataRef target) (operation : Operation) :
    ref.Change (ref.event? operation) (ref.apply operation).2 := by
  cases operation with
  | setTarget index => exact change_of_retarget (some index) rfl rfl
  | setIndex index => exact change_of_retarget index rfl rfl
  | clear => exact change_of_retarget none rfl rfl
  | remap remap =>
    cases present : ref.index with
    | none =>
      have same : (ref.apply (.remap remap)).2 = ref := by simp only [apply, slot, Slot.remap, present, edited]
      exact change_of_kept same rfl
    | some old =>
      have same : (ref.apply (.remap remap)).2 = ref.edited (.retarget (remap.get? old)) := by
        simp only [apply, slot, Slot.remap, present]
      exact change_of_retarget _ same rfl
  | updateOffset offsets =>
    cases present : ref.index with
    | none =>
      have same := updateOffset_of_absent present offsets
      exact change_of_kept (congrArg Prod.snd same) (by rw [assignment?, present]; rfl)
    | some index =>
      cases found : offsets.offset? target.toSection index with
      | none =>
        have same := updateOffset_of_missing present found
        exact change_of_kept (congrArg Prod.snd same) (by rw [assignment?, present, Option.bind_some, found]; rfl)
      | some offset =>
        have after : (ref.apply (.updateOffset offsets)).2 = placed index offset :=
          congrArg Prod.snd (updateOffset_of_found present found)
        have kept : (placed index offset : DataRef target).index = ref.index := present.symm
        rw [event?, after, if_pos kept, assignment?, present, Option.bind_some, found]
        exact .recorded index offset

/-- An operation keeps that the latest event tells the offset. -/
theorem Tells.step {latest : Option Event} (tells : Tells latest ref) (operation : Operation) :
    Tells ((ref.event? operation).or latest) (ref.apply operation).2 := by
  have change := ref.change_apply operation
  generalize ref.event? operation = event at change ⊢
  generalize (ref.apply operation).2 = after at change ⊢
  cases change with
  | kept => exact tells
  | dropped => trivial
  | moved index => rintro offset ⟨⟩
  | recorded index offset => rfl

/-- A present reference has just the offset that the latest event has assigned. -/
theorem Tells.offset_eq_ok {latest : Option Event} (tells : Tells latest ref) (present : ref.isPresent = true)
    {offset : UInt32} : ref.offset = .ok offset ↔ latest = some (.assigned offset) := by
  cases ref with
  | absent => cases present
  | unplaced index => exact iff_of_false (by rintro ⟨⟩) (tells offset)
  | placed index known =>
    have known : latest = some (.assigned known) := tells
    rw [known]
    constructor <;> rintro ⟨⟩ <;> rfl

theorem Tells.offset_eq_error {latest : Option Event} (tells : Tells latest ref) (present : ref.isPresent = true)
    (unassigned : ∀ offset, latest ≠ some (.assigned offset)) :
    ∃ fault, ref.offset = .error fault ∧ fault.kind = .unresolvedReference := by
  cases ref with
  | absent => cases present
  | unplaced index => exact ⟨Fault.of (.offsetMissing index), rfl, rfl⟩
  | placed index known => exact absurd tells (unassigned known)

theorem offset_of_absent (missing : ref.isPresent = false) : ref.offset = .ok 0 := by
  cases ref with
  | absent => rfl
  | unplaced index | placed index offset => cases missing

/-! ## Histories -/

theorem tells_run {past : List Event} (tells : Tells past.getLast? ref) (history : List Operation) :
    Tells (past ++ ref.events history).getLast? (ref.run history) := by
  induction history generalizing ref past with
  | nil => rwa [events, List.append_nil]
  | cons operation rest ih =>
    have next : Tells (past ++ (ref.event? operation).toList).getLast? (ref.apply operation).2 := by
      have step := tells.step operation
      rw [List.getLast?_append]
      cases event : ref.event? operation with
      | none => rwa [event] at step
      | some event' => rwa [event] at step
    rw [events, ← List.append_assoc]
    exact ih next

/-- A reference that has just been made has the offset that it was made with, if any. -/
theorem tells_latest (start : DataRef target) (history : List Operation) :
    Tells (start.latest? history) (start.run history) := by
  refine tells_run ?_ history
  cases start with
  | absent => trivial
  | unplaced index => rintro offset ⟨⟩
  | placed index offset => rfl

/-! ## Index, offset and mark apart -/

/-- A data reference that keeps an offset and whether it is that of the target. The offset of an earlier target
may be left. -/
structure Fields (target : PoolKind) where
  index : Option UInt32
  offset : UInt32
  resolved : Bool

namespace Fields

variable {target : PoolKind}

def view (fields : Fields target) : DataRef target :=
  match fields.index, fields.resolved with
  | none, _ => .absent
  | some index, true => .placed index fields.offset
  | some index, false => .unplaced index

def setTarget (fields : Fields target) (index : UInt32) : Fields target :=
  if fields.index = some index then fields else { fields with index := some index, resolved := false }

def clear (_ : Fields target) : Fields target := ⟨none, 0, true⟩

def setIndex (fields : Fields target) : Option UInt32 → Fields target
  | some index => fields.setTarget index
  | none => fields.clear

def remap (fields : Fields target) (remap : IndexRemap) : Fields target :=
  match fields.index with
  | some old => fields.setIndex (remap.get? old)
  | none => fields

def updateOffset (fields : Fields target) (offsets : OffsetTable) : Result Unit × Fields target :=
  match fields.index with
  | none => (.ok (), fields)
  | some index =>
    match offsets.offset? target.toSection index with
    | some offset => (.ok (), { fields with offset, resolved := true })
    | none => (.error (Fault.of (.notLaidOut target.toSection index)), fields)

/-- The offset to write; zero when absent. -/
def writtenOffset (fields : Fields target) : Result UInt32 :=
  match fields.index, fields.resolved with
  | none, _ => .ok 0
  | some _, true => .ok fields.offset
  | some index, false => .error (Fault.of (.offsetMissing index))

def apply (fields : Fields target) : Operation → Result Unit × Fields target
  | .setTarget index => (.ok (), fields.setTarget index)
  | .setIndex index => (.ok (), fields.setIndex index)
  | .remap remap => (.ok (), fields.remap remap)
  | .clear => (.ok (), fields.clear)
  | .updateOffset offsets => fields.updateOffset offsets

def run (start : Fields target) (history : List Operation) : Fields target :=
  history.foldl (fun fields operation => (fields.apply operation).2) start

theorem index_view (fields : Fields target) : fields.view.index = fields.index := by
  obtain ⟨_ | index, offset, _ | _⟩ := fields <;> rfl

theorem offset_view (fields : Fields target) : fields.view.offset = fields.writtenOffset := by
  obtain ⟨_ | index, offset, _ | _⟩ := fields <;> rfl

theorem setTarget_view (fields : Fields target) (index : UInt32) :
    (fields.setTarget index).view = fields.view.setTarget index := by
  rw [setTarget, DataRef.setTarget, index_view]
  split_ifs <;> rfl

theorem setIndex_view (fields : Fields target) (index : Option UInt32) :
    (fields.setIndex index).view = fields.view.edited (.retarget index) := by
  cases index with
  | none => rfl
  | some index => exact fields.setTarget_view index

/-- An operation on the fields is one on the reference, and answers the same. -/
theorem apply_view (fields : Fields target) (operation : Operation) :
    ((fields.apply operation).1, (fields.apply operation).2.view) = fields.view.apply operation := by
  cases operation with
  | setTarget index => exact congrArg (Prod.mk _) (fields.setTarget_view index)
  | setIndex index => exact congrArg (Prod.mk _) (fields.setIndex_view index)
  | clear => rfl
  | remap remap =>
    refine congrArg (Prod.mk _) ?_
    change (fields.remap remap).view = _
    rw [Fields.remap, slot, Slot.remap, index_view]
    cases fields.index with
    | none => rfl
    | some old => exact fields.setIndex_view (remap.get? old)
  | updateOffset offsets =>
    change ((fields.updateOffset offsets).1, (fields.updateOffset offsets).2.view) = fields.view.updateOffset offsets
    rw [updateOffset]
    cases present : fields.index with
    | none => exact (updateOffset_of_absent (fields.index_view.trans present) offsets).symm
    | some index =>
      have present' := fields.index_view.trans present
      cases found : offsets.offset? target.toSection index with
      | none => simp only [found, updateOffset_of_missing present' found]
      | some offset =>
        rw [updateOffset_of_found present' found]
        simp only [found, view]

theorem updateOffset_failed {fields : Fields target} {offsets : OffsetTable} {fault : Fault}
    (failure : (fields.updateOffset offsets).1 = .error fault) : (fields.updateOffset offsets).2 = fields := by
  rw [updateOffset] at failure ⊢
  cases present : fields.index with
  | none => rfl
  | some index =>
    simp only [present] at failure
    cases found : offsets.offset? target.toSection index with
    | none => simp only [found]
    | some offset =>
      rw [found] at failure
      cases failure

theorem run_view (start : Fields target) (history : List Operation) :
    (start.run history).view = start.view.run history := by
  induction history generalizing start with
  | nil => rfl
  | cons operation rest ih =>
    have step : (start.apply operation).2.view = (start.view.apply operation).2 :=
      congrArg Prod.snd (start.apply_view operation)
    exact (ih _).trans (congrArg (DataRef.run · rest) step)

end Fields

/-- Whatever is done to a data reference, it has the offset zero to write while it is absent. While it is
present it has just the offset that was assigned since its target last changed, and if none was, it has none. An
update that fails leaves it as it is. The same holds where the index, the offset and the mark whether the offset
is that of the target are kept apart. -/
theorem offset_latest (start : DataRef target) (history : List Operation) :
    let ref := start.run history
    let latest := start.latest? history
    (ref.isPresent = false → ref.offset = .ok 0) ∧
      (ref.isPresent = true → (∀ offset, ref.offset = .ok offset ↔ latest = some (.assigned offset)) ∧
        ((∀ offset, latest ≠ some (.assigned offset)) →
          ∃ fault, ref.offset = .error fault ∧ fault.kind = .unresolvedReference)) ∧
      (∀ offsets fault, (ref.updateOffset offsets).1 = .error fault → (ref.updateOffset offsets).2 = ref) ∧
      ∀ fields : Fields target, fields.view = start →
        (fields.run history).view = ref ∧ (fields.run history).writtenOffset = ref.offset ∧
        (∀ operation, ((fields.run history).apply operation).1 = (ref.apply operation).1) ∧
        ∀ offsets fault, ((fields.run history).updateOffset offsets).1 = .error fault →
          ((fields.run history).updateOffset offsets).2 = fields.run history := by
  intro ref latest
  have tells : Tells latest ref := start.tells_latest history
  refine ⟨fun missing => ?_, fun present => ?_, fun offsets fault => updateOffset_failed, ?_⟩
  · rw [offset_of_absent missing]
  · exact ⟨fun offset => tells.offset_eq_ok present, tells.offset_eq_error present⟩
  · rintro fields rfl
    have view := fields.run_view history
    refine ⟨view, ?_, fun operation => ?_, fun offsets fault => Fields.updateOffset_failed⟩
    · rw [← Fields.offset_view, view]
    · have step := (fields.run history).apply_view operation
      rw [view] at step
      exact congrArg Prod.fst step

/-- A reference that moves away from its target and back has to be placed again. -/
example : (placed 0 0x70 : DataRef .code).run [.setTarget 1, .setTarget 0] = unplaced 0 := rfl

end DexImage.DataRef
