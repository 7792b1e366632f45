import Mathlib.Data.List.Induction
import DexImage.Item.EncodedArray
/-! # Clean lists are unchanged

Every operation on a tracked list marks it as edited, unless it finds nothing to do (`TrackedList.Idle`), in
which case the list stays as it is; only a refresh takes the mark off. So a list that is clean has the children
that the last refresh has left, or those that it started with (`TrackedList.clean_unchanged`). A mark does not
say that there was a change: a child may be handed out and left alone.
-/

namespace DexImage.TrackedList

variable {α : Type}

/-- What can be done to a tracked list. Children that are handed out are edited where they are. -/
inductive Operation (α : Type) where
  | modify (slot : Nat) (edit : α → α)
  | modifyAll (edit : SlotsEdit α)
  | push (item : α)
  | insert (slot : Nat) (item : α)
  | remove (slot : Nat)
  | truncate (length : Nat)
  | resize (length : Nat) (fill : Nat → α)
  | clear
  | markDirty
  | refresh

/-- Whether an operation finds nothing to do: no child to remove, or no other length to give to a list. -/
def Idle (list : TrackedList α) : Operation α → Prop
  | .remove slot => list.length ≤ slot
  | .truncate length => list.length ≤ length
  | .resize length _ => length = list.length
  | .clear => list.length = 0
  | _ => False

variable [Encodable α] {list start base : TrackedList α} {operation : Operation α}
  {history stretch : List (Operation α)}

def apply (list : TrackedList α) : Operation α → TrackedList α
  | .modify slot edit => list.modify slot edit
  | .modifyAll edit => list.modifyAll edit
  | .push item => list.push item
  | .insert slot item => list.insert slot item
  | .remove slot => list.remove slot
  | .truncate length => list.truncate length
  | .resize length fill => list.resizeWith length fill
  | .clear => list.clear
  | .markDirty => list.markDirty
  | .refresh => DexImage.refresh list

def run (start : TrackedList α) (history : List (Operation α)) : TrackedList α := history.foldl apply start

theorem run_append (start : TrackedList α) (before after : List (Operation α)) :
    start.run (before ++ after) = (start.run before).run after :=
  List.foldl_append

/-! ## Single operations -/

theorem apply_of_idle (idle : list.Idle operation) : list.apply operation = list := by
  cases operation with
  | remove slot => exact if_neg (Nat.not_lt.mpr idle)
  | truncate length => exact if_neg (Nat.not_lt.mpr idle)
  | resize length fill => exact if_pos idle
  | clear => exact if_neg (Nat.not_lt.mpr (Nat.le_of_eq idle))
  | modify | modifyAll | push | insert | markDirty | refresh => cases idle

theorem dirty_apply_of_not_idle (busy : ¬list.Idle operation) (other : operation ≠ .refresh) :
    (list.apply operation).dirty = true := by
  cases operation with
  | remove slot => exact congrArg dirty (if_pos (Nat.not_le.mp busy))
  | truncate length => exact congrArg dirty (if_pos (Nat.not_le.mp busy))
  | resize length fill => exact congrArg dirty (if_neg busy)
  | clear => exact congrArg dirty (if_pos (Nat.pos_of_ne_zero busy))
  | modify | modifyAll | push | insert | markDirty => rfl
  | refresh => exact absurd rfl other

/-- An operation leaves a list without a mark if there was none before and it finds nothing to do. -/
theorem dirty_apply_eq_false_iff (other : operation ≠ .refresh) :
    (list.apply operation).dirty = false ↔ list.dirty = false ∧ list.Idle operation := by
  by_cases idle : list.Idle operation
  · rw [apply_of_idle idle]
    exact (and_iff_left idle).symm
  · rw [dirty_apply_of_not_idle idle other]
    exact iff_of_false Bool.noConfusion fun both => idle both.2

/-! ## Stretches without a refresh -/

theorem run_of_idle (idle : ∀ operation ∈ stretch, base.Idle operation) : base.run stretch = base := by
  induction stretch with
  | nil => rfl
  | cons operation rest ih =>
    obtain ⟨first, idle⟩ := List.forall_mem_cons.mp idle
    change (base.apply operation).run rest = base
    rw [apply_of_idle first, ih idle]

/-- A stretch leaves a list without a mark if there was none before and all its operations find nothing to do. -/
theorem dirty_run_eq_false_iff (others : ∀ operation ∈ stretch, operation ≠ .refresh) :
    (base.run stretch).dirty = false ↔ base.dirty = false ∧ ∀ operation ∈ stretch, base.Idle operation := by
  induction stretch generalizing base with
  | nil => simp [run]
  | cons operation rest ih =>
    obtain ⟨other, others⟩ := List.forall_mem_cons.mp others
    rw [List.forall_mem_cons]
    refine (ih others).trans ?_
    rw [dirty_apply_eq_false_iff other, and_assoc]
    refine and_congr_right fun _ => and_congr_right fun idle => ?_
    rw [apply_of_idle idle]

/-! ## Histories -/

/-- Whether a history ends with a stretch without a refresh, which starts from a list that has just been
refreshed, or from the one at the start if there was no refresh. -/
def Since (start : TrackedList α) (history : List (Operation α))
    (base : TrackedList α) (stretch : List (Operation α)) : Prop :=
  (∀ operation ∈ stretch, operation ≠ .refresh) ∧
    (history = stretch ∧ base = start ∨
      ∃ before, history = before ++ .refresh :: stretch ∧ base = start.run (before ++ [.refresh]))

theorem exists_since (start : TrackedList α) (history : List (Operation α)) :
    ∃ base stretch, start.Since history base stretch := by
  induction history using List.reverseRecOn with
  | nil => exact ⟨start, [], List.forall_mem_nil _, .inl ⟨rfl, rfl⟩⟩
  | append_singleton history operation ih =>
    by_cases refreshed : operation = .refresh
    · subst refreshed
      exact ⟨_, [], List.forall_mem_nil _, .inr ⟨history, rfl, rfl⟩⟩
    · obtain ⟨base, stretch, others, origin⟩ := ih
      refine ⟨base, stretch ++ [operation], ?_, ?_⟩
      · exact List.forall_mem_append.mpr ⟨others, List.forall_mem_singleton.mpr refreshed⟩
      · rcases origin with ⟨rfl, rfl⟩ | ⟨before, rfl, rfl⟩
        · exact .inl ⟨rfl, rfl⟩
        · exact .inr ⟨before, by rw [List.append_assoc, List.cons_append], rfl⟩

theorem Since.run_eq (since : start.Since history base stretch) : start.run history = base.run stretch := by
  obtain ⟨-, ⟨rfl, rfl⟩ | ⟨before, rfl, rfl⟩⟩ := since
  · rfl
  · rw [← run_append, List.append_assoc, List.singleton_append]

/-- A stretch starts from a list without a mark. -/
theorem Since.dirty_eq (since : start.Since history base stretch) (fresh : start.dirty = false) :
    base.dirty = false := by
  obtain ⟨-, ⟨-, rfl⟩ | ⟨before, -, rfl⟩⟩ := since
  · exact fresh
  · rw [run_append]
    rfl

theorem isDirty_eq_false_iff (list : TrackedList α) :
    isDirty list = false ↔ list.dirty = false ∧ ∀ child ∈ list.items, isDirty child = false := by
  change (list.dirty || list.items.any isDirty) = false ↔ _
  rw [Bool.or_eq_false_iff, List.any_eq_false]
  exact and_congr_right fun _ => forall₂_congr fun _ _ => iff_of_eq (Bool.not_eq_true _)

/-- A list that is new, or made of children, has a last refresh or a start after any operations. It is clean if
all operations since then have found nothing to do and no child is dirty, and then it is the list that it was
right after that. -/
theorem clean_unchanged (fresh : start = .empty ∨ ∃ items, start = .ofList items) (history : List (Operation α)) :
    (∃ base stretch, start.Since history base stretch) ∧ ∀ base stretch, start.Since history base stretch →
      (isDirty (start.run history) = false ↔
        (∀ operation ∈ stretch, base.Idle operation) ∧ ∀ child ∈ base.items, isDirty child = false) ∧
      (isDirty (start.run history) = false → start.run history = base) := by
  refine ⟨exists_since start history, fun base stretch since => ?_⟩
  have unmarked : start.dirty = false := by
    rcases fresh with rfl | ⟨items, rfl⟩ <;> rfl
  have clean := @dirty_run_eq_false_iff _ _ base _ since.1
  rw [since.run_eq, isDirty_eq_false_iff, clean, and_iff_right (since.dirty_eq unmarked)]
  constructor
  · refine and_congr_right fun idle => ?_
    rw [run_of_idle idle]
  · exact fun both => run_of_idle both.1

/-- Cutting an array that has just been refreshed to a length that it does not have leaves it clean. -/
theorem clean_unchanged_truncate :
    let start : TrackedList ValueSlot := .ofList [some .null]
    let refreshed : List (Operation ValueSlot) := [.push none, .refresh]
    let final := start.run (refreshed ++ [.remove 7, .truncate 2])
    (start = .empty ∨ ∃ items, start = .ofList items) ∧ isDirty final = false ∧ final = start.run refreshed := by
  intro start refreshed final
  have fresh : start = .empty ∨ ∃ items, start = .ofList items := .inr ⟨_, rfl⟩
  have since : start.Since (refreshed ++ [.remove 7, .truncate 2]) (start.run refreshed) [.remove 7, .truncate 2] :=
    ⟨by simp, .inr ⟨[.push none], rfl, rfl⟩⟩
  have clean : isDirty final = false := rfl
  exact ⟨fresh, clean, ((clean_unchanged fresh _).2 _ _ since).2 clean⟩

end DexImage.TrackedList
