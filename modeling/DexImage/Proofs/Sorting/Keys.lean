import DexImage.Proofs.Sorting.Renumbering
/-! # Keys after renumbering

Items keep their names when they move: a string has the same text at its new index, and an entry of another id
table has the same key, if it has one (`Renumbering.counterparts`).
-/

namespace DexImage.Renumbering

open Pools (get?_of_le)

variable {kinds : List PoolKind} {moves : PoolKind → Nat → Nat} {before after : Pools}

/-- Whether an index leads to the same item as an old one, or both to none. -/
def Follows (before : Pools) (moves : PoolKind → Nat → Nat) : Relation := fun kind old new =>
  old.toNat < (before.pool kind).size ∧ new.toNat = moves kind old.toNat ∨
  (before.pool kind).size ≤ old.toNat ∧ new = old

theorem leads_of_held {refuses : Prop} {one other : Held} (plain : one.isOperand = false)
    (renumbered : one.Renumbered kinds (fun kind => (before.pool kind).size) moves refuses other) :
    Slot.Leads (Follows before moves) before one.slot other.slot := by
  refine ⟨renumbered.fits.slot_eq.1, ?_⟩
  rcases present : one.index with _ | old
  · exact .inr ⟨renumbered.absent present, by simp [Held.slot, present]⟩
  by_cases below : old.toNat < (before.pool one.kind).size
  · rcases renumbered.inside old present below with ⟨new, arrived, number⟩ | ⟨narrow, -⟩
    · exact .inl ⟨old, new, present, arrived, .inl ⟨below, number⟩⟩
    · cases one with
      | operand => cases plain
      | _ => exact absurd narrow Bool.false_ne_true
  · have beyond := Nat.le_of_not_lt below
    rcases renumbered.outside old present beyond with gone | same
    · refine .inr ⟨gone, fun first found => ?_⟩
      obtain rfl := Option.some.inj (present.symm.trans found)
      exact beyond
    · exact .inl ⟨old, old, present, same, .inr ⟨beyond, rfl⟩⟩

/-- What two indices lead to that follow each other. -/
theorem get?_cases (renumbering : Renumbering kinds moves before after)
    {kind : PoolKind} {old new : UInt32} (follows : Follows before moves kind old new) :
    (before.get? kind old = none ∧ after.get? kind new = none) ∨
      ∃ item other, before.get? kind old = some item ∧ after.get? kind new = some other ∧
        Renumbers kinds (fun kind => (before.pool kind).size) moves item other := by
  rcases follows with ⟨below, number⟩ | ⟨beyond, rfl⟩
  · rw [← Pool.length_items] at below
    have found := List.getElem?_eq_getElem below
    obtain ⟨other, moved, change⟩ := renumbering.items kind old.toNat _ found
    exact .inr ⟨_, other, Pool.get?_eq_some.mpr found, Pool.get?_eq_some.mpr (number ▸ moved), change⟩
  · exact .inl ⟨get?_of_le beyond, get?_of_le (renumbering.size kind ▸ beyond)⟩

/-- The references of an item that is not code, after it has moved. -/
theorem leads_slots {kind : PoolKind} (plain : kind ≠ .code) {item other : Item kind}
    (change : Renumbers kinds (fun kind => (before.pool kind).size) moves item other) :
    List.Forall₂ (Slot.Leads (Follows before moves) before) (slots item) (slots other) := by
  rw [slots_eq, slots_eq, List.forall₂_map_left_iff, List.forall₂_map_right_iff]
  refine .of_getElem? change.held.length_eq fun position one found => ?_
  obtain ⟨next, present, step⟩ := change.held.getElem?_left found
  exact ⟨next, present, leads_of_held (plain_of_ne_code plain item one (List.mem_of_getElem? found)) step⟩

/-- What moves keeps its name. -/
theorem counterparts (renumbering : Renumbering kinds moves before after) :
    Counterparts (Follows before moves) before after where
  items := by
    intro kind old new follows plain
    rcases renumbering.get?_cases follows with missing | ⟨item, other, found, moved, change⟩
    · exact .inl missing
    · refine .inr ⟨item, other, found, moved, ?_, leads_slots plain change⟩
      rw [← content_of_ne plain, ← content_of_ne plain, change.content]

end DexImage.Renumbering
