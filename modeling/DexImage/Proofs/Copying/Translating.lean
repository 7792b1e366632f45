import DexImage.Proofs.References.Items
/-! # Translating the references of an item

A translation goes through what stands in the places of an item, gives each present reference the
index that the translator finds for it, and stops at the first fault (`Translated`). What it makes of
the item is the item with its places filled so (`translate_spec`).
-/

namespace DexImage

variable {τ : Type} {translator : Translator τ}

/-- What a translation makes of references, the states before and after, and the fault that stopped
it, if one did. -/
inductive Translated (translator : Translator τ) :
    List Held → τ → List Held → τ → Option Fault → Prop where
  | done {state : τ} : Translated translator [] state [] state none
  | absent {one : Held} {rest places : List Held} {before after : τ} {fault? : Option Fault}
      (missing : one.index = none) (run : Translated translator rest before places after fault?) :
      Translated translator (one :: rest) before (one :: places) after fault?
  | moved {one : Held} {rest places : List Held} {old new : UInt32} {before next after : τ}
      {fault? : Option Fault} (present : one.index = some old)
      (finds : translator one.kind.toSection old before = (.ok new, next))
      (run : Translated translator rest next places after fault?) :
      Translated translator (one :: rest) before
        (one.edited (.retarget (some new)) :: places) after fault?
  | failed {one : Held} {rest : List Held} {old : UInt32} {before after : τ} {fault : Fault}
      (present : one.index = some old)
      (fails : translator one.kind.toSection old before = (.error fault, after)) :
      Translated translator (one :: rest) before (one :: rest) after (some fault)

/-- What a translation leaves in the places can stand there. -/
theorem Translated.fits {held places : List Held} {before after : τ} {fault? : Option Fault}
    (run : Translated translator held before places after fault?) (fits : ∀ one ∈ held, one.Fits one) :
    List.Forall₂ Held.Fits held places := by
  induction run with
  | done => exact .nil
  | absent _ _ ih =>
    obtain ⟨first, rest⟩ := List.forall_mem_cons.mp fits
    exact .cons first (ih rest)
  | moved _ _ _ ih =>
    obtain ⟨first, rest⟩ := List.forall_mem_cons.mp fits
    exact .cons (first.edited _) (ih rest)
  | failed => exact List.forall₂_same.mpr fits

/-- The visitor of a translation. -/
def translating (translator : Translator τ) : Visitor (Option Fault × τ) :=
  fun slot (fault?, state) =>
    match fault?, slot.index with
    | none, some index =>
      match translator slot.kind.toSection index state with
      | (.ok new, state) => (.retarget (some new), (none, state))
      | (.error fault, state) => (.keep, (some fault, state))
    | _, _ => (.keep, (fault?, state))

theorem translate_apply {α : Type} [Referring α] (translator : Translator τ) (item : α) (before : τ) :
    translate translator item before =
      (let run := visit (translating translator) item (none, before)
       (⟨run.2.1, run.1⟩, run.2.2)) :=
  rfl

/-- After a fault everything stays as it is. -/
private theorem visitAll_fault (held : List Held) (fault : Fault) (state : τ) :
    visitAll (Held.visit (translating translator)) held (some fault, state) = (held, (some fault, state)) := by
  induction held with
  | nil => rfl
  | cons one rest ih =>
    change (let run := visitAll (Held.visit (translating translator)) rest (some fault, state)
      (one.edited .keep :: run.1, run.2)) = _
    rw [ih, Held.edited_keep]

private theorem visitAll_translating (held : List Held) (before : τ) :
    Translated translator held before (visitAll (Held.visit (translating translator)) held (none, before)).1
      (visitAll (Held.visit (translating translator)) held (none, before)).2.2
      (visitAll (Held.visit (translating translator)) held (none, before)).2.1 := by
  induction held generalizing before with
  | nil => exact .done
  | cons one rest ih =>
    have step (edit : Edit) (next : Option Fault × τ)
        (answer : translating translator one.slot (none, before) = (edit, next)) :
        visitAll (Held.visit (translating translator)) (one :: rest) (none, before) =
          (one.edited edit :: (visitAll (Held.visit (translating translator)) rest next).1,
            (visitAll (Held.visit (translating translator)) rest next).2) := by
      change (let answer := translating translator one.slot (none, before)
        let run := visitAll (Held.visit (translating translator)) rest answer.2
        (one.edited answer.1 :: run.1, run.2)) = _
      rw [answer]
    rcases index : one.index with _ | old
    · rw [step .keep (none, before) (by simp [translating, Held.slot, index]), Held.edited_keep]
      exact .absent index (ih before)
    · rcases found : translator one.kind.toSection old before with ⟨fault | new, next⟩
      · rw [step .keep (some fault, next) (by simp [translating, Held.slot, index, found]), Held.edited_keep,
          visitAll_fault]
        exact .failed index found
      · rw [step (.retarget (some new)) (none, next) (by simp [translating, Held.slot, index, found])]
        exact .moved index found (ih next)

/-- A translation fills the places of a form with what it makes of the references in them. -/
theorem translate_holding {α : Type} [Referring α] (holding : Holding α) (translator : Translator τ) {item : α}
    (same : ∀ {σ : Type} (visitor : Visitor σ), holding.visit visitor item = visit visitor item) (before : τ) :
    ∃ places, (translate translator item before).1.value = holding.fill item places ∧
      Translated translator (holding.held item) before places
        (translate translator item before).2 (translate translator item before).1.fault? := by
  have pass : translate translator item before =
      (let run := holding.visit (translating translator) item (none, before)
       (⟨run.2.1, run.1⟩, run.2.2)) := by
    rw [same, translate_apply]
  rw [pass]
  exact ⟨_, rfl, visitAll_translating _ before⟩

/-- A translation fills the places of the item with what it makes of the references in them. -/
theorem translate_spec (translator : Translator τ) {kind : PoolKind} (item : Item kind) (before : τ) :
    ∃ places, (translate translator item before).1.value = (itemHolding kind).fill item places ∧
      Translated translator ((itemHolding kind).held item) before places
        (translate translator item before).2 (translate translator item before).1.fault? :=
  translate_holding (itemHolding kind) translator (fun visitor => visit_itemHolding visitor item) before

end DexImage
