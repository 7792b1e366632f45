import DexImage.Reference
/-! # Holders of references

An item lists the references it holds, and lets a visitor answer each of its slots with an
edit. Both go through the references in the order in which they are encoded.
-/

namespace DexImage

class Referring (α : Type) where
  /-- The references that are present. -/
  uses : α → List Use
  /-- Offers every slot to a visitor and makes the edits it answers with. -/
  visit : {σ : Type} → Visitor σ → α → StateM σ α

export Referring (uses visit)

variable {α : Type}

/-- Visits the members of a list, first to last. -/
def visitAll {σ : Type} (visitOne : α → StateM σ α) : List α → StateM σ (List α)
  | [] => pure []
  | item :: rest => do
    let item ← visitOne item
    return item :: (← visitAll visitOne rest)

/-- The slots of an item in visiting order, absent references included. -/
def slots [Referring α] (item : α) : List Slot :=
  let record : Visitor (List Slot) := fun slot => do
    modify fun found => slot :: found
    return .keep
  (visit record item []).2.reverse

/-- The uses with their markers replaced. -/
def taggedUses (usage : Usage) (found : List Use) : List Use :=
  found.map fun use => { use with usage }

/-- Finds the new index of a reference while it updates a state. -/
abbrev Translator (τ : Type) := SectionKind → UInt32 → StateM τ (Result UInt32)

/-- A value together with the fault that stopped the work on it, if one did. -/
structure Outcome (α : Type) where
  fault? : Option Fault
  value : α
deriving Repr

/-- Replaces every index that an item refers to by what the translator gives for it. The first
fault ends the work: that reference and those after it stay as they were. -/
def translate {τ : Type} [Referring α] (translator : Translator τ) (item : α) :
    StateM τ (Outcome α) := fun state =>
  let visitor : Visitor (Option Fault × τ) := fun slot (fault?, state) =>
    match fault?, slot.index with
    | none, some index =>
      match translator slot.kind.toSection index state with
      | (.ok new, state) => (.retarget (some new), (none, state))
      | (.error fault, state) => (.keep, (some fault, state))
    | _, _ => (.keep, (fault?, state))
  let (value, (fault?, state)) := visit visitor item (none, state)
  (⟨fault?, value⟩, state)

/-- Leaves every index as it is. -/
def Translator.identity {τ : Type} : Translator τ := fun _ index => pure (.ok index)

end DexImage
