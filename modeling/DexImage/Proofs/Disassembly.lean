import DexImage.Item.Instructions
import Mathlib.Data.List.Basic
/-! # Disassembly

Cutting code into instructions undoes writing them one after the other. `Cut` says when units are
exactly one instruction, `Stuck` when no instruction can be cut from the front, and `Listing` that
the instructions of a disassembly are such cuts at consecutive positions.
-/

namespace DexImage
namespace PayloadKind

/-- The declared size covers the header it is read from, so that what follows does not matter. -/
theorem size?_take {kind : PayloadKind} {units : List UInt16} {size : Nat}
    (declared : kind.size? units = some size) (long : size ≤ units.length) (rest : List UInt16) :
    kind.size? (units.take size ++ rest) = some size := by
  unfold size? at declared
  split at declared
  · obtain ⟨size, rfl⟩ : ∃ more, size = more + 2 := ⟨size - 2, by simp at declared; omega⟩
    simpa [size?] using declared
  · obtain ⟨size, rfl⟩ : ∃ more, size = more + 2 := ⟨size - 2, by simp at declared; omega⟩
    simpa [size?] using declared
  · obtain ⟨size, rfl⟩ : ∃ more, size = more + 4 := ⟨size - 4, by simp at declared; omega⟩
    simpa [size?] using declared
  · cases declared

end PayloadKind

namespace Instruction

/-- Whether units are an instruction of a shape, whatever follows them. -/
def Cut (shape : InstructionShape) : List UInt16 → Prop
  | [] => False
  | first :: others =>
    ∀ rest, shapeOf first (first :: others ++ rest) = (shape, some (others.length + 1))

/-- Whether the first instruction is cut off, or there is none. -/
def Stuck : List UInt16 → Prop
  | [] => True
  | first :: others =>
    ∀ size, (shapeOf first (first :: others)).2 = some size → others.length + 1 < size

theorem Cut.ne_nil {shape : InstructionShape} {units : List UInt16} (cut : Cut shape units) : units ≠ [] := by
  rintro rfl
  exact cut

theorem shapeOf_pos {first : UInt16} {units : List UInt16} {shape : InstructionShape} {size : Nat}
    (found : shapeOf first units = (shape, some size)) : 0 < size := by
  unfold shapeOf at found
  split at found
  · exact PayloadKind.size?_pos (Prod.mk.inj found).2
  · rw [← Option.some.inj (Prod.mk.inj found).2]
    exact OperandFormat.size_pos _

theorem cut_take {first : UInt16} {others : List UInt16} {shape : InstructionShape} {size : Nat}
    (found : shapeOf first (first :: others) = (shape, some size)) (long : size ≤ others.length + 1) :
    Cut shape ((first :: others).take size) := by
  obtain ⟨size, rfl⟩ : ∃ more, size = more + 1 := ⟨size - 1, by have := shapeOf_pos found; omega⟩
  intro rest
  rw [List.length_take_of_le (by omega)]
  unfold shapeOf at found ⊢
  split at found
  · rename_i kind payload
    obtain ⟨rfl, declared⟩ := Prod.mk.inj found
    have still := kind.size?_take declared (by simpa using long) rest
    rw [List.take_succ_cons] at still
    simp only [still]
  · rename_i payload
    simp only [found]

/-- An instruction can be cut from the front of units, or none. -/
theorem stuck_or_cut (units : List UInt16) :
    Stuck units ∨ ∃ shape own rest, units = own ++ rest ∧ Cut shape own := by
  rcases units with _ | ⟨first, others⟩
  · exact .inl trivial
  rcases shaped : shapeOf first (first :: others) with ⟨shape, _ | size⟩
  · exact .inl fun size found => by rw [shaped] at found; cases found
  by_cases long : size ≤ others.length + 1
  · exact .inr ⟨shape, _, _, (List.take_append_drop size _).symm, cut_take shaped long⟩
  · refine .inl fun declared found => ?_
    rw [shaped] at found
    obtain rfl := Option.some.inj found
    omega

end Instruction

namespace Disassembly

open Instruction

/-- The instructions cut from an position on, and the units that are left. -/
inductive Listing : Nat → List Instruction → List UInt16 → Prop where
  | stuck {position : Nat} {rest : List UInt16} (stuck : Stuck rest) : Listing position [] rest
  | next {position : Nat} {shape : InstructionShape} {own rest : List UInt16}
      {others : List Instruction} (cut : Cut shape own)
      (listing : Listing (position + own.length) others rest) :
      Listing position (⟨position, shape, own⟩ :: others) rest

/-- The units of instructions, one after the other. -/
abbrev unitsOf (instructions : List Instruction) : List UInt16 :=
  instructions.flatMap Instruction.units

theorem unitsOf_nil : unitsOf [] = [] := rfl

theorem unitsOf_cons_append (instruction : Instruction) (others : List Instruction) (rest : List UInt16) :
    unitsOf (instruction :: others) ++ rest = instruction.units ++ (unitsOf others ++ rest) := by
  rw [unitsOf, List.flatMap_cons, List.append_assoc]

theorem Listing.cut_of_mem {position : Nat} {instructions : List Instruction} {rest : List UInt16}
    (listing : Listing position instructions rest) :
    ∀ instruction ∈ instructions, Cut instruction.shape instruction.units := by
  induction listing with
  | stuck => simp
  | next cut _ ih => exact List.forall_mem_cons.mpr ⟨cut, ih⟩

/-- Units are cut into instructions up to where no more can be cut. -/
theorem exists_listing (position : Nat) (units : List UInt16) :
    ∃ instructions rest, Listing position instructions rest ∧ unitsOf instructions ++ rest = units := by
  rcases stuck_or_cut units with stuck | ⟨shape, own, left, rfl, cut⟩
  · exact ⟨[], units, .stuck stuck, rfl⟩
  · have shorter : left.length < (own ++ left).length := by
      have pos := List.length_pos_of_ne_nil cut.ne_nil
      rw [List.length_append]
      omega
    obtain ⟨instructions, rest, listing, tiled⟩ := exists_listing (position + own.length) left
    refine ⟨⟨position, shape, own⟩ :: instructions, rest, .next cut listing, ?_⟩
    rw [unitsOf_cons_append, tiled]
termination_by units.length

theorem ofUnitsWithin_stuck (fuel position : Nat) {units : List UInt16} (stuck : Stuck units)
    (found : List Instruction) : ofUnitsWithin fuel position units found = ⟨found.reverse, units⟩ := by
  rcases fuel with _ | fuel
  · rfl
  rcases units with _ | ⟨first, others⟩
  · rfl
  rcases shaped : shapeOf first (first :: others) with ⟨shape, _ | size⟩
  · simp only [ofUnitsWithin, shaped]
  · have short := stuck size (by rw [shaped])
    have cutOff : ((first :: others).take size).length < size := by
      rw [List.length_take, List.length_cons]
      omega
    simp only [ofUnitsWithin, shaped, if_pos cutOff]

theorem ofUnitsWithin_cut (fuel position : Nat) {shape : InstructionShape} {own : List UInt16} (cut : Cut shape own)
    (rest : List UInt16) (found : List Instruction) :
    ofUnitsWithin (fuel + 1) position (own ++ rest) found =
      ofUnitsWithin fuel (position + own.length) rest (⟨position, shape, own⟩ :: found) := by
  rcases own with _ | ⟨first, others⟩
  · cases cut
  have shaped := cut rest
  have own : (first :: (others ++ rest)).take (others.length + 1) = first :: others := by simp
  have left : (first :: (others ++ rest)).drop (others.length + 1) = rest := by simp
  rw [List.cons_append] at shaped ⊢
  simp only [ofUnitsWithin, shaped, own, left, List.length_cons, Nat.lt_irrefl, if_false]

/-- With as many steps as there are units, cutting finds the instructions that are listed. -/
private theorem ofUnitsWithin_eq {fuel position : Nat} {instructions found : List Instruction} {rest : List UInt16}
    (listing : Listing position instructions rest) (enough : (unitsOf instructions ++ rest).length ≤ fuel) :
    ofUnitsWithin fuel position (unitsOf instructions ++ rest) found = ⟨found.reverse ++ instructions, rest⟩ := by
  induction listing generalizing fuel found with
  | stuck stuck => rw [List.append_nil, unitsOf_nil, List.nil_append, ofUnitsWithin_stuck _ _ stuck]
  | @next position shape own rest others cut _ ih =>
    rcases own with _ | ⟨first, tail⟩
    · cases cut
    rw [unitsOf_cons_append, List.length_append, List.length_cons] at enough
    obtain ⟨fuel, rfl⟩ : ∃ more, fuel = more + 1 := ⟨fuel - 1, by omega⟩
    rw [unitsOf_cons_append, ofUnitsWithin_cut _ _ cut, ih (by omega), List.reverse_cons, List.append_assoc,
      List.singleton_append]

/-- Cutting finds the instructions that were written. -/
theorem ofUnits_eq {instructions : List Instruction} {rest : List UInt16} (listing : Listing 0 instructions rest) :
    ofUnits (unitsOf instructions ++ rest) = ⟨instructions, rest⟩ :=
  ofUnitsWithin_eq listing (Nat.le_refl _)

/-- Code is tiled by its instructions and the units that are left. -/
theorem ofUnits_listing (units : List UInt16) :
    Listing 0 (ofUnits units).instructions (ofUnits units).rest ∧
      unitsOf (ofUnits units).instructions ++ (ofUnits units).rest = units := by
  obtain ⟨instructions, rest, listing, rfl⟩ := exists_listing 0 units
  rw [ofUnits_eq listing]
  exact ⟨listing, rfl⟩

end Disassembly
end DexImage
