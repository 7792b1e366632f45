import DexImage.Listing.Code
import DexImage.Proofs.References.Reported
/-! # Iterating over instructions

An iteration gives what stands at the front of some code, goes on behind that, and ends at the end of the code.
What it has given tiles the code up to there or up to an instruction that is cut off, for which it gives the one
fault there is, as the last thing (`InstructionList.iteration_tiles`). The references of an instruction and its
line in a listing are taken from its own units only, since each format has the units that its operands are read
from.
-/

namespace DexImage

namespace PayloadKind

/-- The number of units from which the size of a table is read. -/
def headerLength : PayloadKind → Nat
  | packedSwitch | sparseSwitch => 2
  | fillArrayData => 4

theorem size?_eq_none_iff {kind : PayloadKind} {units : List UInt16} :
    kind.size? units = none ↔ units.length < kind.headerLength := by
  rcases units with _ | ⟨_, _ | ⟨_, _ | ⟨_, _ | _⟩⟩⟩ <;> cases kind <;> simp [size?, headerLength]

end PayloadKind

namespace Instruction

open Disassembly

variable {instruction : Instruction} {ref : OperandRef}

/-- The line for an instruction, unless a unit is looked up that the instruction does not have. -/
def text? (pools : Pools) (instruction : Instruction) : Option String :=
  instruction.textBy pools fun position => instruction.units[position]?

/-- The operands of a format are read from the units that it has. -/
private theorem operandsBy_eq {opcode : Opcode} {pools : Pools} {found : Nat → Option UInt16} {unit : Nat → UInt16}
    (within : ∀ position < opcode.format.size, found position = pure (unit position)) :
    operandsBy pools opcode found = pure (Id.run (operandsBy pools opcode fun position => pure (unit position))) := by
  -- As a hypothesis it only rewrites: unfolded, it would have texts evaluated when the proof is checked.
  have run (text : String) : Id.run (pure text) = text := rfl
  obtain ⟨code, name, format, target, secondTarget⟩ := opcode
  dsimp only at within
  cases format <;> simp (disch := decide) only [operandsBy, within, pure_bind, run]

theorem text?_of_cut (cut : Cut instruction.shape instruction.units) (pools : Pools) :
    instruction.text? pools = some (instruction.text pools) := by
  obtain ⟨position, shape, units⟩ := instruction
  cases shape with
  | payload kind => rfl
  | op opcode =>
    obtain ⟨-, -, length⟩ := Cut.op cut
    have found : ∀ position < opcode.format.size, units[position]? = pure (units.getD position 0) := by
      intro position inside
      rw [← length] at inside
      rw [List.getD_eq_getElem?_getD, List.getElem?_eq_getElem inside]
      rfl
    have operands := @operandsBy_eq opcode pools _ _ found
    rw [text?, text, textBy, textBy]
    dsimp only
    split
    · rfl
    · rw [operands]
      rfl

theorem place_within (cut : Cut instruction.shape instruction.units) (member : ref ∈ instruction.refs) :
    instruction.position < ref.place ∧ ref.place + ref.span ≤ instruction.position + instruction.units.length := by
  obtain ⟨behind, inside⟩ := (refs_sound cut).1 ref member
  rw [OperandRef.place, position_of_mem member]
  omega

end Instruction

namespace Disassembly

open Instruction

variable {start : Nat} {instructions : List Instruction} {rest : List UInt16}

theorem Listing.stuck_rest (listing : Listing start instructions rest) : Stuck rest := by
  induction listing with
  | stuck stuck => exact stuck
  | next _ _ ih => exact ih

/-- An instruction starts where those before it end. -/
theorem Listing.position_eq (listing : Listing start instructions rest) {front back : List Instruction}
    {instruction : Instruction} (split : instructions = front ++ instruction :: back) :
    instruction.position = start + (unitsOf front).length := by
  induction listing generalizing front with
  | stuck => simp at split
  | @next start shape own rest others cut _ ih =>
    rcases front with _ | ⟨first, front⟩
    · obtain ⟨rfl, -⟩ := List.cons.inj split
      rfl
    · obtain ⟨rfl, later⟩ := List.cons.inj split
      rw [ih later, Nat.add_assoc, ← List.length_append]
      rfl

/-- Whether what is left of some code is the start of something that is cut off: of a table, within the header
from which the size would be read, or within the size that is declared. -/
def CutOff (rest : List UInt16) : Prop :=
  ∃ first others, rest = first :: others ∧
    ((∃ kind, PayloadKind.ofUnit? first = some kind ∧ rest.length < kind.headerLength) ∨
      ∃ size, (shapeOf first rest).2 = some size ∧ rest.length < size)

theorem CutOff.of_stuck (stuck : Stuck rest) (left : rest ≠ []) : CutOff rest := by
  obtain ⟨first, others, rfl⟩ := List.exists_cons_of_ne_nil left
  refine ⟨first, others, rfl, ?_⟩
  rcases declared : (shapeOf first (first :: others)).2 with _ | size
  · refine .inl ?_
    rw [shapeOf] at declared
    split at declared
    · rename_i kind payload
      exact ⟨kind, payload, PayloadKind.size?_eq_none_iff.mp declared⟩
    · cases declared
  · exact .inr ⟨size, rfl, stuck size declared⟩

end Disassembly

namespace InstructionList

open Disassembly Instruction

/-- What an iteration gives from a position on, until it ends. -/
inductive Yields (list : InstructionList) : Nat → List (Result Instruction) → Prop where
  | ended {position : Nat} (ended : list.next? position = none) : Yields list position []
  | next {position behind : Nat} {item : Result Instruction} {items : List (Result Instruction)}
      (step : list.next? position = some (item, behind)) (later : Yields list behind items) :
      Yields list position (item :: items)

variable {list : InstructionList} {position : Nat} {items others : List (Result Instruction)}

theorem Yields.unique (one : list.Yields position items) (other : list.Yields position others) : others = items := by
  induction one generalizing others with
  | ended ended =>
    cases other with
    | ended => rfl
    | next step => cases ended.symm.trans step
  | next step _ ih =>
    cases other with
    | ended ended => cases ended.symm.trans step
    | next step' later =>
      cases step.symm.trans step'
      rw [ih later]

/-! ## Steps -/

variable {front own rest : List UInt16} {shape : InstructionShape} {instructions : List Instruction}

theorem next?_length (list : InstructionList) : list.next? list.length = none := by
  rw [next?, length, List.drop_length]

theorem next?_of_cut (code : list.units = front ++ (own ++ rest)) (cut : Cut shape own) :
    list.next? front.length = some (.ok ⟨front.length, shape, own⟩, front.length + own.length) := by
  rcases own with _ | ⟨first, own⟩
  · cases cut
  · rw [next?, code, List.drop_left, List.cons_append]
    have found := cut rest
    have fits : (some (own.length + 1)).filter (· ≤ (first :: (own ++ rest)).length) = some (own.length + 1) := by
      simp [Option.filter_some]
    have taken : (first :: (own ++ rest)).take (own.length + 1) = first :: own := by simp
    rw [List.cons_append] at found
    simp only [found, fits, taken]
    rfl

theorem next?_of_stuck (code : list.units = front ++ rest) (stuck : Stuck rest) (left : rest ≠ []) :
    list.next? front.length = some (.error (Fault.of (.instructionCut front.length rest.length)), list.length) := by
  obtain ⟨first, others, rfl⟩ := List.exists_cons_of_ne_nil left
  rw [next?, code, List.drop_left]
  have none : (shapeOf first (first :: others)).2.filter (· ≤ (first :: others).length) = none := by
    rw [Option.filter_eq_none_iff]
    intro size declared
    simpa using stuck size declared
  simp only [none]

/-! ## Runs -/

/-- An iteration gives instruction after instruction, and from behind the last one what is there. -/
theorem Yields.of_listing (listing : Listing position instructions rest) (start : front.length = position)
    (code : list.units = front ++ (unitsOf instructions ++ rest))
    (later : list.Yields (front ++ unitsOf instructions).length items) :
    list.Yields position (instructions.map .ok ++ items) := by
  induction listing generalizing front with
  | stuck =>
    rw [unitsOf, List.flatMap_nil, List.append_nil, start] at later
    exact later
  | @next start shape own rest others cut _ ih =>
    rw [unitsOf_cons_append] at code
    refine .next (start ▸ next?_of_cut code cut) ?_
    have behind : list.units = (front ++ own) ++ (unitsOf others ++ rest) := by
      rw [code, List.append_assoc]
    refine ih (by rw [List.length_append, start]) behind ?_
    rw [unitsOf, List.flatMap_cons, ← List.append_assoc] at later
    exact later

/-- Whether instructions tile some code from the front, with nothing between them, up to what is left of it. -/
structure Tiled (list : InstructionList) (instructions : List Instruction) (rest : List UInt16) : Prop where
  covers : unitsOf instructions ++ rest = list.units
  starts : ∀ front instruction back, instructions = front ++ instruction :: back →
    instruction.position = (unitsOf front).length
  inside : ∀ instruction ∈ instructions, instruction.position + instruction.units.length ≤ list.length
  whole : ∀ instruction ∈ instructions, instruction.units ≠ [] ∧ Cut instruction.shape instruction.units

theorem Tiled.toNat_address (tiled : list.Tiled instructions rest) (short : list.length ≤ UInt32.size)
    {instruction : Instruction} (member : instruction ∈ instructions) :
    instruction.address.toNat = instruction.position := by
  have inside := tiled.inside instruction member
  have pos := List.length_pos_iff.mpr (tiled.whole instruction member).1
  exact UInt32.toNat_ofNat_of_lt' (by omega)

theorem tiled (list : InstructionList) : list.Tiled list.disassembly.instructions list.disassembly.rest := by
  obtain ⟨listing, covers⟩ := ofUnits_listing list.units
  have starts {front : List Instruction} {instruction : Instruction} {back : List Instruction}
      (split : list.disassembly.instructions = front ++ instruction :: back) :
      instruction.position = (unitsOf front).length := by
    rw [listing.position_eq split, Nat.zero_add]
  refine ⟨covers, fun _ _ _ => starts, fun instruction member => ?_, fun instruction member =>
    ⟨(listing.cut_of_mem instruction member).ne_nil, listing.cut_of_mem instruction member⟩⟩
  obtain ⟨front, back, split⟩ := List.append_of_mem member
  have size : list.length = (unitsOf list.disassembly.instructions ++ list.disassembly.rest).length :=
    (congrArg List.length covers).symm
  rw [starts split, size, split]
  simp only [unitsOf, List.flatMap_append, List.flatMap_cons, List.length_append]
  omega

/-- The items of an iteration, if there are others behind the instructions. -/
private theorem yields_iff (later : list.Yields (unitsOf list.disassembly.instructions).length items) :
    list.Yields 0 others ↔ others = list.disassembly.instructions.map .ok ++ items := by
  obtain ⟨listing, code⟩ := ofUnits_listing list.units
  have whole := @Yields.of_listing list 0 items [] _ _ listing rfl code.symm later
  exact ⟨whole.unique, fun same => same ▸ whole⟩

/-! ## Ends -/

section Covered

variable (covered : list.disassembly.rest = [])
include covered

theorem yields_iff_of_covered : list.Yields 0 items ↔ items = list.disassembly.instructions.map .ok := by
  have units : unitsOf list.disassembly.instructions = list.units := by
    rw [← list.tiled.covers, covered, List.append_nil]
  have ended : list.Yields (unitsOf list.disassembly.instructions).length [] := .ended (units ▸ list.next?_length)
  rw [yields_iff ended, List.append_nil]

theorem validate_of_covered : list.validate = .ok list.disassembly.instructions.length := by
  have valid : list.disassembly.fault? = none := by
    rw [fault?, covered]
    rfl
  rw [validate, valid]

end Covered

section Left

variable (left : list.disassembly.rest ≠ [])
include left

theorem cutOff_of_left : CutOff list.disassembly.rest :=
  .of_stuck (ofUnits_listing list.units).1.stuck_rest left

theorem yields_iff_of_left : list.Yields 0 items ↔ items = list.disassembly.instructions.map .ok ++ [.error (Fault.of
    (.instructionCut (unitsOf list.disassembly.instructions).length list.disassembly.rest.length))] := by
  have step := next?_of_stuck list.tiled.covers.symm (ofUnits_listing list.units).1.stuck_rest left
  exact yields_iff (.next step (.ended list.next?_length))

theorem validate_of_left : list.validate = .error (Fault.of
    (.instructionCut (unitsOf list.disassembly.instructions).length list.disassembly.rest.length)) := by
  have cut : list.disassembly.fault? = some (Fault.of
      (.instructionCut (unitsOf list.disassembly.instructions).length list.disassembly.rest.length)) := by
    rw [fault?, if_neg (by rwa [List.isEmpty_iff]), unitsOf, length_flatMap_eq_total]
  rw [validate, cut]

end Left

/-- An iteration ends. What it has given before is the instructions that tile the code and, unless they cover
all of it, one fault at what is cut off behind them; the code is valid if there is none. The units that are
reported for operands are units of the code, and those that the line of an instruction is made from are its own.
An address is a word: as long as the code has no more units than a word can address, instructions have their
positions for addresses, and the units that are reported for the operands of one lie within it. -/
theorem iteration_tiles (list : InstructionList) : ∃ instructions rest, list.Tiled instructions rest ∧
    (rest = [] ∧ (∀ items, list.Yields 0 items ↔ items = instructions.map .ok) ∧
      list.validate = .ok instructions.length ∨
      ∃ fault, CutOff rest ∧ fault = Fault.of (.instructionCut (unitsOf instructions).length rest.length) ∧
        fault.kind = .truncatedInput ∧ (∀ items, list.Yields 0 items ↔
          items = instructions.map .ok ++ [.error fault]) ∧
          list.validate = .error fault) ∧
    (∀ ref ∈ list.operandRefs, ref.unit + ref.span ≤ list.length) ∧
    (list.length ≤ UInt32.size →
      (∀ instruction ∈ instructions, instruction.address.toNat = instruction.position) ∧
      ∀ ref ∈ list.operandRefs, ∃ instruction ∈ instructions, ref ∈ instruction.refs ∧
        instruction.position < ref.unit ∧ ref.unit + ref.span ≤ instruction.position + instruction.units.length) ∧
    ∀ pools, ∀ instruction ∈ instructions, instruction.text? pools = some (instruction.text pools) := by
  have tiled := list.tiled
  refine ⟨_, _, tiled, ?_, fun ref member => ?_,
    fun short => ⟨fun _ => tiled.toNat_address short, fun ref member => ?_⟩,
    fun pools instruction member => ?_⟩
  · by_cases covered : list.disassembly.rest = []
    · exact .inl ⟨covered, fun _ => yields_iff_of_covered covered, validate_of_covered covered⟩
    · exact .inr ⟨_, cutOff_of_left covered, rfl, rfl, fun _ => yields_iff_of_left covered, validate_of_left covered⟩
  · exact Nat.le_trans (Nat.add_le_add_right ref.unit_le_place _) (list.operandRefs_placed.1 ref member)
  · rw [unit_eq_place short member]
    obtain ⟨instruction, member, own⟩ := List.mem_flatMap.mp member
    exact ⟨instruction, member, own, place_within (tiled.whole instruction member).2 own⟩
  · exact text?_of_cut (tiled.whole instruction member).2 pools

end InstructionList

end DexImage
