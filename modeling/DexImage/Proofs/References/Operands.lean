import DexImage.Proofs.Loading.Code
import DexImage.Proofs.References.Lost
/-! # Operands through many passes

Whatever visitors are shown the operands of some code, pass after pass, the code is cut into the same instructions with
the same operands, and nothing but operands changes (`InstructionList.retains_rewrite`). Unless a visitor leaves what an
operand cannot hold, the operands hold what the last one left (`InstructionList.Pass.stored_run`).
-/

namespace DexImage

/-- The index that stands in a slot after an edit. -/
def Edit.left (slot : Slot) : Edit → Option UInt32
  | .retarget index => index
  | .keep | .place _ => slot.index

/-- A visitor that also notes what it leaves in each slot. -/
def Visitor.noting {σ : Type} (visitor : Visitor σ) : Visitor (σ × List (Option UInt32)) := fun slot noted =>
  ((visitor slot noted.1).1, (visitor slot noted.1).2, noted.2 ++ [(visitor slot noted.1).1.left slot])

namespace OperandRef

/-- The index that stands in an operand of a stream of code units. -/
def stored (ref : OperandRef) (stream : List UInt16) : UInt32 := ref.index (stream.drop ref.position)

/-- Whether an operand cannot hold what a visitor leaves: no index, or one that is too large for a single unit. -/
def Refuses (ref : OperandRef) (left : Option UInt32) : Prop :=
  left = none ∨ ∃ index, left = some index ∧ ref.wide = false ∧ 0xffff < index

/-- What stands in an operand that a visitor leaves an index in. -/
def leaving (ref : OperandRef) (stream : List UInt16) (left : Option UInt32) : Held :=
  (ref.held (stream.drop ref.position)).edited (.retarget left)

variable {ref : OperandRef} {units stream : List UInt16} {left : Option UInt32}

/-- What follows an instruction does not matter to its operands. -/
theorem held_append (within : ref.Within units.length) (more : List UInt16) :
    ref.held (units ++ more) = ref.held units := by
  obtain ⟨-, inside⟩ := within
  have getD (position : Nat) (bound : position < units.length) :
      (units ++ more).getD position 0 = units.getD position 0 := by
    rw [List.getD_eq_getElem?_getD, List.getD_eq_getElem?_getD, List.getElem?_append_left bound]
  unfold span at inside
  cases wide : ref.wide
  · simp only [wide, Bool.false_eq_true, if_false] at inside
    simp only [held, index, wide, Bool.false_eq_true, if_false, getD _ (by omega : ref.offset < units.length)]
  · simp only [wide, if_true] at inside
    simp only [held, index, wide, if_true, getD _ (by omega : ref.offset < units.length),
      getD _ (by omega : ref.offset + 1 < units.length)]

theorem refuses_some {index : UInt32} : ref.Refuses (some index) ↔ Held.operandFits ref.wide index = false := by
  cases wide : ref.wide <;> simp [Refuses, Held.operandFits, wide]

/-- An operand is lost if it cannot hold what is left in it, and otherwise holds it. -/
theorem leaving_spec : ((ref.leaving stream left).isLost = true ↔ ref.Refuses left) ∧
    ((ref.leaving stream left).isLost = false → left = (ref.leaving stream left).index) := by
  cases left with
  | none => exact ⟨iff_of_true rfl (.inl rfl), by rintro ⟨⟩⟩
  | some new =>
    rw [refuses_some, leaving, held]
    simp only [Held.edited]
    split_ifs with same fits
    · subst same
      exact ⟨iff_of_false (by rintro ⟨⟩) (by rw [operandFits_index]; decide), fun _ => rfl⟩
    · exact ⟨iff_of_false (by rintro ⟨⟩) (by rw [fits]; decide), fun _ => rfl⟩
    · exact ⟨iff_of_true rfl (by simpa using fits), by rintro ⟨⟩⟩

end OperandRef

section Noting

variable {σ : Type} (visitor : Visitor σ)

/-- What an edit makes of an operand depends on the index that it leaves. -/
theorem Held.edited_left {one : Held} (operand : one.isOperand = true) (edit : Edit) :
    one.edited (.retarget (edit.left one.slot)) = one.edited edit := by
  cases one with
  | id | data => cases operand
  | operand target wide lost index =>
    cases edit with
    | keep | place => exact if_pos rfl
    | retarget => rfl

/-- A visitor that notes what it leaves makes the same edits. -/
theorem visitAll_noting {held : List Held} (operands : ∀ one ∈ held, one.isOperand = true) (state : σ)
    (noted : List (Option UInt32)) : ∃ left, left.length = held.length ∧
      (visitAll (Held.visit visitor) held state).1 =
      (held.zip left).map (fun entry => entry.1.edited (.retarget entry.2)) ∧
      (visitAll (Held.visit visitor.noting) held (state, noted)).2.2 = noted ++ left := by
  induction held generalizing state noted with
  | nil => exact ⟨[], rfl, rfl, (List.append_nil noted).symm⟩
  | cons one rest ih =>
    obtain ⟨operand, operands⟩ := List.forall_mem_cons.mp operands
    obtain ⟨left, length, same, others⟩ :=
      ih operands (visitor one.slot state).2 (noted ++ [(visitor one.slot state).1.left one.slot])
    refine ⟨(visitor one.slot state).1.left one.slot :: left, congrArg Nat.succ length, ?_, ?_⟩
    · rw [List.zip_cons_cons, List.map_cons, one.edited_left operand, ← same]
      rfl
    · rw [List.append_cons, ← others]
      rfl

end Noting

namespace Instruction

open Disassembly OperandRef

/-- Whether an instruction is another one with other indices in its operands, if anything. -/
structure Retains (before after : Instruction) : Prop where
  position : after.position = before.position
  shape : after.shape = before.shape
  length : after.units.length = before.units.length

theorem retains_fill (instructions : List Instruction) (new : List Held) :
    List.Forall₂ Retains instructions (places.list.fill instructions new) := by
  induction instructions generalizing new with
  | nil => exact .nil
  | cons instruction rest ih => exact .cons ⟨rfl, rfl, length_fillRefs⟩ (ih _)

/-- The operands of an instruction depend on where it is and which one it is. -/
theorem Retains.refs {before after : Instruction} (retains : before.Retains after) : after.refs = before.refs := by
  unfold Instruction.refs
  rw [retains.shape, retains.position]

/-- What does not depend on the indices in operands stays as it is. -/
theorem map_fill {β : Type} {look : Instruction → β}
    (kept : ∀ before after, before.Retains after → look before = look after)
    (instructions : List Instruction) (new : List Held) :
    (places.list.fill instructions new).map look = instructions.map look := by
  exact ((retains_fill instructions new).map_eq (kept _ _)).symm

theorem position_of_mem {instruction : Instruction} {ref : OperandRef} (member : ref ∈ instruction.refs) :
    ref.position = instruction.position := by
  unfold Instruction.refs at member
  split at member
  · cases member
  · rcases List.mem_append.mp member with member | member <;>
      · obtain ⟨target, -, rfl⟩ := Option.mem_map.mp (Option.mem_toList.mp member)
        rfl

variable {start : Nat} {instructions : List Instruction} {rest : List UInt16}

/-- Units that no operand takes up stay as they are. -/
theorem getElem?_fill (listing : Listing start instructions rest) (new : List Held) {position : Nat}
    (outside : ∀ ref ∈ instructions.flatMap Instruction.refs,
      start + position < ref.place ∨ ref.place + ref.span ≤ start + position) :
    (unitsOf (places.list.fill instructions new) ++ rest)[position]? = (unitsOf instructions ++ rest)[position]? := by
  induction listing generalizing new position with
  | stuck => rfl
  | @next start shape own rest others cut listing ih =>
    rw [List.flatMap_cons] at outside
    obtain ⟨first, outside⟩ := List.forall_mem_append.mp outside
    have later (behind : own.length ≤ position) :=
      @ih (new.drop (places.held ⟨start, shape, own⟩).length) (position - own.length) fun ref member => by
        have there := outside ref member
        omega
    change (unitsOf (places.fill _ _ :: places.list.fill others _) ++ rest)[position]? = _
    rw [unitsOf_cons_append, unitsOf_cons_append]
    generalize unitsOf (places.list.fill others _) ++ rest = changed at later ⊢
    generalize unitsOf others ++ rest = kept at later ⊢
    change (fillRefs _ own _ ++ changed)[position]? = (own ++ kept)[position]?
    rw [List.getElem?_append, List.getElem?_append, length_fillRefs]
    split_ifs with inside
    · refine getElem?_fillRefs fun ref member => ?_
      have there := first ref member
      rw [place, position_of_mem member] at there
      dsimp only at there
      omega
    · exact later (Nat.le_of_not_lt inside)

/-- The operands stand in the stream at the positions of their instructions. -/
theorem held_eq (listing : Listing start instructions rest) {front : List UInt16} (length : front.length = start) :
    places.list.held instructions = (instructions.flatMap Instruction.refs).map
      fun ref => ref.held ((front ++ (unitsOf instructions ++ rest)).drop ref.position) := by
  induction listing generalizing front with
  | stuck => rfl
  | @next start shape own rest others cut listing ih =>
    have later := @ih (front ++ own) (by rw [List.length_append, length])
    rw [List.append_assoc] at later
    rw [List.flatMap_cons, List.map_append, unitsOf_cons_append, ← later]
    refine congrArg (· ++ places.list.held others) (List.map_congr_left fun ref member => ?_)
    have within : ref.Within own.length := (refs_sound (show Cut shape own from cut)).1 ref member
    rw [position_of_mem member, ← length, List.drop_left, held_append within]

end Instruction

namespace InstructionList

open Disassembly Instruction

/-- Whether some code is cut as other code, into instructions of the same shapes with the same operands, and has the
same units wherever no operand stands. -/
structure Retains (list after : InstructionList) : Prop where
  boundaries :
    after.disassembly.instructions.map (fun instruction => (instruction.position, instruction.units.length)) =
    list.disassembly.instructions.map fun instruction => (instruction.position, instruction.units.length)
  shapes : after.disassembly.instructions.map Instruction.shape = list.disassembly.instructions.map Instruction.shape
  rest : after.disassembly.rest = list.disassembly.rest
  refs : after.operandRefs = list.operandRefs
  length : after.length = list.length
  outside : ∀ position, (∀ ref ∈ list.operandRefs, position < ref.place ∨ ref.place + ref.span ≤ position) →
    after.units[position]? = list.units[position]?

theorem Retains.refl (list : InstructionList) : list.Retains list :=
  ⟨rfl, rfl, rfl, rfl, rfl, fun _ _ => rfl⟩

theorem Retains.trans {first second third : InstructionList}
    (one : first.Retains second) (other : second.Retains third) :
    first.Retains third where
  boundaries := other.boundaries.trans one.boundaries
  shapes := other.shapes.trans one.shapes
  rest := other.rest.trans one.rest
  refs := other.refs.trans one.refs
  length := other.length.trans one.length
  outside position apart := (other.outside position (by rwa [one.refs])).trans (one.outside position apart)

variable (list : InstructionList)

theorem length_fill (new : List Held) : (list.fill new).length = list.length := by
  obtain ⟨-, tiled⟩ := ofUnits_listing list.units
  have lengths :=
    congrArg List.sum (map_fill (fun _ _ retains => retains.length.symm) list.disassembly.instructions new)
  rw [length, length]
  conv_rhs => rw [← tiled]
  rw [fill, List.length_append, List.length_append, unitsOf, unitsOf, List.length_flatMap, List.length_flatMap, lengths]
  rfl

/-- Other indices in its operands are all that tells filled code from what it was. -/
theorem retains_fill (new : List Held) : list.Retains (list.fill new) := by
  obtain ⟨listing, tiled⟩ := ofUnits_listing list.units
  refine ⟨?_, ?_, ?_, ?_, list.length_fill new, fun position apart => ?_⟩
  · rw [disassembly_fill]
    exact map_fill (fun _ _ retains => Prod.ext retains.position.symm retains.length.symm) _ new
  · rw [disassembly_fill]
    exact map_fill (fun _ _ retains => retains.shape.symm) _ new
  · rw [disassembly_fill]
  · rw [operandRefs, operandRefs, disassembly_fill, List.flatMap_def, List.flatMap_def]
    exact congrArg List.flatten (map_fill (fun _ _ retains => retains.refs.symm) _ new)
  · have kept := @getElem?_fill _ _ _ listing new position fun ref member => by
      rw [Nat.zero_add]
      exact apart ref member
    rwa [tiled] at kept

/-- The operands that refer to something, where they stand in the units. -/
theorem held_eq : list.held = list.operandRefs.map fun ref => ref.held (list.units.drop ref.position) := by
  obtain ⟨listing, tiled⟩ := ofUnits_listing list.units
  have held := Instruction.held_eq listing (show ([] : List UInt16).length = 0 from rfl)
  rw [List.nil_append, tiled] at held
  exact held

/-- A pass over the operands of some code. -/
structure Pass where
  {σ : Type}
  visitor : Visitor σ
  start : σ

namespace Pass

variable (pass : Pass)

/-- The code after a pass. -/
def run : InstructionList := (visit pass.visitor list pass.start).1

/-- What the visitor leaves in the slots that it is shown, first to last. -/
def left : List (Option UInt32) := (visit pass.visitor.noting list (pass.start, [])).2.2

/-- Whether the visitor leaves something that an operand cannot hold. -/
def Loses : Prop := ∃ entry ∈ list.operandRefs.zip (pass.left list), entry.1.Refuses entry.2

/-- What stands in the operands that a visitor leaves indices in. -/
def leaving : List Held :=
  (list.operandRefs.zip (pass.left list)).map fun entry => entry.1.leaving list.units entry.2

/-- A pass fills the operands with what the visitor leaves. -/
theorem run_eq_fill : (pass.left list).length = list.operandRefs.length ∧
    List.Forall₂ Held.Fits list.held (pass.leaving list) ∧ pass.run list = list.fill (pass.leaving list) := by
  have operands : ∀ one ∈ list.held, one.isOperand = true := by
    rw [list.held_eq]
    exact List.forall_mem_map.mpr fun _ _ => rfl
  obtain ⟨left, length, edited, noted⟩ := visitAll_noting pass.visitor operands pass.start []
  have same : pass.left list = left := by
    rw [Pass.left, ← visit_holding]
    exact noted
  rw [list.held_eq, List.length_map] at length
  have leaving : (visitAll (Held.visit pass.visitor) list.held pass.start).1 = pass.leaving list := by
    rw [edited, Pass.leaving, same, list.held_eq, List.zip_map_left, List.map_map]
    rfl
  refine ⟨same ▸ length, leaving ▸ holding.fits_visitAll pass.visitor list pass.start, ?_⟩
  rw [run, ← visit_holding, ← leaving]
  rfl

/-- Code is unwritable after a pass if it was before, or the visitor has left what an operand cannot hold. -/
theorem overflow_run : (pass.run list).overflow = true ↔ list.overflow = true ∨ pass.Loses list := by
  rw [(pass.run_eq_fill list).2.2, fill, Bool.or_eq_true, leaving, List.any_map, List.any_eq_true]
  exact or_congr_right (exists_congr fun entry => and_congr_right fun _ => OperandRef.leaving_spec.1)

theorem retains_run : list.Retains (pass.run list) := by
  rw [(pass.run_eq_fill list).2.2]
  exact list.retains_fill _

/-- What a visitor leaves in an operand is what stands there after the pass. -/
theorem index_run {ref : OperandRef} {left : Option UInt32}
    (member : (ref, left) ∈ list.operandRefs.zip (pass.left list)) :
    (ref.leaving list.units left).index = some (ref.stored (pass.run list).units) := by
  obtain ⟨length, fits, filled⟩ := pass.run_eq_fill list
  have held : (pass.run list).held = (pass.leaving list).map Held.settled := by
    rw [filled]
    exact (holding.lawful list).held_fill fits
  rw [held_eq, (pass.retains_run list).refs, leaving, List.map_map] at held
  have keys := List.map_fst_zip (Nat.le_of_eq length.symm)
  conv_lhs at held => rw [← keys, List.map_map]
  have same := congrArg Held.index (List.map_inj_left.mp held _ member)
  exact (Held.index_settled _).symm.trans same.symm

/-- Unless it has become unwritable, code has what the visitor left in its operands. -/
theorem stored_run (kept : (pass.run list).overflow = false) :
    List.Forall₂ (fun ref left => left = some (OperandRef.stored ref (pass.run list).units)) list.operandRefs
      (pass.left list) := by
  obtain ⟨length, -, filled⟩ := pass.run_eq_fill list
  have none : ∀ one ∈ pass.leaving list, one.isLost = false := by
    rw [filled, fill, Bool.or_eq_false_iff, List.any_eq_false] at kept
    exact fun one member => Bool.eq_false_iff.mpr (kept.2 one member)
  refine List.forall₂_iff_zip.mpr ⟨length.symm, fun {ref left} member => ?_⟩
  exact (OperandRef.leaving_spec.2 (none _ (List.mem_map_of_mem member))).trans (pass.index_run list member)

end Pass

/-- The code after passes, first to last. -/
def rewrite (passes : List Pass) : InstructionList := passes.foldl (fun list pass => pass.run list) list

theorem rewrite_concat (earlier : List Pass) (last : Pass) :
    list.rewrite (earlier ++ [last]) = last.run (list.rewrite earlier) :=
  List.foldl_concat _ _ _ _

theorem retains_rewrite (passes : List Pass) : list.Retains (list.rewrite passes) := by
  induction passes generalizing list with
  | nil => exact .refl list
  | cons pass rest ih => exact (pass.retains_run list).trans (ih (pass.run list))

/-- Code stays unwritable from the first pass on that loses something. -/
theorem overflow_rewrite (passes : List Pass) : (list.rewrite passes).overflow = true ↔ list.overflow = true ∨
    ∃ earlier pass later, passes = earlier ++ pass :: later ∧ pass.Loses (list.rewrite earlier) := by
  induction passes generalizing list with
  | nil => simp [rewrite]
  | cons pass rest ih =>
    rw [rewrite, List.foldl_cons]
    refine (ih (pass.run list)).trans ?_
    rw [pass.overflow_run, or_assoc]
    refine or_congr_right ⟨?_, ?_⟩
    · rintro (loses | ⟨earlier, one, later, rfl, loses⟩)
      · exact ⟨[], pass, rest, rfl, loses⟩
      · exact ⟨pass :: earlier, one, later, rfl, loses⟩
    · rintro ⟨_ | ⟨first, earlier⟩, one, later, same, loses⟩
      · obtain ⟨rfl, rfl⟩ := List.cons.inj same
        exact .inl loses
      · obtain ⟨rfl, rfl⟩ := List.cons.inj same
        exact .inr ⟨earlier, one, later, rfl, loses⟩

/-- A pass that raises every index. -/
def Pass.raising (amount : UInt32) : Pass := ⟨fun slot => pure (.retarget (slot.index.map (· + amount))), ()⟩

end InstructionList
end DexImage
