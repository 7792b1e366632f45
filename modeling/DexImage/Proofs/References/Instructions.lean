import DexImage.Proofs.Disassembly
import DexImage.Proofs.References.Held
/-! # References in code

The operands that refer to other items stand apart from each other and behind the unit that tells
the instruction. Replacing one therefore changes neither the others nor how the code is cut, so
that the operands of code are places for references.
-/

namespace DexImage
namespace OperandRef

/-- The number of units of the index. -/
def span (ref : OperandRef) : Nat := if ref.wide then 2 else 1

/-- Where the index stands in the code. -/
def place (ref : OperandRef) : Nat := ref.position + ref.offset

/-- The units with another index where it fits. -/
def put (ref : OperandRef) (units : List UInt16) (index : UInt32) : List UInt16 :=
  (ref.setIndex? units index).getD units

def held (ref : OperandRef) (units : List UInt16) : Held :=
  .operand ref.target ref.wide false (ref.index units)

/-- Whether the index stands within the units, behind the first. -/
def Within (ref : OperandRef) (length : Nat) : Prop := 1 ≤ ref.offset ∧ ref.offset + ref.span ≤ length

/-- Whether a reference stands before another. -/
def Before (first second : OperandRef) : Prop := first.offset + first.span ≤ second.offset

variable {ref other : OperandRef} {units : List UInt16} {index : UInt32}

theorem setIndex?_isNone : (ref.setIndex? units index).isNone = !Held.operandFits ref.wide index := by
  unfold setIndex? Held.operandFits
  cases ref.wide
  · by_cases big : 0xffff < index
    · simp [big, UInt32.not_le.mpr big]
    · simp [big, UInt32.not_lt.mp big]
  · simp

theorem put_eq_self (big : Held.operandFits ref.wide index = false) :
    ref.put units index = units := by
  have none : (ref.setIndex? units index).isNone = true := by simp [setIndex?_isNone, big]
  rw [put, Option.isNone_iff_eq_none.mp none, Option.getD_none]

theorem put_wide (wide : ref.wide = true) :
    ref.put units index =
      (units.set ref.offset index.toUInt16).set (ref.offset + 1) (index >>> 16).toUInt16 := by
  simp [put, setIndex?, wide]

theorem put_narrow (narrow : ref.wide = false) (small : index ≤ 0xffff) :
    ref.put units index = units.set ref.offset index.toUInt16 := by
  simp [put, setIndex?, narrow, UInt32.not_lt.mpr small]

@[simp] theorem length_put : (ref.put units index).length = units.length := by
  cases wide : ref.wide
  · by_cases small : index ≤ 0xffff
    · simp [put_narrow wide small]
    · rw [put_eq_self (by simp [Held.operandFits, wide, small])]
  · simp [put_wide wide]

private theorem narrow_le (unit : UInt16) : unit.toUInt32 ≤ 0xffff := by
  rw [UInt32.le_iff_toNat_le]
  have := unit.toNat_lt
  simp
  omega

theorem operandFits_index : Held.operandFits ref.wide (ref.index units) = true := by
  cases wide : ref.wide
  · simpa [Held.operandFits, index, wide] using narrow_le _
  · simp [Held.operandFits]

private theorem toUInt16_join (low high : UInt16) :
    (low.toUInt32 ||| high.toUInt32 <<< 16).toUInt16 = low ∧
      ((low.toUInt32 ||| high.toUInt32 <<< 16) >>> 16).toUInt16 = high := by
  refine ⟨?_, ?_⟩
  · apply UInt16.toBitVec_inj.mp
    ext i hi
    simp
  · apply UInt16.toBitVec_inj.mp
    ext i hi
    simp
    grind

private theorem join_toUInt16 (index : UInt32) :
    index.toUInt16.toUInt32 ||| (index >>> 16).toUInt16.toUInt32 <<< 16 = index := by
  apply UInt32.toBitVec_inj.mp
  ext i hi
  simp [-UInt32.toUInt32_toUInt16]
  grind

private theorem toUInt32_toUInt16 {index : UInt32} (small : index ≤ 0xffff) :
    index.toUInt16.toUInt32 = index := by
  apply UInt32.toNat_inj.mp
  have small : index.toNat ≤ 0xffff := UInt32.le_iff_toNat_le.mp small
  simp
  omega

private theorem set_getD_self (units : List UInt16) (position : Nat) :
    units.set position (units.getD position 0) = units := by
  apply List.ext_getElem?
  intro i
  simp only [List.getElem?_set, List.getD_eq_getElem?_getD]
  grind

/-- An operand is kept by giving it the index it has. -/
theorem put_index : ref.put units (ref.index units) = units := by
  cases wide : ref.wide
  · have small : ref.index units ≤ 0xffff := by simpa [index, wide] using narrow_le _
    rw [put_narrow wide small]
    simpa [index, wide] using set_getD_self units ref.offset
  · obtain ⟨low, high⟩ := toUInt16_join (units.getD ref.offset 0) (units.getD (ref.offset + 1) 0)
    rw [put_wide wide]
    simp only [index, wide, if_true, low, high]
    rw [set_getD_self, set_getD_self]

/-- An operand holds the index put into it. -/
theorem index_put (within : ref.Within units.length) (fits : Held.operandFits ref.wide index = true) :
    ref.index (ref.put units index) = index := by
  cases wide : ref.wide
  · have small : index ≤ 0xffff := by simpa [Held.operandFits, wide] using fits
    have bound : ref.offset < units.length := by
      have := within.2
      simp only [span, wide, Bool.false_eq_true, if_false] at this
      omega
    rw [put_narrow wide small]
    simp [OperandRef.index, wide, List.getD_eq_getElem?_getD, bound, toUInt32_toUInt16 small]
  · have bound : ref.offset + 1 < units.length := by
      have := within.2
      simp only [span, wide, if_true] at this
      omega
    have bound' : ref.offset < units.length := by omega
    rw [put_wide wide]
    simpa [OperandRef.index, wide, List.getD_eq_getElem?_getD, bound, bound', List.getElem?_set] using
      join_toUInt16 index

/-- Only the last index put into an operand counts. -/
theorem put_put {next : UInt32} (fits : Held.operandFits ref.wide next = true) :
    ref.put (ref.put units index) next = ref.put units next := by
  cases wide : ref.wide
  · have small : next ≤ 0xffff := by simpa [Held.operandFits, wide] using fits
    by_cases first : index ≤ 0xffff
    · simp [put_narrow wide small, put_narrow wide first]
    · have big : Held.operandFits ref.wide index = false := by simp [Held.operandFits, wide, first]
      rw [put_eq_self big]
  · simp only [put_wide wide]
    rw [List.set_comm (i := ref.offset + 1) (j := ref.offset) _ _ (by omega), List.set_set, List.set_set]

/-- The places that an operand does not take up keep their units. -/
theorem getElem?_put {position : Nat} (outside : position < ref.offset ∨ ref.offset + ref.span ≤ position) :
    (ref.put units index)[position]? = units[position]? := by
  cases wide : ref.wide
  · simp only [span, wide, Bool.false_eq_true, if_false] at outside
    by_cases small : index ≤ 0xffff
    · rw [put_narrow wide small, List.getElem?_set_ne (by omega)]
    · rw [put_eq_self (by simp [Held.operandFits, wide, small])]
  · simp only [span, wide, if_true] at outside
    rw [put_wide wide, List.getElem?_set_ne (by omega), List.getElem?_set_ne (by omega)]

private theorem getD_put {position : Nat}
    (outside : position < ref.offset ∨ ref.offset + ref.span ≤ position) :
    (ref.put units index).getD position 0 = units.getD position 0 := by
  rw [List.getD_eq_getElem?_getD, List.getD_eq_getElem?_getD, getElem?_put outside]

/-- An operand is unaffected by one before it. -/
theorem index_put_of_before (before : ref.Before other) :
    other.index (ref.put units index) = other.index units := by
  unfold Before at before
  simp only [OperandRef.index]
  rw [getD_put (by omega), getD_put (by omega)]

/-- An operand is unaffected by one after it. -/
theorem index_put_of_after (after : other.Before ref) :
    other.index (ref.put units index) = other.index units := by
  unfold Before span at after
  simp only [OperandRef.index]
  cases wide : other.wide
  · simp only [wide, Bool.false_eq_true, if_false] at after ⊢
    rw [getD_put (by omega)]
  · simp only [wide, if_true] at after ⊢
    rw [getD_put (by omega), getD_put (by omega)]

private theorem put_set {position : Nat} {unit : UInt16}
    (outside : position < ref.offset ∨ ref.offset + ref.span ≤ position) :
    ref.put (units.set position unit) index = (ref.put units index).set position unit := by
  cases wide : ref.wide
  · simp only [span, wide, Bool.false_eq_true, if_false] at outside
    by_cases small : index ≤ 0xffff
    · rw [put_narrow wide small, put_narrow wide small, List.set_comm _ _ (by omega)]
    · have big : Held.operandFits ref.wide index = false := by simp [Held.operandFits, wide, small]
      rw [put_eq_self big, put_eq_self big]
  · simp only [span, wide, if_true] at outside
    rw [put_wide wide, put_wide wide, List.set_comm (i := position) _ _ (by omega),
      List.set_comm (i := position) _ _ (by omega)]

/-- The order in which two operands are put does not matter. -/
theorem put_comm (before : ref.Before other) {next : UInt32} :
    other.put (ref.put units index) next = ref.put (other.put units next) index := by
  unfold Before at before
  cases wide : ref.wide
  · simp only [span, wide, Bool.false_eq_true, if_false] at before
    by_cases small : index ≤ 0xffff
    · rw [put_narrow wide small, put_narrow wide small, put_set (by omega)]
    · have big : Held.operandFits ref.wide index = false := by simp [Held.operandFits, wide, small]
      rw [put_eq_self big, put_eq_self big]
  · simp only [span, wide, if_true] at before
    rw [put_wide wide, put_wide wide, put_set (by omega), put_set (by omega)]

end OperandRef

namespace Opcode

/-- What the table says of each run of instructions. -/
private theorem runs_sound : ∀ run ∈ runs,
    (run.2.2.1.pool?.isSome → 2 ≤ run.2.1.size) ∧
      ((secondTargetOf run.2.1).pool?.isSome → run.2.1.size = 4 ∧ run.2.1 ≠ .f31c) := by
  decide

/-- An opcode leaves room for the operands that it says refer to something. -/
theorem ofCode_sound (code : UInt8) :
    ((ofCode code).target.pool?.isSome → 2 ≤ (ofCode code).format.size) ∧
      ((ofCode code).secondTarget.pool?.isSome →
        (ofCode code).format.size = 4 ∧ (ofCode code).format ≠ .f31c) := by
  unfold ofCode
  cases found : instructions.find? fun opcode => opcode.code == code with
  | none => simp [unused, OperandTarget.pool?]
  | some opcode =>
    obtain ⟨run, member, opcode_mem⟩ := List.mem_flatMap.mp (List.mem_of_find?_eq_some found)
    obtain ⟨named, -, rfl⟩ := List.mem_map.mp opcode_mem
    exact runs_sound run member

end Opcode

namespace Instruction

open OperandRef Disassembly

theorem Cut.op {opcode : Opcode} {units : List UInt16} (cut : Cut (.op opcode) units) :
    ∃ code, opcode = .ofCode code ∧ units.length = opcode.format.size := by
  cases units with
  | nil => cases cut
  | cons first others =>
    have found := cut []
    unfold shapeOf at found
    split at found
    · cases found
    · simp only [Prod.mk.injEq, InstructionShape.op.injEq, Option.some.injEq] at found
      exact ⟨first.toUInt8, found.1.symm, by rw [← found.1, found.2, List.length_cons]⟩

/-- Whether units are an instruction depends on the first of them and on their number. -/
theorem Cut.of_head {opcode : Opcode} {units changed : List UInt16} (cut : Cut (.op opcode) units)
    (head : changed[0]? = units[0]?) (length : changed.length = units.length) :
    Cut (.op opcode) changed := by
  cases units with
  | nil => cases cut
  | cons first others =>
    cases changed with
    | nil => simp at length
    | cons first' others' =>
      obtain rfl : first' = first := by simpa using head
      intro rest
      have found := cut []
      simp only [List.length_cons, Nat.add_right_cancel_iff] at length
      unfold shapeOf at found ⊢
      split at found
      · cases found
      · rename_i none
        simpa only [none, length] using found

/-- The references of an instruction stand one after the other behind its first unit. -/
theorem refs_sound {instruction : Instruction} (cut : Cut instruction.shape instruction.units) :
    (∀ ref ∈ instruction.refs, ref.Within instruction.units.length) ∧
      instruction.refs.Pairwise Before := by
  obtain ⟨position, shape, units⟩ := instruction
  cases shape with
  | payload _ => simp [refs]
  | op opcode =>
    obtain ⟨code, rfl, length⟩ := Cut.op cut
    obtain ⟨first, second⟩ := Opcode.ofCode_sound code
    generalize Opcode.ofCode code = opcode at *
    obtain ⟨code, name, format, target, secondTarget⟩ := opcode
    simp only at length first second ⊢
    cases targetPool : target.pool? with
    | none =>
      cases secondPool : secondTarget.pool? with
      | none => simp [refs, targetPool, secondPool]
      | some kind =>
        obtain ⟨size, -⟩ := second (by simp [secondPool])
        simp [refs, targetPool, secondPool, Within, span, length, size]
    | some firstKind =>
      have size := first (by simp [targetPool])
      have wide : format = .f31c → format.size = 3 := by rintro rfl; rfl
      cases secondPool : secondTarget.pool? with
      | none =>
        simp only [refs, targetPool, secondPool, Within, span, length]
        by_cases jumbo : format = .f31c
        · simp [jumbo, OperandFormat.size]
        · simp [jumbo, size]
      | some kind =>
        obtain ⟨size, narrow⟩ := second (by simp [secondPool])
        simp [refs, targetPool, secondPool, Within, span, length, size, narrow, Before]

/-- The units of an instruction with other indices in its operands. -/
def fillRefs : List OperandRef → List UInt16 → List Held → List UInt16
  | ref :: refs, units, one :: new => fillRefs refs (ref.put units (one.index.getD 0)) new
  | _, units, _ => units

section Filling

variable {ref : OperandRef} {refs : List OperandRef} {units : List UInt16} {new other : List Held}

@[simp] theorem length_fillRefs : (fillRefs refs units new).length = units.length := by
  induction refs generalizing units new with
  | nil => rfl
  | cons ref refs ih =>
    cases new with
    | nil => rfl
    | cons one new => rw [fillRefs, ih, length_put]

/-- The places that no operand takes up keep their units. -/
theorem getElem?_fillRefs {position : Nat}
    (outside : ∀ ref ∈ refs, position < ref.offset ∨ ref.offset + ref.span ≤ position) :
    (fillRefs refs units new)[position]? = units[position]? := by
  induction refs generalizing units new with
  | nil => rfl
  | cons ref refs ih =>
    cases new with
    | nil => rfl
    | cons one new =>
      obtain ⟨first, outside⟩ := List.forall_mem_cons.mp outside
      rw [fillRefs, ih outside, getElem?_put first]

private theorem index_fillRefs (before : ∀ other ∈ refs, ref.Before other) :
    ref.index (fillRefs refs units new) = ref.index units := by
  induction refs generalizing units new with
  | nil => rfl
  | cons next refs ih =>
    cases new with
    | nil => rfl
    | cons one new =>
      obtain ⟨first, before⟩ := List.forall_mem_cons.mp before
      rw [fillRefs, ih before, index_put_of_after first]

private theorem put_fillRefs (before : ∀ other ∈ refs, ref.Before other) {index : UInt32} :
    ref.put (fillRefs refs units new) index = fillRefs refs (ref.put units index) new := by
  induction refs generalizing units new with
  | nil => rfl
  | cons next refs ih =>
    cases new with
    | nil => rfl
    | cons one new =>
      obtain ⟨first, before⟩ := List.forall_mem_cons.mp before
      rw [fillRefs, ih before, fillRefs, put_comm first]

private theorem map_held_put (before : ∀ other ∈ refs, ref.Before other) (index : UInt32) :
    refs.map (·.held (ref.put units index)) = refs.map (·.held units) := by
  refine List.map_congr_left fun other member => ?_
  rw [held, held, index_put_of_before (before other member)]

private theorem held_fillRefs (within : ∀ ref ∈ refs, ref.Within units.length)
    (apart : refs.Pairwise Before) (fits : List.Forall₂ Held.Fits (refs.map (·.held units)) new) :
    refs.map (·.held (fillRefs refs units new)) = new.map Held.settled := by
  induction refs generalizing units new with
  | nil =>
    cases fits
    rfl
  | cons ref refs ih =>
    obtain ⟨first, within⟩ := List.forall_mem_cons.mp within
    obtain ⟨before, apart⟩ := List.pairwise_cons.mp apart
    cases fits with
    | cons fit fits =>
      rename_i one new
      cases one with
      | operand target wide lost index =>
        obtain ⟨rfl, rfl, fit⟩ := fit
        rw [← map_held_put before index] at fits
        rw [← length_put] at within
        have rest := ih within apart fits
        rw [List.map_cons, List.map_cons, fillRefs]
        simp only [Held.index, Option.getD_some]
        rw [rest, held, index_fillRefs before, index_put first fit]
        rfl
      | _ => cases fit

private theorem fillRefs_fillRefs (apart : refs.Pairwise Before)
    (fits : List.Forall₂ Held.Fits (refs.map (·.held units)) new)
    (otherFits : List.Forall₂ Held.Fits (refs.map (·.held units)) other) :
    fillRefs refs (fillRefs refs units new) other = fillRefs refs units other := by
  induction refs generalizing units new other with
  | nil =>
    cases fits
    rfl
  | cons ref refs ih =>
    obtain ⟨before, apart⟩ := List.pairwise_cons.mp apart
    cases fits with
    | cons fit fits =>
      cases otherFits with
      | cons otherFit otherFits =>
        rename_i one new last other
        cases last with
        | operand target wide lost index =>
          obtain ⟨rfl, rfl, otherFit⟩ := otherFit
          simp only [fillRefs, Held.index, Option.getD_some]
          rw [put_fillRefs before, put_put otherFit]
          rw [← map_held_put before index] at fits otherFits
          exact ih apart fits otherFits
        | _ => cases otherFit

end Filling

/-- The operands of an instruction that refer to something. -/
def places : Places Instruction where
  held instruction := instruction.refs.map (·.held instruction.units)
  fill instruction new :=
    { instruction with units := fillRefs instruction.refs instruction.units new }

theorem lawfulAt {instruction : Instruction} (cut : Cut instruction.shape instruction.units) :
    places.LawfulAt instruction := by
  obtain ⟨within, apart⟩ := refs_sound cut
  refine ⟨?_, ?_, ?_⟩
  · intro one member
    obtain ⟨ref, -, rfl⟩ := List.mem_map.mp member
    exact ⟨rfl, rfl, rfl, operandFits_index⟩
  · intro new fits
    exact held_fillRefs within apart fits
  · intro new other fits _ otherFits
    exact congrArg (fun units => { instruction with units })
      (fillRefs_fillRefs apart fits otherFits)

/-- An instruction with other indices in its operands is still one of its shape. -/
theorem cut_fill {instruction : Instruction} (cut : Cut instruction.shape instruction.units)
    (new : List Held) :
    Cut (places.fill instruction new).shape (places.fill instruction new).units := by
  have within := (refs_sound cut).1
  obtain ⟨position, shape, units⟩ := instruction
  cases shape with
  | payload _ => exact cut
  | op opcode =>
    exact Cut.of_head cut (getElem?_fillRefs fun ref member => Or.inl (within ref member).1) length_fillRefs

variable {σ : Type}

/-- What an edit makes of the units of an operand, unless its index is lost. -/
private def editedUnits? (ref : OperandRef) (units : List UInt16) : Edit → Option (List UInt16)
  | .keep | .place _ => some units
  | .retarget none => none
  | .retarget (some index) => if index = ref.index units then some units else ref.setIndex? units index

private theorem editedUnits?_held (ref : OperandRef) (units : List UInt16) (edit : Edit) :
    (editedUnits? ref units edit).getD units =
        ref.put units ((((ref.held units).edited edit).index).getD 0) ∧
      (editedUnits? ref units edit).isNone = ((ref.held units).edited edit).isLost := by
  rcases edit with _ | ⟨_ | index⟩ | offset
  · exact ⟨put_index.symm, rfl⟩
  · exact ⟨put_index.symm, rfl⟩
  · simp only [editedUnits?, held, Held.edited]
    split_ifs with same fits
    · exact ⟨put_index.symm, rfl⟩
    · exact ⟨rfl, by rw [setIndex?_isNone, fits]; rfl⟩
    · have big : Held.operandFits ref.wide index = false := by simpa using fits
      refine ⟨?_, by rw [setIndex?_isNone, big]; rfl⟩
      change ref.put units index = ref.put units (ref.index units)
      rw [put_index, put_eq_self big]
  · exact ⟨put_index.symm, rfl⟩

theorem visitRefs_places (visitor : Visitor σ) {refs : List OperandRef}
    {units : List UInt16} (apart : refs.Pairwise Before) :
    visitRefs visitor refs units =
      (do let new ← visitAll (Held.visit visitor) (refs.map (·.held units))
          return (fillRefs refs units new, new.any Held.isLost)) := by
  induction refs generalizing units with
  | nil => rfl
  | cons ref refs ih =>
    obtain ⟨before, apart⟩ := List.pairwise_cons.mp apart
    simp only [List.map_cons, visitAll_cons, Held.visit, bind_assoc, pure_bind]
    change (visitor (ref.slot units) >>= fun edit =>
        visitRefs visitor refs ((editedUnits? ref units edit).getD units) >>= fun result =>
          pure (result.1, (editedUnits? ref units edit).isNone || result.2)) =
      (visitor (ref.slot units) >>= _)
    congr 1
    funext edit
    obtain ⟨edited, lost⟩ := editedUnits?_held ref units edit
    rw [edited, lost, ih apart, map_held_put before, bind_assoc]
    rfl

/-- A pass over the operands of instructions fills their places. -/
private theorem visitEach_places (visitor : Visitor σ) {instructions : List Instruction}
    (cut : ∀ instruction ∈ instructions, Cut instruction.shape instruction.units) :
    (do let edited ← visitEach visitor instructions
        return (edited.flatMap Prod.fst, edited.any Prod.snd)) =
      (do let new ← visitAll (Held.visit visitor) (places.list.held instructions)
          return (unitsOf (places.list.fill instructions new), new.any Held.isLost)) := by
  induction instructions with
  | nil => rfl
  | cons instruction rest ih =>
    obtain ⟨first, cut⟩ := List.forall_mem_cons.mp cut
    funext state
    have ih := ih cut
    have length := length_visitAll (Held.visit visitor) (places.held instruction) state
    change (visitRefs visitor instruction.refs instruction.units >>= fun edited =>
        (visitEach visitor rest >>= fun others =>
          pure (others.flatMap Prod.fst, others.any Prod.snd)) >>= fun others =>
            pure (edited.1 ++ others.1, edited.2 || others.2)) state =
      (visitAll (Held.visit visitor) (places.held instruction ++ places.list.held rest) >>= fun new =>
        pure (unitsOf (places.list.fill (instruction :: rest) new), new.any Held.isLost)) state
    rw [ih, visitRefs_places visitor (refs_sound first).2, visitAll_append]
    simp only [bind_assoc, pure_bind]
    change (visitAll (Held.visit visitor) (places.held instruction) >>= _) state = _
    simp only [bind, StateT.bind]
    generalize visitAll (Held.visit visitor) (places.held instruction) state = run at length ⊢
    rcases run with ⟨new, state⟩
    simp only [Places.list, Places.fillMembers, unitsOf, List.flatMap_cons, ← length, List.take_left,
      List.drop_left, List.any_append]
    rfl

end Instruction

namespace InstructionList

open Disassembly Instruction

private theorem listing_fill {position : Nat} {instructions : List Instruction} {rest : List UInt16}
    (listing : Listing position instructions rest) (new : List Held) :
    Listing position (places.list.fill instructions new) rest := by
  induction listing generalizing new with
  | stuck stuck => exact .stuck stuck
  | next cut listing ih =>
    refine .next (cut_fill cut _) ?_
    rw [length_fillRefs]
    exact ih _

/-- What stands in the operands that refer to something. -/
def held (list : InstructionList) : List Held := places.list.held list.disassembly.instructions

/-- The code with other indices in its operands. A lost operand makes it unwritable. -/
def fill (list : InstructionList) (new : List Held) : InstructionList where
  units := unitsOf (places.list.fill list.disassembly.instructions new) ++ list.disassembly.rest
  overflow := list.overflow || new.any Held.isLost

theorem disassembly_fill (list : InstructionList) (new : List Held) :
    (list.fill new).disassembly =
      ⟨places.list.fill list.disassembly.instructions new, list.disassembly.rest⟩ :=
  ofUnits_eq (listing_fill (ofUnits_listing list.units).1 new)

theorem lawfulAt (list : InstructionList) : (⟨held, fill⟩ : Places InstructionList).LawfulAt list := by
  have lawful : places.list.LawfulAt list.disassembly.instructions :=
    .list fun _ member => Instruction.lawfulAt ((ofUnits_listing list.units).1.cut_of_mem _ member)
  refine ⟨lawful.kept, ?_, ?_⟩
  · intro new fits
    change places.list.held (list.fill new).disassembly.instructions = _
    rw [disassembly_fill]
    exact lawful.held_fill fits
  · intro new other fits kept otherFits
    have none : new.any Held.isLost = false := List.any_eq_false.mpr fun one member => by simp [kept one member]
    have overflow : (list.fill new).overflow = list.overflow := by rw [fill, none, Bool.or_false]
    change fill (list.fill new) other = list.fill other
    rw [fill, disassembly_fill, lawful.fill_fill fits kept otherFits, overflow]
    rfl

/-- The operands that refer to something are the places of code. -/
def holding : Holding InstructionList := ⟨⟨held, fill⟩, lawfulAt⟩

theorem visit_holding {σ : Type} (visitor : Visitor σ) (list : InstructionList) :
    holding.visit visitor list = DexImage.visit visitor list := by
  have pass := visitEach_places visitor fun _ member =>
    (ofUnits_listing list.units).1.cut_of_mem _ member
  have pass := congrArg (fun run => run >>= fun result =>
    (pure ⟨result.1 ++ list.disassembly.rest, list.overflow || result.2⟩ : StateM σ InstructionList)) pass
  simp only [bind_assoc, pure_bind] at pass
  exact pass.symm

end InstructionList
end DexImage
