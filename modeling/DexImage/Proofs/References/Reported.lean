import DexImage.Proofs.References.Operands
import DexImage.Proofs.References.Uses
/-! # Where operands are reported

An operand is reported by a unit of the code, reckoned from the address of its instruction. The address is a
word, so that the unit is the one where the operand stands as long as its instruction starts at one of the first
2^32 positions (`OperandRef.unit_eq_place_iff`). The references of code of at most so many units are those that
are read from the units that are reported (`InstructionList.uses_eq_reported`), and a pass over it is a pass over
these units, one operand after the other (`InstructionList.visit_eq_visitReported`).
-/

namespace DexImage

open Disassembly

namespace OperandRef

variable {ref : OperandRef} {front own tail stream : List UInt16} {index : UInt32}

theorem toNat_address (ref : OperandRef) : ref.address.toNat = ref.position % UInt32.size := UInt32.toNat_ofNat'

/-- An address is not beyond the position. -/
theorem unit_le_place (ref : OperandRef) : ref.unit ≤ ref.place :=
  Nat.add_le_add_right (ref.toNat_address ▸ Nat.mod_le _ _) _

/-- An operand is reported where it stands just if its instruction has its position for an address. -/
theorem unit_eq_place_iff : ref.unit = ref.place ↔ ref.position < UInt32.size := by
  rw [unit, place, Nat.add_right_cancel_iff, toNat_address]
  exact Nat.mod_eq_iff_lt (by decide)

/-- An operand with the whole code for its instruction, in the place where it is reported. -/
def reported (ref : OperandRef) : OperandRef := { ref with position := 0, offset := ref.unit }

/-- The index that stands in some code where an operand is reported. -/
def read (ref : OperandRef) (stream : List UInt16) : UInt32 := ref.reported.index stream

/-- An operand with the whole code for its instruction, in the place where it stands. -/
def placed (ref : OperandRef) : OperandRef := { ref with position := 0, offset := ref.place }

theorem reported_eq_placed (here : ref.unit = ref.place) : ref.reported = ref.placed := by rw [reported, placed, here]

/-- What stands in an operand is the same in its instruction and in the code. -/
theorem held_placed : ref.placed.held stream = ref.held (stream.drop ref.position) := by
  have getD (offset : Nat) : (stream.drop ref.position).getD offset 0 = stream.getD (ref.position + offset) 0 := by
    rw [List.getD_eq_getElem?_getD, List.getD_eq_getElem?_getD, List.getElem?_drop]
  simp only [held, placed, OperandRef.index, getD, place, Nat.add_assoc]

theorem read_eq_stored (here : ref.unit = ref.place) : ref.read stream = ref.stored stream := by
  have same : ref.placed.held stream = ref.held (stream.drop ref.position) := held_placed
  rw [read, reported_eq_placed here]
  exact Option.some.inj (congrArg Held.index same)

/-- An index is put into the code by putting it into the instruction. -/
theorem put_placed (start : front.length = ref.position) (within : ref.Within own.length) :
    ref.placed.put (front ++ (own ++ tail)) index = front ++ (ref.put own index ++ tail) := by
  obtain ⟨-, inside⟩ := within
  have set (units : List UInt16) (same : units.length = own.length)
    (offset : Nat) (bound : offset < own.length) (unit : UInt16) :
      (front ++ (units ++ tail)).set (ref.position + offset) unit = front ++ (units.set offset unit ++ tail) := by
    rw [← start, List.set_append_right _ _ (Nat.le_add_right _ _), Nat.add_sub_cancel_left,
      List.set_append_left _ _ (same ▸ bound)]
  cases wide : ref.wide with
  | false =>
    simp only [span, wide, Bool.false_eq_true, if_false] at inside
    by_cases small : index ≤ 0xffff
    · rw [put_narrow wide small, put_narrow (by exact wide) small]
      exact set own rfl _ (by omega) _
    · have big : Held.operandFits ref.wide index = false := by simp [Held.operandFits, wide, small]
      rw [put_eq_self big, put_eq_self (by exact big)]
  | true =>
    simp only [span, wide, if_true] at inside
    rw [put_wide wide, put_wide (by exact wide)]
    change ((front ++ (own ++ tail)).set (ref.position + ref.offset) _).set (ref.position + ref.offset + 1) _ = _
    rw [set own rfl _ (by omega), Nat.add_assoc, set _ List.length_set _ (by omega)]

end OperandRef

namespace Instruction

open OperandRef

variable {operands others : List OperandRef} {front own tail units : List UInt16} {new : List Held} {start : Nat}
  {instructions : List Instruction} {rest : List UInt16}

theorem fillRefs_nil (operands : List OperandRef) (units : List UInt16) : fillRefs operands units [] = units := by
  cases operands <;> rfl

theorem fillRefs_append :
    fillRefs (operands ++ others) units new =
      fillRefs others (fillRefs operands units (new.take operands.length)) (new.drop operands.length) := by
  induction operands generalizing units new with
  | nil => rfl
  | cons ref operands ih =>
    cases new with
    | nil => rw [List.take_nil, List.drop_nil, fillRefs_nil, fillRefs_nil, fillRefs_nil]
    | cons one new => exact ih

/-- The operands of an instruction are filled in the code as they are in the instruction. -/
theorem fillRefs_placed (start : ∀ ref ∈ operands, front.length = ref.position)
    (within : ∀ ref ∈ operands, ref.Within own.length) :
    fillRefs (operands.map placed) (front ++ (own ++ tail)) new = front ++ (fillRefs operands own new ++ tail) := by
  induction operands generalizing own new with
  | nil => rfl
  | cons ref operands ih =>
    cases new with
    | nil => rw [fillRefs_nil, fillRefs_nil]
    | cons one new =>
      obtain ⟨first, start⟩ := List.forall_mem_cons.mp start
      obtain ⟨inside, within⟩ := List.forall_mem_cons.mp within
      rw [List.map_cons, fillRefs, put_placed first inside]
      exact ih start (by rwa [length_put])

/-- The operands of all instructions are filled in the code as they are in the instructions. -/
theorem fillRefs_listing (listing : Listing start instructions rest) (length : front.length = start) :
    fillRefs ((instructions.flatMap refs).map placed) (front ++ (unitsOf instructions ++ rest)) new =
      front ++ (unitsOf (places.list.fill instructions new) ++ rest) := by
  induction listing generalizing front new with
  | stuck => rfl
  | @next start shape own rest others cut listing ih =>
    have within : ∀ ref ∈ refs ⟨start, shape, own⟩, ref.Within own.length :=
      (refs_sound (show Cut shape own from cut)).1
    have here : ∀ ref ∈ refs ⟨start, shape, own⟩, front.length = ref.position := fun ref member =>
      length.trans (position_of_mem member).symm
    rw [List.flatMap_cons, List.map_append, fillRefs_append, unitsOf_cons_append,
      fillRefs_placed here within, ← List.append_assoc]
    refine (ih (by rw [List.length_append, length_fillRefs, length])).trans ?_
    change _ = front ++ (unitsOf (places.fill _ _ :: places.list.fill others _) ++ rest)
    have held : (places.held ⟨start, shape, own⟩).length = (refs ⟨start, shape, own⟩).length := List.length_map _
    rw [unitsOf_cons_append, List.append_assoc, List.length_map, held]
    rfl

/-- Operands stand in their instructions, and one behind the other. -/
theorem refs_listing (listing : Listing start instructions rest) :
    (∀ ref ∈ instructions.flatMap refs, start ≤ ref.position ∧
      ref.place + ref.span ≤ start + (unitsOf instructions).length) ∧
    (instructions.flatMap refs).Pairwise fun first second => first.place + first.span ≤ second.place := by
  induction listing with
  | stuck => exact ⟨by simp, .nil⟩
  | @next start shape own rest others cut listing ih =>
    obtain ⟨inside, apart⟩ := ih
    obtain ⟨within, before⟩ := @refs_sound ⟨start, shape, own⟩ cut
    have here {ref : OperandRef} (member : ref ∈ refs ⟨start, shape, own⟩) :
      ref.position = start := position_of_mem member
    have length : (unitsOf (⟨start, shape, own⟩ :: others)).length = own.length + (unitsOf others).length := by
      rw [unitsOf, List.flatMap_cons, List.length_append]
    rw [List.flatMap_cons, List.forall_mem_append, List.pairwise_append]
    refine ⟨⟨fun ref member => ?_, fun ref member => ?_⟩, ?_, apart, fun first member second later => ?_⟩
    · have bound := (within ref member).2
      rw [place, here member, length]
      dsimp only at bound
      omega
    · have bound := inside ref member
      omega
    · refine before.imp_of_mem fun first second behind => ?_
      rw [place, place, here first, here second]
      unfold Before at behind
      omega
    · have bound := (within first member).2
      have behind := (inside second later).1
      rw [place, place, here member]
      dsimp only at bound
      omega

end Instruction

namespace InstructionList

open Instruction OperandRef

variable {σ : Type} (list : InstructionList)

/-- A pass over the units that are reported for the operands of some code: each is read from the code as it is
by then, and what the visitor leaves is written there. -/
def visitReported (visitor : Visitor σ) : StateM σ InstructionList := do
  let (units, lost) ← visitRefs visitor (list.operandRefs.map OperandRef.reported) list.units
  return ⟨units, list.overflow || lost⟩

/-- Operands stand within the code, and one behind the other. -/
theorem operandRefs_placed : (∀ ref ∈ list.operandRefs, ref.place + ref.span ≤ list.length) ∧
    list.operandRefs.Pairwise fun first second => first.place + first.span ≤ second.place := by
  obtain ⟨listing, tiled⟩ := ofUnits_listing list.units
  obtain ⟨inside, apart⟩ := refs_listing listing
  refine ⟨fun ref member => Nat.le_trans (inside ref member).2 ?_, apart⟩
  have length := congrArg List.length tiled
  rw [List.length_append] at length
  change _ ≤ list.units.length
  omega

variable {list}

/-- Code of at most 2^32 units has its operands where they are reported. -/
theorem unit_eq_place (short : list.length ≤ UInt32.size) {ref : OperandRef} (member : ref ∈ list.operandRefs) :
    ref.unit = ref.place := by
  have inside := list.operandRefs_placed.1 ref member
  have span : 0 < ref.span := by
    unfold OperandRef.span
    split <;> decide
  rw [unit_eq_place_iff]
  unfold place at inside
  omega

/-- Code of at most 2^32 units holds the references that are read where its operands are reported. -/
theorem uses_eq_reported (short : list.length ≤ UInt32.size) :
    uses list = list.operandRefs.map fun ref => ⟨ref.target, ref.read list.units, .instruction⟩ := by
  rw [← uses_holding]
  change list.held.filterMap _ = _
  rw [held_eq, List.filterMap_map, List.map_congr_left fun ref member =>
    congrArg (Use.mk ref.target · .instruction) (read_eq_stored (unit_eq_place short member))]
  exact congrFun List.filterMap_eq_map list.operandRefs

/-- In code of at most 2^32 units a pass edits the units that are reported. -/
theorem visit_eq_visitReported (short : list.length ≤ UInt32.size) (visitor : Visitor σ) :
    visit visitor list = list.visitReported visitor := by
  obtain ⟨listing, tiled⟩ := ofUnits_listing list.units
  have reported : list.operandRefs.map OperandRef.reported = list.operandRefs.map placed :=
    List.map_congr_left fun ref member => reported_eq_placed (unit_eq_place short member)
  have apart : (list.operandRefs.map placed).Pairwise Before := List.pairwise_map.mpr list.operandRefs_placed.2
  have held : (list.operandRefs.map placed).map (·.held list.units) = list.held := by
    rw [list.held_eq, List.map_map]
    exact List.map_congr_left fun ref _ => held_placed
  have filled (new : List Held) : fillRefs (list.operandRefs.map placed) list.units new = (list.fill new).units := by
    have filled := @fillRefs_listing [] new 0 _ _ listing rfl
    rw [List.nil_append, tiled] at filled
    exact filled
  rw [← visit_holding, visitReported, reported, visitRefs_places visitor apart, held, bind_assoc]
  refine bind_congr fun new => ?_
  rw [pure_bind, filled]
  rfl

/-- The code after passes over the units that are reported. -/
def rewriteReported (list : InstructionList) (passes : List Pass) : InstructionList :=
  passes.foldl (fun list pass => (list.visitReported pass.visitor pass.start).1) list

theorem rewriteReported_eq (short : list.length ≤ UInt32.size) (passes : List Pass) :
    list.rewriteReported passes = list.rewrite passes := by
  induction passes generalizing list with
  | nil => rfl
  | cons pass rest ih =>
    have kept : (pass.run list).length ≤ UInt32.size := (pass.retains_run list).length ▸ short
    rw [rewriteReported, List.foldl_cons, ← visit_eq_visitReported short]
    exact ih kept

/-- Passes over the operands of code that has no more units than a word can address. They edit the units that
are reported for the operands, which is where the operands stand; they move no boundary, turn no unit into
another instruction and touch nothing but operands. What can be written afterwards is read back with the indices
that the last visitor left; it cannot be written if and only if some visitor has left what an operand cannot hold. -/
theorem rewrite_sound (units : List UInt16) (short : units.length ≤ UInt32.size) (passes : List Pass) :
    (ofUnits units).rewrite passes = (ofUnits units).rewriteReported passes ∧
      (∀ ref ∈ (ofUnits units).operandRefs, ref.unit = ref.place) ∧
      (ofUnits units).Retains ((ofUnits units).rewrite passes) ∧
      (encode ((ofUnits units).rewrite passes) = .error (Fault.of .operandTooWide) ↔
        ∃ earlier pass later, passes = earlier ++ pass :: later ∧ pass.Loses ((ofUnits units).rewrite earlier)) ∧
      ∀ bytes, encode ((ofUnits units).rewrite passes) = .ok bytes → ∃ stream,
        Reads (Reading.collect units.length fun _ => Decoder.u2) bytes stream ∧
          (ofUnits units).Retains (ofUnits stream) ∧
            ∀ earlier last, passes = earlier ++ [last] →
              List.Forall₂ (fun ref left => left = some (OperandRef.read ref stream)) (ofUnits units).operandRefs
                (last.left ((ofUnits units).rewrite earlier)) := by
  have retains := (ofUnits units).retains_rewrite passes
  have fits : (ofUnits units).length ≤ UInt32.size := short
  have here {ref : OperandRef} (member : ref ∈ (ofUnits units).operandRefs) :
    ref.unit = ref.place := unit_eq_place fits member
  refine ⟨(rewriteReported_eq fits passes).symm, fun _ => here, retains, ?_, fun bytes success => ?_⟩
  · rw [encode_eq_error, overflow_rewrite]
    exact or_iff_right Bool.false_ne_true
  · obtain ⟨plain, rfl⟩ := encode_eq_ok success
    have length : ((ofUnits units).rewrite passes).units.length = units.length := retains.length
    refine ⟨_, length ▸ reads_units _, plain ▸ retains, ?_⟩
    rintro earlier last rfl
    rw [rewrite_concat] at plain ⊢
    have stored := last.stored_run ((ofUnits units).rewrite earlier) (by rw [plain]; rfl)
    rw [((ofUnits units).retains_rewrite earlier).refs] at stored
    obtain ⟨lengths, each⟩ := List.forall₂_iff_zip.mp stored
    refine List.forall₂_iff_zip.mpr ⟨lengths, fun {ref left} member => ?_⟩
    rw [read_eq_stored (here (List.of_mem_zip member).1)]
    exact each member

/-- Two strings, one with an index of two units, a call with a method and a prototype, and a payload table. -/
def mixedUnits : List UInt16 :=
  [0x001a, 5, 0x011b, 2, 1, 0x00fa, 7, 0, 3, 0x000e, 0x0300, 1, 2, 0, 0x001a]

/-- Indices raised twice, and indices raised beyond a unit before they are raised again. -/
theorem rewrite_sound_raising : mixedUnits.length ≤ UInt32.size ∧
    encode ((ofUnits mixedUnits).rewrite [.raising 0x10000, .raising 1]) = .error (Fault.of .operandTooWide) ∧
    ∃ bytes stream, encode ((ofUnits mixedUnits).rewrite [.raising 1, .raising 2]) = .ok bytes ∧
      Reads (Reading.collect mixedUnits.length fun _ => Decoder.u2) bytes stream ∧
        List.Forall₂ (fun ref left => left = some (OperandRef.read ref stream)) (ofUnits mixedUnits).operandRefs
          [some 8, some 0x10005, some 10, some 6] := by
  have short : mixedUnits.length ≤ UInt32.size := by decide
  refine ⟨short, ?_, ?_⟩
  · refine (rewrite_sound mixedUnits short _).2.2.2.1.mpr ⟨[], .raising 0x10000, [.raising 1], rfl, ?_⟩
    exact ⟨(⟨0, 1, false, .stringId⟩, some 0x10005), by decide +kernel, .inr ⟨0x10005, rfl, rfl, by decide⟩⟩
  · have written : (encode ((ofUnits mixedUnits).rewrite [.raising 1, .raising 2])).toOption.isSome = true := by
      decide +kernel
    obtain ⟨bytes, success⟩ := Result.exists_of_toOption written
    obtain ⟨stream, reads, -, holds⟩ := (rewrite_sound mixedUnits short _).2.2.2.2 bytes success
    have left : (Pass.raising 2).left ((ofUnits mixedUnits).rewrite [.raising 1]) =
        [some 8, some 0x10005, some 10, some 6] := by decide +kernel
    exact ⟨bytes, stream, success, reads, left ▸ holds [.raising 1] (.raising 2) rfl⟩

end InstructionList

end DexImage
