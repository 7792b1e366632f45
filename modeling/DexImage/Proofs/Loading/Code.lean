import DexImage.Proofs.Codec.Sizes
import DexImage.Proofs.Loading.Passing
/-! # Loading code items

What is written of a code item is passed up to the reference to its debug info, which is loaded last, at the offset
that stands in front of the instructions.
-/

namespace DexImage

open Loading

/-- Code units are written as they are unless one of them has overflowed. -/
theorem InstructionList.encode_eq_ok {list : InstructionList} {bytes : Bytes} (success : encode list = .ok bytes) :
    list = .ofUnits list.units ∧ bytes = list.units.flatMap Bytes.ofUInt16 := by
  simp only [encode] at success
  split_ifs at success with overflow
  obtain ⟨units, overflow'⟩ := list
  exact ⟨congrArg (InstructionList.mk units) (Bool.eq_false_iff.mpr overflow), (Except.ok.inj success).symm⟩

/-- Code units are read one after the other as they were written. -/
theorem InstructionList.reads_units (units : List UInt16) :
    Reads (Reading.collect units.length fun _ => Decoder.u2) (units.flatMap Bytes.ofUInt16) units :=
  .collect_self units fun unit _ _ => .u2 unit

theorem ofDecoder_within {α : Type} (site : Site) (step : Decoder α) :
    Reading.within site (ofDecoder step) = ofDecoder (Reading.within site step) := by
  funext loader
  simp only [Reading.within, ofDecoder]
  rcases step loader.cursor with ⟨_ | _, cursor⟩ <;> rfl

namespace CodeItem

variable {code : CodeItem} {bytes : Bytes}

theorem length_units (units : List UInt16) : (units.flatMap Bytes.ofUInt16).length = 2 * units.length := by
  rw [length_flatMap_eq_total]
  exact total_const 2 units

/-- The code units that are announced. -/
theorem reads_units (units : List UInt16) (start : Nat) {count : UInt32} (counted : count.toNat = units.length) :
    Reads (decodeUnits start count) (units.flatMap Bytes.ofUInt16) units := by
  refine Reads.remaining_bind fun remaining enough => ?_
  rw [length_units] at enough
  rw [counted, if_neg (by omega : ¬ remaining < 2 * units.length)]
  exact InstructionList.reads_units units

/-- Whether the try table, if there is one, has ranges and can be told from what is written of it. -/
def Readable (code : CodeItem) : Prop :=
  ∀ table, code.tryTable = some table → 0 < table.tries.length ∧ table.Readable

/-- Whether the numbers of code units, handler lists and handlers fit the counts in front of them. -/
structure Counted (code : CodeItem) : Prop where
  units : code.instructions.units.length < UInt32.size
  table : ∀ table, code.tryTable = some table → table.Counted

/-- A table that can be told from what is written of it has ranges to announce. -/
theorem Readable.triesSize_pos (readable : code.Readable) {table : TryTable} (present : code.tryTable = some table) :
    0 < code.triesSize := by
  obtain ⟨some, readable⟩ := readable table present
  have size : code.triesSize = table.tries.length.toUInt16 := by rw [triesSize, present]
  rw [size, UInt16.lt_iff_toNat_lt, Nat.toUInt16_eq, UInt16.toNat_ofNat', Nat.mod_eq_of_lt readable.few]
  exact some

/-- A table that has ranges is written. -/
theorem writtenTable?_eq (readable : code.Readable) : code.writtenTable? = code.tryTable := by
  rw [writtenTable?]
  split_ifs with written
  · rfl
  · cases present : code.tryTable with
    | none => rfl
    | some table => exact absurd (readable.triesSize_pos present) written

/-- Whether padding stands in front of the ranges can be told from the counts in front of them. -/
theorem needsPadding_eq (counted : code.Counted) :
    code.needsPadding = (decide (0 < code.triesSize) && code.instructions.units.length.toUInt32 % 2 == 1) := by
  have odd : (code.instructions.units.length.toUInt32 % 2 == 1) = (code.instructions.units.length % 2 == 1) := by
    rw [Bool.eq_iff_iff, beq_iff_eq, beq_iff_eq, ← UInt32.toNat_inj, UInt32.toNat_mod,
      toNat_toUInt32_of_lt counted.units]
    rfl
  rw [odd]
  rfl

theorem counted_of_encode (success : encode code = .ok bytes) (small : bytes.length < UInt32.size)
    (readable : code.Readable) : code.Counted := by
  obtain ⟨-, debugInfo, instructions, table, -, written, tableWritten, rfl⟩ := encode_eq_ok success
  obtain ⟨-, rfl⟩ := InstructionList.encode_eq_ok written
  rw [writtenTable?_eq readable] at tableWritten
  simp only [List.length_append, length_units] at small
  refine ⟨by omega, fun tries present => ?_⟩
  rw [present] at tableWritten
  exact TryTable.counted_of_encode tableWritten (by omega)

/-- The item with its try table as one that has just been read. -/
def reread (code : CodeItem) : CodeItem :=
  { code with tryTable := code.tryTable.map fun table => { table with handlers := .ofList table.handlers.items } }

/-- A code item is read up to its debug info. -/
theorem load_passes (success : encode code = .ok bytes) (readable : code.Readable) (counted : code.Counted)
    {loader : Loader} (there : loader.cursor.Ahead bytes) :
    load loader = (do
      let debugInfo ← Reading.within (.itemAt .code loader.cursor.position)
        (refAt .debugInfo (ofDecoder DebugInfo.decode) code.debugInfo.knownOffset)
      return { code.reread with debugInfo }) { loader with cursor := loader.cursor.advance bytes.length } := by
  obtain ⟨enough, debugInfo, instructions, table, debugWritten, written, tableWritten, shape⟩ := encode_eq_ok success
  obtain ⟨-, rfl⟩ := DataRef.encodeWord_eq_ok debugWritten
  obtain ⟨kept, rfl⟩ := InstructionList.encode_eq_ok written
  rw [writtenTable?_eq readable] at tableWritten
  have shape : bytes = Bytes.ofUInt16 code.registers ++ (Bytes.ofUInt16 code.ins ++ (Bytes.ofUInt16 code.outs ++
      (Bytes.ofUInt16 code.triesSize ++ (Bytes.ofUInt32 code.debugInfo.knownOffset ++
        (Bytes.ofCount code.instructions.units.length ++ (code.instructions.units.flatMap Bytes.ofUInt16 ++
          ((if code.needsPadding then Bytes.ofUInt16 0 else []) ++ table))))))) := by
    rw [shape]
    simp only [List.append_assoc]
    rfl
  subst shape
  have number : code.instructions.units.length.toUInt32.toNat = code.instructions.units.length :=
    toNat_toUInt32_of_lt counted.units
  rw [load, Reading.bind_ok (position_run loader)]
  generalize loader.cursor.position = start
  refine (show Passes _ _ _ from ?_) loader there
  refine .read_bind (.u2 _) (.read_bind (.u2 _) (.read_bind (.u2 _) (.read_bind (.u2 _) (.get_bind fun _ => ?_))))
  rw [if_neg (by simp [enough])]
  refine .read_bind (.u4 _) (.read_bind (.u4 _) (.read_bind (reads_units code.instructions.units start number) ?_))
  rw [← needsPadding_eq counted, ← kept]
  rcases present : code.tryTable with _ | tries
  · rw [present] at tableWritten
    obtain rfl : table = [] := tableWritten
    have none : ¬0 < code.triesSize := by
      rw [triesSize, present]
      decide
    have unpadded : code.needsPadding = false := by simp [needsPadding, none]
    rw [unpadded, if_neg none, reread, present]
    exact .refl _
  · rw [present] at tableWritten
    have size : code.triesSize = tries.tries.length.toUInt16 := by rw [triesSize, present]
    have last := (TryTable.reads_encode tableWritten (readable tries present).2
      (counted.table tries present)).within (.tryTable start)
    rw [← size] at last
    simp only [if_pos (readable.triesSize_pos present), bind_map_left, reread, present, ofDecoder_within]
    cases code.needsPadding with
    | false => exact (Passes.ofDecoder last).bind_pure
    | true =>
      simp only [if_true, discard, map_const, Function.comp_apply, bind_map_left]
      exact .read_bind (.u2 0) (Passes.ofDecoder last).bind_pure

end CodeItem
end DexImage
