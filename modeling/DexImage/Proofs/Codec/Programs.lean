import DexImage.Item.DebugInfo
import DexImage.Proofs.Codec.Ids
/-! # Debug programs decode back

Names in a debug program are written one higher, so that only indices below 2^31 come back; a name with a
greater index is read as none (`narrowed`). An operation that is written by its code alone has to have one that
stands for no other operation (`DebugOp.Told`).
-/

namespace DexImage

namespace IdRef

variable {target : PoolKind}

/-- Whether an index keeps its sign bit free, as the form that is one higher needs. -/
def Narrow (ref : IdRef target) : Prop := ∀ index, ref.index = some index → index.toNat < 2 ^ 31

/-- What is read of the form that is one higher: an index with a sign bit is lost. -/
def narrowed (ref : IdRef target) : IdRef target := ⟨ref.index.filter fun index => index.toNat < 2 ^ 31⟩

theorem narrowed_eq_self_iff {ref : IdRef target} : ref.narrowed = ref ↔ ref.Narrow := by
  obtain ⟨_ | index⟩ := ref
  · exact iff_of_true rfl nofun
  · simp [narrowed, Narrow, Option.filter]

theorem ofPlusOne_plusOne (ref : IdRef target) : ofPlusOne ref.plusOne = ref.narrowed := by
  obtain ⟨_ | index⟩ := ref
  · rfl
  · have same : index.toInt32.toUInt32 = index := by simp
    have sign : index.toInt32 < 0 ↔ ¬index.toNat < 2 ^ 31 := by
      rw [Int32.lt_iff_toInt_lt]
      change index.toBitVec.toInt < 0 ↔ ¬index.toBitVec.toNat < 2 ^ 31
      rw [BitVec.toInt_eq_toNat_cond]
      have bound := index.toBitVec.isLt
      split_ifs with low <;> omega
    by_cases small : index.toNat < 2 ^ 31
    · have nonneg : ¬index.toInt32 < 0 := fun negative => sign.mp negative small
      simpa [ofPlusOne, plusOne, narrowed, Option.filter, nonneg, of] using small
    · have negative : index.toInt32 < 0 := sign.mpr small
      simpa [ofPlusOne, plusOne, narrowed, Option.filter, negative, absent] using small

theorem reads_encodePlusOne (ref : IdRef target) : Reads Decoder.plusOneIndex ref.encodePlusOne ref.narrowed :=
  (Reads.uleb128p1 ref.plusOne).bind_pure (by rw [ofPlusOne_plusOne])

theorem length_encodePlusOne (ref : IdRef target) : ref.encodePlusOne.length = ref.plusOneLength :=
  Leb128.length_encodeUInt32 _

end IdRef

namespace DebugOp

/-- Whether the code of an operation stands for no other one. -/
def Told : DebugOp → Prop
  | special code => Code.firstSpecial ≤ code
  | _ => True

/-- The operation without the names that are lost when it is read. -/
def narrowed : DebugOp → DebugOp
  | startLocal register name type => startLocal register name.narrowed type.narrowed
  | startLocalExtended register name type signature =>
    startLocalExtended register name.narrowed type.narrowed signature.narrowed
  | setFile name => setFile name.narrowed
  | other => other

/-- Whether an operation can be told from what is written of it. -/
def Readable : DebugOp → Prop
  | startLocal _ name type => name.Narrow ∧ type.Narrow
  | startLocalExtended _ name type signature => name.Narrow ∧ type.Narrow ∧ signature.Narrow
  | setFile name => name.Narrow
  | special code => Code.firstSpecial ≤ code
  | _ => True

theorem readable_iff {op : DebugOp} : op.Readable ↔ op.Told ∧ op.narrowed = op := by
  cases op <;> simp [Readable, Told, narrowed, IdRef.narrowed_eq_self_iff]

theorem length_bytes (op : DebugOp) : op.bytes.length = op.size := by
  cases op <;>
    simp only [bytes, size, List.length_append, List.length_cons, List.length_nil,
      Leb128.length_encodeUInt32, IdRef.length_encodePlusOne, Leb128.lengthInt32] <;> omega

private theorem code_ne_of_special {code other : UInt8} (special : Code.firstSpecial ≤ code)
    (less : other < Code.firstSpecial) : code ≠ other := by
  rintro rfl
  exact UInt8.not_le.mpr less special

/-- The operands that follow the code of an operation are read as the operation, but for names that are lost. -/
theorem reads_operands {op : DebugOp} (told : op.Told) :
    ∃ code operands, op.bytes = code :: operands ∧ code ≠ Code.endSequence ∧
      Reads (decodeOperands code) operands op.narrowed := by
  cases op with
  | advancePc delta => exact ⟨_, _, rfl, by decide, (Reads.uleb128 delta).bind_pure rfl⟩
  | advanceLine delta => exact ⟨_, _, rfl, by decide, (Reads.sleb128 delta).bind_pure rfl⟩
  | startLocal register name type =>
    refine ⟨_, Leb128.encodeUInt32 register ++ name.encodePlusOne ++ type.encodePlusOne, rfl, by decide, ?_⟩
    rw [List.append_assoc]
    exact (Reads.uleb128 register).bind (name.reads_encodePlusOne.bind (type.reads_encodePlusOne.bind_pure rfl))
  | startLocalExtended register name type signature =>
    refine ⟨_, Leb128.encodeUInt32 register ++ name.encodePlusOne ++ type.encodePlusOne
      ++ signature.encodePlusOne, rfl, by decide, ?_⟩
    rw [List.append_assoc, List.append_assoc]
    exact (Reads.uleb128 register).bind (name.reads_encodePlusOne.bind
      (type.reads_encodePlusOne.bind (signature.reads_encodePlusOne.bind_pure rfl)))
  | endLocal register => exact ⟨_, _, rfl, by decide, (Reads.uleb128 register).bind_pure rfl⟩
  | restartLocal register => exact ⟨_, _, rfl, by decide, (Reads.uleb128 register).bind_pure rfl⟩
  | prologueEnd => exact ⟨_, _, rfl, by decide, Reads.pure _⟩
  | epilogueBegin => exact ⟨_, _, rfl, by decide, Reads.pure _⟩
  | setFile name => exact ⟨_, _, rfl, by decide, name.reads_encodePlusOne.bind_pure rfl⟩
  | special code =>
    refine ⟨code, [], rfl, code_ne_of_special told (by decide), ?_⟩
    have other {known : UInt8} (less : known < Code.firstSpecial) : code ≠ known :=
      code_ne_of_special told less
    rw [decodeOperands, if_neg (other (by decide)), if_neg (other (by decide)), if_neg (other (by decide)),
      if_neg (other (by decide)), if_neg (other (by decide)), if_neg (other (by decide)),
      if_neg (other (by decide)), if_neg (other (by decide)), if_neg (other (by decide))]
    exact Reads.pure _

end DebugOp

namespace DebugInfo

/-- Whether a debug program can be told from what is written of it. -/
structure Readable (info : DebugInfo) : Prop where
  names : ∀ name ∈ info.parameterNames, name.Narrow
  ops : ∀ op ∈ info.ops, op.Readable

theorem length_encode {info : DebugInfo} {bytes : Bytes} (success : encode info = .ok bytes) :
    bytes.length = encodedSize info := by
  obtain rfl := Except.ok.inj success
  simp only [encodedSize, List.length_append, List.length_singleton, length_flatMap_eq_total,
    Bytes.ofVarCount, Bytes.varCountLength, Leb128.length_encodeUInt32, IdRef.length_encodePlusOne,
    DebugOp.length_bytes]

/-- The program without the names that are lost when it is read. -/
def narrowed (info : DebugInfo) : DebugInfo :=
  { info with parameterNames := info.parameterNames.map IdRef.narrowed, ops := info.ops.map DebugOp.narrowed }

/-- A program can be told from what is written of it if the codes of its operations tell them and no name is lost. -/
theorem readable_iff {info : DebugInfo} : info.Readable ↔ (∀ op ∈ info.ops, op.Told) ∧ info.narrowed = info := by
  have names : info.parameterNames.map IdRef.narrowed = info.parameterNames ↔
      ∀ name ∈ info.parameterNames, name.Narrow := by
    simpa only [List.map_id, id, IdRef.narrowed_eq_self_iff] using
      List.map_inj_left (f := IdRef.narrowed) (g := id) (l := info.parameterNames)
  have ops : info.ops.map DebugOp.narrowed = info.ops ↔ ∀ op ∈ info.ops, op.narrowed = op := by
    simpa only [List.map_id, id] using List.map_inj_left (f := DebugOp.narrowed) (g := id) (l := info.ops)
  have parts : info.narrowed = info ↔ info.parameterNames.map IdRef.narrowed = info.parameterNames ∧
      info.ops.map DebugOp.narrowed = info.ops := by
    obtain ⟨lineStart, parameterNames, program⟩ := info
    simp [narrowed]
  rw [parts, names, ops]
  constructor
  · intro readable
    exact ⟨fun op member => (DebugOp.readable_iff.mp (readable.ops op member)).1, readable.names,
      fun op member => (DebugOp.readable_iff.mp (readable.ops op member)).2⟩
  · rintro ⟨told, narrow, kept⟩
    exact ⟨narrow, fun op member => DebugOp.readable_iff.mpr ⟨told op member, kept op member⟩⟩

/-- The operations are read up to the one that ends the program. -/
theorem reads_ops {ops : List DebugOp} (told : ∀ op ∈ ops, op.Told) :
    Reads decodeOps (ops.flatMap DebugOp.bytes ++ [DebugOp.Code.endSequence]) (ops.map DebugOp.narrowed) := by
  have go (fuel : Nat) (found : List DebugOp) (enough : (ops.flatMap DebugOp.bytes).length < fuel) :
      Reads (decodeOps.go fuel found) (ops.flatMap DebugOp.bytes ++ [DebugOp.Code.endSequence])
        (found.reverse ++ ops.map DebugOp.narrowed) := by
    induction ops generalizing fuel found with
    | nil =>
      obtain ⟨fuel, rfl⟩ := Nat.exists_eq_succ_of_ne_zero (Nat.ne_of_gt enough)
      rw [decodeOps.go, List.map_nil, List.append_nil]
      exact (Reads.u1 DebugOp.Code.endSequence).bind_pure (if_pos rfl)
    | cons op rest ih =>
      obtain ⟨first, others⟩ := List.forall_mem_cons.mp told
      obtain ⟨code, operands, bytes, goesOn, reads⟩ := DebugOp.reads_operands first
      obtain ⟨fuel, rfl⟩ := Nat.exists_eq_succ_of_ne_zero (Nat.ne_of_gt (Nat.lt_of_le_of_lt (Nat.zero_le _) enough))
      rw [List.flatMap_cons, bytes] at enough
      simp only [List.cons_append, List.length_cons, List.length_append] at enough
      have tail := ih others fuel (op.narrowed :: found) (by omega)
      rw [List.reverse_cons, List.append_assoc, List.singleton_append] at tail
      rw [decodeOps.go, List.flatMap_cons, bytes]
      simp only [List.cons_append, List.append_assoc]
      refine (Reads.u1 code).bind ?_
      rw [if_neg goesOn]
      exact reads.bind tail
  refine Reads.remaining_bind fun remaining enough => go _ [] ?_
  rw [List.length_append] at enough
  omega

/-- Whether the number of parameter names fits the count in front of them. -/
def Counted (info : DebugInfo) : Prop := info.parameterNames.length < UInt32.size

theorem counted_of_encode {info : DebugInfo} {bytes : Bytes} (success : encode info = .ok bytes)
    (small : bytes.length < UInt32.size) : info.Counted := by
  obtain rfl := Except.ok.inj success
  have count := mul_length_le_flatMap info.parameterNames fun name =>
    show 1 ≤ name.encodePlusOne.length from Leb128.length_encodeNat_pos _
  simp only [List.length_append] at small
  rw [Counted]
  omega

/-- A program whose operations are told by their codes is read back but for the names that are lost. -/
theorem reads_narrowed {info : DebugInfo} {bytes : Bytes} (success : encode info = .ok bytes)
    (told : ∀ op ∈ info.ops, op.Told) (counted : info.Counted) : Reads decode bytes info.narrowed := by
  obtain rfl := Except.ok.inj success
  obtain ⟨lineStart, parameterNames, ops⟩ := info
  have names := Reads.collect_flatMap parameterNames fun name _ (_ : Nat) => name.reads_encodePlusOne
  simp only [List.append_assoc]
  refine (Reads.uleb128 lineStart).bind (Reads.varCount counted fun read counted => ?_)
  rw [counted]
  exact names.bind ((reads_ops told).bind_pure rfl)

theorem reads_encode {info : DebugInfo} {bytes : Bytes} (success : encode info = .ok bytes)
    (readable : info.Readable) (counted : info.Counted) : Reads decode bytes info := by
  obtain ⟨told, kept⟩ := readable_iff.mp readable
  have reads := reads_narrowed success told counted
  rwa [kept] at reads

end DebugInfo
end DexImage
