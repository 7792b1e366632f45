import DexImage.Proofs.Codec.Consumption
import DexImage.Proofs.Rereading.Decoding
import DexImage.Proofs.Rereading.Retracing
import DexImage.Proofs.Values.Rewritten
/-! # Values that are written as they were read

The bytes that a value is read from fall into descriptor bytes, variable-length numbers and payloads
(`EncodedValue.Spells`). Where the numbers are minimal and no descriptor has an argument that its kind ignores, these
are the bytes that are written for the value, whatever widths of payload they declare: a width that was declared is
never below the least width for what the payload spells, and to cut off what the payload was extended by gives the
payload back.
-/

namespace DexImage

namespace Scalar

private theorem toNat_bmod {raw width size : Nat} (within : width ≤ size) (bound : raw < Bytes.capacity width) :
    (Int.bmod raw (Bytes.capacity width) % 2 ^ (8 * size)).toNat % Bytes.capacity width = raw := by
  have divides : (Bytes.capacity width : Int) ∣ 2 ^ (8 * size) := by
    rw [Bytes.capacity_eq, Nat.cast_pow, Nat.cast_ofNat, Int.pow_mul]
    exact pow_dvd_pow _ within
  have nonneg : 0 ≤ Int.bmod raw (Bytes.capacity width) % 2 ^ (8 * size) := Int.emod_nonneg _ (by positivity)
  have residue : (raw : Int) % Bytes.capacity width = raw := Int.emod_eq_of_lt (by omega) (by omega)
  zify
  rw [Int.toNat_of_nonneg nonneg, Int.emod_emod_of_dvd _ divides, Int.bmod_emod, residue]

/-- To cut off what a payload was extended by gives the payload back. -/
theorem payload_ofPayload {kind : ValueKind} {bytes : Bytes} (some : 0 < bytes.length)
    (within : bytes.length ≤ kind.maxWidth) :
    (ofPayload kind bytes.length bytes.toNatLittle).payload bytes.length = bytes := by
  have bound := bytes.toNatLittle_lt
  have signed (size : Nat) (within : bytes.length ≤ size) :
      (BitVec.ofInt (8 * size) (Int.bmod bytes.toNatLittle (Bytes.capacity bytes.length))).toNat
        % Bytes.capacity bytes.length = bytes.toNatLittle := by
    rw [BitVec.toNat_ofInt]
    exact toNat_bmod within bound
  have unsigned (size : Nat) (within : bytes.length ≤ size) :
      bytes.toNatLittle % 2 ^ (8 * size) % Bytes.capacity bytes.length = bytes.toNatLittle := by
    have divides : Bytes.capacity bytes.length ∣ 2 ^ (8 * size) := by
      rw [Bytes.capacity_eq, Nat.pow_mul]
      exact Nat.pow_dvd_pow 256 within
    rw [Nat.mod_mod_of_dvd _ divides, Nat.mod_eq_of_lt bound]
  have right (size : Nat) (within : bytes.length ≤ size) :
      bytes.toNatLittle * Bytes.capacity (size - bytes.length) % 2 ^ (8 * size) / Bytes.capacity (size - bytes.length)
        % Bytes.capacity bytes.length = bytes.toNatLittle := by
    have pos : 0 < Bytes.capacity (size - bytes.length) := by
      rw [Bytes.capacity_eq]
      exact Nat.pow_pos (by decide)
    have power : 2 ^ (8 * size) = Bytes.capacity size := by rw [Bytes.capacity_eq, Nat.pow_mul]
    rw [power, Nat.mod_eq_of_lt (mul_capacity_lt within bound), Nat.mul_div_cancel _ pos, Nat.mod_eq_of_lt bound]
  cases kind with
  | byte => exact Bytes.littleEndian_of_mod (signed 1 within)
  | short => exact Bytes.littleEndian_of_mod (signed 2 within)
  | int => exact Bytes.littleEndian_of_mod (signed 4 within)
  | long => exact Bytes.littleEndian_of_mod (signed 8 within)
  | char => exact Bytes.littleEndian_of_mod (unsigned 2 within)
  | float => exact Bytes.littleEndian_of_mod (right 4 within)
  | double => exact Bytes.littleEndian_of_mod (right 8 within)
  | array | annotationBody | null | boolean => exact absurd (Nat.lt_of_lt_of_le some within) (Nat.lt_irrefl 0)
  | _ => exact Bytes.littleEndian_of_mod (unsigned 4 within)

theorem checkReference_ofPayload (kind : ValueKind) (width raw : Nat) :
    (ofPayload kind width raw).checkReference = .ok () := by
  cases kind <;> rfl

end Scalar

namespace EncodedValue

/-- A piece of the bytes of a value. -/
inductive Part where
  /-- The byte in front of a value, with the argument that its upper bits hold. -/
  | descriptor (kind : ValueKind) (argument : Nat)
  /-- The groups of a count or of an index. -/
  | varint (groups : Bytes)
  | payload (bytes : Bytes)

namespace Part

def bytes : Part → Bytes
  | descriptor kind argument => [EncodedValue.descriptor kind argument]
  | varint groups => groups
  | payload bytes => bytes

/-- Whether a piece is the least of those that are read alike. Every payload is, as its width is remembered. -/
def Minimal : Part → Prop
  | descriptor .boolean argument => argument ≤ 1
  | descriptor .null argument | descriptor .array argument | descriptor .annotationBody argument => argument = 0
  | descriptor _ _ => True
  | varint groups => Leb128.Minimal groups
  | payload _ => True

end Part

/-- The bytes of pieces in a row. -/
def joined (parts : List Part) : Bytes := parts.flatMap Part.bytes

mutual

/-- Whether pieces are what a value is read from. -/
inductive Spells : List Part → EncodedValue → Prop
  | scalar {kind : ValueKind} {argument : Nat} {bytes : Bytes} (within : bytes.length ≤ kind.maxWidth)
      (length : bytes.length = argument + 1) : Spells [.descriptor kind argument, .payload bytes]
        (.scalar (Scalar.ofPayload kind bytes.length bytes.toNatLittle) bytes.length)
  | array {argument : Nat} {groups : Bytes} {count : UInt32} {parts : List Part} {elements : List EncodedValue}
      (small : argument < 8) (counted : Leb128.decodeUInt32 groups = .ok (count, groups.length))
      (length : elements.length = count.toNat) (each : SpellsList parts elements) :
      Spells (.descriptor .array argument :: .varint groups :: parts) (.array elements)
  | annotationBody {argument : Nat} {typeGroups groups : Bytes} {type count : UInt32} {parts : List Part}
      {elements : List (IdRef .stringId × EncodedValue)}
      (small : argument < 8) (typed : Leb128.decodeUInt32 typeGroups = .ok (type, typeGroups.length))
      (counted : Leb128.decodeUInt32 groups = .ok (count, groups.length)) (length : elements.length = count.toNat)
      (each : SpellsElements parts elements) :
      Spells (.descriptor .annotationBody argument :: .varint typeGroups :: .varint groups :: parts)
        (.annotationBody (.of type) elements)
  | null {argument : Nat} (small : argument < 8) : Spells [.descriptor .null argument] .null
  | boolean {argument : Nat} (small : argument < 8) : Spells [.descriptor .boolean argument] (.boolean (argument != 0))

inductive SpellsList : List Part → List EncodedValue → Prop
  | nil : SpellsList [] []
  | cons {front back : List Part} {value : EncodedValue} {rest : List EncodedValue} (first : Spells front value)
      (others : SpellsList back rest) : SpellsList (front ++ back) (value :: rest)

inductive SpellsElements : List Part → List (IdRef .stringId × EncodedValue) → Prop
  | nil : SpellsElements [] []
  | cons {groups : Bytes} {name : UInt32} {front back : List Part} {value : EncodedValue}
      {rest : List (IdRef .stringId × EncodedValue)}
      (named : Leb128.decodeUInt32 groups = .ok (name, groups.length)) (first : Spells front value)
      (others : SpellsElements back rest) :
      SpellsElements (.varint groups :: (front ++ back)) ((.of name, value) :: rest)

end

theorem joined_cons (part : Part) (parts : List Part) : joined (part :: parts) = part.bytes ++ joined parts :=
  List.flatMap_cons

theorem joined_append (first second : List Part) : joined (first ++ second) = joined first ++ joined second :=
  List.flatMap_append

/-- The groups of a count that are minimal are written for the number of what is counted. -/
theorem groups_eq_ofVarCount {groups : Bytes} {count : UInt32} {length : Nat} (minimal : Leb128.Minimal groups)
    (counted : Leb128.decodeUInt32 groups = .ok (count, groups.length)) (same : length = count.toNat) :
    Bytes.ofVarCount length = groups := by
  rw [Bytes.ofVarCount, same, Nat.toUInt32_eq, UInt32.ofNat_toNat, ← minimal.eq_encodeUInt32 counted]

/-- A scalar that has been read remembers the width that it is written with. -/
theorem width_ofPayload {kind : ValueKind} {bytes : Bytes} (some : 0 < bytes.length)
    (within : bytes.length ≤ kind.maxWidth) :
    (scalar (Scalar.ofPayload kind bytes.length bytes.toNatLittle) bytes.length).width = bytes.length ∧
      (Scalar.ofPayload kind bytes.length bytes.toNatLittle).kind = kind := by
  obtain ⟨same, least⟩ := Scalar.leastWidth_ofPayload some within bytes.toNatLittle_lt
  refine ⟨?_, same⟩
  rw [EncodedValue.width, same, Nat.max_eq_left least, Nat.min_eq_left within]

mutual

/-- Minimal pieces are what is written for the value that they spell. -/
theorem Spells.encode_eq : {parts : List Part} → {value : EncodedValue} → Spells parts value →
    (∀ part ∈ parts, part.Minimal) → value.encode = .ok (joined parts)
  | _, _, @Spells.scalar kind argument bytes within length, _ => by
    have some : 0 < bytes.length := by omega
    obtain ⟨width, same⟩ := width_ofPayload some within
    have told : bytes.length - 1 = argument := by omega
    rw [encode, Scalar.checkReference_ofPayload]
    simp only [width, same, told, Scalar.payload_ofPayload some within, joined_cons, Part.bytes]
    exact congrArg (fun rest => Except.ok (descriptor kind argument :: rest)) (List.append_nil bytes).symm
  | _, _, @Spells.array argument groups count parts elements _ counted length each, minimal => by
    obtain ⟨least, leastGroups, others⟩ :
      argument = 0 ∧ Leb128.Minimal groups ∧ ∀ part ∈ parts, part.Minimal := by
      simpa [Part.Minimal] using minimal
    rw [encode, each.encode_eq others, groups_eq_ofVarCount leastGroups counted length, least]
    rfl
  | _, _, @Spells.annotationBody argument typeGroups groups type count parts elements _ typed counted length each,
      minimal => by
    obtain ⟨least, leastType, leastGroups, others⟩ : argument = 0 ∧ Leb128.Minimal typeGroups ∧
        Leb128.Minimal groups ∧ ∀ part ∈ parts, part.Minimal := by
      simpa [Part.Minimal] using minimal
    rw [encode, each.encode_eq others, groups_eq_ofVarCount leastGroups counted length, least]
    simp only [joined_cons, Part.bytes, ← List.append_assoc]
    rw [leastType.eq_encodeUInt32 typed]
    rfl
  | _, _, .null _, minimal => by
    obtain rfl := (List.forall_mem_cons.mp minimal).1
    rfl
  | _, _, @Spells.boolean argument _, minimal => by
    have least : argument ≤ 1 := (List.forall_mem_cons.mp minimal).1
    have argument : argument = 0 ∨ argument = 1 := by omega
    rcases argument with rfl | rfl <;> rfl

theorem SpellsList.encode_eq : {parts : List Part} → {values : List EncodedValue} → SpellsList parts values →
    (∀ part ∈ parts, part.Minimal) → encodeList values = .ok (joined parts)
  | _, _, .nil, _ => rfl
  | _, _, .cons first others, minimal => by
    obtain ⟨front, back⟩ := List.forall_mem_append.mp minimal
    rw [encodeList, first.encode_eq front, others.encode_eq back, joined_append]
    rfl

theorem SpellsElements.encode_eq : {parts : List Part} → {elements : List (IdRef .stringId × EncodedValue)} →
    SpellsElements parts elements → (∀ part ∈ parts, part.Minimal) → encodeElements elements = .ok (joined parts)
  | _, _, .nil, _ => rfl
  | _, _, @SpellsElements.cons groups name front back value rest named first others, minimal => by
    obtain ⟨leastGroups, minimal⟩ := List.forall_mem_cons.mp minimal
    obtain ⟨leastFront, leastBack⟩ := List.forall_mem_append.mp minimal
    rw [encodeElements, first.encode_eq leastFront, others.encode_eq leastBack, joined_cons, joined_append,
      ← List.append_assoc, Part.bytes, leastGroups.eq_encodeUInt32 named]
    rfl

end

/-- The payload that is written for a scalar spells it. -/
theorem spells_scalar {value : Scalar} {width : Nat} (present : value.checkReference = .ok ()) :
    Spells [.descriptor value.kind ((scalar value width).width - 1),
      .payload (value.payload (scalar value width).width)]
      (scalar value (scalar value width).width) := by
  obtain ⟨least, within, pos, -⟩ := width_scalar_spec value width
  generalize (scalar value width).width = width at *
  have length : (value.payload width).length = width := length_payload value width
  have spelled := @Spells.scalar value.kind (width - 1) (value.payload width) (by omega) (by omega)
  rwa [length, Scalar.ofPayload_payload present least within] at spelled

mutual

/-- What is written for a value falls into minimal pieces, which spell the value with the widths that it is
written with. -/
theorem spells_encode : (value : EncodedValue) → {bytes : Bytes} → value.encode = .ok bytes → value.Counted →
    ∃ parts, Spells parts value.effective ∧ joined parts = bytes ∧ ∀ part ∈ parts, part.Minimal
  | scalar value width, bytes, success, _ => by
    rw [encode] at success
    obtain ⟨_, present, same⟩ := Result.bind_eq_ok.mp success
    obtain rfl := Except.ok.inj same
    refine ⟨_, spells_scalar present, by simp [joined, Part.bytes], ?_⟩
    cases value <;> simp [Part.Minimal, Scalar.kind]
  | array elements, bytes, success, counted => by
    rw [encode] at success
    obtain ⟨others, inner, same⟩ := Result.bind_eq_ok.mp success
    obtain rfl := Except.ok.inj same
    obtain ⟨few, counted⟩ := counted
    obtain ⟨parts, spells, rfl, minimal⟩ := spells_encodeList elements inner counted
    refine ⟨.descriptor .array 0 :: .varint (Bytes.ofVarCount elements.length) :: parts,
      .array (by decide) (Leb128.decodeUInt32_alone _) ?_ spells, rfl, ?_⟩
    · rw [length_effectiveList, toNat_toUInt32_of_lt few]
    · simpa [Part.Minimal] using ⟨Leb128.minimal_encodeUInt32 _, minimal⟩
  | annotationBody type elements, bytes, success, counted => by
    rw [encode] at success
    obtain ⟨index, required, success⟩ := Result.bind_eq_ok.mp success
    obtain ⟨others, inner, same⟩ := Result.bind_eq_ok.mp success
    obtain rfl := Except.ok.inj same
    obtain rfl := IdRef.eq_of_required required
    obtain ⟨few, counted⟩ := counted
    obtain ⟨parts, spells, rfl, minimal⟩ := spells_encodeElements elements inner counted
    refine ⟨.descriptor .annotationBody 0 :: .varint (Leb128.encodeUInt32 index) ::
      .varint (Bytes.ofVarCount elements.length) :: parts,
      .annotationBody (by decide) (Leb128.decodeUInt32_alone _) (Leb128.decodeUInt32_alone _) ?_ spells, ?_, ?_⟩
    · rw [length_effectiveElements, toNat_toUInt32_of_lt few]
    · simp [joined_cons, Part.bytes]
    · simpa [Part.Minimal] using ⟨Leb128.minimal_encodeUInt32 _, Leb128.minimal_encodeUInt32 _, minimal⟩
  | null, bytes, success, _ => by
    obtain rfl := Except.ok.inj success
    exact ⟨_, .null (by decide), rfl, by simp [Part.Minimal]⟩
  | boolean value, bytes, success, _ => by
    obtain rfl := Except.ok.inj success
    cases value
    · exact ⟨_, @Spells.boolean 0 (by decide), rfl, by simp [Part.Minimal]⟩
    · exact ⟨_, @Spells.boolean 1 (by decide), rfl, by simp [Part.Minimal]⟩

theorem spells_encodeList : (values : List EncodedValue) → {bytes : Bytes} → encodeList values = .ok bytes →
    CountedList values → ∃ parts, SpellsList parts (effectiveList values) ∧ joined parts = bytes ∧
      ∀ part ∈ parts, part.Minimal
  | [], bytes, success, _ => ⟨[], .nil, Except.ok.inj success, nofun⟩
  | value :: rest, bytes, success, counted => by
    rw [encodeList] at success
    obtain ⟨first, head, success⟩ := Result.bind_eq_ok.mp success
    obtain ⟨others, tail, same⟩ := Result.bind_eq_ok.mp success
    obtain rfl := Except.ok.inj same
    obtain ⟨front, spells, rfl, minimal⟩ := spells_encode value head counted.1
    obtain ⟨back, spells', rfl, minimal'⟩ := spells_encodeList rest tail counted.2
    exact ⟨front ++ back, .cons spells spells', joined_append _ _, List.forall_mem_append.mpr ⟨minimal, minimal'⟩⟩

theorem spells_encodeElements : (elements : List (IdRef .stringId × EncodedValue)) → {bytes : Bytes} →
    encodeElements elements = .ok bytes → CountedElements elements →
    ∃ parts, SpellsElements parts (effectiveElements elements) ∧ joined parts = bytes ∧
      ∀ part ∈ parts, part.Minimal
  | [], bytes, success, _ => ⟨[], .nil, Except.ok.inj success, nofun⟩
  | (name, value) :: rest, bytes, success, counted => by
    rw [encodeElements] at success
    obtain ⟨index, required, success⟩ := Result.bind_eq_ok.mp success
    obtain ⟨first, head, success⟩ := Result.bind_eq_ok.mp success
    obtain ⟨others, tail, same⟩ := Result.bind_eq_ok.mp success
    obtain rfl := Except.ok.inj same
    obtain rfl := IdRef.eq_of_required required
    obtain ⟨front, spells, rfl, minimal⟩ := spells_encode value head counted.1
    obtain ⟨back, spells', rfl, minimal'⟩ := spells_encodeElements rest tail counted.2
    refine ⟨_, .cons (Leb128.decodeUInt32_alone index) spells spells', ?_, ?_⟩
    · rw [joined_cons, joined_append, ← List.append_assoc]
      rfl
    · exact List.forall_mem_cons.mpr
        ⟨Leb128.minimal_encodeUInt32 index, List.forall_mem_append.mpr ⟨minimal, minimal'⟩⟩

end

/-- The descriptor byte is made of the kind and of the argument that it tells. -/
theorem descriptor_ofCode? {byte : UInt8} {kind : ValueKind} (known : ValueKind.ofCode? (byte % 32) = some kind) :
    descriptor kind (byte.toNat / 32) = byte := by
  have code : kind.code = byte % 32 := by simpa using List.find?_some known
  have value : kind.code.toNat = byte.toNat % 32 := by rw [code, UInt8.toNat_mod]; rfl
  rw [descriptor, value, Nat.div_add_mod', Nat.toUInt8_eq, UInt8.ofNat_toNat]

section Recognizes

open Reading

variable {cursor after : Cursor} {fuel : Nat} {step : Decoder EncodedValue}

/-- Whether a step moves over pieces that spell the value that it yields, where there are not too many bytes left. -/
def Recognizes (fuel : Nat) (step : Decoder EncodedValue) : Prop :=
  ∀ cursor value after, cursor.remaining ≤ fuel → step cursor = (.ok value, after) →
    ∃ parts, Spells parts value ∧ cursor.Consumed (joined parts) after

theorem Recognizes.list (each : Recognizes fuel step) {index : Nat} {values : List EncodedValue}
    (enough : cursor.remaining ≤ fuel) (turns : InTurn (fun _ => step) index values cursor after) :
    ∃ parts, SpellsList parts values ∧ cursor.Consumed (joined parts) after := by
  induction turns with
  | nil => exact ⟨[], .nil, .refl _⟩
  | cons head _ ih =>
    obtain ⟨front, first, passed⟩ := each _ _ _ enough head
    have fewer := passed.remaining_le
    obtain ⟨back, others, rest⟩ := ih (by omega)
    refine ⟨front ++ back, .cons first others, ?_⟩
    rw [joined_append]
    exact passed.trans rest

theorem Recognizes.elements (each : Recognizes fuel step) {index : Nat}
    {elements : List (IdRef .stringId × EncodedValue)}
    (enough : cursor.remaining ≤ fuel)
    (turns : InTurn (fun _ => do
      let name ← Decoder.uleb128
      return (.of name, ← step)) index elements cursor after) :
    ∃ parts, SpellsElements parts elements ∧ cursor.Consumed (joined parts) after := by
  induction turns with
  | nil => exact ⟨[], .nil, .refl _⟩
  | cons head _ ih =>
    obtain ⟨name, mid, namedRun, head⟩ := bind_eq_ok.mp head
    obtain ⟨value, _, valueRun, head⟩ := bind_eq_ok.mp head
    obtain ⟨rfl, rfl⟩ := pure_eq_ok.mp head
    obtain ⟨groups, passedName, named⟩ := Decoder.consumed_uleb128 namedRun
    have fewer := passedName.remaining_le
    obtain ⟨front, first, passed⟩ := each _ _ _ (by omega) valueRun
    have fewer' := passed.remaining_le
    obtain ⟨back, others, rest⟩ := ih (by omega)
    refine ⟨.varint groups :: (front ++ back), .cons named first others, ?_⟩
    rw [joined_cons, joined_append]
    exact passedName.trans (passed.trans rest)

/-- The payload that is read behind a descriptor byte, with the byte, spells the scalar that is read. -/
theorem consumed_scalar {kind : ValueKind} {position argument : Nat} {value : EncodedValue}
    (run : (do
      if kind.maxWidth < argument + 1 then
        Reading.fail (.payloadTooWide kind position (argument + 1))
      else
        let payload ← Decoder.take (argument + 1)
        return scalar (Scalar.ofPayload kind (argument + 1) payload.toNatLittle) (argument + 1) : Decoder EncodedValue)
        cursor = (.ok value, after)) :
    ∃ parts, Spells (.descriptor kind argument :: parts) value ∧ cursor.Consumed (joined parts) after := by
  split_ifs at run with wide
  · cases run
  · obtain ⟨bytes, _, taken, run⟩ := bind_eq_ok.mp run
    obtain ⟨rfl, rfl⟩ := pure_eq_ok.mp run
    obtain ⟨passed, length⟩ := Decoder.consumed_take taken
    have spells := @Spells.scalar kind argument bytes (by omega) length
    rw [length] at spells
    refine ⟨[.payload bytes], spells, ?_⟩
    rwa [joined_cons, Part.bytes, joined, List.flatMap_nil, List.append_nil]

/-- What is read behind a descriptor byte, with the byte, spells the value that is read. -/
theorem Recognizes.body (each : Recognizes fuel (decodeWithin fuel)) {position argument : Nat} {kind : ValueKind}
    {value : EncodedValue} (small : argument < 8) (enough : cursor.remaining ≤ fuel)
    (run : decodeBody fuel position kind argument cursor = (.ok value, after)) :
    ∃ parts, Spells (.descriptor kind argument :: parts) value ∧ cursor.Consumed (joined parts) after := by
  cases kind with
  | array =>
    obtain ⟨count, _, countRun, run⟩ := bind_eq_ok.mp run
    obtain ⟨elements, _, collected, run⟩ := bind_eq_ok.mp run
    obtain ⟨rfl, rfl⟩ := pure_eq_ok.mp run
    obtain ⟨groups, passed, counted⟩ := Decoder.consumed_uleb128 countRun
    have fewer := passed.remaining_le
    obtain ⟨length, turns⟩ := collect_eq_ok collected
    obtain ⟨parts, spells, rest⟩ := each.list (by omega) turns
    refine ⟨.varint groups :: parts, .array small counted length spells, ?_⟩
    rw [joined_cons]
    exact passed.trans rest
  | annotationBody =>
    obtain ⟨type, _, typeRun, run⟩ := bind_eq_ok.mp run
    obtain ⟨count, _, countRun, run⟩ := bind_eq_ok.mp run
    obtain ⟨elements, _, collected, run⟩ := bind_eq_ok.mp run
    obtain ⟨rfl, rfl⟩ := pure_eq_ok.mp run
    obtain ⟨typeGroups, passedType, typed⟩ := Decoder.consumed_uleb128 typeRun
    obtain ⟨groups, passedCount, counted⟩ := Decoder.consumed_uleb128 countRun
    have fewer := passedType.remaining_le
    have fewer' := passedCount.remaining_le
    obtain ⟨length, turns⟩ := collect_eq_ok collected
    obtain ⟨parts, spells, rest⟩ := each.elements (by omega) turns
    refine ⟨.varint typeGroups :: .varint groups :: parts, .annotationBody small typed counted length spells, ?_⟩
    rw [joined_cons, joined_cons]
    exact passedType.trans (passedCount.trans rest)
  | null =>
    obtain ⟨rfl, rfl⟩ := pure_eq_ok.mp run
    exact ⟨[], .null small, .refl _⟩
  | boolean =>
    obtain ⟨rfl, rfl⟩ := pure_eq_ok.mp run
    exact ⟨[], .boolean small, .refl _⟩
  | _ => exact consumed_scalar run

theorem recognizes_decodeWithin (fuel : Nat) : Recognizes fuel (decodeWithin fuel) := by
  induction fuel with
  | zero =>
    intro cursor value after enough run
    obtain ⟨_, mid, skipped, -⟩ := bind_eq_ok.mp run
    obtain ⟨byte, _, next, -⟩ := bind_eq_ok.mp
      (show (Decoder.u1 >>= fun _ => pure ()) cursor = (.ok (), mid) from skipped)
    have fewer := (Decoder.consumed_u1 next).remaining_le
    rw [List.length_singleton] at fewer
    omega
  | succ fuel ih =>
    intro cursor value after enough run
    -- The descriptor takes a byte, so that what is left of the fuel is enough for what is behind it.
    rw [decodeWithin] at run
    obtain ⟨position, _, place, run⟩ := bind_eq_ok.mp run
    obtain rfl := (Prod.mk.inj place).2
    obtain ⟨byte, behind, next, run⟩ := bind_eq_ok.mp run
    have passed := Decoder.consumed_u1 next
    have fewer := passed.remaining_le
    rw [List.length_singleton] at fewer
    have small : byte.toNat / 32 < 8 := by
      have bound := byte.toNat_lt
      omega
    rcases known : ValueKind.ofCode? (byte % 32) with _ | kind
    · simp only [known] at run
      cases run
    · have body : decodeBody fuel position kind (byte.toNat / 32) behind = (.ok value, after) := by
        simp only [known] at run
        cases kind <;> exact run
      obtain ⟨parts, spells, rest⟩ := ih.body small (by omega) body
      refine ⟨_, spells, ?_⟩
      rw [joined_cons, Part.bytes, descriptor_ofCode? known]
      exact passed.trans rest

end Recognizes

/-- A value is read from pieces that lie in a row. The bytes that it was read from are written for it again just if they
fall into pieces that are all minimal, which says nothing of how wide a payload is. -/
theorem write_decode {cursor after : Cursor} {value : EncodedValue} (success : decode cursor = (.ok value, after)) :
    ∃ consumed, cursor.Consumed consumed after ∧ (∃ parts, Spells parts value ∧ joined parts = consumed) ∧
      (∀ parts, Spells parts value → joined parts = consumed → (∀ part ∈ parts, part.Minimal) →
        ∀ out, value.write out = (.ok consumed.length, out ++ consumed)) ∧
      ((∀ out, value.write out = (.ok consumed.length, out ++ consumed)) →
        ∃ parts, Spells parts value ∧ joined parts = consumed ∧ ∀ part ∈ parts, part.Minimal) := by
  have spelled := gives_decode.holds _ _ _ success
  obtain ⟨remaining, _, asked, run⟩ := Reading.bind_eq_ok.mp success
  obtain ⟨same, rfl⟩ := Prod.mk.inj asked
  obtain rfl := Except.ok.inj same
  obtain ⟨parts, spells, passed⟩ := recognizes_decodeWithin _ _ _ _ (Nat.le_refl _) run
  refine ⟨joined parts, passed, ⟨parts, spells, rfl⟩, fun parts' spells' joins minimal => ?_, fun written => ?_⟩
  · exact write_eq_ok ((spells'.encode_eq minimal).trans (congrArg Except.ok joins))
  · obtain ⟨least, spells', joins, minimal⟩ := spells_encode value (encode_of_write (written [])) spelled.counted
    exact ⟨least, spelled.settled ▸ spells', joins, minimal⟩

/-- An array of a number whose payload is three bytes wider than it has to be. -/
theorem write_decode_wide : ∃ value after, value = array [scalar (.int 5) 4] ∧
    decode (.ofBytes [0x1c, 1, 0x64, 5, 0, 0, 0, 9]) = (.ok value, after) ∧ after.position = 7 ∧
      value.write [] = (.ok 7, [0x1c, 1, 0x64, 5, 0, 0, 0]) := by
  have read : (decode (.ofBytes [0x1c, 1, 0x64, 5, 0, 0, 0, 9])).1.toOption = some (array [scalar (.int 5) 4]) := by
    decide +kernel
  have position : (decode (.ofBytes [0x1c, 1, 0x64, 5, 0, 0, 0, 9])).2.position = 7 := by decide +kernel
  rcases run : decode (.ofBytes [0x1c, 1, 0x64, 5, 0, 0, 0, 9]) with ⟨fault | value, after⟩
  · rw [run] at read
    cases read
  · rw [run] at read position
    obtain rfl := Option.some.inj read
    have minimal : Leb128.Minimal [1] := ⟨⟨1, by decide, by decide +kernel⟩, .inl rfl⟩
    have counted : Leb128.decodeUInt32 [1] = .ok (1, 1) := by decide +kernel
    have number := @Spells.scalar .int 3 [5, 0, 0, 0] (by decide) rfl
    have payload : Scalar.ofPayload .int 4 (Bytes.toNatLittle [5, 0, 0, 0]) = .int 5 := by
      decide +kernel
    have spells : Spells [.descriptor .array 0, .varint [1], .descriptor .int 3, .payload [5, 0, 0, 0]]
        (array [scalar (.int 5) 4]) :=
      .array (by decide) counted rfl (.cons (payload ▸ number) .nil)
    obtain ⟨consumed, passed, -, same, -⟩ := write_decode run
    have length : consumed.length = 7 := by
      have moved := congrArg Cursor.position passed.moved
      rw [position] at moved
      exact (moved.trans (Nat.zero_add _)).symm
    obtain rfl : consumed = [0x1c, 1, 0x64, 5, 0, 0, 0] :=
      (List.prefix_iff_eq_take.mp passed.ahead).trans (by rw [length]; rfl)
    refine ⟨_, after, rfl, rfl, position, same _ spells rfl ?_ []⟩
    simp [Part.Minimal, minimal]

end EncodedValue
end DexImage
