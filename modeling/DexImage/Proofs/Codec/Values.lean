import DexImage.Item.Annotations
import DexImage.Item.EncodedArray
import DexImage.Proofs.Codec.Ids
import DexImage.Proofs.Codec.Scalars
/-! # Encoded values decode back

What is written of a value is read as the value with the widths that it was written with
(`EncodedValue.effective`).
-/

namespace DexImage

namespace EncodedValue

mutual

/-- The value with the widths that it is written with. -/
def effective : EncodedValue → EncodedValue
  | scalar value width => scalar value (scalar value width).width
  | array elements => array (effectiveList elements)
  | annotationBody type elements => annotationBody type (effectiveElements elements)
  | null => null
  | boolean value => boolean value

def effectiveList : List EncodedValue → List EncodedValue
  | [] => []
  | value :: rest => value.effective :: effectiveList rest

def effectiveElements : List (IdRef .stringId × EncodedValue) → List (IdRef .stringId × EncodedValue)
  | [] => []
  | (name, value) :: rest => (name, value.effective) :: effectiveElements rest

end

mutual

/-- Whether the lengths of nested lists fit the counts in front of them. -/
def Counted : EncodedValue → Prop
  | array elements => elements.length < UInt32.size ∧ CountedList elements
  | annotationBody _ elements => elements.length < UInt32.size ∧ CountedElements elements
  | scalar .. | null | boolean _ => True

def CountedList : List EncodedValue → Prop
  | [] => True
  | value :: rest => value.Counted ∧ CountedList rest

def CountedElements : List (IdRef .stringId × EncodedValue) → Prop
  | [] => True
  | (_, value) :: rest => value.Counted ∧ CountedElements rest

end

/-- The descriptor byte tells its kind and its argument. -/
theorem descriptor_spec (kind : ValueKind) {argument : Nat} (small : argument < 8) :
    (descriptor kind argument).toNat / 32 = argument ∧ descriptor kind argument % 32 = kind.code := by
  have code : kind.code.toNat < 32 := by cases kind <;> decide
  have value : (descriptor kind argument).toNat = argument * 32 + kind.code.toNat := by
    rw [descriptor, Nat.toUInt8_eq, UInt8.toNat_ofNat']
    exact Nat.mod_eq_of_lt (by omega)
  refine ⟨by omega, UInt8.toNat_inj.mp ?_⟩
  rw [UInt8.toNat_mod, value]
  change (argument * 32 + kind.code.toNat) % 32 = _
  omega

/-- Whether bytes are read as a value, whatever bounds its nesting. -/
def Decodes (bytes : Bytes) (value : EncodedValue) : Prop :=
  ∀ fuel, bytes.length ≤ fuel → Reads (decodeWithin fuel) bytes value

/-- What is read behind the descriptor byte. -/
def decodeBody (fuel position : Nat) (kind : ValueKind) (argument : Nat) : Decoder EncodedValue :=
  match kind with
  | .array => do
    let count ← Decoder.uleb128
    return array (← Reading.collect count.toNat fun _ => decodeWithin fuel)
  | .annotationBody => do
    let type ← Decoder.uleb128
    let count ← Decoder.uleb128
    let elements ← Reading.collect count.toNat fun _ => do
      let name ← Decoder.uleb128
      return (.of name, ← decodeWithin fuel)
    return annotationBody (.of type) elements
  | .null => return null
  | .boolean => return boolean (argument != 0)
  | kind => do
    let width := argument + 1
    if kind.maxWidth < width then
      Reading.fail (.payloadTooWide kind position width)
    else
      let payload ← Decoder.take width
      return scalar (Scalar.ofPayload kind width payload.toNatLittle) width

/-- The kind of a value is told by the descriptor byte in front of it. -/
theorem decodes_cons {kind : ValueKind} {argument : Nat} (small : argument < 8) {bytes : Bytes}
    {value : EncodedValue}
    (reads : ∀ fuel position, bytes.length ≤ fuel → Reads (decodeBody fuel position kind argument) bytes value) :
    Decodes (descriptor kind argument :: bytes) value := by
  intro fuel enough
  obtain ⟨argumentOf, kindOf⟩ := descriptor_spec kind small
  cases fuel with
  | zero => simp at enough
  | succ fuel =>
    rw [decodeWithin]
    refine Reads.position_bind fun position => (Reads.u1 (descriptor kind argument)).bind ?_
    simp only [argumentOf, kindOf, ValueKind.ofCode?_code]
    have read := reads fuel position (Nat.le_of_succ_le_succ enough)
    cases kind <;> exact read

/-- The width of a scalar is one that its descriptor can tell and its kind allows. -/
theorem width_scalar_spec (value : Scalar) (width : Nat) :
    value.leastWidth ≤ (scalar value width).width ∧ (scalar value width).width ≤ value.kind.maxWidth ∧
      0 < (scalar value width).width ∧ (scalar value width).width ≤ 8 := by
  have least := value.leastWidth_le_maxWidth
  have pos := value.leastWidth_pos
  have eight : value.kind.maxWidth ≤ 8 := by cases value.kind <;> decide
  simp only [EncodedValue.width]
  omega

mutual

@[simp] theorem effective_effective : (value : EncodedValue) → value.effective.effective = value.effective
  | scalar value width => by
    have least := value.leastWidth_le_maxWidth
    simp only [effective, EncodedValue.width, scalar.injEq, true_and]
    omega
  | array elements => by simp only [effective, effectiveList_effectiveList elements]
  | annotationBody type elements => by simp only [effective, effectiveElements_effectiveElements elements]
  | null => rfl
  | boolean _ => rfl

@[simp] theorem effectiveList_effectiveList : (values : List EncodedValue) →
    effectiveList (effectiveList values) = effectiveList values
  | [] => rfl
  | value :: rest => by
    simp only [effectiveList, effective_effective value, effectiveList_effectiveList rest]

@[simp] theorem effectiveElements_effectiveElements : (elements : List (IdRef .stringId × EncodedValue)) →
    effectiveElements (effectiveElements elements) = effectiveElements elements
  | [] => rfl
  | (name, value) :: rest => by
    simp only [effectiveElements, effective_effective value, effectiveElements_effectiveElements rest]

end

theorem length_payload (value : Scalar) (width : Nat) : (value.payload width).length = width := by
  cases value <;> exact Bytes.length_littleEndian _ _

theorem decodes_scalar {value : Scalar} {width : Nat} (present : value.checkReference = .ok ()) :
    Decodes (descriptor value.kind ((scalar value width).width - 1) :: value.payload (scalar value width).width)
      (scalar value (scalar value width).width) := by
  obtain ⟨least, within, pos, eight⟩ := width_scalar_spec value width
  generalize (scalar value width).width = width at *
  have argument : width - 1 + 1 = width := Nat.sub_add_cancel pos
  refine decodes_cons (by omega) fun fuel position _ => ?_
  have body : decodeBody fuel position value.kind (width - 1) = (do
      if value.kind.maxWidth < width then Reading.fail (.payloadTooWide value.kind position width)
      else
        let payload ← Decoder.take width
        return scalar (Scalar.ofPayload value.kind width payload.toNatLittle) width) := by
    cases value <;> (simp only [decodeBody, Scalar.kind, argument]; rfl)
  rw [body, if_neg (Nat.not_lt.mpr within)]
  have take := Reads.take (value.payload width)
  rw [length_payload] at take
  exact take.bind_pure (congrArg (fun value => pure (scalar value width))
    (Scalar.ofPayload_payload present least within))

/-- How the bytes of an element are made up. -/
def DecodesElement (part : Bytes) (element : IdRef .stringId × EncodedValue) : Prop :=
  ∃ index bytes, element.1 = .of index ∧ part = Leb128.encodeUInt32 index ++ bytes ∧ Decodes bytes element.2

/-- Nothing is read from no bytes. -/
theorem Decodes.length_pos {bytes : Bytes} {value : EncodedValue} (decodes : Decodes bytes value) :
    0 < bytes.length := by
  cases bytes with
  | cons => exact Nat.succ_pos _
  | nil =>
    have read := decodes 0 (Nat.le_refl 0) (.ofBytes []) ⟨rfl, Nat.le_refl 0, List.nil_prefix⟩
    cases congrArg Prod.fst read

theorem DecodesElement.length_pos {part : Bytes} {element : IdRef .stringId × EncodedValue}
    (decodes : DecodesElement part element) : 0 < part.length := by
  obtain ⟨index, bytes, -, rfl, -⟩ := decodes
  have pos := Leb128.length_encodeNat_pos index.toNat
  rw [List.length_append]
  exact Nat.lt_of_lt_of_le pos (Nat.le_add_right _ _)

theorem effectiveList_eq (values : List EncodedValue) : effectiveList values = values.map effective := by
  induction values with
  | nil => rfl
  | cons value rest ih => rw [effectiveList, List.map_cons, ih]

theorem effectiveElements_eq (elements : List (IdRef .stringId × EncodedValue)) :
    effectiveElements elements = elements.map fun element => (element.1, element.2.effective) := by
  induction elements with
  | nil => rfl
  | cons element rest ih => rw [effectiveElements, List.map_cons, ih]

theorem length_effectiveList (values : List EncodedValue) : (effectiveList values).length = values.length := by
  rw [effectiveList_eq, List.length_map]

theorem length_effectiveElements (elements : List (IdRef .stringId × EncodedValue)) :
    (effectiveElements elements).length = elements.length := by
  rw [effectiveElements_eq, List.length_map]

/-- An element is read as a name and a value. -/
theorem DecodesElement.reads {part : Bytes} {element : IdRef .stringId × EncodedValue}
    (decodes : DecodesElement part element) {step : Decoder EncodedValue}
    (inner : ∀ bytes, bytes.length ≤ part.length → Decodes bytes element.2 → Reads step bytes element.2) :
    Reads (do
      let name ← Decoder.uleb128
      return (.of name, ← step)) part element := by
  obtain ⟨index, bytes, named, rfl, value⟩ := decodes
  obtain ⟨name, other⟩ := element
  obtain rfl := named
  refine (Reads.uleb128 index).bind ((inner bytes ?_ value).bind_pure rfl)
  rw [List.length_append]
  exact Nat.le_add_left _ _

/-- Parts of which each is known to be no longer than the whole. -/
private theorem bounded {α : Type} {R : Bytes → α → Prop} {parts : List Bytes} {values : List α}
    (each : List.Forall₂ R parts values) :
    List.Forall₂ (fun part value => part.length ≤ parts.flatten.length ∧ R part value) parts values :=
  (List.forall₂_and_left _ _).mpr ⟨fun _ member => (List.sublist_flatten_of_mem member).length_le, each⟩

/-- A counted run of values. -/
theorem reads_values {parts : List Bytes} {values : List EncodedValue} (each : List.Forall₂ Decodes parts values)
    {step : Decoder EncodedValue} (inner : ∀ bytes value, bytes.length ≤ parts.flatten.length →
      Decodes bytes value → Reads step bytes value) :
    Reads (Reading.collect values.length fun _ => step) parts.flatten values :=
  Reads.collect ((bounded each).imp fun part value ⟨short, decodes⟩ _ => inner part value short decodes)

/-- A counted run of elements. -/
theorem reads_elements {parts : List Bytes} {elements : List (IdRef .stringId × EncodedValue)}
    (each : List.Forall₂ DecodesElement parts elements) {step : Decoder EncodedValue}
    (inner : ∀ bytes value, bytes.length ≤ parts.flatten.length → Decodes bytes value → Reads step bytes value) :
    Reads (Reading.collect elements.length fun _ => do
      let name ← Decoder.uleb128
      return (.of name, ← step)) parts.flatten elements :=
  Reads.collect ((bounded each).imp fun _ element ⟨short, decodes⟩ _ =>
    decodes.reads fun bytes less => inner bytes element.2 (Nat.le_trans less short))

mutual

theorem decodes_encode : (value : EncodedValue) → {bytes : Bytes} → value.encode = .ok bytes → value.Counted →
    Decodes bytes value.effective
  | scalar value width, bytes, success, _ => by
    rw [encode] at success
    obtain ⟨_, present, same⟩ := Result.bind_eq_ok.mp success
    obtain rfl := Except.ok.inj same
    exact decodes_scalar present
  | array elements, bytes, success, counted => by
    rw [encode] at success
    obtain ⟨others, inner, same⟩ := Result.bind_eq_ok.mp success
    obtain rfl := Except.ok.inj same
    rw [Counted] at counted
    obtain ⟨few, counted⟩ := counted
    obtain ⟨parts, rfl, each⟩ := decodes_encodeList elements inner counted
    rw [List.cons_append]
    refine decodes_cons (by decide) fun fuel _ enough => ?_
    rw [List.length_append] at enough
    refine Reads.varCount few fun read count => ?_
    rw [count, ← length_effectiveList]
    exact (reads_values each fun _ _ short decodes => decodes fuel (by omega)).bind_pure rfl
  | annotationBody type elements, bytes, success, counted => by
    rw [encode] at success
    obtain ⟨index, required, success⟩ := Result.bind_eq_ok.mp success
    obtain ⟨others, inner, same⟩ := Result.bind_eq_ok.mp success
    obtain rfl := Except.ok.inj same
    rw [Counted] at counted
    obtain ⟨few, counted⟩ := counted
    obtain ⟨parts, rfl, each⟩ := decodes_encodeElements elements inner counted
    rw [IdRef.eq_of_required required, List.cons_append, List.cons_append, List.append_assoc]
    refine decodes_cons (by decide) fun fuel _ enough => ?_
    simp only [List.length_append] at enough
    refine (Reads.uleb128 index).bind (Reads.varCount few fun read count => ?_)
    rw [count, ← length_effectiveElements]
    exact (reads_elements each fun _ _ short decodes => decodes fuel (by omega)).bind_pure rfl
  | null, bytes, success, _ => by
    obtain rfl := Except.ok.inj success
    exact decodes_cons (by decide) fun _ _ _ => Reads.pure null
  | boolean value, bytes, success, _ => by
    obtain rfl := Except.ok.inj success
    cases value <;> exact decodes_cons (by decide) fun _ _ _ => Reads.pure _

theorem decodes_encodeList : (values : List EncodedValue) → {bytes : Bytes} → encodeList values = .ok bytes →
    CountedList values → ∃ parts : List Bytes, bytes = parts.flatten ∧
      List.Forall₂ Decodes parts (effectiveList values)
  | [], bytes, success, _ => ⟨[], (Except.ok.inj success).symm, .nil⟩
  | value :: rest, bytes, success, counted => by
    rw [encodeList] at success
    obtain ⟨first, head, success⟩ := Result.bind_eq_ok.mp success
    obtain ⟨others, tail, same⟩ := Result.bind_eq_ok.mp success
    obtain rfl := Except.ok.inj same
    rw [CountedList] at counted
    obtain ⟨parts, rfl, each⟩ := decodes_encodeList rest tail counted.2
    exact ⟨first :: parts, rfl, .cons (decodes_encode value head counted.1) each⟩

theorem decodes_encodeElements : (elements : List (IdRef .stringId × EncodedValue)) → {bytes : Bytes} →
    encodeElements elements = .ok bytes → CountedElements elements → ∃ parts : List Bytes,
      bytes = parts.flatten ∧ List.Forall₂ DecodesElement parts (effectiveElements elements)
  | [], bytes, success, _ => ⟨[], (Except.ok.inj success).symm, .nil⟩
  | (name, value) :: rest, bytes, success, counted => by
    rw [encodeElements] at success
    obtain ⟨index, required, success⟩ := Result.bind_eq_ok.mp success
    obtain ⟨first, head, success⟩ := Result.bind_eq_ok.mp success
    obtain ⟨others, tail, same⟩ := Result.bind_eq_ok.mp success
    obtain rfl := Except.ok.inj same
    rw [CountedElements] at counted
    obtain ⟨parts, rfl, each⟩ := decodes_encodeElements rest tail counted.2
    have element : DecodesElement (Leb128.encodeUInt32 index ++ first) (name, value.effective) :=
      ⟨index, first, IdRef.eq_of_required required, rfl, decodes_encode value head counted.1⟩
    exact ⟨_ :: parts, rfl, .cons element each⟩

end

/-- A value takes at least a byte. -/
theorem length_encode_pos {value : EncodedValue} {bytes : Bytes} (success : value.encode = .ok bytes) :
    0 < bytes.length := by
  cases value with
  | scalar value width =>
    rw [encode] at success
    obtain ⟨_, -, same⟩ := Result.bind_eq_ok.mp success
    obtain rfl := Except.ok.inj same
    exact Nat.succ_pos _
  | array elements =>
    rw [encode] at success
    obtain ⟨_, -, same⟩ := Result.bind_eq_ok.mp success
    obtain rfl := Except.ok.inj same
    exact Nat.succ_pos _
  | annotationBody type elements =>
    rw [encode] at success
    obtain ⟨_, -, success⟩ := Result.bind_eq_ok.mp success
    obtain ⟨_, -, same⟩ := Result.bind_eq_ok.mp success
    obtain rfl := Except.ok.inj same
    exact Nat.succ_pos _
  | null | boolean =>
    obtain rfl := Except.ok.inj success
    exact Nat.succ_pos _

mutual

/-- Lists are no longer than what is written of them. -/
theorem counted_of_encode : (value : EncodedValue) → {bytes : Bytes} → value.encode = .ok bytes →
    bytes.length < UInt32.size → value.Counted
  | array elements, bytes, success, small => by
    rw [encode] at success
    obtain ⟨others, inner, same⟩ := Result.bind_eq_ok.mp success
    obtain rfl := Except.ok.inj same
    simp only [List.cons_append, List.length_cons, List.length_append] at small
    obtain ⟨few, counted⟩ := countedList_of_encode elements inner (by omega)
    rw [Counted]
    exact ⟨by omega, counted⟩
  | annotationBody type elements, bytes, success, small => by
    rw [encode] at success
    obtain ⟨index, -, success⟩ := Result.bind_eq_ok.mp success
    obtain ⟨others, inner, same⟩ := Result.bind_eq_ok.mp success
    obtain rfl := Except.ok.inj same
    simp only [List.cons_append, List.length_cons, List.length_append] at small
    obtain ⟨few, counted⟩ := countedElements_of_encode elements inner (by omega)
    rw [Counted]
    exact ⟨by omega, counted⟩
  | scalar .., _, _, _ => trivial
  | null, _, _, _ => trivial
  | boolean _, _, _, _ => trivial

theorem countedList_of_encode : (values : List EncodedValue) → {bytes : Bytes} → encodeList values = .ok bytes →
    bytes.length < UInt32.size → values.length ≤ bytes.length ∧ CountedList values
  | [], _, _, _ => ⟨Nat.zero_le _, trivial⟩
  | value :: rest, bytes, success, small => by
    rw [encodeList] at success
    obtain ⟨first, head, success⟩ := Result.bind_eq_ok.mp success
    obtain ⟨others, tail, same⟩ := Result.bind_eq_ok.mp success
    obtain rfl := Except.ok.inj same
    rw [List.length_append] at small
    have pos := length_encode_pos head
    obtain ⟨few, counted⟩ := countedList_of_encode rest tail (by omega)
    rw [CountedList, List.length_cons, List.length_append]
    exact ⟨by omega, counted_of_encode value head (by omega), counted⟩

theorem countedElements_of_encode : (elements : List (IdRef .stringId × EncodedValue)) → {bytes : Bytes} →
    encodeElements elements = .ok bytes → bytes.length < UInt32.size →
      elements.length ≤ bytes.length ∧ CountedElements elements
  | [], _, _, _ => ⟨Nat.zero_le _, trivial⟩
  | (name, value) :: rest, bytes, success, small => by
    rw [encodeElements] at success
    obtain ⟨index, -, success⟩ := Result.bind_eq_ok.mp success
    obtain ⟨first, head, success⟩ := Result.bind_eq_ok.mp success
    obtain ⟨others, tail, same⟩ := Result.bind_eq_ok.mp success
    obtain rfl := Except.ok.inj same
    simp only [List.length_append] at small
    have pos := length_encode_pos head
    obtain ⟨few, counted⟩ := countedElements_of_encode rest tail (by omega)
    rw [CountedElements, List.length_cons, List.length_append, List.length_append]
    exact ⟨by omega, counted_of_encode value head (by omega), counted⟩

end

/-- A value is read with as much nesting as there are bytes. -/
theorem Decodes.reads {bytes : Bytes} {value : EncodedValue} (decodes : Decodes bytes value) :
    Reads decode bytes value :=
  Reads.remaining_bind decodes

end EncodedValue

open EncodedValue

/-- The body with the widths that its values are written with. -/
def AnnotationBody.effective (body : AnnotationBody) : AnnotationBody :=
  { body with elements := effectiveElements body.elements }

def AnnotationBody.Counted (body : AnnotationBody) : Prop :=
  body.elements.length < UInt32.size ∧ CountedElements body.elements

theorem AnnotationBody.counted_of_encode {body : AnnotationBody} {bytes : Bytes} (success : encode body = .ok bytes)
    (small : bytes.length < UInt32.size) : body.Counted := by
  obtain ⟨index, -, success⟩ := Result.bind_eq_ok.mp success
  obtain ⟨others, inner, same⟩ := Result.bind_eq_ok.mp success
  obtain rfl := Except.ok.inj same
  simp only [List.length_append] at small
  obtain ⟨few, counted⟩ := countedElements_of_encode body.elements inner (by omega)
  exact ⟨by omega, counted⟩

theorem AnnotationBody.reads_encode {body : AnnotationBody} {bytes : Bytes} (success : encode body = .ok bytes)
    (counted : body.Counted) : Reads decode bytes body.effective := by
  obtain ⟨type, elements⟩ := body
  obtain ⟨index, required, success⟩ := Result.bind_eq_ok.mp success
  obtain ⟨others, inner, same⟩ := Result.bind_eq_ok.mp success
  obtain rfl := Except.ok.inj same
  obtain ⟨parts, rfl, each⟩ := decodes_encodeElements elements inner counted.2
  obtain rfl := IdRef.eq_of_required required
  rw [List.append_assoc]
  refine (Reads.uleb128 index).bind (@Reads.varCount _ _ elements.length _ _ counted.1 fun read count => ?_)
  rw [count, ← length_effectiveElements]
  exact (reads_elements each fun _ _ _ decodes => decodes.reads).bind_pure rfl

/-- The annotation with the widths that its values are written with. -/
def AnnotationItem.effective (item : AnnotationItem) : AnnotationItem := { item with body := item.body.effective }

theorem AnnotationItem.counted_of_encode {item : AnnotationItem} {bytes : Bytes} (success : encode item = .ok bytes)
    (small : bytes.length < UInt32.size) : item.body.Counted := by
  obtain ⟨others, inner, same⟩ := Result.bind_eq_ok.mp success
  obtain rfl := Except.ok.inj same
  exact AnnotationBody.counted_of_encode inner (Nat.lt_of_succ_lt small)

theorem AnnotationItem.reads_encode {item : AnnotationItem} {bytes : Bytes} (success : encode item = .ok bytes)
    (counted : item.body.Counted) (named : .ofCode item.visibility.code = item.visibility) :
    Reads decode bytes item.effective := by
  obtain ⟨others, inner, same⟩ := Result.bind_eq_ok.mp success
  obtain rfl := Except.ok.inj same
  refine (Reads.u1 item.visibility.code).bind ((AnnotationBody.reads_encode inner counted).bind_pure ?_)
  rw [named]
  rfl

/-- The array with the widths that its values are written with and nulls for placeholders, as one that has
just been read. -/
def EncodedArray.effective (array : EncodedArray) : EncodedArray :=
  ⟨.ofList (array.slots.items.map fun slot => some (slot.getD .null).effective)⟩

structure EncodedArray.Counted (array : EncodedArray) : Prop where
  few : array.slots.items.length < UInt32.size
  each : ∀ slot ∈ array.slots.items, (slot.getD .null).Counted

theorem EncodedArray.counted_of_encode {array : EncodedArray} {bytes : Bytes} (success : encode array = .ok bytes)
    (small : bytes.length < UInt32.size) : array.Counted := by
  obtain ⟨others, inner, same⟩ := Result.bind_eq_ok.mp success
  obtain rfl := Except.ok.inj same
  rw [List.length_append] at small
  obtain ⟨parts, parted, rfl⟩ := encodeAll_eq_ok inner
  have few := length_le_flatten parted.flip fun part slot success => @length_encode_pos (slot.getD .null) part success
  refine ⟨by omega, fun slot member => ?_⟩
  obtain ⟨part, there, success⟩ := parted.exists_of_mem_left member
  have short := (List.sublist_flatten_of_mem there).length_le
  exact EncodedValue.counted_of_encode (slot.getD .null) success (by omega)

theorem EncodedArray.reads_encode {array : EncodedArray} {bytes : Bytes} (success : encode array = .ok bytes)
    (counted : array.Counted) : Reads decode bytes array.effective := by
  obtain ⟨⟨slots, dirty⟩⟩ := array
  obtain ⟨others, inner, same⟩ := Result.bind_eq_ok.mp success
  obtain rfl := Except.ok.inj same
  obtain ⟨parts, parted, rfl⟩ := encodeAll_eq_ok inner
  have each : List.Forall₂ Decodes parts (slots.map fun slot => (slot.getD .null).effective) := by
    rw [List.forall₂_map_right_iff]
    refine List.Forall₂.of_getElem? parted.length_eq.symm fun position part found => ?_
    obtain ⟨slot, there, success⟩ := parted.flip.getElem?_left found
    exact ⟨slot, there, decodes_encode (slot.getD .null) success (counted.each slot (List.mem_of_getElem? there))⟩
  refine @Reads.varCount _ _ slots.length _ _ counted.few fun read count => ?_
  rw [count]
  have collected := Reads.collect (each.imp fun part value decodes index =>
    decodes.reads.within (.nth "element" index))
  rw [List.length_map] at collected
  refine collected.bind_pure ?_
  simp [EncodedArray.effective, Function.comp_def]

end DexImage
