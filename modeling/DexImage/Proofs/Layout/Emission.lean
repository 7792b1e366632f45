import DexImage.Proofs.Codec.Headers
import DexImage.Proofs.Layout.Planning
/-! # Images that are written as planned

Every section is written where the plan placed it, one item behind the other (`Layout.Emitted`). The
digests that are stored last overwrite nothing but their own fields.
-/

namespace DexImage

namespace Bytes

/-- Whether some bytes stand at an offset of an image. -/
structure HasAt (image : Bytes) (offset : Nat) (part : Bytes) : Prop where
  inside : offset ≤ image.length
  ahead : part <+: image.drop offset

variable {image longer first second part : Bytes} {offset : Nat}

theorem HasAt.length_le (there : image.HasAt offset part) : offset + part.length ≤ image.length := by
  have inside := there.inside
  have length := there.ahead.length_le
  rw [List.length_drop] at length
  omega

theorem HasAt.append (there : image.HasAt offset first) (next : image.HasAt (offset + first.length) second) :
    image.HasAt offset (first ++ second) := by
  obtain ⟨tail, ahead⟩ := there.ahead
  obtain ⟨rest, behind⟩ := next.ahead
  refine ⟨there.inside, rest, ?_⟩
  rw [← List.drop_drop, ← ahead, List.drop_left] at behind
  rw [List.append_assoc, behind, ahead]

theorem HasAt.mono (there : image.HasAt offset part) (grows : image <+: longer) : longer.HasAt offset part := by
  obtain ⟨tail, rfl⟩ := grows
  refine ⟨Nat.le_trans there.inside (by simp), ?_⟩
  rw [List.drop_append_of_le_length there.inside]
  exact there.ahead.trans (List.prefix_append _ _)

/-- What is appended stands where the image ended. -/
theorem hasAt_append (image part : Bytes) : (image ++ part).HasAt image.length part :=
  ⟨by simp, by simp⟩

/-- What stands behind a patch stays. -/
theorem HasAt.overwrite {start : Nat} {patch : Bytes} (there : image.HasAt offset part)
    (behind : start + patch.length ≤ offset) : (image.overwrite start patch).HasAt offset part := by
  have inside := there.inside
  refine ⟨by rwa [length_overwrite], ?_⟩
  have front : (image.take start ++ patch.take (image.length - start)).length = start + patch.length := by
    simp only [List.length_append, List.length_take]
    omega
  rw [Bytes.overwrite, List.drop_append, front, List.drop_eq_nil_of_le (by omega), List.nil_append, List.drop_drop,
    Nat.add_sub_cancel' behind]
  exact there.ahead

theorem overwrite_append {front old tail patch : Bytes} (length : patch.length = old.length) :
    (front ++ (old ++ tail)).overwrite front.length patch = front ++ (patch ++ tail) := by
  have fits : patch.length ≤ (front ++ (old ++ tail)).length - front.length := by
    simp only [List.length_append]
    omega
  rw [Bytes.overwrite, List.take_left, List.take_of_length_le fits, ← List.drop_drop, List.drop_left, length,
    List.drop_left, List.append_assoc]

/-- A cursor over the image can stand at the offset. -/
theorem HasAt.le_size {cursor : Cursor} (there : image.HasAt offset part) (bytes : cursor.bytes.toList = image) :
    offset ≤ cursor.bytes.size := by
  rw [← Array.length_toList, bytes]
  exact there.inside

/-- What lies ahead of a cursor that stands at an offset. -/
theorem HasAt.ahead_of {cursor : Cursor} (there : image.HasAt offset part) (bytes : cursor.bytes.toList = image)
    (littleEndian : cursor.bigEndian = false) (position : cursor.position = offset) : cursor.Ahead part where
  littleEndian := littleEndian
  inside := position ▸ there.le_size bytes
  ahead := by
    rw [Cursor.rest, position, bytes]
    exact there.ahead

end Bytes

namespace Layout

/-- An image with further parts, each at the next multiple of `alignment`. -/
def laid (alignment : Nat) : Bytes → List Bytes → Bytes
  | image, [] => image
  | image, part :: rest => laid alignment (image ++ Bytes.zeros (Bytes.padding image.length alignment) ++ part) rest

theorem prefix_laid (alignment : Nat) (image : Bytes) (parts : List Bytes) : image <+: laid alignment image parts := by
  induction parts generalizing image with
  | nil => exact List.prefix_rfl
  | cons part rest ih =>
    refine List.IsPrefix.trans ?_ (ih _)
    rw [List.append_assoc]
    exact List.prefix_append _ _

theorem length_laid (alignment : Nat) (image : Bytes) (parts : List Bytes) :
    (laid alignment image parts).length = behind alignment image.length (parts.map List.length) := by
  induction parts generalizing image with
  | nil => rfl
  | cons part rest ih =>
    rw [laid, ih, List.map_cons, behind, List.length_append, List.length_append, Bytes.zeros, List.length_replicate]

/-- Every part stands where an item of its size is placed. -/
theorem hasAt_laid (alignment : Nat) (image : Bytes) (parts : List Bytes) :
    List.Forall₂ (fun part start => (laid alignment image parts).HasAt start part) parts
      (starts alignment image.length (parts.map List.length)) := by
  induction parts generalizing image with
  | nil => exact .nil
  | cons part rest ih =>
    have length : (image ++ Bytes.zeros (Bytes.padding image.length alignment)).length =
        image.length + Bytes.padding image.length alignment := by
      rw [List.length_append, Bytes.zeros, List.length_replicate]
    have others := ih (image ++ Bytes.zeros (Bytes.padding image.length alignment) ++ part)
    rw [List.length_append, length] at others
    refine .cons ?_ others
    have first := Bytes.hasAt_append (image ++ Bytes.zeros (Bytes.padding image.length alignment)) part
    rw [length] at first
    exact first.mono (prefix_laid _ _ _)

/-- Parts that take multiples of the alignment stand one behind the other. -/
theorem hasAt_flatten {alignment offset : Nat} {image : Bytes} {parts : List Bytes} (inside : offset ≤ image.length)
    (aligned : alignment ∣ offset) (each : ∀ part ∈ parts, alignment ∣ part.length)
    (there : List.Forall₂ (fun part start => image.HasAt start part) parts
      (starts alignment offset (parts.map List.length))) : image.HasAt offset parts.flatten := by
  induction parts generalizing offset with
  | nil => exact ⟨inside, List.nil_prefix⟩
  | cons part rest ih =>
    obtain ⟨first, others⟩ := List.forall_mem_cons.mp each
    rw [List.map_cons, starts, padding_of_dvd aligned, Nat.add_zero] at there
    obtain ⟨head, tail⟩ := List.forall₂_cons.mp there
    exact head.append (ih head.length_le (Nat.dvd_add aligned first) others tail)

/-- Nothing separates parts that take multiples of the alignment. -/
theorem laid_eq_append {alignment : Nat} {image : Bytes} {parts : List Bytes} (aligned : alignment ∣ image.length)
    (each : ∀ part ∈ parts, alignment ∣ part.length) : laid alignment image parts = image ++ parts.flatten := by
  induction parts generalizing image with
  | nil => rw [laid, List.flatten_nil, List.append_nil]
  | cons part rest ih =>
    obtain ⟨first, others⟩ := List.forall_mem_cons.mp each
    have none : image ++ Bytes.zeros (Bytes.padding image.length alignment) ++ part = image ++ part := by
      rw [padding_of_dvd aligned, Bytes.zeros, List.replicate_zero, List.append_nil]
    rw [laid, none, ih (by rw [List.length_append]; exact Nat.dvd_add aligned first) others, List.flatten_cons,
      List.append_assoc]

theorem toList_pad (image : Array UInt8) (alignment : Nat) :
    (pad image alignment).toList = image.toList ++ Bytes.zeros (Bytes.padding image.toList.length alignment) := by
  simp [pad]

theorem emitItems_eq_ok {pools : Pools} {kind : SectionKind} {count : Nat} {index : UInt32}
    {image result : Array UInt8} (success : emitItems pools kind count index image = .ok result) :
    ∃ parts : List Bytes, parts.length = count ∧ result.toList = laid kind.alignment image.toList parts ∧
      ∀ (position : Nat) part, parts[position]? = some part →
        pools.encodeItem kind (index + position.toUInt32) = .ok part := by
  induction count generalizing index image with
  | zero =>
    obtain rfl := Except.ok.inj success
    exact ⟨[], rfl, rfl, by simp⟩
  | succ count ih =>
    obtain ⟨part, first, success⟩ := Result.bind_eq_ok.mp success
    obtain ⟨parts, length, same, each⟩ := ih success
    refine ⟨part :: parts, by rw [List.length_cons, length], ?_, ?_⟩
    · rw [same, laid, ← toList_pad, Array.toList_appendList]
    · intro position other found
      cases position with
      | zero =>
        obtain rfl := Option.some.inj found
        rw [← first]
        congr 1
        exact UInt32.add_zero index
      | succ position =>
        rw [← each position other found]
        congr 1
        rw [UInt32.add_assoc]
        congr 1
        rw [← UInt32.toNat_inj]
        simp [Nat.add_comm]

theorem dvd_length_pad (image : Array UInt8) (kind : SectionKind) :
    kind.alignment ∣ (pad image kind.alignment).toList.length := by
  rw [toList_pad, List.length_append, Bytes.zeros, List.length_replicate]
  refine dvd_add_padding ?_ _
  cases kind <;> decide

theorem foldl_append_words (offsets : List UInt32) (image : Array UInt8) :
    offsets.foldl (fun (image : Array UInt8) offset => image ++ Bytes.ofUInt32 offset) image =
      image ++ offsets.flatMap Bytes.ofUInt32 := by
  induction offsets generalizing image with
  | nil => simp
  | cons offset rest ih =>
    rw [List.foldl_cons, ih, List.flatMap_cons]
    apply Array.toList_inj.mp
    simp

/-- What is written of the item at a position of a section. The table of string ids holds the offsets of the
strings. -/
def encodePart (header : Header) (pools : Pools) (layout : Layout) (kind : SectionKind) (position : Nat) :
    Result Bytes :=
  match kind with
  | .header => encode header
  | .mapList => encode layout.map
  | .stringId => .ok (Bytes.ofUInt32 ((layout.offsets.row .stringData).getD position 0))
  | kind => pools.encodeItem kind position.toUInt32

/-- How many items are written of the section of a map entry. -/
def partCount (layout : Layout) (entry : MapEntry) : Nat :=
  match entry.kind with
  | .header | .mapList => 1
  | .stringId => (layout.offsets.row .stringData).size
  | _ => entry.size.toNat

/-- The items of the section of a map entry, as they are written. -/
structure WrittenParts (header : Header) (pools : Pools) (layout : Layout) (entry : MapEntry) (parts : List Bytes) :
    Prop where
  length : parts.length = partCount layout entry
  encoded : ∀ (position : Nat) part, parts[position]? = some part →
    encodePart header pools layout entry.kind position = .ok part

theorem WrittenParts.single {header : Header} {pools : Pools} {layout : Layout} {entry : MapEntry} {bytes : Bytes}
    (encoded : encodePart header pools layout entry.kind 0 = .ok bytes) (one : partCount layout entry = 1) :
    WrittenParts header pools layout entry [bytes] where
  length := one.symm
  encoded position part found := by
    cases position with
    | zero => exact encoded.trans (congrArg _ (Option.some.inj found))
    | succ => cases found

/-- Most sections hold the items of their pools. -/
theorem encodePart_eq {kind : SectionKind} (notHeader : kind ≠ .header) (notMap : kind ≠ .mapList)
    (notStrings : kind ≠ .stringId) (header : Header) (pools : Pools) (layout : Layout) (position : Nat) :
    encodePart header pools layout kind position = pools.encodeItem kind position.toUInt32 := by
  cases kind <;> first | contradiction | rfl

theorem partCount_eq {entry : MapEntry} (notHeader : entry.kind ≠ .header) (notMap : entry.kind ≠ .mapList)
    (notStrings : entry.kind ≠ .stringId) (layout : Layout) : partCount layout entry = entry.size.toNat := by
  obtain ⟨kind, size, offset⟩ := entry
  cases kind <;> first | contradiction | rfl

/-- Only the header's own section depends on the header. -/
theorem encodePart_of_ne {kind : SectionKind} (notHeader : kind ≠ .header) (header other : Header) (pools : Pools)
    (layout : Layout) (position : Nat) :
    encodePart header pools layout kind position = encodePart other pools layout kind position := by
  cases kind <;> first | contradiction | rfl

/-- How the section of a map entry stands in an image. -/
structure EmittedSection (header : Header) (pools : Pools) (layout : Layout) (image : Bytes) (entry : MapEntry) :
    Prop where
  aligned : entry.kind.alignment ∣ entry.offset.toNat
  inside : entry.offset.toNat ≤ image.length
  parts : ∃ parts, WrittenParts header pools layout entry parts ∧
    List.Forall₂ (fun part start => image.HasAt start part) parts
      (starts entry.kind.alignment entry.offset.toNat (parts.map List.length))

/-- An image that is written as planned. -/
structure Emitted (header : Header) (pools : Pools) (layout : Layout) (image : Bytes) : Prop where
  length : image.length = layout.fileSize.toNat
  sections : ∀ entry ∈ layout.map.entries, EmittedSection header pools layout image entry

variable {header : Header} {pools : Pools} {layout : Layout} {entry : MapEntry} {image longer : Bytes}

theorem EmittedSection.mono (emitted : EmittedSection header pools layout image entry) (grows : image <+: longer) :
    EmittedSection header pools layout longer entry where
  aligned := emitted.aligned
  inside := Nat.le_trans emitted.inside grows.length_le
  parts := by
    obtain ⟨parts, written, there⟩ := emitted.parts
    exact ⟨parts, written, there.imp fun _ _ there => there.mono grows⟩

/-- The one item of a section that has no pool. -/
theorem EmittedSection.single (emitted : EmittedSection header pools layout image entry)
    (one : partCount layout entry = 1) :
    ∃ bytes, encodePart header pools layout entry.kind 0 = .ok bytes ∧ image.HasAt entry.offset.toNat bytes := by
  obtain ⟨parts, ⟨length, encoded⟩, there⟩ := emitted.parts
  obtain ⟨part, rfl⟩ := List.length_eq_one_iff.mp (length.trans one)
  rw [List.map_singleton, starts, starts, padding_of_dvd emitted.aligned] at there
  exact ⟨part, encoded 0 part rfl, (List.forall₂_cons.mp there).1⟩

/-- The table of string ids holds the offsets of the strings. -/
theorem EmittedSection.words (emitted : EmittedSection header pools layout image entry)
    (strings : entry.kind = .stringId) :
    image.HasAt entry.offset.toNat ((layout.offsets.row .stringData).toList.flatMap Bytes.ofUInt32) := by
  obtain ⟨parts, ⟨length, encoded⟩, there⟩ := emitted.parts
  have same : parts = (layout.offsets.row .stringData).toList.map Bytes.ofUInt32 := by
    have length : parts.length = (layout.offsets.row .stringData).size := by rw [length, partCount, strings]
    refine List.ext_getElem (by rw [length, List.length_map, Array.length_toList]) fun position here beyond => ?_
    have word := encoded position _ (List.getElem?_eq_getElem here)
    rw [strings] at word
    obtain same := Except.ok.inj word
    rw [List.getElem_map, ← same, Array.getElem_toList, Array.getD,
      dif_pos (length ▸ here), Array.getInternal_eq_getElem]
  rw [List.flatMap_def, ← same]
  refine hasAt_flatten emitted.inside emitted.aligned (fun part member => ?_) there
  rw [same] at member
  obtain ⟨offset, -, rfl⟩ := List.mem_map.mp member
  exact ⟨1, by rw [strings]; exact Bytes.length_littleEndian _ _⟩

/-- Appends the items of a section to an image that has been filled up to where they lie. -/
def appendSection (header : Header) (pools : Pools) (layout : Layout) (entry : MapEntry) (image : Array UInt8) :
    Result (Array UInt8) :=
  match entry.kind with
  | .header => do return image ++ (← encode header)
  | .mapList => do return image ++ (← encode layout.map)
  | .stringId =>
    .ok ((layout.offsets.row .stringData).foldl (fun image offset => image ++ Bytes.ofUInt32 offset) image)
  | kind => emitItems pools kind entry.size.toNat 0 image

section Sections

variable {before after : Array UInt8}

theorem emitSection_of_reached (reached : (pad before entry.kind.alignment).size = entry.offset.toNat) :
    emitSection header pools layout entry before =
      appendSection header pools layout entry (pad before entry.kind.alignment) := by
  rw [emitSection]
  exact if_neg (not_not.mpr reached)

theorem emitSection_of_missed (missed : (pad before entry.kind.alignment).size ≠ entry.offset.toNat) :
    emitSection header pools layout entry before =
      .error (Fault.of (.sectionMisplaced entry.kind entry.offset.toNat (pad before entry.kind.alignment).size)) := by
  rw [emitSection]
  exact if_pos missed

private theorem appended_item {bytes : Bytes} (aligned : entry.kind.alignment ∣ before.toList.length)
    (encoded : encodePart header pools layout entry.kind 0 = .ok bytes) (one : partCount layout entry = 1) :
    ∃ parts, WrittenParts header pools layout entry parts ∧
      (before ++ bytes).toList = laid entry.kind.alignment before.toList parts := by
  refine ⟨[bytes], .single encoded one, ?_⟩
  rw [Array.toList_appendList, laid, padding_of_dvd aligned, Bytes.zeros, List.replicate_zero, List.append_nil, laid]

private theorem appended_words (aligned : entry.kind.alignment ∣ before.toList.length)
    (strings : entry.kind = .stringId) :
    ∃ parts, WrittenParts header pools layout entry parts ∧
      ((layout.offsets.row .stringData).foldl (fun (image : Array UInt8) offset => image ++ Bytes.ofUInt32 offset)
        before).toList = laid entry.kind.alignment before.toList parts := by
  refine ⟨(layout.offsets.row .stringData).toList.map Bytes.ofUInt32, ⟨by simp [partCount, strings], ?_⟩, ?_⟩
  · intro position part found
    rw [List.getElem?_map] at found
    obtain ⟨offset, there, rfl⟩ := Option.map_eq_some_iff.mp found
    rw [Array.getElem?_toList] at there
    simp only [strings, encodePart, Array.getD_eq_getD_getElem?, there, Option.getD_some]
  · rw [laid_eq_append aligned fun part member => ?_, ← Array.foldl_toList, foldl_append_words]
    · simp [List.flatMap_def]
    · obtain ⟨offset, -, rfl⟩ := List.mem_map.mp member
      exact ⟨1, by rw [strings]; exact Bytes.length_littleEndian _ _⟩

private theorem appended_items (success : emitItems pools entry.kind entry.size.toNat 0 before = .ok after)
    (notHeader : entry.kind ≠ .header) (notMap : entry.kind ≠ .mapList) (notStrings : entry.kind ≠ .stringId) :
    ∃ parts, WrittenParts header pools layout entry parts ∧
      after.toList = laid entry.kind.alignment before.toList parts := by
  obtain ⟨parts, length, same, encoded⟩ := emitItems_eq_ok success
  refine ⟨parts,
    ⟨length.trans (partCount_eq notHeader notMap notStrings layout).symm, fun position part found => ?_⟩, same⟩
  rw [encodePart_eq notHeader notMap notStrings, ← encoded position part found, UInt32.zero_add]

/-- Appending a section to an image appends its items, each at the next multiple of the alignment. -/
theorem emitSection_eq_ok (success : emitSection header pools layout entry before = .ok after) :
    (pad before entry.kind.alignment).toList.length = entry.offset.toNat ∧
      ∃ parts, WrittenParts header pools layout entry parts ∧
        after.toList = laid entry.kind.alignment (pad before entry.kind.alignment).toList parts := by
  by_cases reached : (pad before entry.kind.alignment).size = entry.offset.toNat
  · rw [emitSection_of_reached reached] at success
    refine ⟨Array.length_toList.trans reached, ?_⟩
    have aligned := dvd_length_pad before entry.kind
    generalize pad before entry.kind.alignment = padded at success aligned
    obtain ⟨kind, size, offset⟩ := entry
    cases kind with
    | header =>
      obtain ⟨bytes, encoded, rfl⟩ := Result.map_eq_ok.mp success
      exact appended_item aligned encoded rfl
    | mapList =>
      obtain ⟨bytes, encoded, rfl⟩ := Result.map_eq_ok.mp success
      exact appended_item aligned encoded rfl
    | stringId =>
      obtain rfl := Except.ok.inj success
      exact appended_words aligned rfl
    | _ => exact appended_items success (by rintro ⟨⟩) (by rintro ⟨⟩) (by rintro ⟨⟩)
  · rw [emitSection_of_missed reached] at success
    cases success

end Sections

theorem emitSection_spec {before after : Array UInt8}
    (success : emitSection header pools layout entry before = .ok after) :
    before.toList <+: after.toList ∧ EmittedSection header pools layout after.toList entry := by
  obtain ⟨length, parts, written, same⟩ := emitSection_eq_ok success
  have aligned := dvd_length_pad before entry.kind
  have grows := prefix_laid entry.kind.alignment (pad before entry.kind.alignment).toList parts
  have there := hasAt_laid entry.kind.alignment (pad before entry.kind.alignment).toList parts
  rw [length] at there aligned
  rw [same]
  refine ⟨List.IsPrefix.trans ?_ grows, aligned, length ▸ grows.length_le, parts, written, there⟩
  rw [toList_pad]
  exact List.prefix_append _ _

theorem emitSections_spec {entries : List MapEntry} {before after : Array UInt8}
    (success : emitSections header pools layout entries before = .ok after) :
    before.toList <+: after.toList ∧ ∀ entry ∈ entries, EmittedSection header pools layout after.toList entry := by
  induction entries generalizing before with
  | nil =>
    obtain rfl := Except.ok.inj success
    exact ⟨List.prefix_rfl, by simp⟩
  | cons entry rest ih =>
    obtain ⟨between, first, others⟩ := Result.bind_eq_ok.mp success
    obtain ⟨grows, emitted⟩ := emitSection_spec first
    obtain ⟨grows', each⟩ := ih others
    exact ⟨grows.trans grows', List.forall_mem_cons.mpr ⟨emitted.mono grows', each⟩⟩

theorem emit_spec (success : emit header pools layout = .ok image) : Emitted header pools layout image := by
  obtain ⟨written, sections, success⟩ := Result.bind_eq_ok.mp success
  have success : (do
      if written.size ≠ layout.fileSize.toNat then
        throw (Fault.of (.imageMissized written.size layout.fileSize.toNat))
      return written.toList : Result Bytes) = .ok image := success
  by_cases missized : written.size ≠ layout.fileSize.toNat
  · rw [if_pos missized] at success
    cases success
  rw [if_neg missized] at success
  obtain rfl := Except.ok.inj success
  refine ⟨?_, (emitSections_spec sections).2⟩
  rw [Array.length_toList]
  exact not_ne_iff.mp missized

/-- An image in which the header is patched where no other section stands. -/
private theorem Emitted.patch {other : Header} {start : Nat} {patch : Bytes}
    (emitted : Emitted header pools layout image) (inside : start + patch.length ≤ Header.fileSizeOffset)
    (apart : ∀ entry ∈ layout.map.entries,
      entry.kind = .header ∧ entry.offset = 0 ∨ entry.kind ≠ .header ∧ Header.fileSizeOffset ≤ entry.offset.toNat)
    (patched : ∀ bytes tail, encode header = .ok bytes → ∃ bytes', encode other = .ok bytes' ∧
      (bytes ++ tail).overwrite start patch = bytes' ++ tail) :
    Emitted other pools layout (image.overwrite start patch) := by
  refine ⟨by rw [Bytes.length_overwrite, emitted.length], fun entry member => ?_⟩
  have before := emitted.sections entry member
  refine ⟨before.aligned, by rw [Bytes.length_overwrite]; exact before.inside, ?_⟩
  rcases apart entry member with ⟨kind, offset⟩ | ⟨kind, offset⟩
  · obtain ⟨bytes, encoded, there⟩ := before.single (by simp only [partCount, kind])
    rw [kind] at encoded
    rw [offset] at there
    obtain ⟨-, tail, rfl⟩ := there
    obtain ⟨bytes', encoded', same⟩ := patched bytes tail encoded
    refine ⟨[bytes'], .single (by rw [kind]; exact encoded') (by simp only [partCount, kind]), ?_⟩
    · rw [List.map_singleton, starts, starts, padding_of_dvd before.aligned, offset]
      refine .cons ⟨Nat.zero_le _, ?_⟩ .nil
      change bytes' <+: (Bytes.overwrite (bytes ++ tail) start patch).drop 0
      rw [same]
      exact List.prefix_append _ _
  · have behind : start + patch.length ≤ entry.offset.toNat := Nat.le_trans inside offset
    obtain ⟨parts, ⟨length, encoded⟩, there⟩ := before.parts
    refine ⟨parts, ⟨length, fun position part found => ?_⟩, ?_⟩
    · rw [encodePart_of_ne kind other header, encoded position part found]
    · refine List.Forall₂.of_getElem? there.length_eq fun position part found => ?_
      obtain ⟨start, found, has⟩ := there.getElem?_left found
      exact ⟨start, found, has.overwrite (Nat.le_trans behind (le_of_mem_starts (List.mem_of_getElem? found)))⟩

/-- Overwriting the signature of a header that has been written writes the header with the other signature. -/
theorem overwrite_signature (header : Header) (signature : Vector UInt8 20) {bytes : Bytes} (tail : Bytes)
    (encoded : encode header = .ok bytes) : ∃ patched, encode { header with signature } = .ok patched ∧
      (bytes ++ tail).overwrite Header.signatureOffset signature.toList = patched ++ tail := by
  obtain rfl := Except.ok.inj ((Header.encode_eq header).symm.trans encoded)
  refine ⟨_, Header.encode_eq _, ?_⟩
  have patched := @Bytes.overwrite_append (header.magic.toList ++ Bytes.ofUInt32 header.checksum)
    header.signature.toList (header.fieldBytes ++ (header.laterBytes ++ tail)) signature.toList (by simp)
  have front : (header.magic.toList ++ Bytes.ofUInt32 header.checksum).length = Header.signatureOffset := by
    simp [Bytes.ofUInt32, Header.signatureOffset]
  rw [front] at patched
  simp only [List.append_assoc] at patched ⊢
  exact patched

theorem overwrite_checksum (header : Header) (checksum : UInt32) {bytes : Bytes} (tail : Bytes)
    (encoded : encode header = .ok bytes) : ∃ patched, encode { header with checksum } = .ok patched ∧
      (bytes ++ tail).overwrite Header.checksumOffset (Bytes.ofUInt32 checksum) = patched ++ tail := by
  obtain rfl := Except.ok.inj ((Header.encode_eq header).symm.trans encoded)
  refine ⟨_, Header.encode_eq _, ?_⟩
  have patched := @Bytes.overwrite_append header.magic.toList (Bytes.ofUInt32 header.checksum)
    (header.signature.toList ++ (header.fieldBytes ++ (header.laterBytes ++ tail))) (Bytes.ofUInt32 checksum)
    (by simp [Bytes.ofUInt32])
  have front : header.magic.toList.length = Header.checksumOffset := by simp [Header.checksumOffset]
  rw [front] at patched
  simp only [List.append_assoc] at patched ⊢
  exact patched

/-- The digests change nothing but their own fields. -/
theorem Emitted.digested {digested : Header} {stored : Bytes} (emitted : Emitted header pools layout image)
    (apart : ∀ entry ∈ layout.map.entries,
      entry.kind = .header ∧ entry.offset = 0 ∨ entry.kind ≠ .header ∧ Header.fileSizeOffset ≤ entry.offset.toNat)
    (success : header.updateDigests image = .ok (digested, stored)) :
    Emitted digested pools layout stored ∧ ∃ checksum signature,
      digested = { header with checksum, signature } := by
  obtain ⟨⟨signed, between⟩, first, second⟩ := Result.bind_eq_ok.mp success
  rw [Header.updateSignature] at first
  split_ifs at first
  obtain ⟨rfl, rfl⟩ := Prod.mk.inj (Except.ok.inj first)
  change Header.updateChecksum _ _ = _ at second
  rw [Header.updateChecksum] at second
  split_ifs at second
  obtain ⟨rfl, rfl⟩ := Prod.mk.inj (Except.ok.inj second)
  generalize Header.signatureOf image = signature
  generalize Header.checksumOf _ = checksum
  have signed : Emitted { header with signature } pools layout
      (image.overwrite Header.signatureOffset signature.toList) := by
    exact emitted.patch (by simp [Header.signatureOffset, Header.fileSizeOffset]) apart fun _ tail =>
      overwrite_signature header signature tail
  exact ⟨signed.patch (by simp [Bytes.ofUInt32, Header.checksumOffset, Header.fileSizeOffset]) apart fun _ tail =>
    overwrite_checksum { header with signature } checksum tail, checksum, signature, rfl⟩

end Layout
end DexImage
