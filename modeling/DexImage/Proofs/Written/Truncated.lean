import DexImage.Proofs.Written.Described
/-! # Truncated images

Where a step reads some bytes, it fails for want of input where less of them is left (`Starves`); steps in a row starve
on their bytes in a row. The map list is the last section of a written image and ends where the image does, so a part
of the image that is long enough for the header lacks the end of the map, which is read first (`Image.read_truncated`).
-/

namespace DexImage

namespace Reading

variable {σ α β : Type} {step : Reading σ α} {state : σ}

/-- Whether a step fails for want of input. -/
def Truncated (step : Reading σ α) (state : σ) : Prop :=
  ∃ fault after, step state = (.error fault, after) ∧ fault.kind = .truncatedInput

namespace Truncated

theorem fail {cause : Cause} (kind : cause.kind = .truncatedInput) : Truncated (fail cause : Reading σ α) state :=
  ⟨.of cause, state, rfl, kind⟩

theorem left {next : α → Reading σ β} (truncated : Truncated step state) : Truncated (step >>= next) state := by
  obtain ⟨fault, after, run, kind⟩ := truncated
  exact ⟨fault, after, bind_error run, kind⟩

theorem right {next : α → Reading σ β} {value : α} {between : σ} (run : step state = (.ok value, between))
    (truncated : Truncated (next value) between) : Truncated (step >>= next) state := by
  obtain ⟨fault, after, failed, kind⟩ := truncated
  exact ⟨fault, after, (bind_ok run).trans failed, kind⟩

protected theorem within {site : Site} (truncated : Truncated step state) : Truncated (within site step) state := by
  obtain ⟨fault, after, run, kind⟩ := truncated
  exact ⟨fault.within site, after, within_error run, kind⟩

theorem ofDecoder {step : Decoder α} {loader : Loader} (truncated : Truncated step loader.cursor) :
    Truncated (Loading.ofDecoder step) loader := by
  obtain ⟨fault, after, run, kind⟩ := truncated
  exact ⟨fault, { loader with cursor := after }, by rw [Loading.ofDecoder, run], kind⟩

end Truncated
end Reading

open Reading

namespace Cursor

variable {cursor : Cursor} {first second bytes : Bytes}

/-- Whether what is left for a little-endian cursor is a part of some bytes, and not all of them. -/
structure Short (cursor : Cursor) (bytes : Bytes) : Prop where
  littleEndian : cursor.bigEndian = false
  inside : cursor.position ≤ cursor.bytes.size
  part : cursor.rest <+: bytes
  short : cursor.remaining < bytes.length

/-- What falls short of bytes in a row falls short of the first ones or has them ahead and falls short of the rest. -/
theorem Short.split (short : cursor.Short (first ++ second)) :
    cursor.Short first ∨ cursor.Ahead first ∧ (cursor.advance first.length).Short second := by
  obtain ⟨littleEndian, inside, part, length⟩ := short
  rcases Nat.lt_or_ge cursor.remaining first.length with less | enough
  · refine .inl ⟨littleEndian, inside, List.prefix_of_prefix_length_le part (List.prefix_append _ _) ?_, less⟩
    rw [length_rest]
    exact less.le
  · right
    have ahead : first <+: cursor.rest := by
      refine List.prefix_of_prefix_length_le (List.prefix_append _ _) part ?_
      rwa [length_rest]
    obtain ⟨left, same⟩ := ahead
    rw [← same, List.prefix_append_right_inj] at part
    have rest : (cursor.advance first.length).rest = left := by
      have dropped : (cursor.advance first.length).rest = cursor.rest.drop first.length := by
        simp [rest, advance, List.drop_drop]
      rw [dropped, ← same, List.drop_left]
    rw [remaining] at enough length
    rw [List.length_append] at length
    refine ⟨⟨littleEndian, inside, ⟨left, same⟩⟩, littleEndian, ?_, rest ▸ part, ?_⟩
    · change cursor.position + first.length ≤ cursor.bytes.size
      omega
    · change cursor.bytes.size - (cursor.position + first.length) < second.length
      omega

end Cursor

/-- Whether a step fails for want of input wherever less than some bytes is left. -/
def Starves {α : Type} (step : Decoder α) (bytes : Bytes) : Prop :=
  ∀ cursor : Cursor, cursor.Short bytes → Truncated step cursor

namespace Starves

variable {α β : Type} {step : Decoder α} {next : α → Decoder β} {bytes first second : Bytes} {value : α}

/-- Nothing falls short of no bytes. -/
theorem nil (step : Decoder α) : Starves step [] := fun _ short => absurd short.short (Nat.not_lt_zero _)

theorem left (starves : Starves step bytes) : Starves (step >>= next) bytes :=
  fun cursor short => (starves cursor short).left

protected theorem bind (reads : Reads step first value) (here : Starves step first)
    (there : Starves (next value) second) : Starves (step >>= next) (first ++ second) := by
  intro cursor short
  rcases short.split with short | ⟨ahead, short⟩
  · exact (here cursor short).left
  · exact .right (reads cursor ahead) (there _ short)

theorem take (bytes : Bytes) : Starves (Decoder.take bytes.length) bytes := by
  intro cursor short
  have less := short.short
  rw [Cursor.remaining] at less
  change Truncated (if cursor.bytes.size < cursor.position ∨ cursor.bytes.size - cursor.position < bytes.length then
    _ else _ : Decoder Bytes) cursor
  rw [if_pos (.inr less)]
  exact .fail rfl

theorem u4 (value : UInt32) : Starves Decoder.u4 (Bytes.ofUInt32 value) := by
  have taken := take (Bytes.ofUInt32 value)
  rw [Bytes.ofUInt32, Bytes.length_littleEndian] at taken
  exact .left (.left taken)

end Starves

namespace Header

/-- A header starves on what lies behind the known fields. -/
theorem starves_surplus {strict : Bool} {header : Header} {bytes : Bytes}
    (left : header.headerSize.toNat = header.knownSize + bytes.length) (plain : strict = true → bytes = []) :
    Starves (decodeSurplus strict header) bytes := by
  by_cases none : bytes = []
  · rw [none]
    exact .nil _
  have lenient : ¬ strict = true := fun refused => none (plain refused)
  have more : 0 < bytes.length := List.length_pos_iff.mpr none
  have taken := Starves.take bytes
  have count : bytes.length = header.headerSize.toNat - header.knownSize := by omega
  rw [count] at taken
  rw [decodeSurplus, if_pos (by omega), if_neg lenient]
  exact taken.left

/-- A header starves on what lies behind the fields that every version has. -/
theorem Coherent.starves_later {header : Header} (coherent : header.Coherent) {version : Nat}
    (spelled : header.version? = some version) : Starves (decodeLater false version
      { header with endianTag := littleEndianTag, container := none, surplus := [] }) header.laterBytes := by
  obtain ⟨version', spelled', container⟩ := coherent.spelled
  obtain rfl : version' = version := Option.some.inj (spelled'.symm.trans spelled)
  have declared := coherent.declared
  obtain ⟨magic, checksum, signature, fileSize, headerSize, endianTag, link, mapOffset, stringIds, typeIds, protoIds,
    fieldIds, methodIds, classDefs, data, contained, surplus⟩ := header
  dsimp only [knownSize] at declared container
  rw [decodeLater]
  dsimp only
  rw [← container]
  cases contained with
  | none =>
    simp only [Option.isSome_none, Bool.false_eq_true, if_false] at declared ⊢
    rw [if_neg (by omega : ¬ headerSize.toNat < baseSize)]
    exact starves_surplus declared (by rintro ⟨⟩)
  | some place =>
    simp only [Option.isSome_some, if_true] at declared ⊢
    rw [if_neg (by rw [declared]; simp only [baseSize, containerSize]; omega : ¬ headerSize.toNat < baseSize),
      laterBytes, List.append_assoc]
    exact .bind (.u4 _) (.u4 _) (.bind (.u4 _) (.u4 _) (starves_surplus declared (by rintro ⟨⟩)))

/-- Less than a header is not read. -/
theorem Coherent.truncated_decode {header : Header} (coherent : header.Coherent) {stored part : Bytes}
    (encoded : encode header = .ok stored) (short : (Cursor.ofBytes part).Short stored) :
    Truncated (decode false) (.ofBytes part) := by
  obtain ⟨version, spelled, -⟩ := coherent.spelled
  obtain rfl := encode_eq_ok encoded
  rcases short.split with ⟨-, -, -, less⟩ | ⟨ahead, short⟩
  · have cut : (Cursor.ofBytes part).bytes.size < (Cursor.ofBytes part).position + baseSize := by
      rw [Cursor.remaining, length_baseBytes] at less
      omega
    refine .right (Decoder.get_run (.ofBytes part)) ?_
    rw [if_pos cut]
    exact .left (.fail rfl)
  · rw [length_baseBytes] at short
    obtain ⟨fault, after, run, kind⟩ := coherent.starves_later spelled _ short
    exact ⟨fault, after, (decode_baseBytes ⟨ahead.inside, ahead.ahead⟩ spelled (by rintro ⟨⟩)).trans run, kind⟩

end Header

namespace MapList

/-- A map list starves on its encoding. -/
theorem starves_encode {map : MapList} {bytes : Bytes} (success : encode map = .ok bytes)
    (small : map.entries.length < UInt32.size) : Starves decode bytes := by
  intro cursor short
  have length := length_encode success
  obtain rfl := Except.ok.inj success
  change _ = 4 + 12 * map.entries.length at length
  refine .right (Decoder.position_run cursor) ?_
  rcases short.split with short | ⟨ahead, short⟩
  · exact (Starves.u4 _ cursor short).left
  have less := short.short
  rw [List.length_append, Bytes.ofCount, Bytes.ofUInt32, Bytes.length_littleEndian] at length
  have declared : map.entries.length.toUInt32.toNat = map.entries.length := toNat_toUInt32_of_lt small
  refine .right (Reads.u4 _ cursor ahead) (.right (Decoder.remaining_run _) ?_)
  change _ < (List.flatMap _ _).length at less
  rw [if_pos (by rw [declared]; exact Nat.lt_of_lt_of_eq less (by omega))]
  exact .left (.fail rfl)

end MapList

namespace Layout

/-- The last section ends where the sections end. -/
theorem Chained.last_of_append {sizes : SectionKind → List Nat} {position last : Nat} {before : List MapEntry}
    {entry : MapEntry} (chained : Chained sizes position (before ++ [entry]) last) :
    last = behind entry.kind.alignment entry.offset.toNat (sizes entry.kind) := by
  induction before generalizing position with
  | nil =>
    cases chained with
    | cons _ others =>
      cases others
      rfl
  | cons first before ih =>
    cases chained with
    | cons _ others => exact ih others

/-- The map list is the last section and goes to the end. -/
theorem Planned.fileSize_eq {header : Header} {refreshed placed : Pools} {layout : Layout}
    (planned : Planned header refreshed layout placed) :
    layout.fileSize.toNat = (layout.span .mapList).offset.toNat + encodedSize layout.map := by
  obtain ⟨entry, member, found, same, -⟩ := planned.get? (show SectionKind.mapList ≠ .header by decide) Nat.one_ne_zero
  obtain ⟨added, listed, sublist, -⟩ := planned.header
  obtain ⟨before, behind, split⟩ := List.append_of_mem member
  have ordered : (layout.map.entries.map MapEntry.kind).Pairwise fun first _ => first ≠ .mapList := by
    rw [listed, List.map_cons]
    refine List.Pairwise.sublist (sublist.cons_cons _) (?_ : (SectionKind.header :: order.drop 1).Pairwise _)
    decide
  obtain rfl : behind = [] := by
    rw [split, List.map_append, List.map_cons, List.pairwise_append, List.pairwise_cons] at ordered
    refine List.eq_nil_iff_forall_not_mem.mpr fun other member => ?_
    exact ordered.2.1.1 other.kind (List.mem_map_of_mem member) same
  have chained := planned.chained
  rw [split] at chained
  have aligned := chained.dvd entry (split ▸ member)
  rw [same] at aligned
  have sizes : sizesIn header layout.map placed .mapList = [encodedSize layout.map] := rfl
  rw [chained.last_of_append, same, sizes, Layout.behind, Layout.behind, padding_of_dvd aligned, span, found]
  rfl

end Layout

namespace Image

variable {image after : Image} {layout : Layout} {bytes part : Bytes}

/-- The map list is what stands at the end of an image that is written. -/
theorem Written.drop_mapOffset (written : image.Written layout bytes after) : after.header.mapOffset ≠ 0 ∧
    after.map.entries.length < UInt32.size ∧ encode after.map = .ok (bytes.drop after.header.mapOffset.toNat) := by
  obtain ⟨small, nonzero, mapBytes, encoded, has⟩ := (Layout.stored_of_planned written.planned written.emitted.1).map
  rw [written.places.1, written.map]
  have length := MapList.length_encode encoded
  have whole := written.planned.fileSize_eq
  rw [← written.emitted.1.length] at whole
  have same : mapBytes = bytes.drop (layout.span .mapList).offset.toNat := by
    refine has.ahead.eq_of_length ?_
    rw [List.length_drop, length, whole, Nat.add_sub_cancel_left]
  exact ⟨nonzero, small, same ▸ encoded⟩

/-- The map of a part of an image that is written is not read. -/
theorem Written.truncated_decodeMap (written : image.Written layout bytes after) (front : part <+: bytes)
    (less : part.length < bytes.length) {cursor : Cursor} (same : cursor.bytes = part.toArray)
    (littleEndian : cursor.bigEndian = false) : Truncated (decodeMap after.header) cursor := by
  obtain ⟨nonzero, small, encoded⟩ := written.drop_mapOffset
  have size : cursor.bytes.size = part.length := by rw [same, List.size_toArray]
  rw [decodeMap, if_neg nonzero]
  rcases Nat.lt_or_ge part.length after.header.mapOffset.toNat with before | behind
  · refine .left (.within (.right (Decoder.get_run cursor) ?_))
    rw [if_pos (size ▸ before)]
    exact .fail rfl
  · refine .right (within_ok (Decoder.seek_ok (size ▸ behind))) (.within (MapList.starves_encode encoded small _ ?_))
    have rest : ({ cursor with position := after.header.mapOffset.toNat } : Cursor).rest =
        part.drop after.header.mapOffset.toNat := by rw [Cursor.rest, same]
    refine ⟨littleEndian, size ▸ behind, rest ▸ front.drop _, ?_⟩
    rw [← Cursor.length_rest, rest, List.length_drop, List.length_drop]
    omega

/-- A part of an image that is written is not read, and fails for want of input. -/
theorem read_truncated (origin : Origin image.header) (success : image.write = (.ok bytes, after))
    (front : part <+: bytes) (proper : part ≠ bytes) :
    ∃ fault, read part .lenient = .error fault ∧ fault.kind = .truncatedInput := by
  obtain ⟨layout, written⟩ := write_eq_ok.mp success
  have coherent := written.coherent origin.fitted
  obtain ⟨stored, tail, -, encoded, split⟩ := written.sealed
  have header : stored <+: bytes := ⟨tail, split.symm⟩
  have less : part.length < bytes.length :=
    Nat.lt_of_le_of_ne front.length_le fun same => proper (front.eq_of_length same)
  rcases Nat.lt_or_ge part.length stored.length with cut | enough
  · have short : (Cursor.ofBytes part).Short stored :=
      ⟨rfl, Nat.zero_le _, List.prefix_of_prefix_length_le front header cut.le, cut⟩
    obtain ⟨fault, cursor, run, kind⟩ := coherent.truncated_decode encoded short
    refine ⟨fault.within (.inSection .header), ?_, kind⟩
    rw [read, ReadOptions.lenient, run]
    rfl
  · obtain ⟨cursor, decoded, same, littleEndian⟩ :=
      @Header.Coherent.decode_encode false _ _ _ coherent (by rintro ⟨⟩)
      encoded (List.prefix_of_prefix_length_le header front enough)
    have tag : { after.header with endianTag := Header.littleEndianTag } = after.header := by rw [← written.endianTag]
    rw [tag] at decoded
    obtain ⟨fault, loader, run, kind⟩ : Truncated (loadTables after.header) (.ofCursor cursor false) :=
      .left (.ofDecoder (written.truncated_decodeMap front less same littleEndian))
    refine ⟨fault, ?_, kind⟩
    rw [@read_of_decode _ .lenient _ _ decoded]
    simp only [ReadOptions.lenient, Bool.false_and, Bool.false_eq_true, if_false, run]
    rfl

/-- A class with an interface, in an image that lacks its last byte. -/
theorem read_truncated_withListener : ∃ bytes after, withListener.write = (.ok bytes, after) ∧ bytes ≠ [] ∧
    ∃ fault, read bytes.dropLast .lenient = .error fault ∧ fault.kind = .truncatedInput := by
  have success : (withListener.write.1.toOption.map List.isEmpty) = some false := by decide +kernel
  rcases written : withListener.write with ⟨fault | bytes, after⟩
  · rw [written] at success
    cases success
  · rw [written] at success
    have some : bytes ≠ [] := List.isEmpty_eq_false_iff.mp (Option.some.inj success)
    have proper : bytes.dropLast ≠ bytes := fun same => by
      have length := congrArg List.length same
      rw [List.length_dropLast] at length
      have pos := List.length_pos_iff.mpr some
      omega
    exact ⟨bytes, after, rfl, some, read_truncated (.new 35) written (List.dropLast_prefix bytes) proper⟩

end Image
end DexImage
