import DexImage.Proofs.Rereading.FixedPoint
/-! # Images that describe themselves

The header of an image that has been written says how long the image is and where its tables, its data and its map are,
and the digests in it are those of the image (`Image.write_describes`). It is read back as it is although the reader
knows of the container fields from the version and the declared size alone: headers that are new, have been read, or
have been given a version have these fields exactly where both call for them (`Header.Fitted`).
-/

namespace DexImage

open Layout

namespace Header

variable {header : Header}

theorem Fitted.setVersion (fitted : header.Fitted) (version : Nat) : (header.setVersion version).Fitted := by
  obtain ⟨before, spelled, -⟩ := fitted
  refine ⟨_, version?_setVersion (Option.isSome_iff_exists.mpr ⟨before, spelled⟩) version, ?_⟩
  have container : (header.setVersion version).container =
      if containerVersion ≤ version then some (header.container.getD ⟨0, 0⟩) else none := rfl
  change _ = (_ && decide (containerSize ≤ (header.setVersion version).knownSize + _))
  rw [knownSize, container]
  by_cases new : containerVersion ≤ version
  · have shown : containerVersion ≤ min version 999 := Nat.le_min.mpr ⟨new, by decide⟩
    simp [new, shown]
  · have shown : ¬ containerVersion ≤ min version 999 := fun shown => new (Nat.le_min.mp shown).1
    simp [new, shown]

theorem fitted_ofVersion (version : Nat) : (ofVersion version).Fitted :=
  Fitted.setVersion ⟨35, by decide, by decide⟩ version

theorem Fitted.with (fitted : header.Fitted) (checksum : UInt32) (signature : Vector UInt8 20) :
    ({ header with checksum, signature } : Header).Fitted := fitted

/-- The span of an id table. -/
def table (header : Header) : SectionKind → Span
  | .stringId => header.stringIds
  | .typeId => header.typeIds
  | .protoId => header.protoIds
  | .fieldId => header.fieldIds
  | .methodId => header.methodIds
  | .classDef => header.classDefs
  | _ => .zero

end Header

/-- The first section in the map that is neither the header nor an id table. -/
def MapList.firstData? (map : MapList) : Option MapEntry := map.entries.find? fun entry => isData entry.kind

namespace Layout

variable {header : Header} {kind : SectionKind} {kinds : List SectionKind} {before after : Planning}

/-- Whether the offset of the data is that of the first data section. -/
def Noted (layout : Layout) : Prop :=
  (layout.map.firstData? = none ∧ layout.dataOffset = 0) ∨
    ∃ entry, layout.map.firstData? = some entry ∧ layout.dataOffset = entry.offset ∧ entry.offset ≠ 0

theorem PlannedSection.noted (section' : PlannedSection header kind before after) (noted : Noted before.layout)
    (started : isData kind = true → 0 < before.position) : Noted after.layout := by
  cases section' with
  | empty => exact noted
  | placed start some aligned entered items now =>
    have first : after.layout.map.firstData? = before.layout.map.firstData?.or
        (if isData kind then Option.some ⟨kind, (itemCount before.pools kind).toUInt32, start⟩ else none) := by
      rw [MapList.firstData?, entered, List.find?_append]
      cases data : isData kind <;> simp [MapList.firstData?, data]
    rw [Noted, first, now]
    rcases noted with ⟨nothing, zero⟩ | ⟨entry, found, offset, nonzero⟩
    · rw [nothing, zero]
      cases data : isData kind with
      | false => exact .inl ⟨rfl, rfl⟩
      | true =>
        refine .inr ⟨_, rfl, rfl, ?_⟩
        rintro rfl
        have behind := started data
        rw [UInt32.toNat_zero] at aligned
        omega
    · have later : ¬ (decide (entry.offset = 0) && isData kind) = true := by simp [nonzero]
      rw [found, offset, if_neg later]
      exact .inr ⟨entry, rfl, rfl, nonzero⟩

/-- Behind the header, whatever is placed first of the data is noted. -/
theorem PlannedRun.noted (run : PlannedRun header kinds before after) (noted : Noted before.layout)
    (started : 0 < before.position) : Noted after.layout := by
  induction run with
  | nil => exact noted
  | cons first _ ih => exact ih (first.noted noted fun _ => started) (Nat.lt_of_lt_of_le started first.position_le)

theorem noted_of_plan {pools placed : Pools} {layout : Layout} (success : plan header pools = (.ok layout, placed)) :
    Noted layout := by
  obtain ⟨planned, fileSize, sections, -, rfl, rfl⟩ := plan_eq_ok.mp success
  cases planSections_spec sections with
  | @cons _ _ _ between _ first others =>
    have started : 0 < between.position := by
      cases first with
      | empty none => cases none
      | placed start _ _ _ items =>
        have size := header.baseSize_le
        simp only [Header.baseSize] at size
        have position : between.position = start.toNat + encodedSize header := items.1
        omega
    exact others.noted (first.noted (.inl ⟨rfl, rfl⟩) fun data => absurd data (by decide)) started

/-- Sections that lie one behind the other are in the order of their offsets. -/
theorem Chained.isOrdered {sizes : SectionKind → List Nat} {position last : Nat} {entries : List MapEntry}
    (chained : Chained sizes position entries last) :
    MapList.isOrdered entries = true ∧ ∀ entry ∈ entries,
    position ≤ entry.offset.toNat ∧ entry.offset.toNat ≤ last := by
  induction chained with
  | nil => exact ⟨rfl, fun _ member => absurd member List.not_mem_nil⟩
  | @cons position last entry rest aligned others ih =>
    obtain ⟨ordered, bounds⟩ := ih
    have ends := le_behind entry.kind.alignment entry.offset.toNat (sizes entry.kind)
    refine ⟨?_, List.forall_mem_cons.mpr ⟨⟨by omega, Nat.le_trans ends others.le⟩, fun other member => ?_⟩⟩
    · cases rest with
      | nil => rfl
      | cons next rest =>
        have after := (bounds next List.mem_cons_self).1
        rw [MapList.isOrdered, ordered, Bool.and_true, decide_eq_true_eq, UInt32.le_iff_toNat_le]
        exact Nat.le_trans ends after
    · obtain ⟨lower, upper⟩ := bounds other member
      exact ⟨by omega, upper⟩

theorem Planned.isValid {refreshed placed : Pools} {layout : Layout}
    (planned : Planned header refreshed layout placed) :
    layout.map.isValid layout.fileSize.toNat = true := by
  obtain ⟨ordered, bounds⟩ := planned.chained.isOrdered
  obtain ⟨added, listed, -⟩ := planned.header
  have first : layout.map.get? .header = some ⟨.header, 1, 0⟩ := by
    rw [MapList.get?, listed]
    rfl
  rw [MapList.isValid, first, ordered, Bool.and_true, Bool.and_eq_true, List.all_eq_true]
  exact ⟨fun entry member => decide_eq_true (bounds entry member).2, rfl⟩

/-- The map list is data, so that there are some. -/
theorem Planned.firstData {refreshed placed : Pools} {layout : Layout}
    (planned : Planned header refreshed layout placed)
    (noted : Noted layout) : ∃ entry, layout.map.firstData? = some entry ∧ layout.dataOffset = entry.offset ∧
      layout.dataOffset.toNat ≤ layout.fileSize.toNat := by
  rcases noted with ⟨none, -⟩ | ⟨entry, found, offset, -⟩
  · obtain ⟨entry, member, -, same, -⟩ := planned.get? (show SectionKind.mapList ≠ .header by decide) Nat.one_ne_zero
    have data := List.find?_eq_none.mp none entry member
    rw [same] at data
    exact absurd rfl data
  · exact ⟨entry, found, offset, offset ▸ (planned.chained.isOrdered.2 entry (List.mem_of_find?_eq_some found)).2⟩

end Layout

namespace Image

/-- Where headers of images come from. -/
inductive Origin : Header → Prop where
  | new (version : Nat) : Origin (.ofVersion version)
  | read {header : Header} {strict : Bool} {cursor cursor' : Cursor}
      (success : Header.decode strict cursor = (.ok header, cursor')) : Origin header
  | setVersion {header : Header} (origin : Origin header) (version : Nat) : Origin (header.setVersion version)
  /-- Writing an image before, successfully or not, has brought the header up to date. -/
  | write {image : Image} (origin : Origin image.header) : Origin image.write.2.header

variable {image after : Image} {layout : Layout} {bytes : Bytes}

/-- Writing does nothing to a header but what a layout says of it and to store the digests. -/
theorem header_write (image : Image) : image.write.2.header = image.header ∨ ∃ layout checksum signature,
    image.write.2.header = { Layout.applyTo layout image.header with checksum, signature } := by
  rcases run : image.write with ⟨fault | bytes, after⟩
  · rw [write] at run
    rcases plan : Layout.plan image.header image.pools.refreshAll with ⟨fault | layout, pools⟩
    · rw [plan] at run
      obtain ⟨-, rfl⟩ := Prod.mk.inj run
      exact .inl rfl
    rw [plan] at run
    rcases stored : Layout.emit (layout.applyTo image.header) pools layout >>=
        (layout.applyTo image.header).updateDigests with fault | ⟨header, written⟩
    · simp only [stored] at run
      obtain ⟨-, rfl⟩ := Prod.mk.inj run
      exact .inr ⟨layout, (layout.applyTo image.header).checksum, (layout.applyTo image.header).signature, rfl⟩
    · simp only [stored] at run
      cases (Prod.mk.inj run).1
  · obtain ⟨layout, written⟩ := write_eq_ok.mp run
    obtain ⟨-, checksum, signature, same⟩ := written.emitted
    exact .inr ⟨layout, checksum, signature, same⟩

theorem Origin.fitted {header : Header} (origin : Origin header) : header.Fitted := by
  induction origin with
  | new version => exact Header.fitted_ofVersion version
  | read success => exact ((Header.gives_decode _).holds _ _ _ success).fitted
  | setVersion _ version ih => exact ih.setVersion version
  | @write image _ ih =>
    rcases image.header_write with same | ⟨layout, checksum, signature, same⟩
    · rw [same]
      exact ih
    · rw [same]
      exact (ih.applyTo layout).with checksum signature

namespace Written

variable (written : image.Written layout bytes after)
include written

/-- The image starts with the header, sealed for what follows it. -/
theorem sealed : ∃ stored tail, after.header = (layout.applyTo image.header).sealed tail ∧
    encode after.header = .ok stored ∧ bytes = stored ++ tail := by
  obtain ⟨unsigned, emitted, digests⟩ := written.stored
  obtain ⟨added, listed, -⟩ := written.planned.header
  have first : ⟨.header, 1, 0⟩ ∈ layout.map.entries := by
    rw [listed]
    exact List.mem_cons_self
  obtain ⟨front, encoded, has⟩ := ((Layout.emit_spec emitted).sections _ first).single rfl
  obtain ⟨tail, rfl⟩ := has.ahead
  obtain ⟨stored, encoded', digests'⟩ := Header.updateDigests_encode encoded tail
  obtain ⟨same, rfl⟩ := Prod.mk.inj (Except.ok.inj (digests.symm.trans digests'))
  exact ⟨stored, tail, same, same ▸ encoded', rfl⟩

theorem table {kind : PoolKind} (isTable : kind.toSection.isIdTable = true) :
    after.header.table kind.toSection = layout.span kind.toSection := by
  obtain ⟨-, strings, types, protos, fields, methods, classes⟩ := written.places
  cases kind with
  | stringId => exact strings
  | typeId => exact types
  | protoId => exact protos
  | fieldId => exact fields
  | methodId => exact methods
  | classDef => exact classes
  | _ => cases isTable

/-- The map is read from where the header says. -/
theorem decode_map {cursor : Cursor} (same : cursor.bytes = bytes.toArray) (littleEndian : cursor.bigEndian = false) :
    ∃ cursor', (Decoder.seek after.header.mapOffset.toNat >>= fun _ => MapList.decode) cursor =
      (.ok after.map, cursor') := by
  obtain ⟨small, -, mapBytes, encoded, has⟩ := (Layout.stored_of_planned written.planned written.emitted.1).map
  rw [written.places.1, written.map]
  have same := congrArg Array.toList same
  have ahead : ({ cursor with position := (layout.span .mapList).offset.toNat } : Cursor).Ahead mapBytes :=
    has.ahead_of same littleEndian rfl
  exact ⟨_, (Reading.bind_ok (Decoder.seek_ok (has.le_size same))).trans (MapList.reads_encode encoded small _ ahead)⟩

/-- The map and the header agree about a table that has entries. -/
theorem exists_table {kind : PoolKind} (isTable : kind.toSection.isIdTable = true)
    (some : (after.pools.pool kind).items ≠ []) : ∃ entry, after.map.get? kind.toSection = Option.some entry ∧
      after.header.table kind.toSection = ⟨entry.size, entry.offset⟩ ∧
      entry.size.toNat = (after.pools.pool kind).size := by
  have count : itemCount after.pools kind.toSection ≠ 0 := by
    rwa [itemCount_toSection, ne_eq, List.length_eq_zero_iff]
  obtain ⟨entry, -, found, same, plan, -⟩ := written.planned.get? (by cases kind <;> decide) count
  rw [written.map, written.table isTable, span, found, ← Pool.length_items]
  exact ⟨entry, rfl, rfl, plan.size_toNat same⟩

/-- The map and the header agree about a table without entries. -/
theorem table_eq_zero {kind : PoolKind} (isTable : kind.toSection.isIdTable = true)
    (none : (after.pools.pool kind).items = []) :
    after.map.get? kind.toSection = Option.none ∧ after.header.table kind.toSection = .zero := by
  have count : itemCount after.pools kind.toSection = 0 := by rw [itemCount_toSection, none, List.length_nil]
  rw [written.map, written.table isTable, written.planned.span_eq_zero none]
  exact ⟨written.planned.get?_eq_none (by cases kind <;> decide) count, rfl⟩

/-- The header tells where the data begin and that they go to the end. -/
theorem exists_firstData : ∃ entry, after.map.firstData? = some entry ∧ after.header.data.offset = entry.offset ∧
    after.header.data.offset.toNat + after.header.data.size.toNat = bytes.length := by
  obtain ⟨emitted, checksum, signature, header⟩ := written.emitted
  obtain ⟨entry, found, offset, behind⟩ := written.planned.firstData (noted_of_plan written.plan)
  have data : after.header.data = ⟨layout.fileSize - layout.dataOffset, layout.dataOffset⟩ := by
    rw [header]
    rfl
  refine ⟨entry, written.map ▸ found, data ▸ offset, ?_⟩
  rw [data, emitted.length, UInt32.toNat_sub_of_le _ _ (UInt32.le_iff_toNat_le.mpr behind)]
  exact Nat.add_sub_cancel' behind

end Written

/-- Whether an image describes its bytes. -/
structure Describes (image : Image) (bytes : Bytes) : Prop where
  length : image.header.fileSize.toNat = bytes.length
  /-- The header is read as it is. -/
  header : ∀ strict, (strict = true → image.header.Plain) → ∃ cursor,
    Header.decode strict (.ofBytes bytes) = (.ok image.header, cursor) ∧
    cursor.bytes = bytes.toArray ∧ cursor.bigEndian = false
  checksum : image.header.verifiesChecksum bytes = true
  signature : image.header.verifiesSignature bytes = true
  /-- The map is read as it is from where the header says. -/
  map : ∀ cursor : Cursor, cursor.bytes = bytes.toArray → cursor.bigEndian = false → ∃ cursor',
    (Decoder.seek image.header.mapOffset.toNat >>= fun _ => MapList.decode) cursor = (.ok image.map, cursor')
  valid : image.map.isValid bytes.length = true
  distinct : (image.map.entries.map MapEntry.kind).Nodup
  /-- The id tables are where the map says. -/
  tables : ∀ kind : PoolKind, kind.toSection.isIdTable = true →
    ((image.pools.pool kind).items = [] → image.map.get? kind.toSection = none ∧
      image.header.table kind.toSection = .zero) ∧
    ((image.pools.pool kind).items ≠ [] → ∃ entry, image.map.get? kind.toSection = some entry ∧
      image.header.table kind.toSection = ⟨entry.size, entry.offset⟩ ∧ entry.size.toNat = (image.pools.pool kind).size)
  /-- The data go from the first section that is neither the header nor an id table to the end. -/
  data : ∃ entry, image.map.firstData? = some entry ∧ image.header.data.offset = entry.offset ∧
    image.header.data.offset.toNat + image.header.data.size.toNat = bytes.length

/-- An image that has been written describes itself. -/
theorem write_describes (origin : Origin image.header) (success : image.write = (.ok bytes, after)) :
    after.Describes bytes := by
  obtain ⟨layout, written⟩ := write_eq_ok.mp success
  obtain ⟨emitted, checksum, signature, header⟩ := written.emitted
  have fileSize : after.header.fileSize = layout.fileSize := by
    rw [header]
    rfl
  have valid := written.planned.isValid
  rw [← written.map, ← emitted.length] at valid
  obtain ⟨front, tail, sealed, encoded, split⟩ := written.sealed
  have verified := Header.verifies_sealed (sealed ▸ encoded)
  rw [← sealed, ← split] at verified
  exact {
    length := by rw [fileSize, emitted.length]
    header := fun strict plain => written.decode strict origin.fitted plain
    checksum := verified.1
    signature := verified.2
    map := fun cursor same littleEndian => written.decode_map same littleEndian
    valid := valid
    distinct := written.map ▸ written.planned.orderly.sections.2
    tables := fun kind isTable => ⟨written.table_eq_zero isTable, written.exists_table isTable⟩
    data := written.exists_firstData }

/-- A class with an interface, in an image that is given a version with container fields. -/
theorem write_describes_withListener : ∃ bytes after,
    ({ withListener with header := (Header.ofVersion 35).setVersion 41 } : Image).write = (.ok bytes, after) ∧
      after.Describes bytes := by
  have written :
      ({ withListener with header := (Header.ofVersion 35).setVersion 41 } : Image).write.1.toOption.isSome = true := by
    decide +kernel
  obtain ⟨bytes, written⟩ := Result.exists_of_toOption written
  exact ⟨bytes, _, Prod.ext written rfl, write_describes (.setVersion (.new 35) 41) (Prod.ext written rfl)⟩

end Image
end DexImage
