import DexImage.Image.Basic
import DexImage.Proofs.Layout.Emission
/-! # What a written image stores

The tables and the items of a written image stand where its header and the references in it say
(`Stored`).
-/

namespace DexImage

namespace Layout

variable {header header' : Header} {pools refreshed : Pools} {layout : Layout} {image : Bytes} {entry : MapEntry}

/-- What a section with a pool of its own is written as. -/
structure SectionParts (pools : Pools) (image : Bytes) (entry : MapEntry) (pool : PoolKind) (parts : List Bytes) :
    Prop where
  encoded : List.Forall₂ (fun item part => encode item = .ok part) (pools.pool pool).items parts
  placed : List.Forall₂ (fun part start => image.HasAt start part) parts
    (starts entry.kind.alignment entry.offset.toNat ((pools.pool pool).items.map encodedSize))
  whole : (∀ part ∈ parts, entry.kind.alignment ∣ part.length) → image.HasAt entry.offset.toNat parts.flatten

theorem length_sizesOf {kind : SectionKind} : (sizesOf pools kind).length = pools.size kind := by
  rw [sizesOf]
  split_ifs
  · exact List.length_replicate
  · rw [Pools.itemSizes, Pools.size]
    cases kind.pool? <;> simp

theorem sizesOf_pos {kind : SectionKind} : ∀ size ∈ sizesOf pools kind, 0 < size := by
  intro size member
  rw [sizesOf, Pools.itemSizes] at member
  split_ifs at member with table
  · obtain ⟨-, rfl⟩ := List.mem_replicate.mp member
    cases kind <;> first | decide | cases table
  · rcases found : kind.pool? with _ | pool
    · rw [found] at member
      cases member
    · rw [found] at member
      obtain ⟨item, -, rfl⟩ := List.mem_map.mp member
      exact encodedSize_pos item

/-- A section that is in the map has fewer items than the image has bytes. -/
theorem PlannedEntry.size_le {planning : Planning} (planned : PlannedEntry planning entry)
    (notHeader : entry.kind ≠ .header) (notMap : entry.kind ≠ .mapList) :
    planning.pools.size entry.kind ≤ planning.position := by
  obtain ⟨offsets, -, -, last⟩ := planned.row notHeader notMap
  have least := @length_le_behind (alignmentOf entry.kind) entry.offset.toNat _
    (@sizesOf_pos planning.pools entry.kind)
  rw [length_sizesOf] at least
  omega

theorem itemCount_eq {kind : SectionKind} (notHeader : kind ≠ .header) (notMap : kind ≠ .mapList) :
    itemCount pools kind = pools.size kind := by
  cases kind <;> first | rfl | contradiction

/-- Items that are encoded take the sizes that they say. -/
theorem map_length_eq {kind : PoolKind} {items : List (Item kind)} {parts : List Bytes}
    (encoded : List.Forall₂ (fun item part => encode item = .ok part) items parts) :
    parts.map List.length = items.map encodedSize :=
  encoded.flip.map_eq length_encode

/-- A section with a pool of its own is written as the items of the pool. -/
theorem WrittenParts.items {parts : List Bytes} (written : WrittenParts header pools layout entry parts)
    (planned : PlannedEntry ⟨layout, layout.fileSize.toNat, pools⟩ entry) {pool : PoolKind}
    (found : entry.kind.pool? = some pool) (notStrings : entry.kind ≠ .stringId) :
    List.Forall₂ (fun item part => encode item = .ok part) (pools.pool pool).items parts := by
  have notHeader : entry.kind ≠ .header := fun same => by rw [same] at found; cases found
  have notMap : entry.kind ≠ .mapList := fun same => by rw [same] at found; cases found
  have bound := planned.size_le notHeader notMap
  have size : pools.size entry.kind = (pools.pool pool).size := by rw [Pools.size, found]
  have count : entry.size.toNat = (pools.pool pool).size := by
    rw [planned.size, itemCount_eq notHeader notMap, ← size, toNat_toUInt32_of_lt]
    exact Nat.lt_of_le_of_lt bound layout.fileSize.toNat_lt
  obtain ⟨length, each⟩ := written
  rw [partCount_eq notHeader notMap notStrings] at length
  simp only [encodePart_eq notHeader notMap notStrings] at each
  refine List.Forall₂.flip (List.Forall₂.of_getElem? ?_ fun position part there => ?_)
  · rw [length, count, Pool.length_items]
  · have encoded := each position part there
    have inside : position < (pools.pool pool).size := by
      rw [← count, ← length]
      exact (List.getElem?_eq_some_iff.mp there).1
    have small : position.toUInt32.toNat = position := by
      rw [size] at bound
      rw [toNat_toUInt32_of_lt]
      exact Nat.lt_trans (Nat.lt_of_lt_of_le inside bound) layout.fileSize.toNat_lt
    rw [Pools.encodeItem, found] at encoded
    rcases there' : pools.get? pool position.toUInt32 with _ | item
    · simp only [there'] at encoded
      cases encoded
    · simp only [there'] at encoded
      rw [Pools.get?, Pool.get?_eq_some, small] at there'
      exact ⟨item, there', Result.within_eq_ok.mp encoded⟩

theorem SectionParts.exists (planned : PlannedEntry ⟨layout, layout.fileSize.toNat, pools⟩ entry)
    (emitted : EmittedSection header pools layout image entry) {pool : PoolKind} (found : entry.kind.pool? = some pool)
    (notStrings : entry.kind ≠ .stringId) : ∃ parts, SectionParts pools image entry pool parts := by
  obtain ⟨parts, written, placed⟩ := emitted.parts
  have encoded := written.items planned found notStrings
  exact ⟨parts, encoded, map_length_eq encoded ▸ placed,
    fun multiples => hasAt_flatten emitted.inside emitted.aligned multiples placed⟩

/-- The items of a section that is referred to by offsets. -/
def StoredData (image : Bytes) (offsets : OffsetTable) {kind : PoolKind} (items : List (Item kind)) : Prop :=
  ∃ row, offsets.row? kind.toSection = some row ∧ row.toList.Nodup ∧
    List.Forall₂ (fun offset item => offset ≠ 0 ∧ ∃ bytes,
      encode item = .ok bytes ∧ image.HasAt offset.toNat bytes)
      row.toList items

/-- The entries of a table that the header lists, one behind the other. -/
structure StoredTable (image : Bytes) (span : Span) {kind : PoolKind} (items : List (Item kind)) : Prop where
  size : span.size.toNat = items.length
  entries : items ≠ [] → ∃ parts : List Bytes, List.Forall₂ (fun item part => encode item = .ok part) items parts ∧
    image.HasAt span.offset.toNat parts.flatten

/-- A table without entries is one of an empty pool. -/
theorem StoredTable.size_eq_zero_iff {image : Bytes} {span : Span} {kind : PoolKind} {items : List (Item kind)}
    (stored : StoredTable image span items) : span.size = 0 ↔ items = [] := by
  rw [← UInt32.toNat_inj, stored.size]
  exact List.length_eq_zero_iff

/-- The table of the offsets of the strings. -/
structure StoredStrings (image : Bytes) (span : Span) (strings : List StringData) : Prop where
  size : span.size.toNat = strings.length
  entries : strings ≠ [] → ∃ row : List UInt32, image.HasAt span.offset.toNat (row.flatMap Bytes.ofUInt32) ∧
    List.Forall₂ (fun offset string => ∃ bytes, encode string = .ok bytes ∧ image.HasAt offset.toNat bytes) row strings

theorem StoredStrings.size_eq_zero_iff {image : Bytes} {span : Span} {strings : List StringData}
    (stored : StoredStrings image span strings) : span.size = 0 ↔ strings = [] := by
  rw [← UInt32.toNat_inj, stored.size]
  exact List.length_eq_zero_iff

/-- What an image stores that is written as planned. -/
structure Stored (image : Bytes) (pools : Pools) (layout : Layout) : Prop where
  small : image.length < UInt32.size
  sizes : ∀ kind, (pools.pool kind).size < UInt32.size
  data : ∀ kind : PoolKind, kind.toSection.isIdTable = false → (pools.pool kind).items ≠ [] →
    StoredData image layout.offsets (pools.pool kind).items
  strings : StoredStrings image (layout.span .stringId) pools.strings.items
  tables : ∀ kind : PoolKind, kind.toSection.isIdTable = true → kind ≠ .stringId →
    StoredTable image (layout.span kind.toSection) (pools.pool kind).items
  map : layout.map.entries.length < UInt32.size ∧ (layout.span .mapList).offset ≠ 0 ∧
    ∃ bytes, encode layout.map = .ok bytes ∧ image.HasAt (layout.span .mapList).offset.toNat bytes
  /-- References to data items know where these are. -/
  told : ∀ kind, ∀ item ∈ (pools.pool kind).items, ∀ (target : PoolKind) usage index known,
    target.toSection.isIdTable = false → index.toNat < (pools.pool target).size →
      Held.data target usage (some (index, known)) ∈ (itemHolding kind).held item →
        known.isSome ∧ layout.offsets.offset? target.toSection index = known

namespace Planned

variable (planned : Planned header refreshed layout pools)
include planned

/-- A section that has items has an entry in the map. -/
theorem get? {kind : SectionKind} (notHeader : kind ≠ .header) (some : itemCount pools kind ≠ 0) :
    ∃ entry ∈ layout.map.entries, layout.map.get? kind = Option.some entry ∧ entry.kind = kind ∧
      PlannedEntry ⟨layout, layout.fileSize.toNat, pools⟩ entry ∧ encodedSize header ≤ entry.offset.toNat := by
  obtain ⟨entry, member, same⟩ := planned.entered kind some
  have found : (layout.map.get? kind).isSome := by
    rw [MapList.get?, List.find?_isSome]
    exact ⟨entry, member, beq_iff_eq.mpr same⟩
  obtain ⟨first, found⟩ := Option.isSome_iff_exists.mp found
  have member := List.mem_of_find?_eq_some found
  obtain rfl : first.kind = kind := by simpa using List.find?_some found
  obtain ⟨added, listed, -, each⟩ := planned.header
  have behind : first ∈ added := by
    rw [listed] at member
    rcases List.mem_cons.mp member with rfl | member
    · exact absurd rfl notHeader
    · exact member
  exact ⟨first, member, found, rfl, each first behind⟩

/-- A section without items has none. -/
theorem get?_eq_none {kind : SectionKind} (notHeader : kind ≠ .header) (none : itemCount pools kind = 0) :
    layout.map.get? kind = Option.none := by
  rw [MapList.get?, List.find?_eq_none]
  intro entry member same
  obtain rfl : entry.kind = kind := beq_iff_eq.mp same
  obtain ⟨added, listed, -, each⟩ := planned.header
  rw [listed] at member
  rcases List.mem_cons.mp member with rfl | member
  · exact notHeader rfl
  · exact (each entry member).1.some none

theorem length_entries : layout.map.entries.length ≤ 18 := by
  obtain ⟨added, listed, sublist, -⟩ := planned.header
  have length := sublist.length_le
  rw [List.length_map] at length
  rw [listed, List.length_cons]
  exact Nat.succ_le_succ length

end Planned

/-- Strictly increasing offsets are distinct. -/
private theorem nodup_of_pairwise {offsets : List UInt32} {numbers : List Nat}
    (same : offsets.map UInt32.toNat = numbers)
    (increasing : numbers.Pairwise (· < ·)) : offsets.Nodup := by
  subst same
  refine (List.Pairwise.of_map (S := (· ≠ ·)) UInt32.toNat ?_ (increasing.imp Nat.ne_of_lt))
  exact fun first second differ same => differ (congrArg _ same)

theorem size_toSection (pools : Pools) (kind : PoolKind) : pools.size kind.toSection = (pools.pool kind).size := by
  simp [Pools.size]

theorem itemCount_toSection (pools : Pools) (kind : PoolKind) :
    itemCount pools kind.toSection = (pools.pool kind).items.length := by
  rw [Pool.length_items, ← size_toSection]
  exact itemCount_eq (by cases kind <;> decide) (by cases kind <;> decide)

/-- The section of a pool that has items, and what it is written as. -/
theorem Planned.sectionParts (planned : Planned header refreshed layout pools)
    (emitted : Emitted header' pools layout image) {kind : PoolKind} (some : (pools.pool kind).items ≠ [])
    (notStrings : kind ≠ .stringId) :
    ∃ entry parts, layout.map.get? kind.toSection = Option.some entry ∧ entry.kind = kind.toSection ∧
      PlannedEntry ⟨layout, layout.fileSize.toNat, pools⟩ entry ∧ encodedSize header ≤ entry.offset.toNat ∧
      SectionParts pools image entry kind parts := by
  have notHeader : kind.toSection ≠ .header := by cases kind <;> decide
  have count : itemCount pools kind.toSection ≠ 0 := by
    rwa [itemCount_toSection, ne_eq, List.length_eq_zero_iff]
  obtain ⟨entry, member, found, same, plan, behind⟩ := planned.get? notHeader count
  obtain ⟨parts, written⟩ := SectionParts.exists plan (emitted.sections entry member)
    (by rw [same, PoolKind.pool?_toSection] : entry.kind.pool? = Option.some kind)
    (by rw [same]; cases kind <;> first | decide | contradiction)
  exact ⟨entry, parts, found, same, plan, behind, written⟩

theorem storedData (planned : Planned header refreshed layout pools) (emitted : Emitted header' pools layout image)
    {kind : PoolKind} (tracked : kind.toSection.isIdTable = false) (some : (pools.pool kind).items ≠ []) :
    StoredData image layout.offsets (pools.pool kind).items := by
  obtain ⟨entry, parts, -, same, plan, behind, encoded, placed, -⟩ :=
    planned.sectionParts emitted some (by rintro rfl; cases tracked)
  obtain ⟨row, found, numbers, -⟩ :=
    plan.row (by rw [same]; cases kind <;> decide) (by rw [same]; cases kind <;> decide)
  have sizes : sizesOf pools entry.kind = (pools.pool kind).items.map encodedSize := by
    rw [sizesOf, Pools.itemSizes, same, tracked, PoolKind.pool?_toSection]
    exact if_neg Bool.false_ne_true
  have alignment : alignmentOf entry.kind = entry.kind.alignment := by
    rw [alignmentOf, same, tracked]
    exact if_neg Bool.false_ne_true
  rw [sizes, alignment] at numbers
  refine ⟨row, same ▸ found, ?_, ?_⟩
  · refine nodup_of_pairwise numbers (pairwise_starts fun size present => ?_)
    obtain ⟨item, -, rfl⟩ := List.mem_map.mp present
    exact encodedSize_pos item
  · rw [← numbers, List.forall₂_map_right_iff] at placed
    have nonzero : ∀ offset ∈ row.toList, offset ≠ 0 := by
      rintro offset present rfl
      have start : (0 : UInt32).toNat ∈ row.toList.map UInt32.toNat := List.mem_map_of_mem present
      rw [numbers] at start
      have least := le_of_mem_starts start
      have size := header.baseSize_le
      simp only [UInt32.toNat_zero, Header.baseSize] at least size
      omega
    refine List.Forall₂.of_getElem? ?_ fun position offset there => ?_
    · rw [← placed.length_eq, encoded.length_eq]
    · obtain ⟨part, partThere, has⟩ := placed.flip.getElem?_left there
      obtain ⟨item, itemThere, encodes⟩ := encoded.flip.getElem?_left partThere
      exact ⟨item, itemThere, nonzero offset (List.mem_of_getElem? there), part, encodes, has⟩

theorem Planned.size_lt (planned : Planned header refreshed layout pools) (kind : PoolKind) :
    (pools.pool kind).size < UInt32.size := by
  by_cases none : (pools.pool kind).size = 0
  · rw [none]
    decide
  · have count : itemCount pools kind.toSection ≠ 0 := by
      rwa [itemCount_toSection, Pool.length_items]
    obtain ⟨entry, -, -, same, plan, -⟩ := planned.get? (by cases kind <;> decide) count
    have bound := plan.size_le (by rw [same]; cases kind <;> decide) (by rw [same]; cases kind <;> decide)
    rw [same, size_toSection] at bound
    exact Nat.lt_of_le_of_lt bound layout.fileSize.toNat_lt

theorem Planned.span_eq_zero (planned : Planned header refreshed layout pools) {kind : PoolKind}
    (none : (pools.pool kind).items = []) : layout.span kind.toSection = .zero := by
  have count : itemCount pools kind.toSection = 0 := by rw [itemCount_toSection, none, List.length_nil]
  rw [span, planned.get?_eq_none (by cases kind <;> decide) count]

/-- The number of items of a section, as the map has it. -/
theorem PlannedEntry.size_toNat (plan : PlannedEntry ⟨layout, layout.fileSize.toNat, pools⟩ entry) {kind : PoolKind}
    (same : entry.kind = kind.toSection) : entry.size.toNat = (pools.pool kind).items.length := by
  have bound := plan.size_le (by rw [same]; cases kind <;> decide) (by rw [same]; cases kind <;> decide)
  rw [same, size_toSection, ← Pool.length_items] at bound
  rw [plan.size, same, itemCount_toSection, toNat_toUInt32_of_lt]
  exact Nat.lt_of_le_of_lt bound layout.fileSize.toNat_lt

theorem storedTable (planned : Planned header refreshed layout pools) (emitted : Emitted header' pools layout image)
    {kind : PoolKind} (table : kind.toSection.isIdTable = true) (notStrings : kind ≠ .stringId) :
    StoredTable image (layout.span kind.toSection) (pools.pool kind).items := by
  by_cases none : (pools.pool kind).items = []
  · rw [planned.span_eq_zero none]
    exact ⟨by rw [none]; rfl, fun some => absurd none some⟩
  obtain ⟨entry, parts, found, same, plan, -, encoded, -, whole⟩ := planned.sectionParts emitted none notStrings
  have span : layout.span kind.toSection = ⟨entry.size, entry.offset⟩ := by rw [span, found]
  rw [span]
  refine ⟨plan.size_toNat same, fun _ => ⟨parts, encoded, whole fun part member => ?_⟩⟩
  obtain ⟨item, -, encodes⟩ := encoded.exists_of_mem_right member
  rw [length_encode encodes, same]
  cases kind with
  | stringId => exact absurd rfl notStrings
  | typeId => exact ⟨1, rfl⟩
  | protoId => exact ⟨3, rfl⟩
  | fieldId | methodId => exact ⟨2, rfl⟩
  | classDef => exact ⟨8, rfl⟩
  | _ => cases table

theorem storedStrings (planned : Planned header refreshed layout pools) (emitted : Emitted header' pools layout image) :
    StoredStrings image (layout.span .stringId) pools.strings.items := by
  by_cases none : pools.strings.items = []
  · have span := @Planned.span_eq_zero _ _ _ _ planned .stringId none
    exact ⟨by rw [show layout.span .stringId = .zero from span, none]; rfl, fun some => absurd none some⟩
  have count : itemCount pools .stringId ≠ 0 := by
    have count := itemCount_toSection pools .stringId
    change itemCount pools .stringId = pools.strings.items.length at count
    rwa [count, ne_eq, List.length_eq_zero_iff]
  obtain ⟨entry, member, found, same, plan, -⟩ := planned.get? (by decide) count
  obtain ⟨data, dataMember, -, dataKind, dataPlan, -⟩ :=
    planned.get? (show SectionKind.stringData ≠ .header by decide) count
  obtain ⟨parts, encoded, placed, -⟩ := SectionParts.exists dataPlan (emitted.sections data dataMember)
    (by rw [dataKind]; rfl : data.kind.pool? = some .stringId) (by rw [dataKind]; decide)
  obtain ⟨row, rowFound, numbers, -⟩ := dataPlan.row (by rw [dataKind]; decide) (by rw [dataKind]; decide)
  have table := emitted.sections entry member
  rw [dataKind] at rowFound numbers placed
  have row' : layout.offsets.row .stringData = row := by
    rw [OffsetTable.row]
    exact congrArg (Option.getD · #[]) rowFound
  have span : layout.span .stringId = ⟨entry.size, entry.offset⟩ := by rw [span, found]
  rw [span]
  refine ⟨plan.size_toNat (show entry.kind = PoolKind.stringId.toSection from same),
    fun _ => ⟨row.toList, row' ▸ table.words same, ?_⟩⟩
  have numbers : row.toList.map UInt32.toNat =
      starts SectionKind.stringData.alignment data.offset.toNat (pools.strings.items.map encodedSize) := numbers
  have placed : List.Forall₂ (fun part start => image.HasAt start part) parts
      (starts SectionKind.stringData.alignment data.offset.toNat (pools.strings.items.map encodedSize)) := placed
  rw [← numbers, List.forall₂_map_right_iff] at placed
  refine List.Forall₂.of_getElem? ?_ fun position offset there => ?_
  · rw [← placed.length_eq]
    exact encoded.length_eq.symm
  · obtain ⟨part, partThere, has⟩ := placed.flip.getElem?_left there
    obtain ⟨item, itemThere, encodes⟩ := encoded.flip.getElem?_left partThere
    exact ⟨item, itemThere, part, encodes, has⟩

theorem stored_of_planned (planned : Planned header refreshed layout pools)
    (emitted : Emitted header' pools layout image) : Stored image pools layout where
  small := emitted.length ▸ layout.fileSize.toNat_lt
  sizes := planned.size_lt
  data _ tracked some := storedData planned emitted tracked some
  strings := storedStrings planned emitted
  tables _ table notStrings := storedTable planned emitted table notStrings
  map := by
    obtain ⟨entry, member, found, same, -, behind⟩ :=
      planned.get? (show SectionKind.mapList ≠ .header by decide) Nat.one_ne_zero
    have written := (emitted.sections entry member).single (by simp only [partCount, same])
    rw [same] at written
    have span : layout.span .mapList = ⟨entry.size, entry.offset⟩ := by rw [span, found]
    rw [span]
    refine ⟨Nat.lt_of_le_of_lt planned.length_entries (by decide), ?_, written⟩
    rintro zero
    have size := header.baseSize_le
    simp only at zero
    rw [zero] at behind
    simp only [UInt32.toNat_zero, Header.baseSize] at behind size
    omega
  told kind item member target usage index known tracked inside held := by
    have some : (pools.pool target).items ≠ [] := by
      rw [ne_eq, ← List.length_eq_zero_iff, Pool.length_items]
      omega
    obtain ⟨offset, found, rfl⟩ := planned.told target (by cases target <;> first | rfl | cases tracked)
      (by rwa [itemCount_toSection, ne_eq, List.length_eq_zero_iff]) kind item member usage index known held
    exact ⟨rfl, found⟩

end Layout

/-- How an image is written: what is planned is emitted, and the digests are stored last. -/
structure Image.Written (image : Image) (layout : Layout) (bytes : Bytes) (after : Image) : Prop where
  plan : Layout.plan image.header image.pools.refreshAll = (.ok layout, after.pools)
  stored : ∃ unsigned, Layout.emit (layout.applyTo image.header) after.pools layout = .ok unsigned ∧
    (layout.applyTo image.header).updateDigests unsigned = .ok (after.header, bytes)
  map : after.map = layout.map

theorem Image.write_eq_ok {image after : Image} {bytes : Bytes} :
    image.write = (.ok bytes, after) ↔ ∃ layout, image.Written layout bytes after := by
  rw [Image.write]
  constructor
  · intro success
    rcases plan : Layout.plan image.header image.pools.refreshAll with ⟨fault | layout, pools⟩
    · rw [plan] at success
      cases success
    rw [plan] at success
    rcases stored : Layout.emit (layout.applyTo image.header) pools layout >>=
        (layout.applyTo image.header).updateDigests with fault | ⟨header, written⟩
    · simp only [stored] at success
      cases success
    simp only [stored] at success
    obtain ⟨same, rfl⟩ := Prod.mk.inj success
    obtain rfl := Except.ok.inj same
    exact ⟨layout, plan, Result.bind_eq_ok.mp stored, rfl⟩
  · rintro ⟨layout, plan, stored, map⟩
    obtain ⟨header, pools, listed⟩ := after
    obtain rfl : listed = layout.map := map
    rw [plan]
    simp only [Result.bind_eq_ok.mpr stored]

namespace Image.Written

variable {image after : Image} {layout : Layout} {bytes : Bytes} (written : image.Written layout bytes after)
include written

theorem planned : Layout.Planned image.header image.pools.refreshAll layout after.pools := Layout.plan_spec written.plan

/-- An image that is written is written as planned. -/
theorem emitted : Layout.Emitted after.header after.pools layout bytes ∧
    ∃ checksum signature, after.header = { layout.applyTo image.header with checksum, signature } := by
  obtain ⟨unsigned, emitted, digests⟩ := written.stored
  obtain ⟨added, listed, sublist, each⟩ := written.planned.header
  refine (Layout.emit_spec emitted).digested (fun entry member => ?_) digests
  rw [listed] at member
  rcases List.mem_cons.mp member with rfl | member
  · exact .inl ⟨rfl, rfl⟩
  · refine .inr ⟨fun same => ?_, Nat.le_trans (Nat.le_trans ?_ image.header.baseSize_le) (each entry member).2⟩
    · have there := sublist.subset (List.mem_map_of_mem member)
      rw [same] at there
      exact absurd there (by decide)
    · decide

end Image.Written
end DexImage
