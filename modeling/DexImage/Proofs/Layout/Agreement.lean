import DexImage.Proofs.Layout.Stored
/-! # What is planned is what is written

The items of a plan take up extents that do not meet and that fill the image in order (`Layout.Orderly`).
An image of the plan has what each item is encoded as in the item's extent (`Layout.WrittenAsPlanned`), and
only an item that cannot be encoded keeps the image from being written (`Layout.emit_agrees`).
-/

namespace DexImage

/-- The bytes that an item takes up in an image. -/
structure Extent where
  start : Nat
  size : Nat
deriving DecidableEq, Repr

namespace Layout

/-- Where the items of the section of a map entry start. -/
def startsOf (layout : Layout) (entry : MapEntry) : List Nat :=
  match entry.kind with
  | .header | .mapList => [entry.offset.toNat]
  | kind => (layout.offsets.row kind).toList.map UInt32.toNat

/-- The extents of the items of the section of a map entry. -/
def extentsOf (header : Header) (pools : Pools) (layout : Layout) (entry : MapEntry) : List Extent :=
  List.zipWith Extent.mk (layout.startsOf entry) (sizesIn header layout.map pools entry.kind)

/-- How the items of a plan lie. -/
structure Orderly (header : Header) (pools : Pools) (layout : Layout) : Prop where
  /-- Every section that has items is in the map, and no section twice. -/
  sections : (∀ kind, itemCount pools kind ≠ 0 → ∃ entry ∈ layout.map.entries, entry.kind = kind) ∧
    (layout.map.entries.map MapEntry.kind).Nodup
  /-- Every item has an extent. -/
  items : ∀ entry ∈ layout.map.entries, (extentsOf header pools layout entry).length = itemCount pools entry.kind
  /-- A section starts with its first item. -/
  first : ∀ entry ∈ layout.map.entries,
    (extentsOf header pools layout entry).head?.map Extent.start = some entry.offset.toNat
  aligned : ∀ entry ∈ layout.map.entries, ∀ extent ∈ extentsOf header pools layout entry,
    entry.kind.alignment ∣ extent.start
  inside : ∀ entry ∈ layout.map.entries, ∀ extent ∈ extentsOf header pools layout entry,
    0 < extent.size ∧ extent.start + extent.size ≤ layout.fileSize.toNat
  apart : (layout.map.entries.flatMap (extentsOf header pools layout)).Pairwise fun first second =>
    first.start + first.size ≤ second.start

/-- How an image is written of a plan. -/
structure WrittenAsPlanned (header : Header) (pools : Pools) (layout : Layout) (image : Bytes) : Prop where
  length : image.length = layout.fileSize.toNat
  /-- In each extent stands what the item is encoded as. -/
  extents : ∀ entry ∈ layout.map.entries, ∀ (position : Nat) extent,
    (extentsOf header pools layout entry)[position]? = some extent →
      ∃ bytes, encodePart header pools layout entry.kind position = .ok bytes ∧ bytes.length = extent.size ∧
        image.HasAt extent.start bytes
  /-- In particular, the items of a pool are encoded at the offsets that are given out for them. -/
  items : ∀ (kind : SectionKind) (pool : PoolKind), kind.pool? = some pool → kind ≠ .stringId →
    ∀ index item, pools.get? pool index = some item → ∃ offset bytes,
      layout.offsets.offset? kind index = some offset ∧ encode item = .ok bytes ∧ image.HasAt offset.toNat bytes

/-- What goes wrong where an item of some pools cannot be encoded. -/
def ItemFault (pools : Pools) (fault : Fault) : Prop :=
  ∃ (kind : SectionKind) (pool : PoolKind) (index : UInt32) (item : Item pool) (own : Fault),
    kind.pool? = some pool ∧ pools.get? pool index = some item ∧ encode item = .error own ∧
      fault = own.within (.entry kind index.toNat)

section Extents

variable {alignment position : Nat} {sizes : List Nat}

theorem mem_zipWith_starts (pos : 0 < alignment) {extent : Extent}
    (member : extent ∈ List.zipWith Extent.mk (starts alignment position sizes) sizes) :
    alignment ∣ extent.start ∧ position ≤ extent.start ∧
      extent.start + extent.size ≤ behind alignment position sizes ∧ extent.size ∈ sizes := by
  induction sizes generalizing position with
  | nil => cases member
  | cons size rest ih =>
    rw [starts, List.zipWith_cons_cons, List.mem_cons] at member
    rcases member with rfl | member
    · exact ⟨dvd_add_padding pos _, Nat.le_add_right _ _, le_behind _ _ _, List.mem_cons_self⟩
    · obtain ⟨aligned, lower, upper, among⟩ := ih member
      exact ⟨aligned, Nat.le_trans (by omega) lower, upper, List.mem_cons_of_mem _ among⟩

theorem pairwise_zipWith_starts (pos : 0 < alignment) :
    (List.zipWith Extent.mk (starts alignment position sizes) sizes).Pairwise fun first second =>
      first.start + first.size ≤ second.start := by
  induction sizes generalizing position with
  | nil => exact .nil
  | cons size rest ih =>
    rw [starts, List.zipWith_cons_cons]
    exact .cons (fun extent member => (mem_zipWith_starts pos member).2.1) ih

variable {sizes : SectionKind → List Nat} {position last : Nat} {entries : List MapEntry}

theorem Chained.le (chained : Chained sizes position entries last) : position ≤ last := by
  induction chained with
  | nil => exact Nat.le_refl _
  | cons aligned _ ih =>
    refine Nat.le_trans ?_ (Nat.le_trans (le_behind _ _ _) ih)
    omega

theorem Chained.dvd (chained : Chained sizes position entries last) :
    ∀ entry ∈ entries, entry.kind.alignment ∣ entry.offset.toNat := by
  induction chained with
  | nil => exact fun _ member => (List.not_mem_nil member).elim
  | cons aligned _ ih => exact List.forall_mem_cons.mpr ⟨aligned ▸ dvd_add_padding (alignment_pos _) _, ih⟩

/-- The extents of sections that lie one behind the other. -/
theorem Chained.extents (chained : Chained sizes position entries last) {extents : MapEntry → List Extent}
    (same : ∀ entry ∈ entries, extents entry =
      List.zipWith Extent.mk (starts entry.kind.alignment entry.offset.toNat (sizes entry.kind)) (sizes entry.kind)) :
    (entries.flatMap extents).Pairwise (fun first second => first.start + first.size ≤ second.start) ∧
      ∀ extent ∈ entries.flatMap extents, position ≤ extent.start ∧ extent.start + extent.size ≤ last := by
  induction chained with
  | nil => exact ⟨.nil, fun _ member => (List.not_mem_nil member).elim⟩
  | @cons position last entry rest aligned others ih =>
    obtain ⟨here, there⟩ := List.forall_mem_cons.mp same
    obtain ⟨apart, inside⟩ := ih there
    have pos := alignment_pos entry.kind
    rw [List.flatMap_cons, here]
    refine ⟨List.pairwise_append.mpr ⟨pairwise_zipWith_starts pos, apart, fun first member second member' => ?_⟩, ?_⟩
    · exact Nat.le_trans (mem_zipWith_starts pos member).2.2.1 (inside second member').1
    · intro extent member
      rcases List.mem_append.mp member with member | member
      · obtain ⟨-, lower, upper, -⟩ := mem_zipWith_starts pos member
        exact ⟨Nat.le_trans (by omega) lower, Nat.le_trans upper others.le⟩
      · obtain ⟨lower, upper⟩ := inside extent member
        refine ⟨Nat.le_trans ?_ lower, upper⟩
        exact Nat.le_trans (Nat.le_trans (Nat.le_add_right _ _) aligned.ge) (le_behind _ _ _)

end Extents

section Emission

variable {header : Header} {pools : Pools} {layout : Layout} {entry : MapEntry} {fault : Fault}

theorem emitItems_eq_error {kind : SectionKind} {count : Nat} {index : UInt32} {image : Array UInt8}
    (failure : emitItems pools kind count index image = .error fault) :
    ∃ position < count, pools.encodeItem kind (index + position.toUInt32) = .error fault := by
  induction count generalizing index image with
  | zero => cases failure
  | succ count ih =>
    rcases first : pools.encodeItem kind index with other | part
    · rw [emitItems, first] at failure
      obtain rfl := Except.error.inj failure
      exact ⟨0, Nat.succ_pos _, by rw [← first]; congr 1; exact UInt32.add_zero index⟩
    · rw [emitItems, first] at failure
      obtain ⟨position, below, encodes⟩ := ih failure
      refine ⟨position + 1, Nat.succ_lt_succ below, ?_⟩
      rw [← encodes, UInt32.add_assoc]
      congr 2
      rw [← UInt32.toNat_inj]
      simp [Nat.add_comm]

/-- A section that is reached where it was planned fails at one of its items. -/
theorem emitSection_eq_error {image : Array UInt8}
    (reached : entry.offset.toNat = image.size + Bytes.padding image.size entry.kind.alignment)
    (failure : emitSection header pools layout entry image = .error fault) :
    entry.kind.pool?.isSome ∧
      ∃ position < entry.size.toNat, pools.encodeItem entry.kind position.toUInt32 = .error fault := by
  have length : (pad image entry.kind.alignment).size = entry.offset.toNat := by
    rw [← Array.length_toList, toList_pad, List.length_append, Bytes.zeros, List.length_replicate,
      Array.length_toList, reached]
  rw [emitSection_of_reached length] at failure
  obtain ⟨kind, count, offset⟩ := entry
  have items (failure : emitItems pools kind count.toNat 0 (pad image kind.alignment) = .error fault) :
      ∃ position < count.toNat, pools.encodeItem kind position.toUInt32 = .error fault := by
    obtain ⟨position, below, encodes⟩ := emitItems_eq_error failure
    exact ⟨position, below, by rwa [UInt32.zero_add] at encodes⟩
  cases kind with
  | header | mapList | stringId => cases failure
  | _ => exact ⟨rfl, items failure⟩

/-- Sections that lie one behind the other are reached where they were planned. -/
theorem emitSections_chained {sizes : SectionKind → List Nat} {position last : Nat} {entries : List MapEntry}
    (chained : Chained sizes position entries last) {image : Array UInt8} (reached : image.size = position)
    (lengths : ∀ entry ∈ entries, ∀ parts, WrittenParts header pools layout entry parts →
      parts.map List.length = sizes entry.kind) :
    (∀ after, emitSections header pools layout entries image = .ok after → after.size = last) ∧
      ∀ fault, emitSections header pools layout entries image = .error fault →
        ∃ entry ∈ entries, entry.kind.pool?.isSome ∧
          ∃ position < entry.size.toNat, pools.encodeItem entry.kind position.toUInt32 = .error fault := by
  induction chained generalizing image with
  | nil =>
    refine ⟨fun after success => ?_, fun fault failure => (by cases failure)⟩
    obtain rfl := Except.ok.inj success
    exact reached
  | @cons position last entry rest aligned others ih =>
    obtain ⟨here, there⟩ := List.forall_mem_cons.mp lengths
    rw [emitSections]
    rcases first : emitSection header pools layout entry image with fault | between
    · refine ⟨fun after success => (by cases success), fun other failure => ?_⟩
      obtain rfl := Except.error.inj failure
      exact ⟨entry, List.mem_cons_self, emitSection_eq_error (reached ▸ aligned) first⟩
    · obtain ⟨length, parts, written, same⟩ := emitSection_eq_ok first
      have reached : between.size = behind entry.kind.alignment entry.offset.toNat (sizes entry.kind) := by
        rw [← Array.length_toList, same, length_laid, length, here parts written]
      obtain ⟨success, failure⟩ := ih reached there
      refine ⟨success, fun fault failing => ?_⟩
      obtain ⟨entry, member, found⟩ := failure fault failing
      exact ⟨entry, List.mem_cons_of_mem _ member, found⟩

end Emission

section Plans

variable {header header' : Header} {refreshed pools : Pools} {layout : Layout} {entry : MapEntry}

theorem size_eq (pools : Pools) {kind : SectionKind} {pool : PoolKind} (found : kind.pool? = some pool) :
    pools.size kind = (pools.pool pool).items.length := by
  rw [Pool.length_items, Pools.size, found]

/-- The sizes of a section with a pool are those of the items, id tables included. -/
theorem sizesOf_eq_map (pools : Pools) {kind : SectionKind} {pool : PoolKind} (found : kind.pool? = some pool)
    (notStrings : kind ≠ .stringId) : sizesOf pools kind = (pools.pool pool).items.map encodedSize := by
  by_cases table : kind.isIdTable = true
  · have same (item : Item pool) : encodedSize item = idEntrySize kind := by
      cases kind <;> cases found <;> first | contradiction | rfl
    rw [sizesOf, if_pos table, size_eq pools found]
    exact (List.eq_replicate_iff.mpr ⟨List.length_map _, fun size member => by
      obtain ⟨item, -, rfl⟩ := List.mem_map.mp member
      exact same item⟩).symm
  · rw [sizesOf, if_neg table, Pools.itemSizes, found]

theorem sizesIn_pos : ∀ size ∈ sizesIn header layout.map pools entry.kind, 0 < size := by
  intro size member
  by_cases notHeader : entry.kind = .header
  · rw [notHeader] at member
    obtain rfl := List.mem_singleton.mp member
    exact Nat.lt_of_lt_of_le (by decide) header.baseSize_le
  by_cases notMap : entry.kind = .mapList
  · rw [notMap] at member
    obtain rfl := List.mem_singleton.mp member
    exact Nat.lt_of_lt_of_le (by decide : 0 < 4) (Nat.le_add_right _ _)
  rw [sizesIn_eq notHeader notMap] at member
  exact sizesOf_pos size member

theorem length_sizesIn (header : Header) (map : MapList) (pools : Pools) (kind : SectionKind) :
    (sizesIn header map pools kind).length = itemCount pools kind := by
  by_cases notHeader : kind = .header
  · rw [notHeader]
    rfl
  by_cases notMap : kind = .mapList
  · rw [notMap]
    rfl
  rw [sizesIn_eq notHeader notMap, length_sizesOf, itemCount_eq notHeader notMap]

theorem startsOf_eq_map (notHeader : entry.kind ≠ .header) (notMap : entry.kind ≠ .mapList) :
    layout.startsOf entry = (layout.offsets.row entry.kind).toList.map UInt32.toNat := by
  obtain ⟨kind, size, offset⟩ := entry
  cases kind <;> first | contradiction | rfl

/-- A plan is a plan for every header of the same size. -/
theorem Planned.congr (planned : Planned header refreshed layout pools)
    (size : encodedSize header' = encodedSize header) : Planned header' refreshed layout pools where
  pools := planned.pools
  chained := by
    have sizes : sizesIn header' layout.map pools = sizesIn header layout.map pools := by
      funext kind
      cases kind <;> first | rfl | exact congrArg (fun size => [size]) size
    rw [sizes]
    exact planned.chained
  header := by
    rw [size]
    exact planned.header
  entered := planned.entered
  told := planned.told

namespace Planned

variable (planned : Planned header refreshed layout pools)
include planned

/-- What is known of every section in the map but the header. -/
theorem entry_of_ne (member : entry ∈ layout.map.entries) (notHeader : entry.kind ≠ .header) :
    PlannedEntry ⟨layout, layout.fileSize.toNat, pools⟩ entry := by
  obtain ⟨added, listed, -, each⟩ := planned.header
  rw [listed] at member
  rcases List.mem_cons.mp member with rfl | member
  · exact absurd rfl notHeader
  · exact (each entry member).1

theorem startsOf (member : entry ∈ layout.map.entries) : layout.startsOf entry =
    starts entry.kind.alignment entry.offset.toNat (sizesIn header layout.map pools entry.kind) := by
  have dvd := planned.chained.dvd entry member
  have single (size : Nat) : [entry.offset.toNat] = starts entry.kind.alignment entry.offset.toNat [size] := by
    rw [starts, starts, padding_of_dvd dvd, Nat.add_zero]
  by_cases notHeader : entry.kind = .header
  · simp only [Layout.startsOf, notHeader, sizesIn]
    exact notHeader ▸ single _
  by_cases notMap : entry.kind = .mapList
  · simp only [Layout.startsOf, notMap, sizesIn]
    exact notMap ▸ single _
  obtain ⟨row, found, numbers, -⟩ := (planned.entry_of_ne member notHeader).row notHeader notMap
  rw [startsOf_eq_map notHeader notMap, OffsetTable.row, found, Option.getD_some, numbers,
    (placed_alignmentOf pools dvd).1,
    sizesIn_eq notHeader notMap]

/-- There is a word for each string, and each takes four bytes. -/
theorem lengths_strings (member : entry ∈ layout.map.entries) (strings : entry.kind = .stringId) {parts : List Bytes}
    (written : WrittenParts header pools layout entry parts) :
    parts.map List.length = List.replicate (itemCount pools .stringId) 4 := by
  have count := (planned.entry_of_ne member (by rw [strings]; decide)).some
  rw [strings] at count
  obtain ⟨data, dataMember, -, dataKind, -⟩ :=
    planned.get? (show SectionKind.stringData ≠ .header by decide) (show itemCount pools .stringData ≠ 0 from count)
  have length := congrArg List.length (planned.startsOf dataMember)
  rw [length_starts, length_sizesIn, Layout.startsOf, dataKind, List.length_map, Array.length_toList] at length
  have words : ∀ part ∈ parts, part.length = 4 := by
    intro part member
    obtain ⟨position, found⟩ := List.mem_iff_getElem?.mp member
    have word := written.encoded position part found
    rw [strings] at word
    obtain rfl := Except.ok.inj word
    exact Bytes.length_littleEndian _ _
  refine List.eq_replicate_iff.mpr ⟨?_, List.forall_mem_map.mpr words⟩
  rw [List.length_map, written.length, partCount, strings]
  exact length

/-- What is written of a section takes the sizes that were planned. -/
theorem lengths (member : entry ∈ layout.map.entries) {parts : List Bytes}
    (written : WrittenParts header pools layout entry parts) :
    parts.map List.length = sizesIn header layout.map pools entry.kind := by
  have single {bytes : Bytes} {size : Nat} (one : partCount layout entry = 1)
      (encoded : encodePart header pools layout entry.kind 0 = .ok bytes) (length : bytes.length = size) :
      parts.map List.length = [size] := by
    obtain ⟨part, rfl⟩ := List.length_eq_one_iff.mp (written.length.trans one)
    obtain rfl := Except.ok.inj ((written.encoded 0 part rfl).symm.trans encoded)
    rw [List.map_singleton, length]
  by_cases notHeader : entry.kind = .header
  · rw [notHeader]
    exact single (by rw [partCount, notHeader]) (by rw [notHeader]; exact header.encode_eq)
      (Header.length_encode header.encode_eq)
  by_cases notMap : entry.kind = .mapList
  · rw [notMap]
    exact single (by rw [partCount, notMap]) (by rw [notMap]; rfl) (MapList.length_encode rfl)
  rw [sizesIn_eq notHeader notMap]
  by_cases strings : entry.kind = .stringId
  · rw [planned.lengths_strings member strings written, strings]
    rfl
  · obtain ⟨pool, found⟩ : ∃ pool, entry.kind.pool? = some pool := by
      cases same : entry.kind <;> first | exact ⟨_, rfl⟩ | contradiction
    rw [sizesOf_eq_map pools found strings]
    exact map_length_eq (written.items (planned.entry_of_ne member notHeader) found strings)

theorem extentsOf (member : entry ∈ layout.map.entries) : extentsOf header pools layout entry =
    List.zipWith Extent.mk
      (starts entry.kind.alignment entry.offset.toNat (sizesIn header layout.map pools entry.kind))
      (sizesIn header layout.map pools entry.kind) := by
  rw [Layout.extentsOf, planned.startsOf member]

theorem itemCount_ne_zero (member : entry ∈ layout.map.entries) : itemCount pools entry.kind ≠ 0 := by
  by_cases notHeader : entry.kind = .header
  · rw [notHeader]
    exact Nat.one_ne_zero
  · exact (planned.entry_of_ne member notHeader).some

theorem orderly : Orderly header pools layout where
  sections := by
    refine ⟨planned.entered, List.Nodup.sublist ?_ (by decide : order.Nodup)⟩
    obtain ⟨added, listed, sublist, -⟩ := planned.header
    rw [listed]
    exact sublist.cons_cons _
  items entry member := by
    rw [planned.extentsOf member, List.length_zipWith, length_starts, Nat.min_self, length_sizesIn]
  first entry member := by
    have some := planned.itemCount_ne_zero member
    rw [← length_sizesIn header layout.map pools] at some
    rw [planned.extentsOf member]
    rcases sizes : sizesIn header layout.map pools entry.kind with _ | ⟨size, rest⟩
    · rw [sizes] at some
      exact absurd rfl some
    · rw [starts, List.zipWith_cons_cons, padding_of_dvd (planned.chained.dvd entry member)]
      rfl
  aligned entry member extent there := by
    rw [planned.extentsOf member] at there
    exact (mem_zipWith_starts (alignment_pos _) there).1
  inside entry member extent there := by
    have upper := ((planned.chained.extents fun _ => planned.extentsOf).2 extent
      (List.mem_flatMap.mpr ⟨entry, member, there⟩)).2
    rw [planned.extentsOf member] at there
    exact ⟨sizesIn_pos _ (mem_zipWith_starts (alignment_pos _) there).2.2.2, upper⟩
  apart := (planned.chained.extents fun _ => planned.extentsOf).1

/-- An image that is written of a plan is written as planned. -/
theorem writtenAsPlanned {image : Bytes} (emitted : Emitted header pools layout image) :
    WrittenAsPlanned header pools layout image where
  length := emitted.length
  extents entry member position extent found := by
    obtain ⟨parts, written, there⟩ := (emitted.sections entry member).parts
    rw [planned.extentsOf member, ← planned.lengths member written, List.getElem?_zipWith_eq_some] at found
    obtain ⟨start, size, startThere, sizeThere, rfl⟩ := found
    rw [List.getElem?_map] at sizeThere
    obtain ⟨part, partThere, rfl⟩ := Option.map_eq_some_iff.mp sizeThere
    obtain ⟨other, otherThere, has⟩ := there.getElem?_left partThere
    obtain rfl := Option.some.inj (startThere.symm.trans otherThere)
    exact ⟨part, written.encoded position part partThere, rfl, has⟩
  items kind pool found notStrings index item present := by
    have notHeader : kind ≠ .header := by rintro rfl; cases found
    have notMap : kind ≠ .mapList := by rintro rfl; cases found
    have present := Pool.get?_eq_some.mp present
    have count : itemCount pools kind ≠ 0 := by
      rw [itemCount_eq notHeader notMap, size_eq pools found]
      exact Nat.ne_of_gt (Nat.zero_lt_of_lt (List.getElem?_eq_some_iff.mp present).1)
    obtain ⟨entry, member, rfl⟩ := planned.entered kind count
    obtain ⟨parts, written, there⟩ := (emitted.sections entry member).parts
    have starts := planned.startsOf member
    rw [← planned.lengths member written, startsOf_eq_map notHeader notMap] at starts
    obtain ⟨bytes, partThere, encodes⟩ :=
      (written.items (planned.entry_of_ne member notHeader) found notStrings).getElem?_left present
    obtain ⟨start, startThere, has⟩ := there.getElem?_left partThere
    rw [← starts, List.getElem?_map] at startThere
    obtain ⟨offset, offsetThere, rfl⟩ := Option.map_eq_some_iff.mp startThere
    refine ⟨offset, bytes, ?_, encodes, has⟩
    rw [offset?_eq_row, ← Array.getElem?_toList, offsetThere]

/-- Writing an image of a plan fails only at an item. -/
theorem itemFault {fault : Fault} (failure : emit header pools layout = .error fault) : ItemFault pools fault := by
  obtain ⟨reached, failing⟩ := emitSections_chained planned.chained Array.size_empty fun _ member _ =>
    planned.lengths member
  rcases run : emitSections header pools layout layout.map.entries #[] with other | image
  · rw [emit, run] at failure
    obtain rfl := Except.error.inj failure
    obtain ⟨entry, member, pooled, position, below, encodes⟩ := failing _ run
    obtain ⟨pool, found⟩ := Option.isSome_iff_exists.mp pooled
    have notHeader : entry.kind ≠ .header := fun same => by rw [same] at found; cases found
    have notMap : entry.kind ≠ .mapList := fun same => by rw [same] at found; cases found
    have inside : position < (pools.pool pool).items.length := by
      rw [(planned.entry_of_ne member notHeader).size, itemCount_eq notHeader notMap, size_eq pools found,
        Nat.toUInt32_eq, UInt32.toNat_ofNat'] at below
      exact Nat.lt_of_lt_of_le below (Nat.mod_le _ _)
    have small : position.toUInt32.toNat = position := toNat_toUInt32_of_lt (Nat.lt_trans below entry.size.toNat_lt)
    have present : pools.get? pool position.toUInt32 = some (pools.pool pool).items[position] :=
      Pool.get?_eq_some.mpr (by rw [small]; exact List.getElem?_eq_getElem inside)
    rw [Pools.encodeItem, found] at encodes
    simp only [present] at encodes
    rcases own : encode (pools.pool pool).items[position] with fault | bytes
    · rw [own] at encodes
      exact ⟨entry.kind, pool, _, _, fault, found, present, own, (Except.error.inj encodes).symm⟩
    · rw [own] at encodes
      cases encodes
  · rw [emit, run] at failure
    change (do
      if image.size ≠ layout.fileSize.toNat then throw (Fault.of (.imageMissized image.size layout.fileSize.toNat))
      return image.toList : Result Bytes) = .error fault at failure
    rw [if_neg (not_not.mpr (reached image run))] at failure
    cases failure

end Planned

end Plans

theorem encodedSize_applyTo (layout : Layout) (header : Header) :
    encodedSize (layout.applyTo header) = encodedSize header := by
  obtain ⟨magic, checksum, signature, fileSize, headerSize, endianTag, link, mapOffset, stringIds, typeIds, protoIds,
    fieldIds, methodIds, classDefs, data, _ | container, surplus⟩ := header <;> rfl

/-- A plan and the image that is written of it agree: the items lie one behind the other without meeting, in
the image they stand where they were planned, and only an item that cannot be encoded keeps the image from
being written. -/
theorem emit_agrees {header : Header} {pools placed : Pools} {layout : Layout}
    (success : plan header pools = (.ok layout, placed)) :
    Orderly (layout.applyTo header) placed layout ∧
    (∀ image, emit (layout.applyTo header) placed layout = .ok image →
      WrittenAsPlanned (layout.applyTo header) placed layout image) ∧
    (∀ fault, emit (layout.applyTo header) placed layout = .error fault → ItemFault placed fault) ∧
    (∀ kind planned reached, emit (layout.applyTo header) placed layout ≠
      .error (.of (.sectionMisplaced kind planned reached))) ∧
    ∀ size planned, emit (layout.applyTo header) placed layout ≠ .error (.of (.imageMissized size planned)) := by
  have planned := (plan_spec success).congr (encodedSize_applyTo layout header)
  have pathless (cause : Cause) : ¬ ItemFault placed (.of cause) := by
    rintro ⟨kind, pool, index, item, own, -, -, -, same⟩
    have path := congrArg (List.length ∘ Fault.path) same
    simp [Fault.of, Fault.within] at path
  refine ⟨planned.orderly, fun image written => planned.writtenAsPlanned (emit_spec written),
    fun fault => planned.itemFault, ?_, ?_⟩
  · intro kind position reached failure
    exact pathless _ (planned.itemFault failure)
  · intro size position failure
    exact pathless _ (planned.itemFault failure)

/-- Pools with a method whose code is laid out before the class data that leads to it. -/
def oneMethod : Pools :=
  { Pools.empty with
    classData := .ofList [⟨[], [], [⟨.of 0, 9, .unplaced 0⟩], []⟩]
    codes := .ofList [.ofUnits 1 0 0 [0x000e]] }

/-- The layout of `oneMethod`. The offset of the code takes the class data a second byte. -/
def oneMethodLayout : Layout where
  offsets := ⟨[(.classData, #[130]), (.code, #[112])]⟩
  map := ⟨[⟨.header, 1, 0⟩, ⟨.code, 1, 112⟩, ⟨.classData, 1, 130⟩, ⟨.mapList, 1, 140⟩]⟩
  dataOffset := 112
  fileSize := 192

theorem emit_agrees_oneMethod :
    (plan (.ofVersion 35) oneMethod).1 = .ok oneMethodLayout ∧
    ∃ image, emit (oneMethodLayout.applyTo (.ofVersion 35)) (plan (.ofVersion 35) oneMethod).2 oneMethodLayout =
        .ok image ∧
      WrittenAsPlanned (oneMethodLayout.applyTo (.ofVersion 35)) (plan (.ofVersion 35) oneMethod).2 oneMethodLayout
        image := by
  have found : (plan (.ofVersion 35) oneMethod).1.toOption = some oneMethodLayout := by decide +kernel
  have success : (emit (oneMethodLayout.applyTo (.ofVersion 35)) (plan (.ofVersion 35) oneMethod).2
      oneMethodLayout).toOption.isSome = true := by decide +kernel
  rcases planned : plan (.ofVersion 35) oneMethod with ⟨fault | layout, placed⟩
  · rw [planned] at found
    cases found
  · rw [planned] at found success
    obtain rfl := Option.some.inj found
    obtain ⟨-, written, -⟩ := emit_agrees planned
    refine ⟨rfl, ?_⟩
    rcases emitted : emit (oneMethodLayout.applyTo (.ofVersion 35)) placed oneMethodLayout with fault | image
    · rw [emitted] at success
      cases success
    · exact ⟨image, rfl, written image emitted⟩

end Layout
end DexImage
