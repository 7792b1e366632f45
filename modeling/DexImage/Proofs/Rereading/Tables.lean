import DexImage.Proofs.Loading.Tables
import DexImage.Proofs.Rereading.Items
/-! # Retracing the id tables

Each table has as many entries as its pool has items in the end, so that every entry that is read is one more
item of the pool, and the entries of two tables are read item by item.
-/

namespace DexImage

open Loading Layout

variable {image : Bytes} {items : Pools} {offsets : OffsetTable} {kind : PoolKind}

namespace Loading

theorem entry_eq_ok {step : Nat → Loading (Item kind)} {index : Nat} {one after : Loader} {value : Unit}
    (run : entry kind step index one = (.ok value, after)) :
    ∃ item mid, step index one = (.ok item, mid) ∧ after = { mid with pools := mid.pools.push kind item } := by
  obtain ⟨item, mid, first, run⟩ := Reading.bind_eq_ok.mp run
  change ((fun _ => ()) <$> Loading.append kind item : Loading Unit) mid = (.ok value, after) at run
  rw [← bind_pure_comp] at run
  obtain ⟨number, pushed, second, last⟩ := Reading.bind_eq_ok.mp run
  obtain ⟨-, rfl⟩ := Reading.pure_eq_ok.mp last
  obtain ⟨-, rfl⟩ := Prod.mk.inj second
  exact ⟨item, mid, first, rfl⟩

theorem keeps_entry (table : kind.toSection.isIdTable = true) {step : Nat → Loading (Item kind)}
    (each : ∀ index, Keeps (step index) RegularItem) (index : Nat) :
    Keeps (entry kind step index) fun _ _ => True := by
  constructor
  intro loader value after run regular
  obtain ⟨item, mid, first, rfl⟩ := entry_eq_ok run
  obtain ⟨regular, grows, -⟩ := (Keeps.append table (each index)).holds loader (mid.pools.pool kind).nextIndex
    { mid with pools := mid.pools.push kind item } (Reading.bind_eq_ok.mpr ⟨item, mid, first, rfl⟩) regular
  exact ⟨regular, grows, trivial⟩

/-- Every entry is one more item of the pool, at least. -/
theorem length_le_of_entries (table : kind.toSection.isIdTable = true) {step : Nat → Loading (Item kind)}
    (each : ∀ index, Keeps (step index) RegularItem) {index : Nat}
    {units : List Unit} {one after : Loader} (turns : Reading.InTurn (entry kind step) index units one after)
    (regular : one.Regular) : (one.pools.pool kind).size + units.length ≤ (after.pools.pool kind).size := by
  induction turns with
  | nil => exact Nat.le_refl _
  | @cons index value units one mid after head _ ih =>
    obtain ⟨item, before, first, rfl⟩ := entry_eq_ok head
    obtain ⟨regular', grows, -⟩ := (each index).holds _ _ _ first regular
    obtain ⟨pushed, -, -⟩ := (keeps_entry table each index).holds _ _ _ head regular
    have most := ih pushed
    have least := grows.size_le kind
    rw [Pools.pool_push_self, Pool.size_push] at most
    rw [List.length_cons]
    omega

/-- An entry that is appended at an index stays there. -/
theorem getElem?_of_push {pools : Pools} {index : Nat} {item : Item kind} (place : (pools.pool kind).size = index)
    (grows : (pools.push kind item).Extends items) : (items.pool kind).items[index]? = some item := by
  obtain ⟨last, same⟩ := grows kind
  rw [Pools.pool_push_self] at same
  have found : (pools.pool kind).entries.size = index := place
  rw [Pool.items, ← same]
  simp [Pool.push, ← found]

end Loading

namespace Retraces

/-- An entry is retraced that is appended. -/
protected theorem entry {step : Nat → Loading (Item kind)} {index : Nat} {one before : Loader} {item : Item kind}
    {part : Bytes} (retraces : Retraces image offsets (step index) one before part (moved offsets.finder item)) :
    Retraces image offsets (entry kind step index) one
      { before with pools := before.pools.push kind item } part () := by
  intro again mirrors there
  obtain ⟨between, run, cursor, mirrors'⟩ := retraces again mirrors there
  exact ⟨{ between with pools := between.pools.push kind (moved offsets.finder item) }, (Reading.bind_ok run).trans rfl,
    cursor, mirrors'.push kind item rfl rfl rfl mirrors'.loaded⟩

/-- The entries of a table are retraced one by one. -/
theorem entries (table : kind.toSection.isIdTable = true) {step : Nat → Loading (Item kind)}
    {written : Item kind → Bytes → Prop}
    (keeps : ∀ index, Keeps (step index) RegularItem)
    (each : ∀ index one item mid part, step index one = (.ok item, mid) → one.Regular → mid.pools.Extends items →
      written item part → Retraces image offsets (step index) one mid part (moved offsets.finder item))
    {index : Nat} {units found : List Unit} {one after : Loader}
    (turns : Reading.InTurn (entry kind step) index units one after) (regular : one.Regular)
    (final : after.pools.Extends items) (least : index ≤ (one.pools.pool kind).size)
    (count : (items.pool kind).size = index + units.length) {parts : List Bytes}
    (parted : List.Forall₂ written ((items.pool kind).items.drop index) parts) :
    Retraces image offsets (Reading.collect.go (entry kind step) units.length index found) one after parts.flatten
      (found.reverse ++ units) := by
  induction turns generalizing found parts with
  | nil =>
    rw [List.drop_eq_nil_of_le (by rw [Pool.length_items, count]; rfl)] at parted
    obtain rfl := List.forall₂_nil_left_iff.mp parted
    rw [List.append_nil]
    exact .pure _
  | @cons index value units one mid after head others ih =>
    obtain ⟨item, before, first, rfl⟩ := entry_eq_ok head
    obtain ⟨regular', grows, -⟩ := (keeps index).holds _ _ _ first regular
    obtain ⟨pushed, -, -⟩ := (keeps_entry table keeps index).holds _ _ _ head regular
    have rest := others.grows (keeps_entry table keeps) pushed
    -- As the pool does not get longer than that, the item is appended at its index.
    have place : (before.pools.pool kind).size = index := by
      have least' := grows.size_le kind
      have most := length_le_of_entries table keeps others pushed
      have last := final.size_le kind
      rw [Pools.pool_push_self, Pool.size_push] at most
      rw [List.length_cons] at count
      omega
    have stored := getElem?_of_push place (rest.trans final)
    obtain ⟨inside, same⟩ := List.getElem?_eq_some_iff.mp stored
    rw [List.drop_eq_getElem_cons inside, same] at parted
    obtain ⟨part, parts, here, remaining, rfl⟩ := List.forall₂_cons_left_iff.mp parted
    have appended := Pools.extends_push before.pools kind item
    have retraced := each index one item before part first regular (appended.trans (rest.trans final)) here
    have least : index + 1 ≤ ((before.pools.push kind item).pool kind).size := by
      rw [Pools.pool_push_self, Pool.size_push, place]
    have count : (items.pool kind).size = index + 1 + units.length := by
      rw [count, List.length_cons, Nat.add_assoc, Nat.add_comm 1]
    have others := @ih (value :: found) pushed final least count _ remaining
    rw [List.reverse_cons, List.append_assoc, List.singleton_append] at others
    rw [List.length_cons, Reading.collect.go, List.flatten_cons]
    exact retraced.entry.bind others

end Retraces

/-- Whether a step that has led from a loader to another one does so again as another step, wherever the loader
stands. -/
def Repeats (image : Bytes) (offsets : OffsetTable) {α : Type}
    (step : Loading α) (value : α) (one after : Loader) : Prop :=
  ∀ again : Loader, one.Mirrors image offsets again →
    ∃ after', step again = (.ok value, after') ∧ after.Mirrors image offsets after'

theorem retraces_stringEntry (index : Nat) {one mid : Loader}
    {string : Item .stringId} (offset : UInt32) {bytes : Bytes}
    (run : stringEntry index one = (.ok string, mid)) (regular : one.Regular) (final : mid.pools.Extends items)
    (written : encode (moved offsets.finder string) = .ok bytes) (small : bytes.length < UInt32.size)
    (has : image.HasAt offset.toNat bytes) :
    Retraces image offsets (stringEntry index) one mid (Bytes.ofUInt32 offset) (moved offsets.finder string) := by
  obtain ⟨old, first, -, before, run⟩ := (Still.ofDecoder _).bind_eq_ok run
  obtain ⟨start, stop, before', run, behind⟩ := detour_eq_ok run
  have final : stop.pools.Extends items := behind.pools ▸ final
  have string : Retraces image offsets _ _ _ _ _ :=
    (retraces_stringData start string stop bytes (Reading.within_eq_ok.mp run)
    ((before.trans before').regular regular) final written small).within (.itemAt .stringData offset.toNat)
  rw [← List.append_nil (Bytes.ofUInt32 offset)]
  exact .read_bind (.u4 _) ((string.detour (.entry .stringId index) has).beside (before.trans before') behind)

namespace Repeats

variable {step : Nat → Loading (Item kind)} {one after : Loader}
  {span there : Span} {written : Item kind → Bytes → Prop}

protected theorem bind {α β : Type} {first : Loading α} {next : α → Loading β}
    {value : α} {result : β} {mid : Loader}
    (repeats : Repeats image offsets first value one mid)
    (then' : Repeats image offsets (next value) result mid after) :
    Repeats image offsets (first >>= next) result one after := by
  intro again mirrors
  obtain ⟨between, run, mirrors⟩ := repeats again mirrors
  obtain ⟨after', run', mirrors⟩ := then' between mirrors
  exact ⟨after', (Reading.bind_ok run).trans run', mirrors⟩

protected theorem pure {α : Type} (value : α) : Repeats image offsets (pure value) value one one :=
  fun again mirrors => ⟨again, rfl, mirrors⟩

/-- A table is read again where it has been written. -/
theorem entries (table : kind.toSection.isIdTable = true) (keeps : ∀ index, Keeps (step index) RegularItem)
    (each : ∀ index one item mid part, step index one = (.ok item, mid) → one.Regular → mid.pools.Extends items →
      written item part → Retraces image offsets (step index) one mid part (moved offsets.finder item))
    {offset there size : UInt32} (run : (do
      Reading.within (.table kind.toSection) (ofDecoder (Decoder.seek offset.toNat))
      discard <| Reading.collect size.toNat (entry kind step)) one = (.ok (), after))
    (regular : one.Regular) (final : after.pools.Extends items) (count : size.toNat = (items.pool kind).size)
    {parts : List Bytes} (parted : List.Forall₂ written (items.pool kind).items parts)
    (has : image.HasAt there.toNat parts.flatten) :
    Repeats image offsets (do
      Reading.within (.table kind.toSection) (ofDecoder (Decoder.seek there.toNat))
      discard <| Reading.collect size.toNat (entry kind step)) () one after := by
  obtain ⟨_, start, -, before, run⟩ := ((Still.ofDecoder _).within _).bind_eq_ok run
  change ((fun _ => ()) <$> Reading.collect size.toNat (entry kind step) : Loading Unit) start = (.ok (), after) at run
  rw [← bind_pure_comp] at run
  obtain ⟨units, stop, run, last⟩ := Reading.bind_eq_ok.mp run
  obtain ⟨-, rfl⟩ := Reading.pure_eq_ok.mp last
  obtain ⟨length, turns⟩ := Reading.collect_eq_ok run
  have collected :
      Retraces image offsets (Reading.collect units.length (entry kind step)) one after parts.flatten units :=
    (Retraces.entries table keeps each turns (before.regular regular) final (Nat.zero_le _)
      (by rw [← count, length, Nat.zero_add]) parted).beside before (.refl _)
  intro again mirrors
  obtain ⟨after', run', -, mirrors'⟩ := collected
    { again with cursor := { again.cursor with position := there.toNat } } (mirrors.moveTo _)
    (has.ahead_of mirrors.bytes mirrors.littleEndian rfl)
  refine ⟨after', ?_, mirrors'⟩
  rw [Reading.bind_ok (Reading.within_ok (Loading.seek_run (has.le_size mirrors.bytes))), ← length]
  exact (Reading.bind_ok run').trans rfl

theorem loadTable (holds : Holds image items offsets) (table : kind.toSection.isIdTable = true)
    (run : Image.loadTable kind span one = (.ok (), after)) (regular : one.Regular)
    (final : after.pools.Extends items) (count : span.size.toNat = (items.pool kind).size)
    (stored : StoredTable image there ((items.pool kind).items.map (moved offsets.finder))) :
    Repeats image offsets (Image.loadTable kind there) () one after := by
  have size : there.size = span.size :=
    UInt32.toNat_inj.mp (by rw [stored.size, List.length_map, Pool.length_items, count])
  rw [Image.loadTable] at run ⊢
  rw [size]
  split_ifs at run ⊢ with zero
  · obtain ⟨-, rfl⟩ := Reading.pure_eq_ok.mp run
    exact .pure ()
  · obtain ⟨parts, parted, has⟩ := stored.entries (stored.size_eq_zero_iff.not.mp (size ▸ zero))
    rw [List.forall₂_map_left_iff] at parted
    have small :
      List.Forall₂ (fun item part => encode (moved offsets.finder item) = .ok part ∧ part.length < UInt32.size)
        (items.pool kind).items parts := by
      refine List.Forall₂.of_getElem? parted.length_eq fun position item found => ?_
      obtain ⟨part, listed, encoded⟩ := parted.getElem?_left found
      have within := (List.sublist_flatten_of_mem (List.mem_of_getElem? listed)).length_le
      have length := has.length_le
      have small := holds.small
      exact ⟨part, listed, encoded, by omega⟩
    refine Repeats.entries table (fun index => keeps_loadItem.within _) ?_ run regular final count small has
    rintro index one item mid part run regular final ⟨encoded, small⟩
    exact (retraces_loadItem holds kind one item mid part
      (Reading.within_eq_ok.mp run) regular final encoded small).within _

theorem loadStrings (holds : Holds image items offsets) (run : Image.loadStrings span one = (.ok (), after))
    (regular : one.Regular)
    (final : after.pools.Extends items) (count : span.size.toNat = items.strings.size)
    (stored : StoredStrings image there items.strings.items) :
    Repeats image offsets (Image.loadStrings there) () one after := by
  have size : there.size = span.size := UInt32.toNat_inj.mp (by rw [stored.size, Pool.length_items, count])
  rw [Image.loadStrings] at run ⊢
  rw [size]
  split_ifs at run ⊢ with zero
  · obtain ⟨-, rfl⟩ := Reading.pure_eq_ok.mp run
    exact .pure ()
  · obtain ⟨row, has, parted⟩ := stored.entries (stored.size_eq_zero_iff.not.mp (size ▸ zero))
    rw [List.flatMap_def] at has
    have parts : List.Forall₂
        (fun (item : Item .stringId) part => ∃ offset : UInt32, part = Bytes.ofUInt32 offset ∧ ∃ bytes,
          encode item = .ok bytes ∧ image.HasAt offset.toNat bytes)
        (items.pool .stringId).items (row.map Bytes.ofUInt32) := by
      rw [List.forall₂_map_right_iff]
      exact parted.flip.imp fun item offset written => ⟨offset, rfl, written⟩
    rw [← Loading.entry_stringEntry] at run ⊢
    refine Repeats.entries rfl (fun index => .read_bind fun offset =>
      (keeps_loadItem.within _).detour _ _) ?_ run regular final
      count parts has
    rintro index one item mid _ run regular final ⟨offset, rfl, bytes, encoded, has⟩
    have small : bytes.length < UInt32.size := by
      have length := has.length_le
      have small := holds.small
      omega
    exact retraces_stringEntry index offset run regular final encoded small has

end Repeats

section Stored

/-- Entries that are encoded alike are stored alike. -/
theorem Layout.StoredTable.congr {span : Span} {first second : List (Item kind)} (stored : StoredTable image span first)
    (alike : List.Forall₂ (fun one other => encode one = encode other) second first) :
    StoredTable image span second where
  size := by rw [stored.size, alike.length_eq]
  entries some := by
    have some : first ≠ [] := by
      rintro rfl
      exact some (List.forall₂_nil_right_iff.mp alike)
    obtain ⟨parts, parted, has⟩ := stored.entries some
    exact ⟨parts, alike.comp parted fun same encoded => same.trans encoded, has⟩

theorem Layout.StoredStrings.congr {span : Span} {first second : List StringData}
    (stored : StoredStrings image span first)
    (alike : List.Forall₂ (fun one other => encode one = encode other) second first) :
    StoredStrings image span second where
  size := by rw [stored.size, alike.length_eq]
  entries some := by
    have some : first ≠ [] := by
      rintro rfl
      exact some (List.forall₂_nil_right_iff.mp alike)
    obtain ⟨row, has, parted⟩ := stored.entries some
    refine ⟨row, has, parted.comp alike.flip ?_⟩
    rintro offset first second ⟨bytes, encoded, has⟩ same
    exact ⟨bytes, same.trans encoded, has⟩

end Stored

/-- Whether the tables of a header have as many entries as pools have items. -/
structure Header.Counts (header : Header) (pools : Pools) : Prop where
  strings : header.stringIds.size.toNat = (pools.pool .stringId).size
  types : header.typeIds.size.toNat = (pools.pool .typeId).size
  protos : header.protoIds.size.toNat = (pools.pool .protoId).size
  fields : header.fieldIds.size.toNat = (pools.pool .fieldId).size
  methods : header.methodIds.size.toNat = (pools.pool .methodId).size
  classes : header.classDefs.size.toNat = (pools.pool .classDef).size

/-- All tables are read again from an image that stores what has been read. -/
theorem Repeats.loadTables (holds : Holds image items offsets)
    {placed : Pools} {layout : Layout} (stored : layout.Stored image placed)
    (alike : ∀ kind : PoolKind, kind.toSection.isIdTable = true → List.Forall₂ (fun item other =>
      encode (moved offsets.finder item) = encode other) (items.pool kind).items (placed.pool kind).items)
    {header header' : Header} {map : MapList} {one after : Loader}
    (run : Image.loadTables header one = (.ok map, after))
    (regular : one.Regular) (final : after.pools = items) (counts : header.Counts items)
    (map' : header'.mapOffset = (layout.span .mapList).offset)
    (spans : header'.stringIds = layout.span .stringId ∧ header'.typeIds = layout.span .typeId ∧
      header'.protoIds = layout.span .protoId ∧ header'.fieldIds = layout.span .fieldId ∧
      header'.methodIds = layout.span .methodId ∧ header'.classDefs = layout.span .classDef) :
    Repeats image offsets (Image.loadTables header') layout.map one after := by
  obtain ⟨strings, types, protos, fields, methods, classes⟩ := spans
  have table (kind : PoolKind) (isTable : kind.toSection.isIdTable = true) (other : kind ≠ .stringId) :
      StoredTable image (layout.span kind.toSection) ((items.pool kind).items.map (moved offsets.finder)) :=
    (stored.tables kind isTable other).congr (List.forall₂_map_left_iff.mpr (alike kind isTable))
  subst final
  obtain ⟨_, start, -, before, run⟩ := (Still.ofDecoder _).bind_eq_ok run
  obtain ⟨_, first, stringRun, regular₁, -, run⟩ := (Image.keeps_loadStrings _).bind_eq_ok run (before.regular regular)
  obtain ⟨_, second, typeRun, regular₂, grows₂, run⟩ :=
    (@Image.keeps_loadTable .typeId rfl _).bind_eq_ok run regular₁
  obtain ⟨_, third, protoRun, regular₃, grows₃, run⟩ :=
    (@Image.keeps_loadTable .protoId rfl _).bind_eq_ok run regular₂
  obtain ⟨_, fourth, fieldRun, regular₄, grows₄, run⟩ :=
    (@Image.keeps_loadTable .fieldId rfl _).bind_eq_ok run regular₃
  obtain ⟨_, fifth, methodRun, regular₅, grows₅, run⟩ :=
    (@Image.keeps_loadTable .methodId rfl _).bind_eq_ok run regular₄
  obtain ⟨_, sixth, classRun, -, grows₆, last⟩ := (@Image.keeps_loadTable .classDef rfl _).bind_eq_ok run regular₅
  obtain ⟨-, rfl⟩ := Reading.pure_eq_ok.mp last
  have final₅ := grows₆
  have final₄ := grows₅.trans final₅
  have final₃ := grows₄.trans final₄
  have final₂ := grows₃.trans final₃
  have final₁ := grows₂.trans final₂
  have mapRead : Repeats image offsets (ofDecoder (Image.decodeMap header')) layout.map one start := by
    intro again mirrors
    obtain ⟨position, run⟩ := decodeMap_ok stored map' mirrors.bytes mirrors.littleEndian
    exact ⟨_, run, (mirrors.moveTo position).beside before⟩
  have stringsStored : StoredStrings image (layout.span .stringId) after.pools.strings.items := by
    exact stored.strings.congr (alike .stringId rfl)
  refine mapRead.bind ((Repeats.loadStrings holds stringRun
    (before.regular regular) final₁ counts.strings (strings ▸ stringsStored)).bind ?_)
  refine (Repeats.loadTable holds rfl typeRun regular₁ final₂ counts.types
    (types ▸ table .typeId rfl (by decide))).bind ?_
  refine (Repeats.loadTable holds rfl protoRun regular₂ final₃ counts.protos
    (protos ▸ table .protoId rfl (by decide))).bind ?_
  refine (Repeats.loadTable holds rfl fieldRun regular₃ final₄ counts.fields
    (fields ▸ table .fieldId rfl (by decide))).bind ?_
  refine (Repeats.loadTable holds rfl methodRun regular₄ final₅ counts.methods
    (methods ▸ table .methodId rfl (by decide))).bind ?_
  refine (Repeats.loadTable holds rfl classRun regular₅ (.refl _) counts.classes
    (classes ▸ table .classDef rfl (by decide))).bind ?_
  exact .pure _

end DexImage
