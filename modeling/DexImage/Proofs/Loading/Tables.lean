import DexImage.Image.Basic
import DexImage.Proofs.Loading.Definitions
/-! # Loading the id tables

Each table is read entry by entry, and each entry is appended to its pool. What holds between tables is that
those done have the contents of what is stored, and that the others are empty (`Loader.Filled`).
-/

namespace DexImage

open Loading Layout

variable {image : Bytes} {placed : Pools} {layout : Layout} {kind : PoolKind}

namespace Loading

/-- An entry of a table that is read and appended. -/
def entry (kind : PoolKind) (step : Nat → Loading (Item kind)) (index : Nat) : Loading Unit := do
  let item ← step index
  discard (append kind item)

/-- How a string is read whose offset is an entry of a table. -/
def stringEntry (index : Nat) : Loading (Item .stringId) := do
  let offset ← ofDecoder Decoder.u4
  detour (.entry .stringId index) offset.toNat (Reading.within (.itemAt .stringData offset.toNat) (loadItem .stringId))

theorem entry_stringEntry : entry .stringId stringEntry = (fun index => do
    let offset ← ofDecoder Decoder.u4
    let string ← detour (.entry .stringId index) offset.toNat
      (Reading.within (.itemAt .stringData offset.toNat) (ofDecoder StringData.decode))
    discard (append .stringId string)) := by
  funext index
  simp only [entry, stringEntry, bind_assoc]
  rfl

end Loading

/-- What reading entries of a table does to a loader: they are appended, and the other tables stay. -/
structure Loader.Appended (kind : PoolKind) (values : List (Item kind)) (before after : Loader) : Prop where
  pools : before.pools.Extends after.pools
  table : (after.pools.pool kind).items = (before.pools.pool kind).items ++ values
  others : ∀ other : PoolKind, other.depth = 4 → other ≠ kind → after.pools.pool other = before.pools.pool other

namespace Loader.Appended

variable {values more : List (Item kind)} {before between after : Loader}

theorem refl (kind : PoolKind) (loader : Loader) : Appended kind [] loader loader where
  pools := .refl _
  table := (List.append_nil _).symm
  others _ _ _ := rfl

theorem trans (first : Appended kind values before between) (second : Appended kind more between after) :
    Appended kind (values ++ more) before after where
  pools := first.pools.trans second.pools
  table := by rw [second.table, first.table, List.append_assoc]
  others other deep differ := (second.others other deep differ).trans (first.others other deep differ)

/-- Data items that are read on the way do not matter. -/
theorem of_grows (deep : kind.depth = 4) (grows : Loader.Grows 4 before after) : Appended kind [] before after where
  pools := grows.pools
  table := by rw [grows.items kind (Nat.le_of_eq deep.symm), List.append_nil]
  others other deep _ := grows.items other (Nat.le_of_eq deep.symm)

end Loader.Appended

/-- Entries of id tables are deeper than data items. -/
theorem PoolKind.depth_eq {kind : PoolKind} (table : kind.toSection.isIdTable = true) : kind.depth = 4 := by
  cases kind <;> first | rfl | cases table

/-- An entry that is appended to an id table. -/
theorem Loader.Sound.push {loader : Loader} (sound : loader.Sound image placed layout)
    (table : kind.toSection.isIdTable = true) (item : Item kind) :
    Loader.Sound image placed layout { loader with pools := loader.pools.push kind item } where
  bytes := sound.bytes
  littleEndian := sound.littleEndian
  distinct := sound.distinct
  counted other plain := by
    have differ : other ≠ kind := by
      rintro rfl
      exact absurd plain (by simp [table])
    rw [← sound.counted other plain]
    exact congrArg Pool.size (Pools.pool_push_of_ne _ differ _)
  read other offset number member := by
    obtain ⟨index, there, same⟩ := sound.read other offset number member
    exact ⟨index, there, same.mono (Pools.extends_push _ _ _)⟩

/-- Entries in a row are read and appended in a row. -/
theorem collect_append (table : kind.toSection.isIdTable = true) {step : Nat → Loading (Item kind)}
    {parts : List Bytes} {items : List (Item kind)}
    (each : List.Forall₂ (fun part item => ∀ index, Loads image placed layout 4 (step index) part fun pools value =>
      (itemHolding kind).Matches (SameContents placed pools) (effective item) (effective value)) parts items)
    {loader : Loader} (sound : loader.Sound image placed layout) (there : loader.cursor.Ahead parts.flatten) :
    ∃ units after values, Reading.collect items.length (entry kind step) loader = (.ok units, after) ∧
      after.Sound image placed layout ∧ Loader.Appended kind values loader after ∧
      List.Forall₂ (fun item value =>
        (itemHolding kind).Matches (SameContents placed after.pools) (effective item) (effective value))
        items values := by
  have go (index : Nat) (found : List Unit) : ∃ units after values,
      Reading.collect.go (entry kind step) items.length index found loader = (.ok units, after) ∧
      after.Sound image placed layout ∧ Loader.Appended kind values loader after ∧
      List.Forall₂ (fun item value =>
        (itemHolding kind).Matches (SameContents placed after.pools) (effective item) (effective value))
        items values := by
    induction each generalizing index found loader with
    | nil => exact ⟨_, loader, [], rfl, sound, .refl _ _, .nil⟩
    | @cons part item parts items head _ ih =>
      rw [List.flatten_cons] at there
      obtain ⟨value, between, run, cursor, sound, grows, matching⟩ := head index loader sound there.left
      -- Data items are read on the way to the entry, and the entry is appended behind those of its table.
      let pushed : Loader := { between with pools := between.pools.push kind value }
      have stored : Loader.Appended kind [value] between pushed := by
        refine ⟨Pools.extends_push _ _ _, ?_, fun other _ differ => Pools.pool_push_of_ne _ differ _⟩
        rw [Pools.pool_push_self, Pool.items_push]
      have first := (Loader.Appended.of_grows (PoolKind.depth_eq table) grows).trans stored
      obtain ⟨units, after, values, rest, sound, appended, others⟩ :=
        @ih pushed (sound.push table value) (by rw [show pushed.cursor = _ from cursor]; exact there.right)
          (index + 1) (() :: found)
      refine ⟨units, after, value :: values, ?_, sound, first.trans appended, .cons ?_ others⟩
      · rw [List.length_cons, Reading.collect.go]
        exact (Reading.bind_ok ((Reading.bind_ok run).trans rfl)).trans rest
      · exact matching.mono fun same => same.mono (stored.pools.trans appended.pools)
  exact go 0 []

/-- Whether the tables of some kinds have been read as they are stored, and the others not yet. -/
structure Loader.Filled (image : Bytes) (placed : Pools) (layout : Layout) (kinds : List PoolKind)
    (loader : Loader) : Prop where
  sound : loader.Sound image placed layout
  deep : ∀ kind ∈ kinds, kind.depth = 4
  tables : ∀ kind ∈ kinds, List.Forall₂ (fun item value =>
    (itemHolding kind).Matches (SameContents placed loader.pools) (effective item) (effective value))
      (placed.pool kind).items (loader.pools.pool kind).items
  others : ∀ kind : PoolKind, kind.depth = 4 → kind ∉ kinds → (loader.pools.pool kind).items = []

/-- A further table is filled. -/
theorem Loader.Filled.append {kinds : List PoolKind} {before after : Loader} {values : List (Item kind)}
    (filled : before.Filled image placed layout kinds) (deep : kind.depth = 4) (fresh : kind ∉ kinds)
    (sound : after.Sound image placed layout) (appended : Loader.Appended kind values before after)
    (each : List.Forall₂ (fun item value =>
      (itemHolding kind).Matches (SameContents placed after.pools) (effective item) (effective value))
        (placed.pool kind).items values) : after.Filled image placed layout (kind :: kinds) where
  sound := sound
  deep := List.forall_mem_cons.mpr ⟨deep, filled.deep⟩
  tables := by
    intro other member
    rcases List.mem_cons.mp member with rfl | earlier
    · rw [appended.table, filled.others other deep fresh, List.nil_append]
      exact each
    · have differ : other ≠ kind := by
        rintro rfl
        exact fresh earlier
      rw [appended.others other (filled.deep other earlier) differ]
      exact (filled.tables other earlier).imp fun _ _ matching => matching.mono fun same => same.mono appended.pools
  others := by
    intro other otherDeep absent
    rw [List.mem_cons, not_or] at absent
    rw [appended.others other otherDeep absent.1]
    exact filled.others other otherDeep absent.2

/-- The entries of a table are read from where the table is. -/
theorem Loader.Filled.read {kinds : List PoolKind} {loader : Loader}
    (filled : loader.Filled image placed layout kinds) (table : kind.toSection.isIdTable = true) (fresh : kind ∉ kinds)
    {span : Span} (size : span.size.toNat = (placed.pool kind).items.length) {parts : List Bytes}
    (has : image.HasAt span.offset.toNat parts.flatten) (step : Nat → Loading (Item kind))
    (each : List.Forall₂ (fun part item => ∀ index, Loads image placed layout 4 (step index) part fun pools value =>
      (itemHolding kind).Matches (SameContents placed pools) (effective item) (effective value))
        parts (placed.pool kind).items) :
    ∃ after, (do
        Reading.within (.table kind.toSection) (ofDecoder (Decoder.seek span.offset.toNat))
        discard <| Reading.collect span.size.toNat (entry kind step)) loader = (.ok (), after) ∧
      after.Filled image placed layout (kind :: kinds) := by
  let sought : Loader := { loader with cursor := { loader.cursor with position := span.offset.toNat } }
  have sound : sought.Sound image placed layout :=
    ⟨filled.sound.bytes, filled.sound.littleEndian, filled.sound.distinct, filled.sound.counted, filled.sound.read⟩
  obtain ⟨units, after, values, run, sound, appended, matching⟩ :=
    collect_append table each sound (has.ahead_of filled.sound.bytes filled.sound.littleEndian rfl)
  refine ⟨after, ?_, filled.append (PoolKind.depth_eq table) fresh sound
    ⟨appended.pools, appended.table, appended.others⟩ matching⟩
  rw [Reading.bind_ok (Reading.within_ok (Loading.seek_run (has.le_size filled.sound.bytes))), size]
  exact (Reading.bind_ok run).trans rfl

section Tables

variable {kinds : List PoolKind} {loader : Loader} {span : Span}

/-- A string is loaded by its offset. -/
theorem loads_stringEntry {string : StringData} {offset : UInt32} {bytes : Bytes} (encoded : encode string = .ok bytes)
    (settled : string.Settled) (has : image.HasAt offset.toNat bytes) (index : Nat) :
    Loads image placed layout 4 (stringEntry index) (Bytes.ofUInt32 offset) fun pools value =>
      (itemHolding .stringId).Matches (SameContents placed pools)
      (effective (string : Item .stringId)) (effective value) := by
  rw [← List.append_nil (Bytes.ofUInt32 offset)]
  refine (Loads.read_bind (.u4 offset) (Loads.detour _
    ((Loads.ofDecoder (StringData.reads_encode encoded settled)).within _) has)).weaken ?_
  rintro pools _ rfl
  exact .refl fun _ _ _ member => absurd member List.not_mem_nil

theorem Loader.Filled.loadStrings (complete : layout.Complete image placed)
    (filled : loader.Filled image placed layout kinds) (fresh : PoolKind.stringId ∉ kinds)
    (stored : StoredStrings image span placed.strings.items) :
    ∃ after, Image.loadStrings span loader = (.ok (), after) ∧
      after.Filled image placed layout (.stringId :: kinds) := by
  by_cases none : placed.strings.items = []
  · refine ⟨loader, ?_, filled.append rfl fresh filled.sound (.refl _ _) ?_⟩
    · rw [Image.loadStrings, if_pos (stored.size_eq_zero_iff.mpr none)]
      rfl
    · rw [show (placed.pool .stringId).items = [] from none]
      exact .nil
  · obtain ⟨row, has, each⟩ := stored.entries none
    rw [List.flatMap_def] at has
    rw [Image.loadStrings, if_neg (stored.size_eq_zero_iff.not.mpr none), ← entry_stringEntry]
    refine filled.read rfl fresh stored.size has _ ?_
    rw [List.forall₂_map_left_iff]
    refine List.Forall₂.of_getElem? each.length_eq fun position offset found => ?_
    obtain ⟨string, there, bytes, encoded, hasString⟩ := each.getElem?_left found
    exact ⟨string, there,
      loads_stringEntry encoded (complete.readable .stringId string (List.mem_of_getElem? there)) hasString⟩

theorem Loader.Filled.loadTable (complete : layout.Complete image placed)
    (filled : loader.Filled image placed layout kinds) (table : kind.toSection.isIdTable = true) (fresh : kind ∉ kinds)
    (stored : StoredTable image span (placed.pool kind).items)
    (loads : LoadsItems image placed layout kind (loadItem kind)) :
    ∃ after, Image.loadTable kind span loader = (.ok (), after) ∧ after.Filled image placed layout (kind :: kinds) := by
  by_cases none : (placed.pool kind).items = []
  · refine ⟨loader, ?_, filled.append (PoolKind.depth_eq table) fresh filled.sound
      (.refl _ _) (by rw [none]; exact .nil)⟩
    rw [Image.loadTable, if_pos (stored.size_eq_zero_iff.mpr none)]
    rfl
  · obtain ⟨parts, encoded, has⟩ := stored.entries none
    rw [Image.loadTable, if_neg (stored.size_eq_zero_iff.not.mpr none)]
    refine filled.read table fresh stored.size has
      (fun index => Reading.within (.entry kind.toSection index) (loadItem kind)) ?_
    refine List.Forall₂.of_getElem? encoded.length_eq.symm fun position part found => ?_
    obtain ⟨item, there, encodes⟩ := encoded.flip.getElem?_left found
    refine ⟨item, there, fun index => ?_⟩
    have small : part.length < UInt32.size := by
      have within := (List.sublist_flatten_of_mem (List.mem_of_getElem? found)).length_le
      have length := has.length_le
      have small := complete.small
      omega
    have loads := loads item part (List.mem_of_getElem? there) encodes small
    rw [PoolKind.depth_eq table] at loads
    exact loads.within _

/-- The map is read from where it is. -/
theorem decodeMap_ok (stored : layout.Stored image placed) {header : Header}
    (there : header.mapOffset = (layout.span .mapList).offset) (bytes : loader.cursor.bytes.toList = image)
    (littleEndian : loader.cursor.bigEndian = false) :
    ∃ position, ofDecoder (Image.decodeMap header) loader =
      (.ok layout.map, { loader with cursor := { loader.cursor with position } }) := by
  obtain ⟨few, nonzero, part, encoded, has⟩ := stored.map
  rw [← there] at nonzero has
  let sought : Cursor := { loader.cursor with position := header.mapOffset.toNat }
  have read := MapList.reads_encode encoded few sought (has.ahead_of bytes littleEndian rfl)
  have run : Image.decodeMap header loader.cursor = (.ok layout.map, sought.advance part.length) := by
    rw [Image.decodeMap, if_neg nonzero, Reading.bind_ok (Reading.within_ok (Decoder.seek_ok (has.le_size bytes)))]
    exact Reading.within_ok read
  refine ⟨sought.position + part.length, ?_⟩
  rw [ofDecoder]
  simp only [run]
  rfl

/-- Where the header says that the tables are, they are read. -/
theorem loadTables_ok (complete : layout.Complete image placed) {header : Header}
    (map : header.mapOffset = (layout.span .mapList).offset)
    (spans : header.stringIds = layout.span .stringId ∧ header.typeIds = layout.span .typeId ∧
      header.protoIds = layout.span .protoId ∧ header.fieldIds = layout.span .fieldId ∧
      header.methodIds = layout.span .methodId ∧ header.classDefs = layout.span .classDef)
    (empty : loader.Filled image placed layout []) :
    ∃ after, Image.loadTables header loader = (.ok layout.map, after) ∧
      after.Filled image placed layout [.classDef, .methodId, .fieldId, .protoId, .typeId, .stringId] := by
  obtain ⟨strings, types, protos, fields, methods, classes⟩ := spans
  have sound := empty.sound
  obtain ⟨position, mapRun⟩ := decodeMap_ok complete.toStored map sound.bytes sound.littleEndian
  have start : Loader.Filled image placed layout [] { loader with cursor := { loader.cursor with position } } :=
    ⟨⟨sound.bytes, sound.littleEndian, sound.distinct, sound.counted, sound.read⟩, empty.deep,
      fun _ member => absurd member List.not_mem_nil, empty.others⟩
  obtain ⟨first, stringRun, start⟩ := start.loadStrings complete (by decide) (strings ▸ complete.strings)
  obtain ⟨second, typeRun, start⟩ := @Loader.Filled.loadTable _ _ _ .typeId _ _ _ complete start rfl (by decide)
    (types ▸ complete.tables .typeId rfl (by decide)) loads_typeId
  obtain ⟨third, protoRun, start⟩ := @Loader.Filled.loadTable _ _ _ .protoId _ _ _ complete start rfl (by decide)
    (protos ▸ complete.tables .protoId rfl (by decide)) (loads_protoId complete)
  obtain ⟨fourth, fieldRun, start⟩ := @Loader.Filled.loadTable _ _ _ .fieldId _ _ _ complete start rfl (by decide)
    (fields ▸ complete.tables .fieldId rfl (by decide)) loads_fieldId
  obtain ⟨fifth, methodRun, start⟩ := @Loader.Filled.loadTable _ _ _ .methodId _ _ _ complete start rfl (by decide)
    (methods ▸ complete.tables .methodId rfl (by decide)) loads_methodId
  obtain ⟨after, classRun, start⟩ := @Loader.Filled.loadTable _ _ _ .classDef _ _ _ complete start rfl (by decide)
    (classes ▸ complete.tables .classDef rfl (by decide)) (loads_classDef complete)
  refine ⟨after, ?_, start⟩
  rw [Image.loadTables, Reading.bind_ok mapRun, Reading.bind_ok stringRun, Reading.bind_ok typeRun,
    Reading.bind_ok protoRun, Reading.bind_ok fieldRun, Reading.bind_ok methodRun, Reading.bind_ok classRun]
  rfl

end Tables
end DexImage
