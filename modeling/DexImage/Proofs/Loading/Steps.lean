import DexImage.Proofs.Codec.Strings
import DexImage.Proofs.Layout.Stored
import DexImage.Proofs.Loading.Code
import DexImage.Proofs.Loading.Contents
import Mathlib.Data.List.Nodup
import Mathlib.Data.List.Perm.Subperm
/-! # Loading what is stored

A loader reads data items as they are referred to, and each once. What it has read of an image has the
contents of what is stored there (`Loader.Sound`), and a step that loads some bytes keeps it so
(`Loads`). A step touches no items of a kind as deep as the one it reads, so that the item it reads cannot have
been read meanwhile.
-/

namespace DexImage

/-- Items refer to data items of less depth alone. -/
def PoolKind.depth : PoolKind → Nat
  | .typeList | .annotationItem | .debugInfo | .encodedArray => 0
  | .code | .annotationSet => 1
  | .classData | .annotationSetRefList => 2
  | .annotationsDirectory => 3
  | _ => 4

/-- Whether the references of items to data items lead to items. -/
def Pools.Closed (pools : Pools) : Prop :=
  ∀ kind, ∀ item ∈ (pools.pool kind).items, ∀ (target : PoolKind) usage index known,
    Held.data target usage (some (index, known)) ∈ (itemHolding kind).held item →
      index.toNat < (pools.pool target).size

/-- Whether what a loader has read of an image has the contents of what is stored there. -/
structure Loader.Sound (image : Bytes) (placed : Pools) (layout : Layout) (loader : Loader) : Prop where
  bytes : loader.cursor.bytes.toList = image
  littleEndian : loader.cursor.bigEndian = false
  distinct : (loader.loaded.map Prod.fst).Nodup
  counted : ∀ kind : PoolKind, kind.toSection.isIdTable = false → (loader.pools.pool kind).size =
    (loader.loaded.filter fun entry => entry.1.1 = kind.toSection).length
  read : ∀ (kind : PoolKind) offset other, ((kind.toSection, offset), other) ∈ loader.loaded →
    ∃ index, layout.offsets.offset? kind.toSection index = some offset ∧
      SameContents placed loader.pools kind index other

namespace Loader

/-- The offsets at which items of a kind have been read. -/
def offsets (loader : Loader) (kind : PoolKind) : List UInt32 :=
  (loader.loaded.filter fun entry => entry.1.1 = kind.toSection).map fun entry => entry.1.2

theorem mem_offsets {loader : Loader} {kind : PoolKind} {offset : UInt32} :
    offset ∈ loader.offsets kind ↔ ∃ other, ((kind.toSection, offset), other) ∈ loader.loaded := by
  simp [offsets]

theorem nodup_offsets (loader : Loader) (kind : PoolKind) (distinct : (loader.loaded.map Prod.fst).Nodup) :
    (loader.offsets kind).Nodup := by
  have keys : ((loader.loaded.filter fun entry => entry.1.1 = kind.toSection).map Prod.fst).Nodup :=
    distinct.sublist (List.filter_sublist.map Prod.fst)
  rw [offsets, ← Function.comp_def Prod.snd Prod.fst, ← List.map_map]
  refine List.Nodup.map_on (fun first here second there same => ?_) keys
  obtain ⟨entry, kept, rfl⟩ := List.mem_map.mp here
  obtain ⟨other, kept', rfl⟩ := List.mem_map.mp there
  have sections : entry.1.1 = kind.toSection ∧ other.1.1 = kind.toSection := by
    simpa using And.intro (List.mem_filter.mp kept).2 (List.mem_filter.mp kept').2
  exact Prod.ext (sections.1.trans sections.2.symm) same

end Loader

/-- What a step leaves as it was that reads items of less than a depth. -/
structure Loader.Grows (depth : Nat) (before after : Loader) : Prop where
  strict : after.strict = before.strict
  pools : before.pools.Extends after.pools
  items : ∀ kind : PoolKind, depth ≤ kind.depth → after.pools.pool kind = before.pools.pool kind
  loaded : ∀ kind : PoolKind, depth ≤ kind.depth → ∀ entry, entry.1.1 = kind.toSection →
    (entry ∈ after.loaded ↔ entry ∈ before.loaded)

namespace Loader.Grows

variable {depth : Nat} {first second third : Loader}

theorem refl (depth : Nat) (loader : Loader) : Grows depth loader loader :=
  ⟨rfl, .refl _, fun _ _ => rfl, fun _ _ _ _ => Iff.rfl⟩

theorem trans (left : Grows depth first second) (right : Grows depth second third) : Grows depth first third where
  strict := right.strict.trans left.strict
  pools := left.pools.trans right.pools
  items kind deep := (right.items kind deep).trans (left.items kind deep)
  loaded kind deep entry same := (right.loaded kind deep entry same).trans (left.loaded kind deep entry same)

theorem mono {deeper : Nat} (grows : Grows depth first second) (le : depth ≤ deeper) : Grows deeper first second where
  strict := grows.strict
  pools := grows.pools
  items kind deep := grows.items kind (Nat.le_trans le deep)
  loaded kind deep := grows.loaded kind (Nat.le_trans le deep)

end Loader.Grows

section Loads

variable (image : Bytes) (placed : Pools) (layout : Layout)

/-- Whether a step loads some bytes, wherever they lie ahead, with a value of which `post` holds. -/
def Loads {α : Type} (depth : Nat) (step : Loading α) (bytes : Bytes) (post : Pools → α → Prop) : Prop :=
  ∀ loader : Loader, loader.Sound image placed layout → loader.cursor.Ahead bytes →
    ∃ value after, step loader = (.ok value, after) ∧ after.cursor = loader.cursor.advance bytes.length ∧
      after.Sound image placed layout ∧ Loader.Grows depth loader after ∧ post after.pools value

end Loads

namespace Loads

variable {image : Bytes} {placed : Pools} {layout : Layout} {α β : Type} {depth : Nat} {bytes first second : Bytes}

theorem weaken {step : Loading α} {post post' : Pools → α → Prop}
    (loads : Loads image placed layout depth step bytes post)
    (implies : ∀ pools value, post pools value → post' pools value) :
    Loads image placed layout depth step bytes post' := by
  intro loader sound there
  obtain ⟨value, after, run, cursor, sound, grows, holds⟩ := loads loader sound there
  exact ⟨value, after, run, cursor, sound, grows, implies _ _ holds⟩

protected theorem pure {value : α} {post : Pools → α → Prop} (holds : ∀ pools, post pools value) :
    Loads image placed layout depth (pure value) [] post :=
  fun loader sound _ => ⟨value, loader, rfl, rfl, sound, .refl _ _, holds _⟩

protected theorem bind {step : Loading α} {next : α → Loading β} {post : Pools → α → Prop}
    {post' : α → Pools → β → Prop} (loads : Loads image placed layout depth step first post)
    (stable : ∀ {pools longer value}, pools.Extends longer → post pools value → post longer value)
    (then' : ∀ value, Loads image placed layout depth (next value) second (post' value)) :
    Loads image placed layout depth (step >>= next) (first ++ second)
      (fun pools other => ∃ value, post pools value ∧ post' value pools other) := by
  intro loader sound there
  obtain ⟨value, between, run, cursor, sound, grows, holds⟩ := loads loader sound there.left
  obtain ⟨other, after, run', cursor', sound, grows', holds'⟩ := then' value between sound (cursor ▸ there.right)
  refine ⟨other, after, (Reading.bind_ok run).trans run', ?_, sound, grows.trans grows', value,
    stable grows'.pools holds, holds'⟩
  rw [cursor', cursor, Cursor.advance_advance, List.length_append]

theorem within {step : Loading α} {post : Pools → α → Prop} (loads : Loads image placed layout depth step bytes post)
    (site : Site) : Loads image placed layout depth (Reading.within site step) bytes post := by
  intro loader sound there
  obtain ⟨value, after, run, rest⟩ := loads loader sound there
  exact ⟨value, after, Reading.within_ok run, rest⟩

/-- A step that goes on behind some bytes as another step. -/
theorem behind {step rest : Loading α} {post : Pools → α → Prop}
    (then' : Loads image placed layout depth rest second post)
    {loader : Loader} (sound : loader.Sound image placed layout) (there : loader.cursor.Ahead (first ++ second))
    (run : step loader = rest { loader with cursor := loader.cursor.advance first.length }) :
    ∃ value after, step loader = (.ok value, after) ∧ after.cursor = loader.cursor.advance (first ++ second).length ∧
      after.Sound image placed layout ∧ Loader.Grows depth loader after ∧ post after.pools value := by
  obtain ⟨value, after, run', cursor, sound, grows, holds⟩ := then'
    { loader with cursor := loader.cursor.advance first.length }
    ⟨sound.bytes, sound.littleEndian, sound.distinct, sound.counted, sound.read⟩ there.right
  refine ⟨value, after, run.trans run', ?_, sound, ⟨grows.strict, grows.pools, grows.items, grows.loaded⟩, holds⟩
  rw [cursor, Cursor.advance_advance, List.length_append]

/-- A step that follows what is read without loading an item. -/
theorem of_passes {step rest : Loading α} {post : Pools → α → Prop} (passes : Loading.Passes step first rest)
    (then' : Loads image placed layout depth rest second post) :
    Loads image placed layout depth step (first ++ second) post :=
  fun loader sound there => then'.behind sound there (passes loader there.left)

/-- What a decoder reads. -/
theorem ofDecoder {step : Decoder α} {value : α} (reads : Reads step bytes value) :
    Loads image placed layout depth (Loading.ofDecoder step) bytes (fun _ other => other = value) := by
  rw [← List.append_nil bytes]
  exact .of_passes (.ofDecoder reads) (.pure fun _ => rfl)

/-- A step that follows what a decoder reads. -/
theorem read_bind {step : Decoder α} {value : α} {next : α → Loading β} {post : Pools → β → Prop}
    (reads : Reads step first value) (then' : Loads image placed layout depth (next value) second post) :
    Loads image placed layout depth (Loading.ofDecoder step >>= next) (first ++ second) post :=
  .of_passes (Loading.Passes.ofDecoder reads).bind_pure then'

/-- Steps in a row load parts in a row. -/
theorem collect {step : Nat → Loading α} {post : β → Pools → α → Prop} {parts : List Bytes} {items : List β}
    (stable : ∀ {item pools longer value}, pools.Extends longer → post item pools value → post item longer value)
    (each : List.Forall₂ (fun part item => ∀ index, Loads image placed layout depth (step index) part (post item))
      parts items) :
    Loads image placed layout depth (Reading.collect items.length step) parts.flatten
      (fun pools values => List.Forall₂ (fun item value => post item pools value) items values) := by
  have go (index : Nat) (found : List α) :
      Loads image placed layout depth (Reading.collect.go step items.length index found) parts.flatten
        (fun pools values => ∃ others, values = found.reverse ++ others ∧
          List.Forall₂ (fun item value => post item pools value) items others) := by
    induction each generalizing index found with
    | nil => exact .pure fun _ => ⟨[], (List.append_nil _).symm, .nil⟩
    | @cons part item parts items head _ ih =>
      rw [List.length_cons, Reading.collect.go, List.flatten_cons]
      refine ((head index).bind stable fun value => ih (index + 1) (value :: found)).weaken ?_
      rintro pools values ⟨value, holds, others, rfl, rest⟩
      exact ⟨value :: others, by simp, .cons holds rest⟩
  refine (go 0 []).weaken ?_
  rintro pools values ⟨others, rfl, each⟩
  exact each

end Loads

namespace Layout.Stored

variable {image : Bytes} {placed : Pools} {layout : Layout} {kind : PoolKind} {index other offset : UInt32}
variable (stored : Stored image placed layout) (tracked : kind.toSection.isIdTable = false)
include stored tracked

/-- Where a data item is stored. -/
theorem placedAt {item : Item kind} (found : placed.get? kind index = some item) :
    ∃ offset bytes, layout.offsets.offset? kind.toSection index = some offset ∧ offset ≠ 0 ∧
      encode item = .ok bytes ∧ image.HasAt offset.toNat bytes := by
  rw [Pools.get?, Pool.get?_eq_some] at found
  obtain ⟨row, rowFound, -, each⟩ := stored.data kind tracked (List.ne_nil_of_mem (List.mem_of_getElem? found))
  obtain ⟨offset, there, nonzero, bytes, encoded, has⟩ := each.flip.getElem?_left found
  refine ⟨offset, bytes, ?_, nonzero, encoded, has⟩
  rw [offset?_of_row? rowFound, ← there, Array.getElem?_toList]

/-- Different data items are stored at different offsets. -/
theorem index_eq (some : (placed.pool kind).items ≠ [])
    (first : layout.offsets.offset? kind.toSection index = Option.some offset)
    (second : layout.offsets.offset? kind.toSection other = Option.some offset) : index = other := by
  obtain ⟨row, rowFound, distinct, -⟩ := stored.data kind tracked some
  rw [offset?_of_row? rowFound, ← Array.getElem?_toList] at first second
  have inside := (List.getElem?_eq_some_iff.mp first).1
  exact UInt32.toNat_inj.mp ((List.getElem?_inj inside distinct).mp (first.trans second.symm))

/-- There are no more offsets than data items. -/
theorem length_le {offsets : List UInt32} (distinct : offsets.Nodup) (some : (placed.pool kind).items ≠ [])
    (each : ∀ offset ∈ offsets, ∃ index, layout.offsets.offset? kind.toSection index = Option.some offset) :
    offsets.length ≤ (placed.pool kind).size := by
  obtain ⟨row, rowFound, -, stored⟩ := stored.data kind tracked some
  have subset : offsets ⊆ row.toList := by
    intro offset member
    obtain ⟨index, found⟩ := each offset member
    rw [offset?_of_row? rowFound, ← Array.getElem?_toList] at found
    exact List.mem_of_getElem? found
  rw [← Pool.length_items, ← stored.length_eq]
  exact (distinct.subperm subset).length_le

end Layout.Stored

namespace Loader

variable {image : Bytes} {placed : Pools} {layout : Layout} {kind : PoolKind} {loader : Loader} {index offset : UInt32}
  {item value : Item kind}

/-- Whether no item of the kind has been read at the offset. -/
def Fresh (loader : Loader) (kind : PoolKind) (offset : UInt32) : Prop :=
  ∀ other, ((kind.toSection, offset), other) ∉ loader.loaded

/-- An item at a new offset finds room: the offsets read so far and the new one belong to different stored items, of
which there are few. -/
theorem Sound.size_lt (stored : layout.Stored image placed) (tracked : kind.toSection.isIdTable = false)
    (sound : loader.Sound image placed layout) (stores : (placed.pool kind).items ≠ [])
    (there : layout.offsets.offset? kind.toSection index = some offset) (fresh : Fresh loader kind offset) :
    (loader.pools.pool kind).size < UInt32.size := by
  have distinct : (offset :: loader.offsets kind).Nodup := by
    refine List.nodup_cons.mpr ⟨fun member => ?_, loader.nodup_offsets kind sound.distinct⟩
    obtain ⟨number, member⟩ := Loader.mem_offsets.mp member
    exact fresh number member
  have placedAt : ∀ place ∈ offset :: loader.offsets kind,
      ∃ index, layout.offsets.offset? kind.toSection index = some place := by
    intro place member
    rcases List.mem_cons.mp member with rfl | member
    · exact ⟨index, there⟩
    · obtain ⟨number, member⟩ := Loader.mem_offsets.mp member
      obtain ⟨index, there, -⟩ := sound.read kind place number member
      exact ⟨index, there⟩
  have count := stored.length_le tracked distinct stores placedAt
  rw [List.length_cons, Loader.offsets, List.length_map, ← sound.counted kind tracked] at count
  exact Nat.lt_of_lt_of_le count (Nat.le_of_lt (stored.sizes kind))

/-- A loader stays sound that notes an item with the contents of what is stored at its offset. -/
theorem Sound.note (sound : loader.Sound image placed layout)
    (there : layout.offsets.offset? kind.toSection index = some offset) (fresh : Fresh loader kind offset)
    (same : SameContents placed (loader.pools.push kind value) kind index (loader.pools.pool kind).nextIndex) :
    Loader.Sound image placed layout { loader with
      pools := loader.pools.push kind value
      loaded := ((kind.toSection, offset), (loader.pools.pool kind).nextIndex) :: loader.loaded } where
  bytes := sound.bytes
  littleEndian := sound.littleEndian
  distinct := by
    refine List.nodup_cons.mpr ⟨fun member => ?_, sound.distinct⟩
    obtain ⟨⟨key, number⟩, present, rfl⟩ := List.mem_map.mp member
    exact fresh number present
  counted one plain := by
    change ((loader.pools.push kind value).pool one).size = _
    by_cases equal : one = kind
    · subst equal
      rw [Pools.pool_push_self, List.filter_cons_of_pos (by simp), List.length_cons, ← sound.counted one plain,
        Pool.size_push]
    · have differ : kind.toSection ≠ one.toSection := fun same => equal (PoolKind.toSection_injective same.symm)
      rw [Pools.pool_push_of_ne _ equal, List.filter_cons_of_neg (by simpa using differ), ← sound.counted one plain]
  read one place number member := by
    rcases List.mem_cons.mp member with head | member
    · obtain ⟨key, rfl⟩ := Prod.mk.inj head
      obtain ⟨kinds, rfl⟩ := Prod.mk.inj key
      obtain rfl := PoolKind.toSection_injective kinds
      exact ⟨index, there, same⟩
    · obtain ⟨index, there, contents⟩ := sound.read one place number member
      exact ⟨index, there, contents.mono (Pools.extends_push _ _ _)⟩

/-- Noting an item touches no items of deeper kinds. -/
theorem Grows.note {depth : Nat} (deep : kind.depth < depth) :
    Grows depth loader { loader with
      pools := loader.pools.push kind value
      loaded := ((kind.toSection, offset), (loader.pools.pool kind).nextIndex) :: loader.loaded } where
  strict := rfl
  pools := Pools.extends_push _ _ _
  items one deeper := Pools.pool_push_of_ne _ (by rintro rfl; omega) _
  loaded one deeper entry section' := by
    rw [List.mem_cons, or_iff_right]
    rintro rfl
    obtain rfl := PoolKind.toSection_injective section'
    omega

/-- An item that has been read is appended to its pool with the contents of the stored one. -/
theorem sameContents_push (found : placed.get? kind index = some item)
    (few : (loader.pools.pool kind).size < UInt32.size)
    (matching : (itemHolding kind).Matches (SameContents placed loader.pools) (effective item) (effective value)) :
    SameContents placed (loader.pools.push kind value) kind index (loader.pools.pool kind).nextIndex := by
  have appended : (loader.pools.push kind value).get? kind (loader.pools.pool kind).nextIndex = some value := by
    rw [Pools.get?, Pools.pool_push_self]
    refine Pool.get?_push_nextIndex ?_
    rw [Pool.size_push]
    exact few
  exact .intro (SameContents placed _) found appended
    (matching.mono fun deeper => deeper.mono (Pools.extends_push _ _ _)) fun leads => leads

end Loader

namespace Loads

variable {image : Bytes} {placed : Pools} {layout : Layout} {kind : PoolKind} {step : Loading (Item kind)}

/-- A step at an offset, from which the loader returns. -/
theorem detour {α : Type} {depth offset : Nat} {step : Loading α}
    {bytes : Bytes} {post : Pools → α → Prop} (site : Site)
    (loads : Loads image placed layout depth step bytes post) (has : image.HasAt offset bytes) :
    Loads image placed layout depth (Loading.detour site offset step) [] post := by
  intro loader sound there
  obtain ⟨value, after, run, cursor, sound', grows, holds⟩ :=
    loads { loader with cursor := { loader.cursor with position := offset } }
      ⟨sound.bytes, sound.littleEndian, sound.distinct, sound.counted, sound.read⟩
      (has.ahead_of sound.bytes sound.littleEndian rfl)
  exact ⟨value, { after with cursor := loader.cursor },
    Loading.detour_run (has.le_size sound.bytes) there.inside run cursor, rfl,
    ⟨sound.bytes, sound.littleEndian, sound'.distinct, sound'.counted, sound'.read⟩,
    ⟨grows.strict, grows.pools, grows.items, grows.loaded⟩, holds⟩

/-- An item is read when it is first referred to, and then known by its index. -/
protected theorem load {depth : Nat} (stored : layout.Stored image placed)
    (tracked : kind.toSection.isIdTable = false) (deep : kind.depth < depth) {index offset : UInt32} {item : Item kind}
    {bytes : Bytes} (found : placed.get? kind index = some item)
    (place : layout.offsets.offset? kind.toSection index = some offset) (has : image.HasAt offset.toNat bytes)
    (loads : Loads image placed layout kind.depth step bytes fun pools value =>
      (itemHolding kind).Matches (SameContents placed pools) (effective item) (effective value)) :
    Loads image placed layout depth (Loading.load kind step offset) []
      (fun pools other => SameContents placed pools kind index other) := by
  intro loader sound there
  have stores : (placed.pool kind).items ≠ [] := List.ne_nil_of_mem (Pools.mem_of_get? found)
  rcases known : loader.loaded? kind.toSection offset with _ | other
  · obtain ⟨value, between, run, cursor, sound', grows, matching⟩ :=
      detour (.itemAt kind.toSection offset.toNat) (loads.within _) has loader sound there
    -- The item is read with items less deep alone, so that none of its kind has been read meanwhile.
    have fresh : between.Fresh kind offset := fun other member =>
      Loader.loaded?_eq_none_iff.mp known other ((grows.loaded kind (Nat.le_refl _) _ rfl).mp member)
    have same := Loader.sameContents_push found (sound'.size_lt stored tracked stores place fresh) matching
    exact ⟨(between.pools.pool kind).nextIndex, _, Loading.load_eq_ok.mpr
      (.inr ⟨known, value, between, run, rfl, rfl⟩),
      cursor, sound'.note place fresh same, (grows.mono (Nat.le_of_lt deep)).trans (.note deep), same⟩
  · obtain ⟨index', place', same⟩ := sound.read kind offset other (Loader.mem_loaded known)
    obtain rfl := stored.index_eq tracked stores place' place
    exact ⟨other, loader, Loading.load_known known, rfl, sound, .refl _ _, same⟩

end Loads

/-- Whether an item can be told from what is written of it. -/
def Readable : {kind : PoolKind} → Item kind → Prop
  | .stringId, string => StringData.Settled string
  | .classDef, definition =>
    (definition : ClassDef).superclass.index ≠ some noIndex ∧ (definition : ClassDef).sourceFile.index ≠ some noIndex
  | .code, code => CodeItem.Readable code
  | .debugInfo, info => DebugInfo.Readable info
  | .annotationItem, item => .ofCode (item : AnnotationItem).visibility.code = (item : AnnotationItem).visibility
  | _, _ => True

/-- What an image stores whose items can be told apart and whose references lead to items. -/
structure Layout.Complete (image : Bytes) (placed : Pools) (layout : Layout) : Prop extends
    layout.Stored image placed where
  closed : placed.Closed
  readable : ∀ kind, ∀ item ∈ (placed.pool kind).items, Readable item

section References

variable (image : Bytes) (placed : Pools) (layout : Layout)

/-- Whether a step loads the stored items of a kind. -/
def LoadsItems (kind : PoolKind) (step : Loading (Item kind)) : Prop :=
  ∀ item bytes, item ∈ (placed.pool kind).items → encode item = .ok bytes → bytes.length < UInt32.size →
    Loads image placed layout kind.depth step bytes fun pools value =>
      (itemHolding kind).Matches (SameContents placed pools) (effective item) (effective value)

end References

namespace Loads

variable {image : Bytes} {placed : Pools} {layout : Layout} {depth : Nat} {kind target : PoolKind}
  {step : Loading (Item target)} {item : Item kind} {one : DataRef target} {usage : Usage}

/-- A reference is read as one to the item that has been loaded. -/
theorem refAt (complete : layout.Complete image placed) (tracked : target.toSection.isIdTable = false)
    (deep : target.depth < depth) (loads : LoadsItems image placed layout target step)
    (member : item ∈ (placed.pool kind).items)
    (held : Held.data target usage one.state ∈ (itemHolding kind).held item) {offset : UInt32}
    (known : one.offset = .ok offset) :
    Loads image placed layout depth (Loading.refAt target step offset) [] fun pools read =>
      (DataRef.holding usage).Matches (SameContents placed pools) one read := by
  cases one with
  | unplaced index => cases known
  | absent =>
    obtain rfl := Except.ok.inj known
    exact .pure fun _ => DataRef.matches_absent _ _
  | placed index place =>
    obtain rfl := Except.ok.inj known
    have inside := complete.closed kind item member target usage index (some place) held
    obtain ⟨-, told⟩ := complete.told kind item member target usage index (some place) tracked inside held
    obtain ⟨reached, found⟩ : ∃ reached, placed.get? target index = some reached := by
      refine ⟨(placed.pool target).items.get ⟨index.toNat, by rwa [Pool.length_items]⟩, ?_⟩
      rw [Pools.get?, Pool.get?_eq_some]
      simp
    obtain ⟨offset, bytes, stored, nonzero, encoded, has⟩ := complete.placedAt tracked found
    obtain rfl : place = offset := Option.some.inj (told.symm.trans stored)
    have small : bytes.length < UInt32.size := by
      have length := has.length_le
      have small := complete.small
      omega
    have loaded := Loads.load complete.toStored tracked deep found told has
      (loads reached bytes (Pools.mem_of_get? found) encoded small)
    have run : Loading.refAt target step place = do return .placed (← Loading.load target step place) place := by
      rw [Loading.refAt, if_neg nonzero]
    rw [run]
    refine (loaded.bind (fun grows same => same.mono grows) fun other => .pure fun _ => rfl).weaken ?_
    rintro pools _ ⟨other, same, rfl⟩
    exact DataRef.matches_placed _ _ _ same

/-- An offset is read as a reference to the item that has been loaded. -/
theorem ref (complete : layout.Complete image placed) (tracked : target.toSection.isIdTable = false)
    (deep : target.depth < depth) (loads : LoadsItems image placed layout target step)
    (member : item ∈ (placed.pool kind).items)
    (held : Held.data target usage one.state ∈ (itemHolding kind).held item) {bytes : Bytes}
    (encoded : one.encodeWord = .ok bytes) :
    Loads image placed layout depth (Loading.ref target step) bytes fun pools read =>
      (DataRef.holding usage).Matches (SameContents placed pools) one read := by
  obtain ⟨known, rfl⟩ := DataRef.encodeWord_eq_ok encoded
  rw [Loading.ref, ← List.append_nil (Bytes.ofUInt32 _)]
  exact .read_bind (.u4 _) (.refAt complete tracked deep loads member held known)

end Loads
end DexImage
