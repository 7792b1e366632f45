import DexImage.Proofs.Reached.Loading
import DexImage.Proofs.Rereading.Decoding
import DexImage.Proofs.Rereading.Moved
import DexImage.Proofs.Loading.Steps
/-! # Loading the same items again

An image may hold items that have been loaded from another one, with new offsets. A step that has been run on the
other image is retraced on this one: it finds the same items unread, reads them in the same order and gives them
the same indices (`Retraces`), so that the two loaders mirror each other all the way (`Loader.Mirrors`).
-/

namespace DexImage

/-- What an image holds of items that have been loaded elsewhere. -/
structure Holds (image : Bytes) (items : Pools) (offsets : OffsetTable) : Prop where
  small : image.length < UInt32.size
  sizes : ∀ kind, (items.pool kind).size < UInt32.size
  places : ∀ kind : PoolKind, kind.toSection.isIdTable = false → ∀ index item, items.get? kind index = some item →
    ∃ offset bytes, offsets.offset? kind.toSection index = some offset ∧ offset ≠ 0 ∧
      encode (moved offsets.finder item) = .ok bytes ∧ image.HasAt offset.toNat bytes
  distinct : ∀ kind : PoolKind, kind.toSection.isIdTable = false →
    ∀ index other offset, items.contains (kind, index) →
    offsets.offset? kind.toSection index = some offset → offsets.offset? kind.toSection other = some offset →
      index = other

/-- An index within a pool leads to an item. -/
theorem Pools.exists_of_contains {pools : Pools} {kind : PoolKind}
    {index : UInt32} (inside : pools.contains (kind, index)) :
    ∃ item, pools.get? kind index = some item := by
  refine ⟨(pools.pool kind).items.get ⟨index.toNat, by rwa [Pool.length_items]⟩, ?_⟩
  rw [Pools.get?, Pool.get?_eq_some]
  simp

namespace Loader

/-- Whether a loader of an image has read what another one has read elsewhere. -/
structure Mirrors (image : Bytes) (offsets : OffsetTable) (one again : Loader) : Prop where
  bytes : again.cursor.bytes.toList = image
  littleEndian : again.cursor.bigEndian = false
  pools : ∀ kind, again.pools.pool kind = (one.pools.pool kind).map (moved offsets.finder)
  loaded : again.loaded =
    one.loaded.map fun entry => ((entry.1.1, (offsets.offset? entry.1.1 entry.2).getD 0), entry.2)

/-- Whether loaders have read the same. -/
structure Beside (one other : Loader) : Prop where
  pools : other.pools = one.pools
  loaded : other.loaded = one.loaded

variable {first second third : Loader}

theorem Beside.refl (loader : Loader) : Beside loader loader := ⟨rfl, rfl⟩

theorem Beside.trans (left : Beside first second) (right : Beside second third) : Beside first third :=
  ⟨right.pools.trans left.pools, right.loaded.trans left.loaded⟩

theorem Beside.regular (beside : Beside first second) (regular : first.Regular) : second.Regular where
  pools := beside.pools ▸ regular.pools
  inside kind offset index known := by
    rw [beside.loaded] at known
    rw [beside.pools]
    exact regular.inside kind offset index known
  known kind plain index inside := by
    rw [beside.pools] at inside
    rw [beside.loaded]
    exact regular.known kind plain index inside
  asRead kind item member := regular.asRead kind item (beside.pools ▸ member)

theorem Mirrors.beside {image : Bytes} {offsets : OffsetTable}
    {again : Loader} (mirrors : Mirrors image offsets first again)
    (beside : Beside first second) : Mirrors image offsets second again where
  bytes := mirrors.bytes
  littleEndian := mirrors.littleEndian
  pools kind := by rw [beside.pools, mirrors.pools]
  loaded := by rw [beside.loaded, mirrors.loaded]

/-- A loader that mirrors another one does so from wherever it stands. -/
theorem Mirrors.moveTo {image : Bytes} {offsets : OffsetTable}
    {again : Loader} (mirrors : Mirrors image offsets first again)
    (position : Nat) : Mirrors image offsets first { again with cursor := { again.cursor with position } } :=
  ⟨mirrors.bytes, mirrors.littleEndian, mirrors.pools, mirrors.loaded⟩

/-- Appending an item and its counterpart keeps loaders mirrored. -/
theorem Mirrors.push {image : Bytes} {offsets : OffsetTable} {again pushed pushed' : Loader}
    (mirrors : Mirrors image offsets first again) (kind : PoolKind)
    (item : Item kind) (pools : pushed.pools = first.pools.push kind item)
    (pools' : pushed'.pools = again.pools.push kind (moved offsets.finder item))
    (cursor : pushed'.cursor = again.cursor)
    (loaded : pushed'.loaded =
      pushed.loaded.map fun entry => ((entry.1.1, (offsets.offset? entry.1.1 entry.2).getD 0), entry.2)) :
    pushed.Mirrors image offsets pushed' where
  bytes := cursor ▸ mirrors.bytes
  littleEndian := cursor ▸ mirrors.littleEndian
  pools other := by
    rw [pools, pools']
    by_cases same : other = kind
    · subst same
      rw [Pools.pool_push_self, Pools.pool_push_self, mirrors.pools]
      simp [Pool.push, Pool.map]
    · rw [Pools.pool_push_of_ne _ same, Pools.pool_push_of_ne _ same, mirrors.pools]
  loaded := loaded

end Loader

namespace Reading

/-- How steps in a row run, each from where the one before it has ended. -/
inductive InTurn {σ α : Type} (step : Nat → Reading σ α) : Nat → List α → σ → σ → Prop where
  | nil {index : Nat} {state : σ} : InTurn step index [] state state
  | cons {index : Nat} {value : α} {values : List α} {state mid after : σ} (head : step index state = (.ok value, mid))
      (others : InTurn step (index + 1) values mid after) : InTurn step index (value :: values) state after

theorem collect_eq_ok {σ α : Type} {step : Nat → Reading σ α} {count : Nat} {values : List α} {state after : σ}
    (run : collect count step state = (.ok values, after)) :
    values.length = count ∧ InTurn step 0 values state after := by
  have go (count index : Nat) (found : List α) (state : σ)
      (run : collect.go step count index found state = (.ok values, after)) :
      ∃ more, values = found.reverse ++ more ∧ more.length = count ∧ InTurn step index more state after := by
    induction count generalizing index found state with
    | zero =>
      obtain ⟨rfl, rfl⟩ := pure_eq_ok.mp run
      exact ⟨[], (List.append_nil _).symm, rfl, .nil⟩
    | succ count ih =>
      obtain ⟨value, mid, head, rest⟩ := bind_eq_ok.mp run
      obtain ⟨more, rfl, rfl, others⟩ := ih _ _ _ rest
      refine ⟨value :: more, ?_, rfl, .cons head others⟩
      rw [List.reverse_cons, List.append_assoc, List.singleton_append]
  obtain ⟨more, rfl, length, turns⟩ := go count 0 [] state run
  exact ⟨length, turns⟩

theorem InTurn.grows {α : Type} {step : Nat → Loading α} {post : Pools → α → Prop}
    (keeps : ∀ index, Loading.Keeps (step index) post) {index : Nat} {values : List α} {one after : Loader}
    (turns : InTurn step index values one after) (regular : one.Regular) : one.pools.Extends after.pools := by
  induction turns with
  | nil => exact .refl _
  | cons head _ ih =>
    obtain ⟨regular, grows, -⟩ := (keeps _).holds _ _ _ head regular
    exact grows.trans (ih regular)

end Reading

namespace Loading

variable {α β : Type}

/-- Whether a step reads no item. -/
def Still (step : Loading α) : Prop := ∀ one value after, step one = (.ok value, after) → one.Beside after

namespace Still

theorem ofDecoder (step : Decoder α) : Still (Loading.ofDecoder step) := by
  intro one value after run
  obtain ⟨-, rfl⟩ := Prod.mk.inj run
  exact ⟨rfl, rfl⟩

protected theorem pure (value : α) : Still (pure value) := by
  intro one other after run
  obtain ⟨-, rfl⟩ := Reading.pure_eq_ok.mp run
  exact .refl _

protected theorem get : Still (get : Loading Loader) := by
  intro one value after run
  obtain ⟨-, rfl⟩ := Prod.mk.inj run
  exact .refl _

protected theorem within {step : Loading α} (still : Still step) (site : Site) : Still (Reading.within site step) :=
  fun one value after run => still one value after (Reading.within_eq_ok.mp run)

protected theorem map {step : Loading α} (still : Still step) (edit : α → β) : Still (edit <$> step) := by
  intro one value after run
  rw [← bind_pure_comp] at run
  obtain ⟨_, between, first, last⟩ := Reading.bind_eq_ok.mp run
  obtain ⟨-, rfl⟩ := Reading.pure_eq_ok.mp last
  exact still one _ _ first

/-- What follows a step that reads no item starts with what had been read. -/
theorem bind_eq_ok {step : Loading α} {next : α → Loading β} {one after : Loader} {result : β} (still : Still step)
    (run : (step >>= next) one = (.ok result, after)) :
    ∃ value mid, step one = (.ok value, mid) ∧ one.Beside mid ∧ next value mid = (.ok result, after) := by
  obtain ⟨value, mid, first, rest⟩ := Reading.bind_eq_ok.mp run
  exact ⟨value, mid, first, still _ _ _ first, rest⟩

end Still

/-- Whether a step reads nothing before what ends it. -/
def Ends (step : Loading α) (last : Loader → α → Loader → Prop) : Prop :=
  ∀ one value after, step one = (.ok value, after) → ∃ mid, one.Beside mid ∧ last mid value after

namespace Ends

variable {last : Loader → β → Loader → Prop}

theorem skip {step : Loading α} {next : α → Loading β} (still : Still step) (rest : ∀ value, Ends (next value) last) :
    Ends (step >>= next) last := by
  intro one result after run
  obtain ⟨value, mid, -, before, run⟩ := still.bind_eq_ok run
  obtain ⟨start, beside, holds⟩ := rest value mid result after run
  exact ⟨start, before.trans beside, holds⟩

theorem fail_bind {cause : Cause} {next : α → Loading β} : Ends (Reading.fail cause >>= next) last := by
  rintro one result after ⟨⟩

protected theorem ite {condition : Prop} [Decidable condition] {yes no : Loading β} (first : Ends yes last)
    (second : Ends no last) : Ends (if condition then yes else no) last := by
  split_ifs
  · exact first
  · exact second

end Ends

/-- What follows a step that keeps loaders regular starts with a regular one, and only appends. -/
theorem Keeps.bind_eq_ok {step : Loading α} {next : α → Loading β}
    {post : Pools → α → Prop} {one after : Loader} {result : β}
    (keeps : Keeps step post) (run : (step >>= next) one = (.ok result, after)) (regular : one.Regular) :
    ∃ value mid, step one = (.ok value, mid) ∧ mid.Regular ∧ one.pools.Extends mid.pools ∧
      next value mid = (.ok result, after) := by
  obtain ⟨value, mid, first, rest⟩ := Reading.bind_eq_ok.mp run
  obtain ⟨regular, grows, -⟩ := keeps.holds _ _ _ first regular
  exact ⟨value, mid, first, regular, grows, rest⟩

/-- What a detour has read is what its step has read. -/
theorem detour_eq_ok {site : Site} {offset : Nat} {step : Loading α} {one after : Loader} {value : α}
    (run : detour site offset step one = (.ok value, after)) :
    ∃ start stop, one.Beside start ∧ step start = (.ok value, stop) ∧ stop.Beside after := by
  obtain ⟨position, asked, -, first, run⟩ := (Still.ofDecoder _).bind_eq_ok run
  obtain ⟨_, start, -, second, run⟩ := ((Still.ofDecoder _).within _).bind_eq_ok run
  obtain ⟨_, stop, steps, run⟩ := Reading.bind_eq_ok.mp run
  obtain ⟨_, back, -, returned, last⟩ := (Still.ofDecoder _).bind_eq_ok run
  obtain ⟨rfl, rfl⟩ := Reading.pure_eq_ok.mp last
  exact ⟨start, stop, first.trans second, steps, returned⟩

/-- An item that is referred to has been read before, or is read now and appended. -/
theorem load_steps {kind : PoolKind} {step : Loading (Item kind)} {offset index : UInt32} {one after : Loader}
    (run : load kind step offset one = (.ok index, after)) :
    (one.loaded? kind.toSection offset = some index ∧ after = one) ∨
      (one.loaded? kind.toSection offset = none ∧ ∃ item start stop,
        one.Beside start ∧ step start = (.ok item, stop) ∧
        index = (stop.pools.pool kind).nextIndex ∧ after.pools = stop.pools.push kind item ∧
          after.loaded = ((kind.toSection, offset), index) :: stop.loaded) := by
  refine (load_eq_ok.mp run).imp_right ?_
  rintro ⟨unknown, item, between, detoured, rfl, rfl⟩
  obtain ⟨start, stop, before, steps, behind⟩ := detour_eq_ok detoured
  exact ⟨unknown, item, start, stop, before, Reading.within_eq_ok.mp steps,
    by rw [← behind.pools], by rw [← behind.pools],
    by rw [← behind.loaded]⟩

end Loading

section Retraces

variable (image : Bytes) (items : Pools) (offsets : OffsetTable)

/-- Whether a step that has led from a loader to another one does so again, in an image where some bytes lie ahead. -/
def Retraces {α : Type} (step : Loading α) (one after : Loader) (bytes : Bytes) (value : α) : Prop :=
  ∀ again : Loader, one.Mirrors image offsets again → again.cursor.Ahead bytes →
    ∃ after', step again = (.ok value, after') ∧ after'.cursor = again.cursor.advance bytes.length ∧
      after.Mirrors image offsets after'

/-- Whether a step reads again, from what is written of them, the items of a kind that it has read. -/
def RetracesItems (kind : PoolKind) (step : Loading (Item kind)) : Prop :=
  ∀ one item after bytes, step one = (.ok item, after) → one.Regular → after.pools.Extends items →
    encode (moved offsets.finder item) = .ok bytes → bytes.length < UInt32.size →
      Retraces image offsets step one after bytes (moved offsets.finder item)

end Retraces

namespace Retraces

open Loading

variable {image : Bytes} {items : Pools} {offsets : OffsetTable} {α β : Type} {one mid after : Loader}
  {bytes first second : Bytes} {step rest : Loading α} {value : α}

theorem beside {start stop : Loader} (retraces : Retraces image offsets step start stop bytes value)
    (before : one.Beside start) (behind : stop.Beside after) : Retraces image offsets step one after bytes value := by
  intro again mirrors there
  obtain ⟨after', run, cursor, mirrors⟩ := retraces again (mirrors.beside before) there
  exact ⟨after', run, cursor, mirrors.beside behind⟩

/-- A step that goes on behind some bytes as another step. -/
theorem behind (then' : Retraces image offsets rest one after second value) {again : Loader}
    (mirrors : one.Mirrors image offsets again) (there : again.cursor.Ahead (first ++ second))
    (run : step again = rest { again with cursor := again.cursor.advance first.length }) :
    ∃ after', step again = (.ok value, after') ∧ after'.cursor = again.cursor.advance (first ++ second).length ∧
      after.Mirrors image offsets after' := by
  obtain ⟨after', run', cursor, mirrors⟩ := then' { again with cursor := again.cursor.advance first.length }
    (mirrors.moveTo _) there.right
  refine ⟨after', run.trans run', ?_, mirrors⟩
  rw [cursor, Cursor.advance_advance, List.length_append]

theorem of_passes (passes : Passes step first rest) (then' : Retraces image offsets rest one after second value) :
    Retraces image offsets step one after (first ++ second) value :=
  fun again mirrors there => then'.behind mirrors there (passes again there.left)

protected theorem pure (value : α) : Retraces image offsets (pure value) one one [] value :=
  fun again mirrors _ => ⟨again, rfl, rfl, mirrors⟩

/-- What is passed has been passed before. -/
theorem passed (passes : Passes step bytes (pure value)) : Retraces image offsets step one one bytes value := by
  rw [← List.append_nil bytes]
  exact .of_passes passes (.pure value)

theorem read_bind {reading : Decoder β} {read : β} {next : β → Loading α} (reads : Reads reading first read)
    (then' : Retraces image offsets (next read) one after second value) :
    Retraces image offsets (ofDecoder reading >>= next) one after (first ++ second) value :=
  .of_passes (Passes.ofDecoder reads).bind_pure then'

protected theorem bind {next : α → Loading β} {result : β} (retraces : Retraces image offsets step one mid first value)
    (then' : Retraces image offsets (next value) mid after second result) :
    Retraces image offsets (step >>= next) one after (first ++ second) result := by
  intro again mirrors there
  obtain ⟨between, run, cursor, mirrors⟩ := retraces again mirrors there.left
  obtain ⟨after', run', cursor', mirrors⟩ := then' between mirrors (cursor ▸ there.right)
  refine ⟨after', (Reading.bind_ok run).trans run', ?_, mirrors⟩
  rw [cursor', cursor, Cursor.advance_advance, List.length_append]

/-- A last step that reads nothing. -/
theorem bind_pure {edit : α → β} (retraces : Retraces image offsets step one after bytes value) :
    Retraces image offsets (step >>= fun value => pure (edit value)) one after bytes (edit value) := by
  rw [← List.append_nil bytes]
  exact retraces.bind (.pure _)

protected theorem within (retraces : Retraces image offsets step one after bytes value) (site : Site) :
    Retraces image offsets (Reading.within site step) one after bytes value := by
  intro again mirrors there
  obtain ⟨after', run, rest⟩ := retraces again mirrors there
  exact ⟨after', Reading.within_ok run, rest⟩

/-- Steps in a row are retraced one by one. -/
theorem inTurn {step : Nat → Loading α} {edit : α → α} {written : α → Bytes → Prop}
    {post : Pools → α → Prop}
    (keeps : ∀ index, Keeps (step index) post)
    (each : ∀ index one value after part, step index one = (.ok value, after) →
      one.Regular → after.pools.Extends items →
      written value part → Retraces image offsets (step index) one after part (edit value))
    {index : Nat} {values found : List α} {parts : List Bytes} (run : Reading.InTurn step index values one after)
    (regular : one.Regular) (final : after.pools.Extends items) (parted : List.Forall₂ written values parts) :
    Retraces image offsets (Reading.collect.go step values.length index found) one after parts.flatten
      (found.reverse ++ values.map edit) := by
  induction run generalizing found parts with
  | nil =>
    obtain rfl := List.forall₂_nil_left_iff.mp parted
    rw [List.map_nil, List.append_nil]
    exact .pure _
  | @cons index value values one mid after head others ih =>
    obtain ⟨part, parts, here, remaining, rfl⟩ := List.forall₂_cons_left_iff.mp parted
    obtain ⟨regular', -, -⟩ := (keeps index).holds _ _ _ head regular
    have grows := others.grows keeps regular'
    have first := each index one value mid part head regular (grows.trans final) here
    have rest :
      Retraces image offsets (Reading.collect.go step values.length (index + 1) (edit value :: found)) mid after
        parts.flatten ((edit value :: found).reverse ++ values.map edit) := ih regular' final remaining
    rw [List.reverse_cons, List.append_assoc, List.singleton_append] at rest
    rw [List.length_cons, Reading.collect.go, List.flatten_cons]
    exact first.bind rest

theorem collect {step : Nat → Loading α} {edit : α → α} {written : α → Bytes → Prop}
    {post : Pools → α → Prop}
    (keeps : ∀ index, Keeps (step index) post)
    (each : ∀ index one value after part, step index one = (.ok value, after) →
      one.Regular → after.pools.Extends items →
      written value part → Retraces image offsets (step index) one after part (edit value))
    {count : Nat} {values : List α} {parts : List Bytes} (run : Reading.collect count step one = (.ok values, after))
    (regular : one.Regular) (final : after.pools.Extends items) (parted : List.Forall₂ written values parts) :
    Retraces image offsets (Reading.collect values.length step) one after parts.flatten (values.map edit) :=
  inTurn keeps each (Reading.collect_eq_ok run).2 regular final parted

/-- A step at an offset, from which the loader returns. -/
theorem detour {offset : Nat} (site : Site) (retraces : Retraces image offsets step one after bytes value)
    (has : image.HasAt offset bytes) : Retraces image offsets (Loading.detour site offset step) one after [] value := by
  intro again mirrors there
  have inside := has.le_size mirrors.bytes
  obtain ⟨after', run, cursor, mirrors'⟩ :=
    retraces { again with cursor := { again.cursor with position := offset } } (mirrors.moveTo offset)
      (has.ahead_of mirrors.bytes mirrors.littleEndian rfl)
  exact ⟨{ after' with cursor := again.cursor }, detour_run inside there.inside run cursor, rfl, mirrors.bytes,
    mirrors.littleEndian, mirrors'.pools, mirrors'.loaded⟩

section Items

variable {kind : PoolKind} {step : Loading (Item kind)}

/-- What has been noted of the new offset of an item is the item, which had been read elsewhere. -/
theorem eq_of_noted (holds : Holds image items offsets) (tracked : kind.toSection.isIdTable = false) {again : Loader}
    (mirrors : one.Mirrors image offsets again) (regular : one.Regular) (final : one.pools.Extends items)
    {index other offset : UInt32} (place : offsets.offset? kind.toSection index = some offset)
    (noted : ((kind.toSection, offset), other) ∈ again.loaded) : other = index ∧ one.pools.contains (kind, index) := by
  rw [mirrors.loaded] at noted
  obtain ⟨⟨⟨section', old⟩, number⟩, present, same⟩ := List.mem_map.mp noted
  obtain ⟨key, rfl⟩ := Prod.mk.inj same
  obtain ⟨rfl, same⟩ := Prod.mk.inj key
  have inside := regular.inside kind old number present
  obtain ⟨item, stored⟩ := Pools.exists_of_contains (Pools.contains_of_extends final inside)
  obtain ⟨offset', -, place', -⟩ := holds.places kind tracked number item stored
  obtain rfl : offset' = offset := by rwa [place'] at same
  obtain rfl := holds.distinct kind tracked _ _ _ (Pools.contains_of_extends final inside) place' place
  exact ⟨rfl, inside⟩

/-- What has been read of an offset stands for what lies at the new offset. -/
theorem loaded?_eq (holds : Holds image items offsets) (tracked : kind.toSection.isIdTable = false) {again : Loader}
    (mirrors : one.Mirrors image offsets again) (regular : one.Regular) (final : one.pools.Extends items)
    {old index offset : UInt32} (known : one.loaded? kind.toSection old = some index)
    (place : offsets.offset? kind.toSection index = some offset) :
    again.loaded? kind.toSection offset = some index := by
  have there : ((kind.toSection, offset), index) ∈ again.loaded := by
    rw [mirrors.loaded]
    exact List.mem_map.mpr ⟨_, Loader.mem_loaded known, by rw [place]; rfl⟩
  rcases found : again.loaded? kind.toSection offset with _ | other
  · exact absurd there (Loader.loaded?_eq_none_iff.mp found index)
  · exact congrArg some (eq_of_noted holds tracked mirrors regular final place (Loader.mem_loaded found)).1

/-- An item is found unread where it was, and known where it was known. -/
protected theorem load (holds : Holds image items offsets) (tracked : kind.toSection.isIdTable = false)
    (retraces : RetracesItems image items offsets kind step)
    (keeps : Keeps step RegularItem) {old index offset : UInt32}
    (run : Loading.load kind step old one = (.ok index, after))
    (regular : one.Regular) (final : after.pools.Extends items)
    (place : offsets.offset? kind.toSection index = some offset) :
    Retraces image offsets (Loading.load kind step offset) one after [] index := by
  obtain ⟨-, grows, -⟩ := (Keeps.load keeps old).holds _ _ _ run regular
  intro again mirrors there
  rcases load_steps run with ⟨known, rfl⟩ | ⟨unknown, item, start, stop, before, steps, number, pools, loaded⟩
  · exact ⟨again, load_known (loaded?_eq holds tracked mirrors regular final known place), rfl, mirrors⟩
  · obtain ⟨-, grows', -⟩ := keeps.holds _ _ _ steps (before.regular regular)
    have pushed : (stop.pools.push kind item).Extends items := pools ▸ final
    -- The item has the next index in its pool, and what is stored there is the item.
    have few : (stop.pools.pool kind).size < UInt32.size := by
      have size := pushed.size_le kind
      rw [Pools.pool_push_self, Pool.size_push] at size
      exact (Nat.lt_of_succ_le size).trans (holds.sizes kind)
    have found : items.get? kind index = some item :=
      number ▸ pushed.get? (Pools.get?_push (pushed.indexed fun kind => Nat.le_of_lt (holds.sizes kind)))
    obtain ⟨offset', bytes, place', nonzero, encoded, has⟩ := holds.places kind tracked index item found
    obtain rfl := Option.some.inj (place'.symm.trans place)
    have small : bytes.length < UInt32.size := by
      have length := has.length_le
      have small := holds.small
      omega
    have reread :=
      (retraces start item stop bytes steps (before.regular regular) ((Pools.extends_push _ _ _).trans pushed)
      encoded small).within (.itemAt kind.toSection offset'.toNat)
    -- What was known before has an index that was taken before.
    have fresh : again.loaded? kind.toSection offset' = none := by
      refine Loader.loaded?_eq_none_iff.mpr fun other noted => ?_
      have taken := (eq_of_noted holds tracked mirrors regular (grows.trans final) place noted).2
      rw [number] at taken
      exact Pools.not_contains_nextIndex few (Pools.contains_of_extends (before.pools ▸ grows') taken)
    obtain ⟨between, run', cursor, mirrors'⟩ :=
      Retraces.detour (.itemAt kind.toSection offset'.toNat) reread has again (mirrors.beside before) there
    have same : index = (between.pools.pool kind).nextIndex := by
      rw [number, Pool.nextIndex, Pool.nextIndex, mirrors'.pools, Pool.size_map]
    refine ⟨_, load_eq_ok.mpr (.inr ⟨fresh, _, between, run', same, rfl⟩),
      cursor, mirrors'.push kind item pools rfl rfl ?_⟩
    rw [loaded, List.map_cons, mirrors'.loaded, place]
    rfl

/-- A reference leads to the same item. -/
protected theorem refAt (holds : Holds image items offsets) (tracked : kind.toSection.isIdTable = false)
    (retraces : RetracesItems image items offsets kind step) (keeps : Keeps step RegularItem) {usage : Usage}
    {old offset : UInt32} {ref : DataRef kind} (run : Loading.refAt kind step old one = (.ok ref, after))
    (regular : one.Regular) (final : after.pools.Extends items)
    (known : (ref.located offsets.finder usage).offset = .ok offset) :
    Retraces image offsets (Loading.refAt kind step offset) one after [] (ref.located offsets.finder usage) := by
  rw [Loading.refAt] at run
  split_ifs at run with zero
  · obtain ⟨rfl, rfl⟩ := Reading.pure_eq_ok.mp run
    obtain rfl := Except.ok.inj known
    exact .pure _
  · obtain ⟨index, between, loaded, last⟩ := Reading.bind_eq_ok.mp run
    obtain ⟨rfl, rfl⟩ := Reading.pure_eq_ok.mp last
    obtain ⟨-, -, inside⟩ := (Keeps.load keeps old).holds _ _ _ loaded regular
    obtain ⟨item, found⟩ := Pools.exists_of_contains (Pools.contains_of_extends final inside)
    obtain ⟨place, _, there, nonzero, -⟩ := holds.places kind tracked index item found
    have located : (DataRef.placed index old : DataRef kind).located offsets.finder usage = .placed index place := by
      have told : offsets.finder ((DataRef.placed index old : DataRef kind).slot usage) = some place := there
      rw [DataRef.located, Finder.edit, told]
      rfl
    rw [located] at known ⊢
    obtain rfl := Except.ok.inj known
    rw [Loading.refAt, if_neg nonzero]
    exact (Retraces.load holds tracked retraces keeps loaded regular final there).bind_pure

protected theorem ref (holds : Holds image items offsets) (tracked : kind.toSection.isIdTable = false)
    (retraces : RetracesItems image items offsets kind step)
    (keeps : Keeps step RegularItem) {usage : Usage} {ref : DataRef kind}
    (run : Loading.ref kind step one = (.ok ref, after)) (regular : one.Regular) (final : after.pools.Extends items)
    (written : (ref.located offsets.finder usage).encodeWord = .ok bytes) :
    Retraces image offsets (Loading.ref kind step) one after bytes (ref.located offsets.finder usage) := by
  obtain ⟨known, rfl⟩ := DataRef.encodeWord_eq_ok written
  obtain ⟨old, mid, -, before, run⟩ := (Still.ofDecoder _).bind_eq_ok run
  have retraced := Retraces.refAt holds tracked retraces keeps run (before.regular regular) final known
  rw [Loading.ref, ← List.append_nil (Bytes.ofUInt32 _)]
  exact .read_bind (.u4 _) (retraced.beside before (.refl _))

end Items

end Retraces

end DexImage
