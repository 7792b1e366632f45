import DexImage.Proofs.Rereading.Refreshed
import DexImage.Proofs.Rereading.Rewriting
import DexImage.Proofs.Rereading.Stored
/-! # One trip settles an image

An image that has been read may be written in another order and at other offsets than it was read from. What is read
of it from then on stays: its items come in the order in which they are found, are up to date, and lie where they
have lain (`Image.read_write_settles`).
-/

namespace DexImage

open Layout

variable {image after again : Image} {layout : Layout} {bytes : Bytes}

section Headers

/-- Whether a header has a version, and container fields exactly where its version and its size call for them. -/
def Header.Fitted (header : Header) : Prop :=
  ∃ version, header.version? = some version ∧
    header.container.isSome = (containerVersion ≤ version && containerSize ≤ encodedSize header)

theorem Header.Coherent.fitted {header : Header} (coherent : header.Coherent) : header.Fitted := by
  obtain ⟨version, spelled, container⟩ := coherent.spelled
  rw [coherent.declared] at container
  exact ⟨version, spelled, container⟩

/-- Whatever a layout says of a header, its version and its container fields stay. -/
theorem Header.Fitted.applyTo {header : Header} (fitted : header.Fitted) (layout : Layout) :
    (layout.applyTo header).Fitted := by
  obtain ⟨version, spelled, container⟩ := fitted
  refine ⟨version, spelled, ?_⟩
  rw [encodedSize_applyTo, ← container]
  exact Option.isSome_map

/-- A header that is as long as it declares is read as it is. -/
theorem Header.Fitted.coherent {header : Header} (fitted : header.Fitted)
    (declared : header.headerSize.toNat = encodedSize header) :
    header.Coherent := by
  obtain ⟨version, spelled, container⟩ := fitted
  rw [← declared] at container
  exact ⟨declared, version, spelled, container⟩

end Headers

namespace Image.Written

variable (written : image.Written layout bytes after)
include written

/-- A header that is written is as long as it declares. -/
theorem declared : after.header.headerSize.toNat = encodedSize after.header := by
  obtain ⟨-, checksum, signature, same⟩ := written.emitted
  obtain ⟨entry, -, -, -, -, behind⟩ :=
    written.planned.get? (show SectionKind.mapList ≠ .header by decide) Nat.one_ne_zero
  have small : encodedSize image.header < UInt32.size := Nat.lt_of_le_of_lt behind entry.offset.toNat_lt
  have size : encodedSize after.header = encodedSize image.header := by
    rw [same]
    exact Layout.encodedSize_applyTo layout image.header
  have declares : after.header.headerSize = (encodedSize image.header).toUInt32 := by
    rw [same]
    rfl
  rw [declares, size, toNat_toUInt32_of_lt small]

theorem endianTag : after.header.endianTag = Header.littleEndianTag := by
  obtain ⟨-, checksum, signature, same⟩ := written.emitted
  rw [same]
  rfl

theorem coherent (fitted : image.header.Fitted) : after.header.Coherent := by
  refine Header.Fitted.coherent ?_ written.declared
  obtain ⟨-, checksum, signature, same⟩ := written.emitted
  rw [same]
  exact fitted.applyTo layout

/-- The header that is written is read as it is. -/
theorem decode (strict : Bool) (fitted : image.header.Fitted) (plain : strict = true → after.header.Plain) :
    ∃ cursor, Header.decode strict (.ofBytes bytes) = (.ok after.header, cursor) ∧
      cursor.bytes = bytes.toArray ∧ cursor.bigEndian = false := by
  obtain ⟨emitted, -⟩ := written.emitted
  obtain ⟨added, listed, -⟩ := written.planned.header
  have first : ⟨.header, 1, 0⟩ ∈ layout.map.entries := by
    rw [listed]
    exact List.mem_cons_self
  obtain ⟨front, encoded, has⟩ := (emitted.sections _ first).single rfl
  have decoded := (written.coherent fitted).decode_encode plain encoded (by simpa using has.ahead)
  rwa [← written.endianTag] at decoded

/-- The header says where the tables of the layout are. -/
theorem places : after.header.mapOffset = (layout.span .mapList).offset ∧
    after.header.stringIds = layout.span .stringId ∧ after.header.typeIds = layout.span .typeId ∧
    after.header.protoIds = layout.span .protoId ∧ after.header.fieldIds = layout.span .fieldId ∧
    after.header.methodIds = layout.span .methodId ∧ after.header.classDefs = layout.span .classDef := by
  obtain ⟨-, checksum, signature, same⟩ := written.emitted
  rw [same]
  exact ⟨rfl, rfl, rfl, rfl, rfl, rfl, rfl⟩

end Image.Written

theorem Loader.mirrors_ofCursor (cursor : Cursor) {cursor' : Cursor} (same : cursor'.bytes.toList = bytes)
    (littleEndian : cursor'.bigEndian = false) (offsets : OffsetTable) (strict strict' : Bool) :
    Mirrors bytes offsets (.ofCursor cursor strict) (.ofCursor cursor' strict') where
  bytes := same
  littleEndian := littleEndian
  pools kind := by
    have none (pool : Pool (Item kind)) (empty : pool.items = []) : pool.map (moved offsets.finder) = pool :=
      Pool.map_of_fixed fun item member => absurd (empty ▸ member) List.not_mem_nil
    exact (none _ (by cases kind <;> rfl)).symm
  loaded := rfl

namespace Image

/-- The tables of the header that is read of a written image have as many entries as there are items. -/
theorem Sane.counts_of_read (sane : image.Sane) (written : image.Written layout bytes after)
    (reread : Image.read bytes .lenient = .ok again) : again.header.Counts again.pools := by
  obtain ⟨cursor, loader, -, pools, spans, filled⟩ := sane.filled_of_read written reread
  have complete := written.complete sane.regular
  have table (kind : PoolKind) (isTable : kind.toSection.isIdTable = true) (other : kind ≠ .stringId)
      (listed : kind ∈ [PoolKind.classDef, .methodId, .fieldId, .protoId, .typeId, .stringId]) :
      (layout.span kind.toSection).size.toNat = (again.pools.pool kind).size := by
    rw [(complete.tables kind isTable other).size, (filled.tables kind listed).length_eq, pools, Pool.length_items]
  have strings : (layout.span .stringId).size.toNat = (again.pools.pool .stringId).size := by
    rw [complete.strings.size, ← pools]
    exact (filled.tables .stringId (by decide)).length_eq.trans (Pool.length_items _)
  obtain ⟨-, strings', types, protos, fields, methods, classes⟩ := written.places
  simp only [Header.spans, List.cons.injEq, Prod.mk.injEq, true_and] at spans
  obtain ⟨strings'', types', protos', fields', methods', classes', -⟩ := spans
  refine ⟨?_, ?_, ?_, ?_, ?_, ?_⟩
  · rw [strings'', strings', strings]
  · rw [types', types]
    exact table .typeId rfl (by decide) (by decide)
  · rw [protos', protos]
    exact table .protoId rfl (by decide) (by decide)
  · rw [fields', fields]
    exact table .fieldId rfl (by decide) (by decide)
  · rw [methods', methods]
    exact table .methodId rfl (by decide) (by decide)
  · rw [classes', classes]
    exact table .classDef rfl (by decide) (by decide)

/-- What has been read is read in the same order from an image that it is written as. -/
theorem Sane.moved_of_write (sane : image.Sane) (written : image.Written layout bytes after)
    (coherent : image.header.Coherent)
    (refreshed : image.pools.refreshAll = image.pools)
    (counts : image.header.Counts image.pools) {cursor : Cursor} {strict : Bool}
    {map : MapList} {loader : Loader} (run : loadTables image.header (.ofCursor cursor strict) = (.ok map, loader))
    (loaded : loader.pools = image.pools) :
    ∃ again, Image.read bytes .lenient = .ok again ∧
      again.header = after.header ∧
      ∀ kind, again.pools.pool kind = (image.pools.pool kind).map (moved layout.offsets.finder) := by
  obtain ⟨cursor', decoded, sameBytes, littleEndian⟩ := written.decode false coherent.fitted (by rintro ⟨⟩)
  have relocated := refreshed ▸ written.planned.pools
  have complete := written.complete sane.regular
  obtain ⟨map', places⟩ := written.places
  have repeats := Repeats.loadTables (complete.holds relocated) complete.toStored
    (fun kind _ => complete.encoded_alike relocated kind) run (regular_ofCursor cursor strict) loaded counts
    map' places
  obtain ⟨loader', run', mirrors⟩ :=
    repeats _ (Loader.mirrors_ofCursor cursor (congrArg Array.toList sameBytes) littleEndian _ strict false)
  refine ⟨_, read_lenient decoded run', rfl, fun kind => ?_⟩
  rw [mirrors.pools, loaded]

/-- Items that have been read again from where they have been written are written there again. -/
theorem Written.write_again (written : image.Written layout bytes after)
    (refreshed : image.pools.refreshAll = image.pools)
    (refreshed' : again.pools.refreshAll = again.pools)
    (header : again.header = after.header)
    (pools : ∀ kind, again.pools.pool kind = (image.pools.pool kind).map (moved layout.offsets.finder)) :
    again.write.1 = .ok bytes := by
  obtain ⟨-, checksum, signature, same⟩ := written.emitted
  have applied : layout.applyTo again.header = { layout.applyTo image.header with checksum, signature } := by
    rw [header, same]
    exact layout.applyTo_again image.header checksum signature
  have meet : Pools.Meet layout.offsets.finder image.pools.refreshAll again.pools.refreshAll := by
    intro kind
    rw [refreshed, refreshed', pools, Pool.items_map, List.map_map]
    exact List.map_congr_left fun item _ => locate_moved item
  obtain ⟨placed, written', -⟩ := written.write_of_meet applied meet
  rw [write_eq_ok.mpr ⟨layout, written'⟩]

/-- One trip settles an image: what is read of it after it has been read and written is read and written the same from
then on. -/
theorem read_write_settles {bytes first second : Bytes} {options : ReadOptions} {image image' again again' : Image}
    (read : Image.read bytes options = .ok image) (written : image.write = (.ok first, image'))
    (reread : Image.read first .lenient = .ok again) (rewritten : again.write = (.ok second, again')) :
    ∃ last, Image.read second .lenient = .ok last ∧ (last.pools == again.pools) = true ∧
      (last.pools == again'.pools) = true ∧ last.write.1 = .ok second := by
  have sane := (Reached.read read).sane
  have sane' := (Reached.read reread).sane
  have refreshed := sane.refreshed_of_write written reread
  obtain ⟨layout, written⟩ := write_eq_ok.mp written
  obtain ⟨layout', rewritten'⟩ := write_eq_ok.mp rewritten
  obtain ⟨cursor, loader, decoded, run, loaded⟩ := read_eq_ok reread
  have coherent := (Header.gives_decode _).holds _ _ _ decoded
  obtain ⟨last, relast, header, pools⟩ :=
    sane'.moved_of_write rewritten' coherent refreshed (sane.counts_of_read written reread) run loaded
  have complete := rewritten'.complete sane'.regular
  have relocated := refreshed ▸ rewritten'.planned.pools
  refine ⟨last, relast, Pools.beq_of_pools fun kind => ?_, Pools.beq_of_pools fun kind => ?_,
    rewritten'.write_again refreshed (sane'.refreshed_of_write rewritten relast) header pools⟩
  · rw [pools]
    exact Pool.map_beq _ (moved_beq _)
  · have items : (last.pools.pool kind).items = (again'.pools.pool kind).items.map (moved layout'.offsets.finder) := by
      obtain ⟨edit, same, each⟩ := relocated kind
      rw [pools, same, Pool.items_map, Pool.items_map, List.map_map]
      refine List.map_congr_left fun item member => complete.moved_eq ?_ (each item)
      rw [same, Pool.items_map]
      exact List.mem_map_of_mem member
    change ((last.pools.pool kind).items == (again'.pools.pool kind).items) = true
    rw [items]
    exact List.map_beq (moved_beq _) _

/-- A class with an interface, on two trips. -/
theorem read_write_settles_withListener : ∃ bytes image first image' again second again' last,
    withListener.write.1 = .ok bytes ∧ Image.read bytes .lenient = .ok image ∧ image.write = (.ok first, image') ∧
      Image.read first .lenient = .ok again ∧ again.write = (.ok second, again') ∧
        Image.read second .lenient = .ok last ∧ (last.pools == again.pools) = true ∧
          (last.pools == again'.pools) = true ∧ last.write.1 = .ok second := by
  have success :
    (withListener.write.1 >>= fun bytes => Image.read bytes .lenient >>= fun image => image.write.1 >>= fun first =>
      Image.read first .lenient >>= fun again => again.write.1).toOption.isSome = true := by decide +kernel
  obtain ⟨second, run⟩ := Result.exists_of_toOption success
  obtain ⟨bytes, encoded, run⟩ := Result.bind_eq_ok.mp run
  obtain ⟨image, decoded, run⟩ := Result.bind_eq_ok.mp run
  obtain ⟨first, written, run⟩ := Result.bind_eq_ok.mp run
  obtain ⟨again, reread, rewritten⟩ := Result.bind_eq_ok.mp run
  have written : image.write = (.ok first, image.write.2) := Prod.ext written rfl
  have rewritten : again.write = (.ok second, again.write.2) := Prod.ext rewritten rfl
  obtain ⟨last, settled⟩ := read_write_settles decoded written reread rewritten
  exact ⟨bytes, image, first, _, again, second, _, last, encoded, decoded, written, reread, rewritten, settled⟩

end Image
end DexImage
