import DexImage.Proofs.Loading.Tables
/-! # Reading an image back

An image that stores pools is read as pools with the same contents: tables of strings, types, fields and methods
come out as they were, and so do protos and class definitions but for the numbers of the data items that they
refer to, which have the same contents (`Pools.Reread`).
-/

namespace DexImage

open Loading Layout

/-- Whether pools have the contents of those that were written. -/
structure Pools.Reread (written read : Pools) : Prop where
  strings : read.strings.items = written.strings.items
  types : read.types.items = written.types.items
  fields : read.fields.items = written.fields.items
  methods : read.methods.items = written.methods.items
  protos : List.Forall₂ (ProtoId.holding.Matches (SameContents written read)) written.protos.items read.protos.items
  classDefs :
    List.Forall₂ (ClassDef.holding.Matches (SameContents written read)) written.classDefs.items read.classDefs.items

section Images

variable {image : Bytes} {placed : Pools} {layout : Layout} {header : Header}

/-- Tables whose entries refer to no data item are read as they are. -/
theorem Loader.Filled.items_eq {kinds : List PoolKind} {loader : Loader} {kind : PoolKind}
    (filled : loader.Filled image placed layout kinds) (member : kind ∈ kinds)
    (plain : ∀ item : Item kind, effective item = item)
    (whole : ∀ item : Item kind, (itemHolding kind).fill item ((itemHolding kind).held item) = item)
    (dataless : ∀ (item : Item kind) find other, locate find item = locate other item) :
    (loader.pools.pool kind).items = (placed.pool kind).items := by
  refine ((filled.tables kind member).eq_of fun {item value} matching => ?_).symm
  rw [plain, plain] at matching
  exact matching.eq whole (dataless_of_locate (dataless item))

theorem Loader.Filled.reread {loader : Loader} (filled : loader.Filled image placed layout
    [.classDef, .methodId, .fieldId, .protoId, .typeId, .stringId]) : placed.Reread loader.pools where
  strings :=
    @Loader.Filled.items_eq _ _ _ _ _ .stringId filled (by decide) (fun _ => rfl) (fun _ => rfl) (fun _ _ _ => rfl)
  types := @Loader.Filled.items_eq _ _ _ _ _ .typeId filled (by decide) (fun _ => rfl) (fun _ => rfl) (fun _ _ _ => rfl)
  fields :=
    @Loader.Filled.items_eq _ _ _ _ _ .fieldId filled (by decide) (fun _ => rfl) (fun _ => rfl) (fun _ _ _ => rfl)
  methods :=
    @Loader.Filled.items_eq _ _ _ _ _ .methodId filled (by decide) (fun _ => rfl) (fun _ => rfl) (fun _ _ _ => rfl)
  protos := filled.tables .protoId (by decide)
  classDefs := filled.tables .classDef (by decide)

/-- An empty loader has read nothing yet. -/
theorem filled_ofCursor {cursor : Cursor} (bytes : cursor.bytes.toList = image)
    (littleEndian : cursor.bigEndian = false)
    (strict : Bool) : (Loader.ofCursor cursor strict).Filled image placed layout [] where
  sound := ⟨bytes, littleEndian, List.nodup_nil, fun kind _ => by cases kind <;> rfl,
    fun _ _ _ member => absurd member List.not_mem_nil⟩
  deep _ member := absurd member List.not_mem_nil
  tables _ member := absurd member List.not_mem_nil
  others kind _ _ := by cases kind <;> rfl

/-- What an image stores completely is loaded from it, if its header can be read. -/
theorem Image.filled_of_complete (complete : layout.Complete image placed)
    (emitted : Emitted header placed layout image)
    (first : ⟨.header, 1, 0⟩ ∈ layout.map.entries) (known : header.version?.isSome)
    (size : header.headerSize = (encodedSize header).toUInt32) (map : header.mapOffset = (layout.span .mapList).offset)
    (spans : header.stringIds = layout.span .stringId ∧ header.typeIds = layout.span .typeId ∧
      header.protoIds = layout.span .protoId ∧ header.fieldIds = layout.span .fieldId ∧
      header.methodIds = layout.span .methodId ∧ header.classDefs = layout.span .classDef) :
    ∃ read cursor after, Header.decode false (.ofBytes image) = (.ok read, cursor) ∧ read.spans = header.spans ∧
      Image.loadTables read (.ofCursor cursor false) = (.ok layout.map, after) ∧
      after.Filled image placed layout [.classDef, .methodId, .fieldId, .protoId, .typeId, .stringId] := by
  obtain ⟨bytes, encoded, has⟩ := (emitted.sections _ first).single rfl
  have front : bytes <+: image := by simpa using has.ahead
  have length := Header.length_encode encoded
  have declared : header.headerSize.toNat = bytes.length := by
    have small : encodedSize header < 2 ^ 32 := length ▸ Nat.lt_of_le_of_lt front.length_le complete.small
    rw [size, length, toNat_toUInt32_of_lt small]
  obtain ⟨read, cursor, decoded, cursorBytes, littleEndian, sameSpans, sameMap⟩ :=
    Header.decode_encode encoded front known declared
  have start : (Loader.ofCursor cursor false).Filled image placed layout [] :=
    filled_ofCursor (by rw [cursorBytes]) littleEndian false
  obtain ⟨after, run, filled⟩ := loadTables_ok complete (sameMap.trans map) (by
    simp only [Header.spans, List.cons.injEq, Prod.mk.injEq, true_and] at sameSpans
    obtain ⟨strings, types, protos, fields, methods, classes, -⟩ := sameSpans
    obtain ⟨strings', types', protos', fields', methods', classes'⟩ := spans
    exact ⟨strings.trans strings', types.trans types', protos.trans protos', fields.trans fields',
      methods.trans methods', classes.trans classes'⟩) start
  exact ⟨read, cursor, after, decoded, sameSpans, run, filled⟩

end Images
end DexImage
