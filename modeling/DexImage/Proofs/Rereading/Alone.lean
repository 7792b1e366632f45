import DexImage.Proofs.Codec.Headers
import DexImage.Proofs.Rereading.Decoding
import DexImage.Writing
/-! # Items that are read on their own

An item that refers to no data item is read without the items around it. When it has been read from some bytes,
canonical or not, what is written of it is read as the same item (`OwnKind.load_written`).
-/

namespace DexImage

open Reading Loading

/-- Methods without code are read on their own. -/
theorem DefinedMethod.loadList_passes (noun : String) {entries : List DefinedMethod} {bytes : Bytes}
    (success : encodeList 0 entries = .ok bytes) (alone : ∀ method ∈ entries, method.code = .absent)
    (few : entries.length < UInt32.size) : Passes (loadList noun entries.length.toUInt32) bytes (pure entries) := by
  obtain ⟨triples, rfl, rfl, length, -⟩ := encodeList_eq_ok success
  have each : List.Forall₂ (fun part (triple : UInt32 × UInt32 × DataRef .code) => ∀ index, Passes (do
      let difference ← ofDecoder Decoder.uleb128
      let access ← ofDecoder Decoder.uleb128
      let offset ← ofDecoder Decoder.uleb128
      let code ← Reading.within (.nth noun index) (refAt .code CodeItem.load offset)
      return (difference, access, code)) part (pure triple)) (triples.map tripleBytes) triples := by
    refine .of_map_left fun triple member index => ?_
    obtain ⟨entry, listed, same⟩ := code_of_mem member
    obtain ⟨difference, access, code⟩ := triple
    obtain rfl : code = .absent := same.symm.trans (alone entry listed)
    rw [tripleBytes, List.append_assoc]
    exact .read_bind (.uleb128 _) (.read_bind (.uleb128 _) (Passes.ofDecoder (.uleb128 0)).bind_pure)
  rw [loadList, toNat_toUInt32_of_lt few, ← length]
  exact (Passes.collect each).bind_pure

/-- Field references and method references without code are read on their own. -/
theorem ClassData.load_passes {data : ClassData} {bytes : Bytes} (success : encode data = .ok bytes)
    (counted : data.Counted) (alone : ∀ method ∈ data.methods, method.code = .absent) :
    Passes load bytes (pure data) := by
  obtain ⟨statics, instances, direct, virtual, staticsWritten, instancesWritten, directWritten, virtualWritten, rfl⟩ :=
    encode_eq_ok.mp success
  obtain ⟨directAlone, virtualAlone⟩ := List.forall_mem_append.mp alone
  refine .read_bind (.uleb128 _) (.read_bind (.uleb128 _) (.read_bind (.uleb128 _) (.read_bind (.uleb128 _) ?_)))
  refine .read_bind (DefinedField.reads_encodeList staticsWritten (toNat_toUInt32_of_lt counted.staticFields)) ?_
  refine .read_bind (DefinedField.reads_encodeList instancesWritten (toNat_toUInt32_of_lt counted.instanceFields)) ?_
  refine (DefinedMethod.loadList_passes _ directWritten directAlone counted.directMethods).bind ?_
  exact (DefinedMethod.loadList_passes _ virtualWritten virtualAlone counted.virtualMethods).bind_pure

/-- Code without debug info is read on its own. -/
theorem CodeItem.load_alone {code : CodeItem} {bytes : Bytes} (success : encode code = .ok bytes)
    (readable : code.Readable) (counted : code.Counted) (same : code.reread = code) (alone : code.debugInfo = .absent) :
    Passes load bytes (pure code) := by
  intro loader there
  refine (load_passes success readable counted there).trans ?_
  rw [same, alone]
  have absent (site : Site) (loader : Loader) : Reading.within site
      (refAt .debugInfo (ofDecoder DebugInfo.decode) (DataRef.absent : DataRef .debugInfo).knownOffset) loader =
        (.ok .absent, loader) := rfl
  rw [Reading.bind_ok (absent _ _), ← alone]

/-- The kinds of items that are read without the items around them. How many ranges a try table has is told by the code
item that it belongs to. -/
inductive OwnKind where
  | string
  | type
  | field
  | method
  | typeList
  | value
  | encodedArray
  | annotation
  | debugInfo
  | tries (ranges : UInt16)
  | map
  | classData
  | code
deriving DecidableEq, Repr

namespace OwnKind

abbrev part : OwnKind → PartKind
  | string => .item .stringId
  | type => .item .typeId
  | field => .item .fieldId
  | method => .item .methodId
  | typeList => .item .typeList
  | value => .value
  | encodedArray => .item .encodedArray
  | annotation => .item .annotationItem
  | debugInfo => .item .debugInfo
  | tries _ => .tries
  | map => .map
  | classData => .item .classData
  | code => .item .code

/-- Reads an item at the position of the loader. -/
def load : (kind : OwnKind) → Loading (Part kind.part)
  | string => loadItem .stringId
  | type => loadItem .typeId
  | field => loadItem .fieldId
  | method => loadItem .methodId
  | typeList => loadItem .typeList
  | value => ofDecoder EncodedValue.decode
  | encodedArray => loadItem .encodedArray
  | annotation => loadItem .annotationItem
  | debugInfo => loadItem .debugInfo
  | tries ranges => ofDecoder (TryTable.decode ranges)
  | map => ofDecoder MapList.decode
  | classData => loadItem .classData
  | code => loadItem .code

/-- Whether no method has code and no code has debug info, which would lie elsewhere. -/
def Alone : (kind : OwnKind) → Part kind.part → Prop
  | classData, item => ∀ method ∈ ClassData.methods item, method.code = .absent
  | code, item => CodeItem.debugInfo item = .absent
  | _, _ => True

/-- An item that has been read from any bytes, in either byte order, is read again from what is written of it, wherever
that lies ahead of a little-endian cursor, and nothing behind it is read. -/
theorem load_written {kind : OwnKind} {loader after : Loader} {item : Part kind.part} {bytes : Bytes}
    (read : kind.load loader = (.ok item, after)) (alone : kind.Alone item) (written : encode item = .ok bytes)
    (again : Loader) (there : again.cursor.Ahead bytes) :
    kind.load again = (.ok item, { again with cursor := again.cursor.advance bytes.length }) := by
  have decoded {step : Decoder (Part kind.part)} (reads : Reads step bytes item) :
      ofDecoder step again = (.ok item, { again with cursor := again.cursor.advance bytes.length }) :=
    Passes.ofDecoder reads again there
  -- What is known of an item because it has been read is what it takes to read it from what is written.
  cases kind with
  | string =>
    have settled := StringData.gives_decode.ofDecoder.holds _ _ _ read
    exact decoded (StringData.reads_encode written settled)
  | type => exact decoded (TypeId.reads_encode written)
  | field => exact decoded (FieldId.reads_encode written)
  | method => exact decoded (MethodId.reads_encode written)
  | typeList =>
    have counted := TypeList.gives_counted.ofDecoder.holds _ _ _ read
    exact decoded (TypeList.reads_encode written counted)
  | value =>
    have spelled := EncodedValue.gives_decode.ofDecoder.holds _ _ _ read
    have decodes := EncodedValue.decodes_encode _ written spelled.counted
    rw [spelled.settled] at decodes
    exact @decoded EncodedValue.decode decodes.reads
  | encodedArray =>
    obtain ⟨counted, settled⟩ := EncodedArray.gives_spelled.ofDecoder.holds _ _ _ read
    have reads := EncodedArray.reads_encode written counted
    rw [settled] at reads
    exact decoded reads
  | annotation =>
    obtain ⟨counted, settled⟩ := AnnotationItem.gives_spelled.ofDecoder.holds _ _ _ read
    have named := AnnotationItem.gives_decode.ofDecoder.holds _ _ _ read
    have reads := AnnotationItem.reads_encode written counted named
    rw [settled] at reads
    exact decoded reads
  | debugInfo =>
    obtain ⟨readable, counted⟩ := (DebugInfo.gives_decode.and DebugInfo.gives_counted).ofDecoder.holds _ _ _ read
    exact decoded (DebugInfo.reads_encode written readable counted)
  | tries ranges =>
    obtain ⟨readable, counted, length, clean⟩ := (TryTable.gives_readable ranges).ofDecoder.holds _ _ _ read
    have reads := TryTable.reads_encode written readable counted
    have same : (TryTable.tries item).length.toUInt16 = ranges := by
      rw [length, Nat.toUInt16_eq, UInt16.ofNat_toNat]
    rw [same] at reads
    obtain ⟨ranges, items, dirty⟩ := (item : TryTable)
    obtain rfl := clean
    exact decoded reads
  | map =>
    have few := MapList.gives_counted.ofDecoder.holds _ _ _ read
    exact decoded (MapList.reads_encode written few)
  | classData =>
    have counted := ClassData.gives_counted.holds _ _ _ read
    exact ClassData.load_passes written counted alone again there
  | code =>
    obtain ⟨readable, counted, same⟩ := CodeItem.gives_load.holds _ _ _ read
    exact CodeItem.load_alone written readable counted same alone again there

/-- A type list that is read in big-endian order is written in little-endian order. -/
theorem load_written_bigEndian :
    typeList.load (.ofCursor ⟨#[0, 0, 0, 1, 0, 5, 7], 0, true⟩ false) =
        (.ok ⟨[.of 5]⟩, .ofCursor ⟨#[0, 0, 0, 1, 0, 5, 7], 6, true⟩ false) ∧
      encode (⟨[.of 5]⟩ : TypeList) = .ok [1, 0, 0, 0, 5, 0] ∧
      typeList.load (.ofCursor ⟨#[1, 0, 0, 0, 5, 0, 42], 0, false⟩ true) =
        (.ok ⟨[.of 5]⟩, .ofCursor ⟨#[1, 0, 0, 0, 5, 0, 42], 6, false⟩ true) := by
  have read : typeList.load (.ofCursor ⟨#[0, 0, 0, 1, 0, 5, 7], 0, true⟩ false) =
    (.ok ⟨[.of 5]⟩, .ofCursor ⟨#[0, 0, 0, 1, 0, 5, 7], 6, true⟩ false) := rfl
  have written : encode (⟨[.of 5]⟩ : TypeList) = .ok [1, 0, 0, 0, 5, 0] := rfl
  refine ⟨read, written, load_written read trivial written _ ⟨rfl, Nat.zero_le _, ?_⟩⟩
  exact ⟨[42], rfl⟩

end OwnKind
end DexImage
