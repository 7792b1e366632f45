import DexImage.Header
import DexImage.MapList
import DexImage.Proofs.Codec.Cursors
import DexImage.Proofs.Results
/-! # Reading what encodes a header or a map

A header that is read back names the same tables, whatever its version makes of the bytes behind the
fields that every version has.
-/

namespace DexImage

namespace Reads

/-- Some bytes as an array of the same size. -/
theorem array {size : Nat} (bytes : Vector UInt8 size) : Reads (Decoder.array size) bytes.toList bytes := by
  have taken := take bytes.toList
  rw [Vector.length_toList] at taken
  refine taken.bind_pure (congrArg pure ?_)
  apply Vector.ext
  intro position inside
  simp [Bytes.toVector]

/-- Any four bytes spell a number. -/
theorem u4_of_length (bytes : Bytes) (length : bytes.length = 4) :
    Reads Decoder.u4 bytes bytes.toNatLittle.toUInt32 := by
  have taken := take bytes
  rw [length] at taken
  have number : Reads (Decoder.fixed 4) bytes bytes.toNatLittle := by
    intro cursor there
    rw [Decoder.fixed, Reading.bind_ok (taken cursor there)]
    change (Except.ok (if cursor.bigEndian then _ else _), _) = _
    rw [there.littleEndian]
    rfl
  exact number.bind_pure rfl

theorem span (span : Span) : Reads Span.decode span.bytes span :=
  (u4 span.size).bind ((u4 span.offset).bind_pure rfl)

end Reads

namespace Bytes

/-- The number that some bytes spell in an order of bytes. -/
def wordIn (bigEndian : Bool) (bytes : Bytes) : UInt32 :=
  (if bigEndian then bytes.toNatBig else bytes.toNatLittle).toUInt32

/-- The bytes of the four-byte field at an offset. -/
def wordAt (offset : Nat) (bytes : Bytes) : Bytes := (bytes.drop offset).take 4

end Bytes

namespace Decoder

theorem u4_eq_ok {cursor after : Cursor} {value : UInt32} (run : u4 cursor = (.ok value, after)) :
    value = (cursor.window 4).wordIn cursor.bigEndian := by
  obtain ⟨number, between, run, same⟩ := Reading.bind_eq_ok.mp run
  obtain ⟨bytes, between', run, same'⟩ := Reading.bind_eq_ok.mp run
  obtain ⟨-, rfl, rfl⟩ := take_eq_ok.mp run
  obtain ⟨rfl, -⟩ := Reading.pure_eq_ok.mp same
  exact congrArg Nat.toUInt32 (Except.ok.inj (Prod.mk.inj same').1).symm

theorem array_of_le {size : Nat} {cursor : Cursor} (enough : cursor.position + size ≤ cursor.bytes.size) :
    array size cursor = (.ok (Bytes.toVector size (cursor.rest.take size)), cursor.advance size) :=
  Reading.bind_ok (take_eq_ok.mpr ⟨enough, (Cursor.window_eq _ _).symm, rfl⟩)

end Decoder

namespace Header

/-- The encoded places of the tables and of the data. -/
def tableBytes (header : Header) : Bytes :=
  header.link.bytes ++ (Bytes.ofUInt32 header.mapOffset ++ (header.stringIds.bytes ++ (header.typeIds.bytes ++
    (header.protoIds.bytes ++ (header.fieldIds.bytes ++ (header.methodIds.bytes ++ (header.classDefs.bytes ++
      header.data.bytes)))))))

/-- The encoded fields behind the signature that every version has. -/
def fieldBytes (header : Header) : Bytes :=
  Bytes.ofUInt32 header.fileSize ++ (Bytes.ofUInt32 header.headerSize ++ (Bytes.ofUInt32 littleEndianTag ++
    header.tableBytes))

/-- The encoded fields behind those that every version has. -/
def laterBytes (header : Header) : Bytes :=
  (match header.container with
    | some container => Bytes.ofUInt32 container.size ++ Bytes.ofUInt32 container.headerOffset
    | none => []) ++ header.surplus

/-- The encoded fields that every version has. -/
def baseBytes (header : Header) : Bytes :=
  header.magic.toList ++ (Bytes.ofUInt32 header.checksum ++ (header.signature.toList ++ header.fieldBytes))

theorem encode_eq (header : Header) : encode header = .ok (header.magic.toList ++ (Bytes.ofUInt32 header.checksum ++
    (header.signature.toList ++ (header.fieldBytes ++ header.laterBytes)))) := by
  simp only [encode, fieldBytes, tableBytes, List.append_assoc]
  rfl

theorem encode_eq_ok {header : Header} {bytes : Bytes} (success : encode header = .ok bytes) :
    bytes = header.baseBytes ++ header.laterBytes := by
  rw [← Except.ok.inj ((encode_eq header).symm.trans success)]
  simp only [baseBytes, List.append_assoc]

theorem length_fieldBytes (header : Header) : header.fieldBytes.length = 80 := by
  simp [fieldBytes, tableBytes, Span.bytes, Bytes.ofUInt32]

theorem length_baseBytes (header : Header) : header.baseBytes.length = baseSize := by
  simp [baseBytes, length_fieldBytes, Bytes.ofUInt32, baseSize]

theorem length_laterBytes (header : Header) :
    baseSize + header.laterBytes.length = header.knownSize + header.surplus.length := by
  rw [laterBytes, knownSize]
  cases header.container with
  | none => simp
  | some container =>
    simp only [List.length_append, Bytes.ofUInt32, Bytes.length_littleEndian, Option.isSome_some, if_true]
    simp only [baseSize, containerSize]
    omega

theorem baseSize_le (header : Header) : baseSize ≤ encodedSize header := by
  have later := header.length_laterBytes
  change _ ≤ header.knownSize + _
  omega

theorem length_encode {header : Header} {bytes : Bytes} (success : encode header = .ok bytes) :
    bytes.length = encodedSize header := by
  rw [encode_eq_ok success, List.length_append, length_baseBytes, length_laterBytes]
  rfl

/-- The fields that every version has are read as they are; what comes behind them is read apart. -/
theorem reads_fields (header : Header) :
    Reads (decodeFields header.magic)
      (Bytes.ofUInt32 header.checksum ++ (header.signature.toList ++ header.fieldBytes))
      { header with endianTag := littleEndianTag, container := none, surplus := [] } := by
  refine (Reads.u4 _).bind ((Reads.array _).bind ((Reads.u4 _).bind ((Reads.u4 _).bind ((Reads.u4 _).bind ?_))))
  refine (Reads.span _).bind ((Reads.u4 _).bind ((Reads.span _).bind ((Reads.span _).bind ((Reads.span _).bind ?_))))
  exact (Reads.span _).bind ((Reads.span _).bind ((Reads.span _).bind ((Reads.span _).bind_pure rfl)))

/-- Reads what lies between the known fields and the end of the declared size. -/
def decodeSurplus (strict : Bool) (header : Header) : Decoder Header :=
  if header.knownSize < header.headerSize.toNat then do
    if strict then Reading.fail (.headerTooLarge header.headerSize.toNat header.knownSize)
    return { header with surplus := ← Decoder.take (header.headerSize.toNat - header.knownSize) }
  else return header

/-- Reads what lies behind the fields that every version has. -/
def decodeLater (strict : Bool) (version : Nat) (header : Header) : Decoder Header := do
  if header.headerSize.toNat < baseSize then
    Reading.fail (.headerTooSmall header.headerSize.toNat baseSize)
  let container ←
    if containerVersion ≤ version && containerSize ≤ header.headerSize.toNat then do
      let size ← Decoder.u4
      pure (some ⟨size, ← Decoder.u4⟩)
    else pure none
  decodeSurplus strict { header with container }

theorem reads_surplus {strict : Bool} {header : Header} (fresh : header.surplus = []) {bytes : Bytes}
    (left : header.headerSize.toNat = header.knownSize + bytes.length) (plain : strict = true → bytes = []) :
    Reads (decodeSurplus strict header) bytes { header with surplus := bytes } := by
  by_cases more : header.knownSize < header.headerSize.toNat
  · have taken := Reads.take bytes
    have count : bytes.length = header.headerSize.toNat - header.knownSize := by omega
    rw [count] at taken
    have lenient : ¬ strict = true := fun refused => by
      rw [plain refused, List.length_nil] at left
      omega
    rw [decodeSurplus, if_pos more, if_neg lenient]
    exact taken.bind_pure rfl
  · obtain rfl : bytes = [] := List.length_eq_zero_iff.mp (by omega)
    rw [decodeSurplus, if_neg more]
    have same : { header with surplus := [] } = header := by rw [← fresh]
    rw [same]
    exact .pure header

theorem reads_later (version : Nat) {header : Header} (fresh : header.surplus = []) {later : Bytes}
    (declared : header.headerSize.toNat = baseSize + later.length) :
    ∃ container surplus, Reads (decodeLater false version header) later { header with container, surplus } := by
  rw [decodeLater, if_neg (by omega : ¬ header.headerSize.toNat < baseSize)]
  by_cases contained : (containerVersion ≤ version && containerSize ≤ header.headerSize.toNat) = true
  · rw [if_pos contained]
    simp only [Bool.and_eq_true, decide_eq_true_eq] at contained
    have enough := contained.2
    rw [declared] at enough
    simp only [baseSize, containerSize] at enough
    have split : later = later.take 4 ++ ((later.drop 4).take 4 ++ later.drop 8) := by
      rw [← List.drop_drop (i := 4) (j := 4), List.take_append_drop, List.take_append_drop]
    have first := Reads.u4_of_length (later.take 4) (by rw [List.length_take]; omega)
    have second := Reads.u4_of_length ((later.drop 4).take 4) (by
      rw [List.length_take, List.length_drop]; omega)
    generalize Bytes.toNatLittle _ = size at first
    generalize Bytes.toNatLittle _ = headerOffset at second
    have left : header.headerSize.toNat = containerSize + (later.drop 8).length := by
      rw [List.length_drop]
      simp only [baseSize, containerSize] at declared ⊢
      omega
    generalize later.drop 8 = tail at split left
    have reads :=
      @reads_surplus false { header with container := some ⟨size.toUInt32, headerOffset.toUInt32⟩ } fresh tail left
        (by rintro ⟨⟩)
    refine ⟨some ⟨size.toUInt32, headerOffset.toUInt32⟩, tail, ?_⟩
    rw [split]
    exact first.bind (second.bind reads)
  · rw [if_neg contained]
    exact ⟨none, later, @reads_surplus false { header with container := none } fresh _ declared (by rintro ⟨⟩)⟩

/-- Reads what lies behind the magic in the order of bytes that a tag names. -/
def decodeOrdered (strict : Bool) (version : Nat) (magic : Vector UInt8 8) (tag : UInt32) : Decoder Header :=
  if tag = littleEndianTag then do
    Decoder.setBigEndian false
    decodeFields magic >>= decodeLater strict version
  else if tag = bigEndianTag then do
    Decoder.setBigEndian true
    decodeFields magic >>= decodeLater strict version
  else Reading.fail (.badEndianTag tag)

/-- A header is read from the magic and the tag on if enough bytes are left. -/
theorem decode_of_le {strict : Bool} {cursor : Cursor} (enough : cursor.position + baseSize ≤ cursor.bytes.size)
    {magic : Vector UInt8 8} (first : Bytes.toVector 8 (cursor.rest.take 8) = magic) : decode strict cursor =
      (match versionOf? magic with
      | some version =>
        if strict && (version < leastVersion || greatestVersion < version) then
          Reading.fail (.unsupportedVersion version)
        else decodeOrdered strict version magic ((cursor.rest.wordAt endianTagOffset).wordIn false)
      | none => Reading.fail (.badMagic magic.toList) : Decoder Header) (cursor.advance 8) := by
  have tag : (Bytes.toNatLittle (cursor.bytes.extract (cursor.position + endianTagOffset)
      (cursor.position + endianTagOffset + 4)).toList).toUInt32 =
        (cursor.rest.wordAt endianTagOffset).wordIn false := by
    rw [Array.toList_extract, List.extract_eq_take_drop, Nat.add_sub_cancel_left,
      Cursor.rest, Bytes.wordAt, List.drop_drop]
    rfl
  rw [decode, Reading.bind_ok (Decoder.get_run cursor), if_neg (Nat.not_lt.mpr enough)]
  refine (Reading.bind_ok (Decoder.array_of_le (Nat.le_trans (Nat.add_le_add_left (by decide) _) enough))).trans ?_
  rw [first]
  cases versionOf? magic with
  | none => rfl
  | some version =>
    rw [← tag]
    rfl

/-- The byte order tag is looked up where it is written. -/
theorem wordIn_baseBytes {header : Header} {image : Bytes} (front : header.baseBytes <+: image) :
    (image.wordAt endianTagOffset).wordIn false = littleEndianTag := by
  obtain ⟨tail, rfl⟩ := front
  let before := header.magic.toList ++ (Bytes.ofUInt32 header.checksum ++ (header.signature.toList ++
    (Bytes.ofUInt32 header.fileSize ++ Bytes.ofUInt32 header.headerSize)))
  have split :
      header.baseBytes ++ tail = before ++ (Bytes.ofUInt32 littleEndianTag ++ (header.tableBytes ++ tail)) := by
    simp only [before, baseBytes, fieldBytes, List.append_assoc]
  have length : before.length = endianTagOffset := by
    simp [before, Bytes.ofUInt32, endianTagOffset]
  rw [split, Bytes.wordAt, List.drop_left' length, Bytes.ofUInt32, List.take_left' (Bytes.length_littleEndian _ _)]
  rfl

/-- What lies behind the fields that every version has is read when these are. -/
theorem decode_baseBytes {strict : Bool} {header : Header} {cursor : Cursor} {version : Nat}
    (reaches : cursor.Reaches header.baseBytes) (spelled : header.version? = some version)
    (known : strict = true → leastVersion ≤ version ∧ version ≤ greatestVersion) :
    decode strict cursor = decodeLater strict version
      { header with endianTag := littleEndianTag, container := none, surplus := [] }
      (({ cursor with bigEndian := false } : Cursor).advance baseSize) := by
  have there := reaches.littleEndian
  have enough : cursor.position + baseSize ≤ cursor.bytes.size := by
    have inside := reaches.inside
    have left := there.length_le
    rw [length_baseBytes, Cursor.remaining] at left
    dsimp only at left
    omega
  have magic : Bytes.toVector 8 (cursor.rest.take 8) = header.magic := by
    have read := Reads.array header.magic _ there.left
    rw [@Decoder.array_of_le 8 { cursor with bigEndian := false } (by dsimp only [baseSize] at enough ⊢; omega)] at read
    exact Except.ok.inj (Prod.mk.inj read).1
  have accepted : ¬ (strict && (version < leastVersion || greatestVersion < version)) = true := by
    rw [Bool.and_eq_true, Bool.or_eq_true, decide_eq_true_eq, decide_eq_true_eq]
    rintro ⟨refused, outside⟩
    have := known refused
    omega
  change versionOf? header.magic = some version at spelled
  rw [decode_of_le enough magic, spelled]
  dsimp only
  rw [if_neg accepted, wordIn_baseBytes reaches.ahead, decodeOrdered, if_pos rfl]
  have length : header.magic.toList.length + (Bytes.ofUInt32 header.checksum ++ (header.signature.toList ++
      header.fieldBytes)).length = baseSize := by
    rw [← List.length_append]
    exact header.length_baseBytes
  have fields := header.reads_fields _ there.right
  rw [Cursor.advance_advance, length, Vector.length_toList] at fields
  exact (Reading.bind_ok rfl).trans (Reading.bind_ok fields)

/-- An encoded header is read with what is read behind the fields that every version has. -/
theorem decode_of_reads {strict : Bool} {header read : Header} {bytes : Bytes} {cursor : Cursor} {version : Nat}
    (success : encode header = .ok bytes) (reaches : cursor.Reaches bytes) (spelled : header.version? = some version)
    (known : strict = true → leastVersion ≤ version ∧ version ≤ greatestVersion)
    (reads : Reads
      (decodeLater strict version { header with endianTag := littleEndianTag, container := none, surplus := [] })
      header.laterBytes read) :
    decode strict cursor = (.ok read, ({ cursor with bigEndian := false } : Cursor).advance bytes.length) := by
  obtain rfl := encode_eq_ok success
  rw [decode_baseBytes reaches.left spelled known]
  have later := reads _ reaches.littleEndian.right
  rwa [Cursor.advance_advance, ← List.length_append, length_baseBytes] at later

/-- What an encoded header reads as: its tables are read as they are. -/
theorem decode_encode {header : Header} {bytes image : Bytes} (success : encode header = .ok bytes)
    (front : bytes <+: image) (known : header.version?.isSome) (size : header.headerSize.toNat = bytes.length) :
    ∃ read cursor, decode false (.ofBytes image) = (.ok read, cursor) ∧ cursor.bytes = image.toArray ∧
      cursor.bigEndian = false ∧ read.spans = header.spans ∧ read.mapOffset = header.mapOffset := by
  obtain ⟨version, spelled⟩ := Option.isSome_iff_exists.mp known
  have later : header.headerSize.toNat = baseSize + header.laterBytes.length := by
    rw [size, length_encode success, length_laterBytes]
    rfl
  obtain ⟨container, surplus, reads⟩ := @reads_later version
    { header with endianTag := littleEndianTag, container := none, surplus := [] } rfl _ later
  have reaches : (Cursor.ofBytes image).Reaches bytes := ⟨Nat.zero_le _, front⟩
  exact ⟨_, _, decode_of_reads success reaches spelled (by rintro ⟨⟩) reads, rfl, rfl, rfl, rfl⟩

/-- Whether the fields behind those that every version has are those that the version and the declared size call for. -/
structure Coherent (header : Header) : Prop where
  declared : header.headerSize.toNat = header.knownSize + header.surplus.length
  spelled : ∃ version, header.version? = some version ∧
    header.container.isSome = (containerVersion ≤ version && containerSize ≤ header.headerSize.toNat)

theorem Coherent.version? {header : Header} (coherent : header.Coherent) : header.version?.isSome := by
  obtain ⟨version, spelled, -⟩ := coherent.spelled
  exact Option.isSome_iff_exists.mpr ⟨version, spelled⟩

/-- Whether the version of a header is one of those that a strict read accepts, and nothing lies behind the
known fields. -/
structure Plain (header : Header) : Prop where
  known : ∀ version, header.version? = some version → leastVersion ≤ version ∧ version ≤ greatestVersion
  bare : header.surplus = []

/-- Coherent headers are read as they are. -/
theorem Coherent.decode_reaches {strict : Bool} {header : Header} {bytes : Bytes} {cursor : Cursor}
    (coherent : header.Coherent) (plain : strict = true → header.Plain) (success : encode header = .ok bytes)
    (reaches : cursor.Reaches bytes) :
    decode strict cursor = (.ok { header with endianTag := littleEndianTag },
      ({ cursor with bigEndian := false } : Cursor).advance bytes.length) := by
  obtain ⟨version, spelled, container⟩ := coherent.spelled
  have declared := coherent.declared
  refine decode_of_reads success reaches spelled (fun refused => (plain refused).known version spelled) ?_
  have bare (refused : strict = true) : header.surplus = [] := (plain refused).bare
  obtain ⟨magic, checksum, signature, fileSize, headerSize, endianTag, link, mapOffset, stringIds, typeIds, protoIds,
    fieldIds, methodIds, classDefs, data, contained, surplus⟩ := header
  dsimp only [knownSize] at declared container
  rw [decodeLater]
  dsimp only
  rw [← container]
  cases contained with
  | none =>
    simp only [Option.isSome_none, Bool.false_eq_true, if_false] at declared ⊢
    rw [if_neg (by omega : ¬ headerSize.toNat < baseSize)]
    exact reads_surplus rfl declared bare
  | some place =>
    simp only [Option.isSome_some, if_true] at declared ⊢
    rw [if_neg (by rw [declared]; simp only [baseSize, containerSize]; omega : ¬ headerSize.toNat < baseSize),
      laterBytes, List.append_assoc]
    exact (Reads.u4 _).bind ((Reads.u4 _).bind (reads_surplus rfl declared bare))

theorem Coherent.decode_encode {strict : Bool} {header : Header} {bytes image : Bytes} (coherent : header.Coherent)
    (plain : strict = true → header.Plain) (success : encode header = .ok bytes) (front : bytes <+: image) :
    ∃ cursor, decode strict (.ofBytes image) = (.ok { header with endianTag := littleEndianTag }, cursor) ∧
      cursor.bytes = image.toArray ∧ cursor.bigEndian = false :=
  ⟨_, coherent.decode_reaches plain success ⟨Nat.zero_le _, front⟩, rfl, rfl⟩

/-- Three decimal digits spell a version. -/
theorem versionOf?_magicOf {a b c : UInt8} (first : 0x30 ≤ a ∧ a ≤ 0x39) (second : 0x30 ≤ b ∧ b ≤ 0x39)
    (third : 0x30 ≤ c ∧ c ≤ 0x39) : versionOf? (magicOf a b c) =
      some (100 * (a.toNat - 0x30) + 10 * (b.toNat - 0x30) + (c.toNat - 0x30)) := by
  simp [versionOf?, magicOf, first, second, third]

theorem exists_magicOf {magic : Vector UInt8 8} (spelled : (versionOf? magic).isSome) :
    ∃ a b c, magic = magicOf a b c := by
  rw [versionOf?] at spelled
  dsimp only at spelled
  split at spelled
  · rename_i a b c bytes
    exact ⟨a, b, c, Vector.toArray_inj.mp (Array.toList_inj.mp bytes)⟩
  · cases spelled

theorem decimal_digit (value : Nat) : (0x30 ≤ (0x30 + value % 10).toUInt8 ∧ (0x30 + value % 10).toUInt8 ≤ 0x39) ∧
    (0x30 + value % 10).toUInt8.toNat - 0x30 = value % 10 := by
  have small : value % 10 < 10 := Nat.mod_lt value (by decide)
  generalize value % 10 = digit at small
  revert digit
  decide

/-- The version that a header is given is the one that it has. -/
theorem version?_setVersion {header : Header} (known : header.version?.isSome) (version : Nat) :
    (header.setVersion version).version? = some (min version 999) := by
  obtain ⟨a, b, c, same⟩ := exists_magicOf known
  have spelled : (header.setVersion version).magic = magicOf (0x30 + min version 999 / 100 % 10).toUInt8
      (0x30 + min version 999 / 10 % 10).toUInt8 (0x30 + min version 999 % 10).toUInt8 := by
    rw [setVersion]
    dsimp only [refresh]
    rw [same]
    rfl
  obtain ⟨first, hundreds⟩ := decimal_digit (min version 999 / 100)
  obtain ⟨second, tens⟩ := decimal_digit (min version 999 / 10)
  obtain ⟨third, ones⟩ := decimal_digit (min version 999)
  rw [version?, spelled, versionOf?_magicOf first second third, hundreds, tens, ones]
  congr 1
  omega

/-- New headers have a version. -/
theorem version?_ofVersion (version : Nat) : (ofVersion version).version?.isSome := by
  rw [ofVersion, version?_setVersion (by decide)]
  rfl

end Header

theorem MapEntry.reads_bytes (entry : MapEntry) : Reads MapEntry.decode? entry.bytes (some entry) := by
  rw [MapEntry.bytes, List.append_assoc, List.append_assoc]
  refine (Reads.u2 _).bind (Reads.bind (show Reads (discard Decoder.u2) _ () from (Reads.u2 0).bind_pure rfl) ?_)
  refine (Reads.u4 _).bind ((Reads.u4 _).bind_pure ?_)
  rw [SectionKind.ofMapCode?_mapCode]
  rfl

theorem MapList.length_encode {map : MapList} {bytes : Bytes} (success : encode map = .ok bytes) :
    bytes.length = encodedSize map := by
  obtain rfl := Except.ok.inj success
  rw [List.length_append, Bytes.ofCount, Bytes.ofUInt32, Bytes.length_littleEndian]
  change _ = 4 + 12 * map.entries.length
  congr 1
  induction map.entries with
  | nil => rfl
  | cons entry rest ih =>
    rw [List.flatMap_cons, List.length_append, ih, List.length_cons]
    simp only [MapEntry.bytes, List.length_append, Bytes.ofUInt16, Bytes.ofUInt32, Bytes.length_littleEndian]
    omega

theorem MapList.reads_encode {map : MapList} {bytes : Bytes} (success : encode map = .ok bytes)
    (small : map.entries.length < UInt32.size) : Reads MapList.decode bytes map := by
  have length := length_encode success
  obtain rfl := Except.ok.inj success
  change _ = 4 + 12 * map.entries.length at length
  rw [List.length_append, Bytes.ofCount, Bytes.ofUInt32, Bytes.length_littleEndian] at length
  refine Reads.position_bind fun start => Reads.count small fun count same => ?_
  refine Reads.remaining_bind fun remaining enough => ?_
  rw [same, if_neg (by omega : ¬ remaining < map.entries.length * 12)]
  have entries : Reads (Reading.collect map.entries.length fun _ => MapEntry.decode?)
      (map.entries.flatMap MapEntry.bytes) (map.entries.map some) :=
    .collect_flatMap _ fun entry _ _ => entry.reads_bytes
  refine entries.bind_pure ?_
  rw [List.filterMap_map]
  simp

end DexImage
