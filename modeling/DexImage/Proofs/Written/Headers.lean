import DexImage.Proofs.Codec.Consumption
import DexImage.Proofs.Codec.Writing
import DexImage.Proofs.Loading.Corrupted
/-! # Headers that are read and written back

A header is read from as many bytes as it declares, in the order of bytes that its tag tells (`Header.bytesIn`),
and is written with the least significant bytes first. The two orders differ in the four-byte fields alone
(`Header.swapFields`), so that the bytes that are written are those that were read, or these with their fields
turned round, and read as the same header (`Header.writes_found`).
-/

namespace DexImage

open Reading

namespace Bytes

/-- The bytes of a number in an order of bytes. -/
def ofWord (bigEndian : Bool) (value : UInt32) : Bytes :=
  if bigEndian then (ofUInt32 value).reverse else ofUInt32 value

/-- Some bytes with every four in a row in the other order. -/
def swapWords : Bytes → Bytes
  | a :: b :: c :: d :: rest => d :: c :: b :: a :: swapWords rest
  | rest => rest

@[simp] theorem length_ofWord (bigEndian : Bool) (value : UInt32) : (ofWord bigEndian value).length = 4 := by
  cases bigEndian <;> simp [ofWord, ofUInt32]

theorem length_flatMap_ofWord (bigEndian : Bool) (words : List UInt32) :
    (words.flatMap (ofWord bigEndian)).length = 4 * words.length := by
  induction words with
  | nil => rfl
  | cons word words ih =>
    rw [List.flatMap_cons, List.length_append, length_ofWord, ih, List.length_cons]
    omega

/-- Four bytes are those of the number that they spell. -/
theorem ofWord_wordIn (bigEndian : Bool) {bytes : Bytes} (length : bytes.length = 4) :
    ofWord bigEndian (bytes.wordIn bigEndian) = bytes := by
  have little {bytes : Bytes} (length : bytes.length = 4) : ofUInt32 bytes.toNatLittle.toUInt32 = bytes := by
    rw [ofUInt32, Nat.toUInt32_eq, UInt32.toNat_ofNat', show 2 ^ 32 = capacity 4 from rfl, littleEndian_mod, ← length,
      littleEndian_toNatLittle]
  cases bigEndian with
  | false => exact little length
  | true => exact (congrArg List.reverse (little (by rwa [List.length_reverse]))).trans (List.reverse_reverse bytes)

theorem wordIn_ofWord (bigEndian : Bool) (value : UInt32) : (ofWord bigEndian value).wordIn bigEndian = value := by
  have little : (ofUInt32 value).toNatLittle.toUInt32 = value := by
    have small : value.toNat % capacity 4 = value.toNat := Nat.mod_eq_of_lt value.toNat_lt
    rw [ofUInt32, toNatLittle_littleEndian, small, Nat.toUInt32_eq, UInt32.ofNat_toNat]
  cases bigEndian with
  | false => exact little
  | true =>
    change (toNatLittle (ofUInt32 value).reverse.reverse).toUInt32 = value
    rw [List.reverse_reverse, little]

theorem wordAt_of_prefix {offset : Nat} {front bytes : Bytes}
    (there : front <+: bytes) (enough : offset + 4 ≤ front.length) :
    wordAt offset bytes = wordAt offset front := by
  obtain ⟨tail, rfl⟩ := there
  rw [wordAt, List.drop_append_of_le_length (by omega), List.take_append_of_le_length (by rw [List.length_drop]; omega)]
  rfl

theorem swapWords_flatMap (words : List UInt32) :
    swapWords (words.flatMap (ofWord true)) = words.flatMap (ofWord false) := by
  induction words with
  | nil => rfl
  | cons word words ih =>
    rw [List.flatMap_cons, List.flatMap_cons, ← ih]
    rfl

end Bytes

namespace Decoder

variable {bigEndian : Bool} {β : Type} {last : β → Bytes → Prop}

theorem consumes_u4 : Consumes bigEndian u4 fun value bytes => bytes = Bytes.ofWord bigEndian value := by
  rintro cursor value after rfl run
  have spelled := u4_eq_ok run
  obtain ⟨number, between, run, same⟩ := bind_eq_ok.mp run
  obtain ⟨bytes, between', run, same'⟩ := bind_eq_ok.mp run
  obtain ⟨passed, length⟩ := consumed_take run
  obtain ⟨-, rfl, -⟩ := take_eq_ok.mp run
  obtain ⟨-, rfl⟩ := pure_eq_ok.mp same
  obtain ⟨-, rfl⟩ := Prod.mk.inj same'
  exact ⟨_, passed, by rw [spelled]; exact (Bytes.ofWord_wordIn _ length).symm⟩

theorem consumes_array (size : Nat) : Consumes bigEndian (array size) fun value bytes => bytes = value.toList := by
  rintro cursor value after - run
  obtain ⟨bytes, between, run, same⟩ := bind_eq_ok.mp run
  obtain ⟨rfl, rfl⟩ := pure_eq_ok.mp same
  obtain ⟨passed, rfl⟩ := consumed_take run
  refine ⟨bytes, passed, List.ext_getElem (by simp) fun position _ _ => ?_⟩
  simp [Bytes.toVector]

namespace Consumes

theorem word_bind {next : UInt32 → Decoder β} (rest : ∀ value, Consumes bigEndian (next value) fun final more =>
    last final (Bytes.ofWord bigEndian value ++ more)) : Consumes bigEndian (u4 >>= next) last :=
  consumes_u4.bind fun value _ same => same ▸ rest value

theorem array_bind {size : Nat} {next : Vector UInt8 size → Decoder β} (rest : ∀ value, Consumes bigEndian (next value)
    fun final more => last final (value.toList ++ more)) : Consumes bigEndian (array size >>= next) last :=
  (consumes_array size).bind fun value _ same => same ▸ rest value

theorem span_bind {next : Span → Decoder β} (rest : ∀ value, Consumes bigEndian (next value) fun final more =>
    last final (Bytes.ofWord bigEndian value.size ++ (Bytes.ofWord bigEndian value.offset ++ more))) :
    Consumes bigEndian (Span.decode >>= next) last := by
  have span : Consumes bigEndian Span.decode fun value bytes =>
      bytes = Bytes.ofWord bigEndian value.size ++ (Bytes.ofWord bigEndian value.offset ++ []) :=
    word_bind fun size => word_bind fun offset => .pure rfl
  refine span.bind fun value front same => ?_
  have behind := rest value
  simpa only [same, List.append_assoc, List.append_nil] using behind

end Consumes
end Decoder

namespace Header

variable {strict bigEndian : Bool} {version : Nat} {header : Header}

/-- The four-byte fields behind the signature that every version has. -/
def words (header : Header) : List UInt32 :=
  [header.fileSize, header.headerSize, header.endianTag, header.link.size, header.link.offset, header.mapOffset,
    header.stringIds.size, header.stringIds.offset, header.typeIds.size, header.typeIds.offset,
    header.protoIds.size, header.protoIds.offset, header.fieldIds.size, header.fieldIds.offset,
    header.methodIds.size, header.methodIds.offset, header.classDefs.size, header.classDefs.offset,
    header.data.size, header.data.offset]

/-- The four-byte fields behind those that every version has. -/
def laterWords (header : Header) : List UInt32 :=
  match header.container with
  | some container => [container.size, container.headerOffset]
  | none => []

/-- The bytes of a header in an order of bytes. -/
def bytesIn (bigEndian : Bool) (header : Header) : Bytes :=
  header.magic.toList ++ (Bytes.ofWord bigEndian header.checksum ++ (header.signature.toList ++
    ((header.words ++ header.laterWords).flatMap (Bytes.ofWord bigEndian) ++ header.surplus)))

/-- The bytes of a header, of which so many are known fields, with the four-byte fields in the other order: the
checksum, and all those between the signature and what is not known. -/
def swapFields (known : Nat) (bytes : Bytes) : Bytes :=
  bytes.take checksumOffset ++ Bytes.swapWords (bytes.extract checksumOffset signatureOffset) ++
    bytes.extract signatureOffset fileSizeOffset ++ Bytes.swapWords (bytes.extract fileSizeOffset known) ++
      bytes.drop known

theorem length_words (header : Header) :
    fileSizeOffset + 4 * (header.words ++ header.laterWords).length = header.knownSize := by
  rw [List.length_append, laterWords, knownSize]
  cases header.container <;> rfl

theorem length_bytesIn (bigEndian : Bool) (header : Header) :
    (header.bytesIn bigEndian).length = encodedSize header := by
  change _ = header.knownSize + _
  rw [← length_words]
  simp only [bytesIn, List.length_append, Vector.length_toList, Bytes.length_ofWord, Bytes.length_flatMap_ofWord,
    fileSizeOffset]
  omega

theorem drop_bytesIn (bigEndian : Bool) (header : Header) :
    (header.bytesIn bigEndian).drop header.knownSize = header.surplus := by
  rw [bytesIn, ← List.append_assoc, ← List.append_assoc, ← List.append_assoc]
  refine List.drop_left' ?_
  rw [← length_words]
  simp only [List.length_append, Vector.length_toList, Bytes.length_ofWord, Bytes.length_flatMap_ofWord, fileSizeOffset]

theorem wordAt_bytesIn (bigEndian : Bool) (header : Header) :
    (header.bytesIn bigEndian).wordAt endianTagOffset = Bytes.ofWord bigEndian header.endianTag := by
  let before := header.magic.toList ++ (Bytes.ofWord bigEndian header.checksum ++ (header.signature.toList ++
    (Bytes.ofWord bigEndian header.fileSize ++ Bytes.ofWord bigEndian header.headerSize)))
  have split : ∃ behind, header.bytesIn bigEndian = before ++ (Bytes.ofWord bigEndian header.endianTag ++ behind) := by
    simp only [bytesIn, words, before, List.cons_append, List.flatMap_cons, List.append_assoc]
    exact ⟨_, rfl⟩
  have length : before.length = endianTagOffset := by simp [before, endianTagOffset]
  obtain ⟨behind, split⟩ := split
  rw [split, Bytes.wordAt, List.drop_left' length, List.take_left' (Bytes.length_ofWord _ _)]

theorem encode_bytesIn (tag : header.endianTag = littleEndianTag) : encode header = .ok (header.bytesIn false) := by
  rw [encode_eq, fieldBytes, ← tag, laterBytes, bytesIn, laterWords]
  cases header.container <;> simp [words, tableBytes, Span.bytes, Bytes.ofWord]

private theorem extract_between {front mid back : Bytes} {start stop : Nat} (begins : front.length = start)
    (ends : start + mid.length = stop) : (front ++ (mid ++ back)).extract start stop = mid := by
  rw [List.extract_eq_take_drop, List.drop_left' begins, List.take_left' (by omega)]

/-- The bytes of a header in the one order are those in the other with their fields turned round. -/
theorem swapFields_bytesIn (header : Header) : swapFields header.knownSize
    (header.bytesIn true) = header.bytesIn false := by
  have magic : (header.bytesIn true).take checksumOffset = header.magic.toList := List.take_left' Vector.length_toList
  have checksum : (header.bytesIn true).extract checksumOffset signatureOffset = Bytes.ofWord true header.checksum :=
    extract_between Vector.length_toList (by rw [Bytes.length_ofWord]; rfl)
  have signature : (header.bytesIn true).extract signatureOffset fileSizeOffset = header.signature.toList := by
    rw [bytesIn, ← List.append_assoc]
    refine extract_between ?_ (by rw [Vector.length_toList]; rfl)
    rw [List.length_append, Vector.length_toList, Bytes.length_ofWord, signatureOffset]
  have fields : (header.bytesIn true).extract fileSizeOffset header.knownSize =
      (header.words ++ header.laterWords).flatMap (Bytes.ofWord true) := by
    rw [bytesIn, ← List.append_assoc, ← List.append_assoc]
    refine extract_between ?_ (by rw [Bytes.length_flatMap_ofWord, length_words])
    rw [List.length_append, List.length_append, Vector.length_toList, Vector.length_toList, Bytes.length_ofWord,
      fileSizeOffset]
  rw [swapFields, magic, checksum, signature, fields, drop_bytesIn, Bytes.swapWords_flatMap, bytesIn]
  simp only [List.append_assoc]
  rfl

/-- The fields that every version has are read from their bytes in the order of the cursor. -/
theorem consumes_decodeFields (magic : Vector UInt8 8) :
    Decoder.Consumes bigEndian (decodeFields magic) fun header bytes =>
    header.magic = magic ∧ header.container = none ∧ header.surplus = [] ∧
      bytes = Bytes.ofWord bigEndian header.checksum ++ (header.signature.toList ++
        header.words.flatMap (Bytes.ofWord bigEndian)) := by
  refine .word_bind fun checksum => .array_bind fun signature =>
    .word_bind fun fileSize => .word_bind fun headerSize => ?_
  refine .word_bind fun endianTag => .span_bind fun link => .word_bind fun mapOffset => .span_bind fun stringIds => ?_
  refine .span_bind fun typeIds => .span_bind fun protoIds => .span_bind fun fieldIds => .span_bind fun methodIds => ?_
  exact .span_bind fun classDefs => .span_bind fun data => .pure ⟨rfl, rfl, rfl, rfl⟩

theorem consumes_decodeSurplus (bare : header.surplus = []) : Decoder.Consumes bigEndian (decodeSurplus strict header)
    fun read bytes => read = { header with surplus := bytes } ∧ (strict = true → bytes = []) := by
  rw [decodeSurplus]
  split_ifs with more strictly
  · exact .fail_bind
  · refine (Decoder.Consumes.take _).bind fun surplus front same => .pure ⟨?_, fun refused => absurd refused strictly⟩
    rw [same, List.append_nil]
  · exact .pure ⟨by rw [← bare], fun _ => rfl⟩

/-- Behind the fields that every version has come those of the container, if they are there, and what is not known. -/
theorem consumes_decodeLater (bare : header.surplus = []) :
    Decoder.Consumes bigEndian (decodeLater strict version header)
    fun read bytes => ∃ container surplus, read = { header with container, surplus } ∧
    (strict = true → surplus = []) ∧
      bytes = read.laterWords.flatMap (Bytes.ofWord bigEndian) ++ surplus := by
  refine .ite .fail_bind (.ite (.word_bind fun size => .word_bind fun headerOffset => ?_) ?_)
  · refine (@consumes_decodeSurplus _ _ { header with container := some ⟨size, headerOffset⟩ } bare).imp ?_
    rintro read surplus ⟨rfl, refused⟩
    exact ⟨some ⟨size, headerOffset⟩, surplus, rfl, refused, by simp [laterWords]⟩
  · refine (@consumes_decodeSurplus _ _ { header with container := none } bare).imp ?_
    rintro read surplus ⟨rfl, refused⟩
    exact ⟨none, surplus, rfl, refused, rfl⟩

theorem orderTag_eq (bigEndian : Bool) : orderTag bigEndian = Bytes.ofWord bigEndian littleEndianTag := by
  cases bigEndian <;> decide

/-- A header is read from its bytes in the order that the tag among them tells. -/
theorem consumed_decode {cursor after : Cursor} (success : decode strict cursor = (.ok header, after)) :
    ∃ bigEndian, after = { cursor.advance (encodedSize header) with bigEndian } ∧
      header.bytesIn bigEndian <+: cursor.rest ∧ header.endianTag = littleEndianTag ∧
      (strict = true → header.surplus = [] ∧ ∃ version, header.version? = some version ∧
        leastVersion ≤ version ∧ version ≤ greatestVersion) := by
  obtain ⟨enough, magic, version, bigEndian, first, spelled, known, tag, run⟩ := decode_eq_ok success
  have consumes : Decoder.Consumes bigEndian (decodeFields magic >>= decodeLater strict version) fun read bytes =>
      read.magic = magic ∧ (strict = true → read.surplus = []) ∧
        read.magic.toList ++ bytes = read.bytesIn bigEndian := by
    refine (consumes_decodeFields magic).bind ?_
    rintro fields front ⟨rfl, -, bare, rfl⟩
    refine (consumes_decodeLater bare).imp ?_
    rintro read bytes ⟨container, surplus, rfl, refused, rfl⟩
    refine ⟨rfl, refused, ?_⟩
    simp only [bytesIn, List.flatMap_append, List.append_assoc]
    rfl
  obtain ⟨bytes, passed, rfl, refused, same⟩ := consumes _ _ _ rfl run
  have taken := Decoder.array_of_le (Nat.le_trans (Nat.add_le_add_left (by decide : 8 ≤ baseSize) _) enough)
  rw [first] at taken
  obtain ⟨_, passed', rfl⟩ := Decoder.consumes_array 8 cursor _ _ rfl taken
  have ahead : header.bytesIn bigEndian <+: cursor.rest := by
    rw [← same, passed'.rest_eq]
    exact (List.prefix_append_right_inj _).mpr passed.ahead
  have length := congrArg List.length same
  rw [List.length_append, Vector.length_toList, length_bytesIn] at length
  refine ⟨bigEndian, ?_, ahead, ?_, fun strictly => ⟨refused strictly, version, spelled, known strictly⟩⟩
  · rw [passed.moved, ← length, ← Cursor.advance_advance]
    rfl
  · rw [Bytes.wordAt_of_prefix ahead (Nat.le_trans (by decide) (length_bytesIn bigEndian header ▸ header.baseSize_le)),
      wordAt_bytesIn, orderTag_eq] at tag
    rw [← Bytes.wordIn_ofWord bigEndian header.endianTag, tag, Bytes.wordIn_ofWord]

/-- Where a header is read, it is read from as many bytes as it declares. What is written for it are those bytes
if their tag tells the least significant byte first, and else those bytes with the four-byte fields turned
round. Wherever what is written lies and whatever is behind it, it is read as the same header. A strict read
accepts the known versions alone, and no bytes behind the known fields. -/
theorem writes_found {cursor after : Cursor} (success : decode strict cursor = (.ok header, after)) :
    ∃ (bigEndian : Bool) (found written : Bytes), found = cursor.rest.take header.headerSize.toNat ∧
      found.length = header.headerSize.toNat ∧ after = { cursor.advance found.length with bigEndian } ∧
      found.wordAt endianTagOffset = orderTag bigEndian ∧ header.surplus = found.drop header.knownSize ∧
      written = (if bigEndian then swapFields header.knownSize found else found) ∧
      (∀ out, header.write out = (.ok written.length, out ++ written)) ∧
      (∀ again ≤ strict, ∀ there : Cursor, there.Reaches written → decode again there =
        (.ok header, ({ there with bigEndian := false } : Cursor).advance written.length)) ∧
      (strict = true → header.surplus = [] ∧ ∃ version,
        header.version? = some version ∧ 35 ≤ version ∧ version ≤ 41) := by
  obtain ⟨bigEndian, moved, ahead, tag, plain⟩ := consumed_decode success
  have coherent := (gives_decode strict).holds _ _ _ success
  have length : (header.bytesIn bigEndian).length = header.headerSize.toNat := by
    rw [length_bytesIn, coherent.declared]
    rfl
  have encoded := encode_bytesIn tag
  refine ⟨bigEndian, header.bytesIn bigEndian, header.bytesIn false, ?_, length, ?_, ?_, ?_, ?_, ?_, ?_, plain⟩
  · rw [← length]
    exact List.prefix_iff_eq_take.mp ahead
  · rw [length_bytesIn]
    exact moved
  · rw [wordAt_bytesIn, tag, orderTag_eq]
  · exact (drop_bytesIn bigEndian header).symm
  · cases bigEndian with
    | false => rfl
    | true => exact header.swapFields_bytesIn.symm
  · exact header.writes.run_ok encoded
  · intro again weaker there reaches
    have known (strictly : again = true) : header.Plain := by
      obtain ⟨bare, version, spelled, least, greatest⟩ := plain (weaker strictly)
      refine ⟨fun other spelled' => ?_, bare⟩
      obtain rfl := Option.some.inj (spelled.symm.trans spelled')
      exact ⟨least, greatest⟩
    have read := coherent.decode_reaches known encoded reaches
    rwa [show { header with endianTag := littleEndianTag } = header by rw [← tag]] at read

/-- A header in a container, the most significant bytes of its fields first, with four bytes more than are known. -/
def containedBytes : Bytes :=
  [0x64, 0x65, 0x78, 0x0a, 0x30, 0x34, 0x31, 0] ++ [1, 2, 3, 4] ++
    List.replicate 20 5 ++ [0, 0, 1, 0] ++ [0, 0, 0, 0x7c] ++
    [0x12, 0x34, 0x56, 0x78] ++ List.replicate 68 0 ++ [0, 0, 1, 0] ++ [0, 0, 0, 6] ++ [7, 8, 9, 10]

/-- That header with the least significant bytes of its fields first. -/
def turnedBytes : Bytes :=
  [0x64, 0x65, 0x78, 0x0a, 0x30, 0x34, 0x31, 0] ++ [4, 3, 2, 1] ++
    List.replicate 20 5 ++ [0, 1, 0, 0] ++ [0x7c, 0, 0, 0] ++
    [0x78, 0x56, 0x34, 0x12] ++ List.replicate 68 0 ++ [0, 1, 0, 0] ++ [6, 0, 0, 0] ++ [7, 8, 9, 10]

theorem writes_found_containedBytes : ∃ header after,
    decode false ⟨(0xff :: containedBytes ++ [0xff]).toArray, 1, false⟩ = (.ok header, after) ∧
    after.position = 125 ∧
      header.write [] = (.ok 124, turnedBytes) := by
  have sizes : ((decode false ⟨(0xff :: containedBytes ++ [0xff]).toArray, 1, false⟩).1.toOption.map fun header =>
      (header.headerSize, header.knownSize)) = some (0x7c, 0x78) := by decide +kernel
  have position : (decode false ⟨(0xff :: containedBytes ++ [0xff]).toArray, 1, false⟩).2.position = 125 := by
    decide +kernel
  rcases run : decode false ⟨(0xff :: containedBytes ++ [0xff]).toArray, 1, false⟩ with ⟨fault | header, after⟩
  · rw [run] at sizes
    cases sizes
  rw [run] at sizes position
  obtain ⟨declared, known⟩ := Prod.mk.inj (Option.some.inj sizes)
  obtain ⟨bigEndian, found, written, taken, -, -, tag, -, turned, same, -, -⟩ := writes_found run
  rw [declared] at taken
  have there : found = containedBytes := taken
  subst there
  cases bigEndian with
  | false => exact absurd tag (by decide +kernel)
  | true =>
    rw [known] at turned
    obtain rfl : written = turnedBytes := turned.trans (by decide +kernel)
    exact ⟨header, after, run, position, same []⟩

end Header
end DexImage
