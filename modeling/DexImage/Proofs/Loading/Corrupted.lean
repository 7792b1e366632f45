import DexImage.Proofs.Loading.Lenient
import DexImage.Proofs.Rereading.Decoding
/-! # Corrupted bytes

The first sum of Adler-32 adds the bytes up modulo a number that no byte reaches, so one changed byte changes it
(`Digest.adler32_set_inj`). A change inside the stored checksum changes that number, as the byte order is looked up
elsewhere, and one changed byte does not make the tag of the one order that of the other (`Header.orderTag_of_set`).
Hence no byte behind the magic can be changed unnoticed (`Image.read_set_error`).
-/

namespace DexImage

namespace Digest

/-- The first sum adds the bytes up. -/
theorem adlerStep_fold (bytes : Bytes) {sums : Nat × Nat} (small : sums.1 < adlerModulus) :
    (bytes.foldl adlerStep sums).1 = (sums.1 + (bytes.map UInt8.toNat).sum) % adlerModulus := by
  induction bytes generalizing sums with
  | nil => exact (Nat.mod_eq_of_lt small).symm
  | cons byte bytes ih =>
    have next := @ih (adlerStep sums byte) (Nat.mod_lt _ (by decide))
    rw [List.foldl_cons, next, List.map_cons, List.sum_cons, ← Nat.add_assoc]
    exact Nat.mod_add_mod _ _ _

/-- The low half of a checksum is the first sum. -/
theorem adler32_mod (bytes : Bytes) :
    (adler32 bytes).toNat % 65536 = (1 + (bytes.map UInt8.toNat).sum) % adlerModulus := by
  have first := adlerStep_fold bytes (show (1, 0).1 < adlerModulus by decide)
  change _ = (1 + _) % adlerModulus at first
  have small : (1 + (bytes.map UInt8.toNat).sum) % adlerModulus < adlerModulus := Nat.mod_lt _ (by decide)
  change (Nat.toUInt32 (_ * 65536 + _)).toNat % 65536 = _
  rw [Nat.toUInt32_eq, UInt32.toNat_ofNat', ← first]
  rw [← first, adlerModulus] at small
  omega

/-- Bytes that differ in one place have different checksums. -/
theorem adler32_set_inj {bytes : Bytes} {position : Nat} (inside : position < bytes.length) {byte other : UInt8}
    (same : adler32 (bytes.set position byte) = adler32 (bytes.set position other)) : byte = other := by
  have sums := congrArg (UInt32.toNat · % 65536) same
  simp only [adler32_mod, List.set_eq_take_append_cons_drop, inside, if_true, List.map_append, List.map_cons,
    List.sum_append, List.sum_cons, adlerModulus] at sums
  have small := byte.toNat_lt
  have small' := other.toNat_lt
  exact UInt8.toNat_inj.mp (by omega)

end Digest

namespace Bytes

theorem toNatLittle_inj {first second : Bytes} (length : first.length = second.length)
    (same : first.toNatLittle = second.toNatLittle) : first = second := by
  induction first generalizing second with
  | nil => exact (List.length_eq_zero_iff.mp length.symm).symm
  | cons byte first ih =>
    cases second with
    | nil => cases length
    | cons other second =>
      rw [toNatLittle, toNatLittle] at same
      have small := byte.toNat_lt
      have small' := other.toNat_lt
      obtain rfl : byte = other := UInt8.toNat_inj.mp (by omega)
      rw [ih (Nat.succ.inj length) (by omega)]

theorem length_wordAt {offset : Nat} {bytes : Bytes} (enough : offset + 4 ≤ bytes.length) :
    (wordAt offset bytes).length = 4 := by
  rw [wordAt, List.length_take, List.length_drop]
  omega

theorem wordIn_inj {bigEndian : Bool} {first second : Bytes} (length : first.length = 4) (length' : second.length = 4)
    (same : first.wordIn bigEndian = second.wordIn bigEndian) : first = second := by
  have little {first second : Bytes} (length : first.length = 4) (length' : second.length = 4)
      (same : first.toNatLittle.toUInt32 = second.toNatLittle.toUInt32) : first = second := by
    have bound := first.toNatLittle_lt
    have bound' := second.toNatLittle_lt
    rw [length] at bound
    rw [length'] at bound'
    change _ < 2 ^ 32 at bound bound'
    have same := congrArg UInt32.toNat same
    rw [toNat_toUInt32_of_lt bound, toNat_toUInt32_of_lt bound'] at same
    exact toNatLittle_inj (length.trans length'.symm) same
  cases bigEndian with
  | false => exact little length length' same
  | true =>
    refine List.reverse_injective (little ?_ ?_ same)
    · rw [List.length_reverse, length]
    · rw [List.length_reverse, length']

theorem wordAt_set_of_lt {offset position : Nat} (before : position < offset) (bytes : Bytes) (byte : UInt8) :
    wordAt offset (bytes.set position byte) = wordAt offset bytes := by
  rw [wordAt, List.drop_set, if_pos before]
  rfl

theorem wordAt_set_of_le {offset position : Nat} (behind : offset ≤ position) (bytes : Bytes) (byte : UInt8) :
    wordAt offset (bytes.set position byte) = (wordAt offset bytes).set (position - offset) byte := by
  rw [wordAt, List.drop_set, if_neg (Nat.not_lt.mpr behind), List.take_set]
  rfl

theorem getElem_of_wordAt {offset position : Nat} {bytes : Bytes} {byte : UInt8} (behind : offset ≤ position)
    (before : position < offset + 4) (inside : position < bytes.length)
    (same : (wordAt offset bytes).set (position - offset) byte = wordAt offset bytes) : bytes[position] = byte := by
  have there : position - offset < (wordAt offset bytes).length := by
    rw [wordAt, List.length_take, List.length_drop]
    omega
  have changed := congrArg (·[position - offset]?) same
  rw [List.getElem?_set_self there, wordAt, List.getElem?_take_of_lt (by omega), List.getElem?_drop,
    Nat.add_sub_cancel' behind, List.getElem?_eq_getElem inside] at changed
  exact (Option.some.inj changed).symm

end Bytes

open Reading

namespace Header

/-- The bytes that the tag of an order of bytes takes. -/
def orderTag (bigEndian : Bool) : Bytes := if bigEndian then [0x12, 0x34, 0x56, 0x78] else [0x78, 0x56, 0x34, 0x12]

theorem orderTag_injective : orderTag.Injective := by
  rintro (_ | _) (_ | _) ⟨⟩
  · rfl
  · rfl

/-- One changed byte does not make the tag of one order that of the other. -/
theorem orderTag_of_set {bigEndian bigEndian' : Bool} {position : Nat} {byte : UInt8}
    (tag : orderTag bigEndian' = (orderTag bigEndian).set position byte) : bigEndian' = bigEndian := by
  have heads := congrArg (·[0]?) tag
  have seconds := congrArg (·[1]?) tag
  cases bigEndian <;> cases bigEndian' <;> rcases position with _ | _ | position <;> simp [orderTag] at heads seconds ⊢

theorem wordIn_orderTag (bigEndian : Bool) :
    (orderTag bigEndian).wordIn false = if bigEndian then bigEndianTag else littleEndianTag := by
  cases bigEndian <;> rfl

/-- What lies behind the fields that every version has does not change the checksum. -/
theorem gives_decodeLater (strict : Bool) (version : Nat) (header : Header) :
    Gives (decodeLater strict version header) fun read => read.checksum = header.checksum := by
  have surplus (container : Option Container) : Gives (decodeSurplus strict { header with container })
      fun read => read.checksum = header.checksum :=
    .ite (.ite .fail_bind (.skip fun _ => .pure rfl)) (.pure rfl)
  refine .ite .fail_bind (.ite ?_ (.skip surplus))
  exact .skip fun _ => .skip fun _ => .skip surplus

/-- The checksum is the number that comes first behind the magic. -/
theorem checksum_of_decodeFields {strict : Bool} {version : Nat} {magic : Vector UInt8 8} {cursor after : Cursor}
    {header : Header} (run : (decodeFields magic >>= decodeLater strict version) cursor = (.ok header, after)) :
    header.checksum = (cursor.window 4).wordIn cursor.bigEndian := by
  obtain ⟨fields, between, first, later⟩ := bind_eq_ok.mp run
  obtain ⟨checksum, behind, number, others⟩ := bind_eq_ok.mp first
  have kept : fields.checksum = checksum := by
    refine (show Gives _ fun read : Header => read.checksum = checksum from ?_).holds _ _ _ others
    iterate 13
      apply Gives.skip
      intro
    exact .pure rfl
  rw [(gives_decodeLater strict version fields).holds _ _ _ later, kept, Decoder.u4_eq_ok number]

/-- The checksum over some bytes tells what the byte is that is put in a place among them. -/
theorem getElem_of_checksumOf {bytes : Bytes} {position : Nat} {byte : UInt8} (covered : signatureOffset ≤ position)
    (inside : position < bytes.length) (same : checksumOf (bytes.set position byte) = checksumOf bytes) :
    byte = bytes[position] := by
  have there : position - signatureOffset < (bytes.drop signatureOffset).length := by
    rw [List.length_drop]
    omega
  have sums (byte : UInt8) : checksumOf (bytes.set position byte) =
      Digest.adler32 ((bytes.drop signatureOffset).set (position - signatureOffset) byte) := by
    rw [checksumOf, List.drop_set, if_neg (Nat.not_lt.mpr covered)]
  have itself : checksumOf (bytes.set position bytes[position]) = checksumOf bytes := by rw [List.set_getElem_self]
  rw [← itself, sums, sums] at same
  exact Digest.adler32_set_inj there same

/-- A header is read where a magic spells a version, which a strict read knows, and a tag tells the order of
bytes in which what lies behind the magic is read. -/
theorem decode_eq_ok {strict : Bool} {cursor after : Cursor} {header : Header}
    (decoded : decode strict cursor = (.ok header, after)) : cursor.position + baseSize ≤ cursor.bytes.size ∧
      ∃ magic version bigEndian, Bytes.toVector 8 (cursor.rest.take 8) = magic ∧ versionOf? magic = some version ∧
        (strict = true → leastVersion ≤ version ∧ version ≤ greatestVersion) ∧
        cursor.rest.wordAt endianTagOffset = orderTag bigEndian ∧
        (decodeFields magic >>= decodeLater strict version) ⟨cursor.bytes, cursor.position + 8, bigEndian⟩ =
          (.ok header, after) := by
  by_cases cut : cursor.bytes.size < cursor.position + baseSize
  · rw [decode, Reading.bind_ok (Decoder.get_run cursor), if_pos cut] at decoded
    cases decoded
  have enough := Nat.not_lt.mp cut
  have length : (cursor.rest.wordAt endianTagOffset).length = 4 := by
    refine Bytes.length_wordAt ?_
    rw [Cursor.length_rest, Cursor.remaining]
    simp only [baseSize, endianTagOffset] at enough ⊢
    omega
  refine ⟨enough, ?_⟩
  obtain ⟨magic, first⟩ : ∃ magic, Bytes.toVector 8 (cursor.rest.take 8) = magic := ⟨_, rfl⟩
  rw [decode_of_le enough first] at decoded
  cases spelled : versionOf? magic with
  | none =>
    rw [spelled] at decoded
    cases decoded
  | some version =>
    rw [spelled] at decoded
    dsimp only at decoded
    split_ifs at decoded with refused
    · cases decoded
    have known (strictly : strict = true) : leastVersion ≤ version ∧ version ≤ greatestVersion := by
      rw [strictly, Bool.true_and, Bool.or_eq_true, decide_eq_true_eq, decide_eq_true_eq] at refused
      omega
    rw [decodeOrdered] at decoded
    -- A tag of four bytes is told by the number that it spells in either order.
    split_ifs at decoded with little big
    · have tag := Bytes.wordIn_inj length rfl (little.trans (wordIn_orderTag false).symm)
      exact ⟨magic, version, false, first, spelled, known, tag, decoded⟩
    · have tag := Bytes.wordIn_inj length rfl (big.trans (wordIn_orderTag true).symm)
      exact ⟨magic, version, true, first, spelled, known, tag, decoded⟩
    · cases decoded

/-- Where a header is read, the tag sets the order in which its checksum is read. -/
theorem checksum_of_decode {strict : Bool} {bytes : Bytes} {header : Header} {after : Cursor}
    (decoded : decode strict (.ofBytes bytes) = (.ok header, after)) : baseSize ≤ bytes.length ∧
      ∃ bigEndian, bytes.wordAt endianTagOffset = orderTag bigEndian ∧
        header.checksum = (bytes.wordAt checksumOffset).wordIn bigEndian := by
  obtain ⟨enough, magic, version, bigEndian, -, -, -, tag, read⟩ := decode_eq_ok decoded
  refine ⟨?_, bigEndian, tag, ?_⟩
  · change 0 + baseSize ≤ bytes.toArray.size at enough
    rwa [Nat.zero_add, List.size_toArray] at enough
  · have window : Cursor.window ⟨bytes.toArray, 8, bigEndian⟩ 4 = bytes.wordAt checksumOffset := Cursor.window_eq _ _
    rw [← window]
    exact checksum_of_decodeFields read

/-- No byte behind the magic can be changed so that the checksum still matches. -/
theorem verifiesChecksum_set {strict strict' : Bool} {bytes : Bytes} {header header' : Header} {after after' : Cursor}
    {position : Nat} {byte : UInt8} (inside : position < bytes.length) (behind : checksumOffset ≤ position)
    (decoded : decode strict (.ofBytes bytes) = (.ok header, after))
    (decoded' : decode strict' (.ofBytes (bytes.set position byte)) = (.ok header', after'))
    (verified : header.verifiesChecksum bytes = true)
    (verified' : header'.verifiesChecksum (bytes.set position byte) = true) : bytes[position] = byte := by
  obtain ⟨enough, bigEndian, tag, stored⟩ := checksum_of_decode decoded
  obtain ⟨-, bigEndian', tag', stored'⟩ := checksum_of_decode decoded'
  obtain rfl : bigEndian' = bigEndian := by
    rcases Nat.lt_or_ge position endianTagOffset with before | after
    · rw [Bytes.wordAt_set_of_lt before, tag] at tag'
      exact (orderTag_injective tag').symm
    · rw [Bytes.wordAt_set_of_le after, tag] at tag'
      exact orderTag_of_set tag'.symm
  rw [verifiesChecksum, beq_iff_eq, stored] at verified
  rw [verifiesChecksum, beq_iff_eq, stored'] at verified'
  have length : (bytes.wordAt checksumOffset).length = 4 := Bytes.length_wordAt (Nat.le_trans (by decide) enough)
  rcases Nat.lt_or_ge position signatureOffset with before | covered
  · have kept : checksumOf (bytes.set position byte) = checksumOf bytes := by
      rw [checksumOf, List.drop_set, if_pos before]
      rfl
    rw [kept, verified, Bytes.wordAt_set_of_le behind] at verified'
    have same := Bytes.wordIn_inj length (List.length_set.trans length) verified'
    exact Bytes.getElem_of_wordAt behind before inside same.symm
  · have kept : bytes.wordAt checksumOffset = Bytes.wordAt checksumOffset (bytes.set position byte) := by
      rw [Bytes.wordAt_set_of_le behind, List.set_eq_of_length_le]
      rw [length]
      exact Nat.le_sub_of_add_le' covered
    rw [← kept, ← verified] at verified'
    exact (getElem_of_checksumOf covered inside verified').symm

end Header

namespace Image

/-- An image whose checksum has been found right is not read with one byte behind the magic changed. -/
theorem read_set_error {bytes : Bytes} {options options' : ReadOptions} {image : Image}
    (asked : options.verifyChecksum = true) (asked' : options'.verifyChecksum = true)
    (success : read bytes options = .ok image) {position : Nat} {byte : UInt8} (inside : position < bytes.length)
    (behind : Header.checksumOffset ≤ position) (changed : byte ≠ bytes[position]) :
    ∃ fault, read (bytes.set position byte) options' = .error fault := by
  cases run : read (bytes.set position byte) options' with
  | error fault => exact ⟨fault, rfl⟩
  | ok image' =>
    obtain ⟨cursor, -, decoded, verified, -⟩ := read_eq_ok_iff.mp success
    obtain ⟨cursor', -, decoded', verified', -⟩ := read_eq_ok_iff.mp run
    exact absurd (Header.verifiesChecksum_set inside behind decoded decoded' (verified asked) (verified' asked')).symm
      changed

/-- The one instruction changed. -/
theorem read_set_error_methodBytes : (∃ image, read methodBytes ⟨true, true, true⟩ = .ok image) ∧
    168 < methodBytes.length ∧ ∃ fault, read (methodBytes.set 168 0x0f) ⟨true, true, true⟩ = .error fault := by
  have inside : 168 < methodBytes.length := by decide +kernel
  have changed : (0x0f : UInt8) ≠ methodBytes[168] := by decide +kernel +revert
  have success : (read methodBytes ⟨true, true, true⟩).toOption.isSome = true := by decide +kernel
  obtain ⟨image, run⟩ := Result.exists_of_toOption success
  exact ⟨⟨image, run⟩, inside, read_set_error rfl rfl run inside (by decide) changed⟩

end Image
end DexImage
