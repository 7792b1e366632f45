import DexImage.Proofs.Layout.Emission
/-! # Digests

The signature of an image covers what follows the signature field, and the checksum covers the signature and what
follows it. Neither covers a digest that has been there before, so that the stored digests depend on the other fields
of the header and on the bytes behind it alone (`Header.sealed_with`).
-/

namespace DexImage.Header

/-- The bytes of an image that follow the signature, where `tail` follows the header. -/
def signedBytes (header : Header) (tail : Bytes) : Bytes := header.fieldBytes ++ (header.laterBytes ++ tail)

/-- The signature of an image in which `tail` follows the header. -/
def signatureFor (header : Header) (tail : Bytes) : Vector UInt8 20 :=
  (Digest.sha1 (header.signedBytes tail)).toVector 20

/-- The checksum of an image in which `tail` follows the header. -/
def checksumFor (header : Header) (tail : Bytes) : UInt32 :=
  Digest.adler32 (header.signature.toList ++ header.signedBytes tail)

def signed (header : Header) (tail : Bytes) : Header := { header with signature := header.signatureFor tail }

def checked (header : Header) (tail : Bytes) : Header := { header with checksum := header.checksumFor tail }

/-- The header with the digests of an image in which `tail` follows it. -/
def sealed (header : Header) (tail : Bytes) : Header := (header.signed tail).checked tail

variable {header : Header} {front : Bytes}

/-- An image starts with the magic and the digests. -/
theorem encode_append (encoded : encode header = .ok front) (tail : Bytes) :
    front ++ tail = header.magic.toList ++ (Bytes.ofUInt32 header.checksum ++
      (header.signature.toList ++ header.signedBytes tail)) := by
  obtain rfl := Except.ok.inj (header.encode_eq.symm.trans encoded)
  simp only [signedBytes, List.append_assoc]

theorem checksumOf_append (encoded : encode header = .ok front) (tail : Bytes) :
    checksumOf (front ++ tail) = header.checksumFor tail := by
  have length : (header.magic.toList ++ Bytes.ofUInt32 header.checksum).length = signatureOffset := by
    simp [Bytes.ofUInt32, signatureOffset]
  rw [checksumOf, encode_append encoded, ← List.append_assoc, List.drop_left' length, checksumFor]

theorem signatureOf_append (encoded : encode header = .ok front) (tail : Bytes) :
    signatureOf (front ++ tail) = header.signatureFor tail := by
  have length : (header.magic.toList ++ (Bytes.ofUInt32 header.checksum ++ header.signature.toList)).length =
      fileSizeOffset := by
    simp [Bytes.ofUInt32, fileSizeOffset]
  rw [signatureOf, encode_append encoded, ← List.append_assoc (Bytes.ofUInt32 _), ← List.append_assoc
    header.magic.toList,
    List.drop_left' length, signatureFor]

theorem fileSizeOffset_le (encoded : encode header = .ok front) (tail : Bytes) :
    fileSizeOffset ≤ (front ++ tail).length := by
  have least := header.baseSize_le
  rw [List.length_append, length_encode encoded]
  simp only [baseSize, fileSizeOffset] at least ⊢
  omega

/-- Storing a signature changes its field alone. -/
theorem updateSignature_encode (encoded : encode header = .ok front) (tail : Bytes) : ∃ stored,
    encode (header.signed tail) = .ok stored ∧
      header.updateSignature (front ++ tail) = .ok (header.signed tail, stored ++ tail) := by
  have long := fileSizeOffset_le encoded tail
  refine ⟨_, encode_eq _, ?_⟩
  rw [updateSignature, if_neg (by omega), signatureOf_append encoded, signed]
  generalize header.signatureFor tail = signature
  have patched :=
    @Bytes.overwrite_append (header.magic.toList ++ Bytes.ofUInt32 header.checksum) header.signature.toList
    (header.signedBytes tail) signature.toList (by simp)
  have length : (header.magic.toList ++ Bytes.ofUInt32 header.checksum).length = signatureOffset := by
    simp [Bytes.ofUInt32, signatureOffset]
  rw [length, List.append_assoc, ← encode_append encoded] at patched
  dsimp only
  rw [patched]
  simp only [signedBytes, fieldBytes, laterBytes, tableBytes, List.append_assoc]

/-- Storing a checksum changes its field alone. -/
theorem updateChecksum_encode (encoded : encode header = .ok front) (tail : Bytes) : ∃ stored,
    encode (header.checked tail) = .ok stored ∧
      header.updateChecksum (front ++ tail) = .ok (header.checked tail, stored ++ tail) := by
  have long := fileSizeOffset_le encoded tail
  have offsets : signatureOffset ≤ fileSizeOffset := by decide
  refine ⟨_, encode_eq _, ?_⟩
  rw [updateChecksum, if_neg (by omega), checksumOf_append encoded, checked]
  generalize header.checksumFor tail = checksum
  have patched := @Bytes.overwrite_append header.magic.toList (Bytes.ofUInt32 header.checksum)
    (header.signature.toList ++ header.signedBytes tail) (Bytes.ofUInt32 checksum) (by simp [Bytes.ofUInt32])
  have length : header.magic.toList.length = checksumOffset := header.magic.length_toList
  rw [length, ← encode_append encoded] at patched
  dsimp only
  rw [patched]
  simp only [signedBytes, fieldBytes, laterBytes, tableBytes, List.append_assoc]

/-- Storing the digests yields the sealed header, in front of the same bytes. -/
theorem updateDigests_encode (encoded : encode header = .ok front) (tail : Bytes) : ∃ stored,
    encode (header.sealed tail) = .ok stored ∧
      header.updateDigests (front ++ tail) = .ok (header.sealed tail, stored ++ tail) := by
  obtain ⟨signed, encoded', first⟩ := updateSignature_encode encoded tail
  obtain ⟨stored, encoded'', second⟩ := updateChecksum_encode encoded' tail
  refine ⟨stored, encoded'', ?_⟩
  rw [updateDigests, first]
  exact second

/-- The digests that have been in a header before do not matter. -/
theorem sealed_with (header : Header) (checksum : UInt32) (signature : Vector UInt8 20) (tail : Bytes) :
    ({ header with checksum, signature } : Header).sealed tail = header.sealed tail := by
  simp only [sealed, signed, checked, signatureFor, checksumFor, signedBytes, fieldBytes, laterBytes, tableBytes]

/-- The digests that are stored are those of the image in which they are. -/
theorem verifies_sealed {tail stored : Bytes} (encoded : encode (header.sealed tail) = .ok stored) :
    (header.sealed tail).verifiesChecksum (stored ++ tail) = true ∧
      (header.sealed tail).verifiesSignature (stored ++ tail) = true := by
  have checksum : (header.sealed tail).checksumFor tail = (header.sealed tail).checksum := by
    simp only [sealed, checked, checksumFor, signedBytes, fieldBytes, laterBytes, tableBytes]
  have signature : (header.sealed tail).signatureFor tail = (header.sealed tail).signature := by
    simp only [sealed, signed, checked, signatureFor, signedBytes, fieldBytes, laterBytes, tableBytes]
  rw [verifiesChecksum, verifiesSignature, checksumOf_append encoded, signatureOf_append encoded, checksum, signature]
  exact ⟨beq_self_eq_true _, beq_self_eq_true _⟩

end DexImage.Header
