import DexImage.Proofs.Codec.Cursors
import DexImage.Proofs.Codec.Strings
import DexImage.Proofs.Codec.Writing
/-! # Texts that are written and read back

A text is written as the number of its UTF-16 code units, its modified UTF-8 and a zero byte, which is the only one
behind the number. It is read back wherever this lies in an image and whatever follows, in either byte order, since no
number of a fixed width is part of it (`StringData.decode_written`).
-/

namespace DexImage

namespace StringData

open Text Decoder

theorem unordered_terminated : Unordered terminated := by
  have go (fuel : Nat) (found : Bytes) : Unordered (terminated.go fuel found) := by
    induction fuel generalizing found with
    | zero => exact .pure _
    | succ fuel ih =>
      refine .bind .u1 fun byte => ?_
      split_ifs
      · exact .pure _
      · exact ih (byte :: found)
  exact .bind .remaining fun remaining => go (remaining + 1) []

theorem unordered_decode : Unordered decode :=
  .bind .varint fun _ => .bind unordered_terminated fun _ => .pure _

/-- Every text is written, as the number of its UTF-16 code units, its modified UTF-8 and a zero byte, with no
other zero byte behind the number. Wherever this lies among bytes and whatever follows, in either byte order,
reading yields the text and stops right behind it. -/
theorem decode_written (text : String) : ∃ bytes : Bytes,
    (∀ out, (decoded text).write out = (.ok bytes.length, out ++ bytes)) ∧
      bytes = Leb128.encodeUInt32 (units16 text).length.toUInt32 ++ ModifiedUtf8.encode text ++ [0] ∧
      (0 : UInt8) ∉ ModifiedUtf8.encode text ∧
      ∀ (front rest : Bytes) (bigEndian : Bool),
        let cursor : Cursor := ⟨(front ++ bytes ++ rest).toArray, front.length, bigEndian⟩
        decode cursor = (.ok (decoded text), cursor.advance bytes.length) ∧
          (cursor.advance bytes.length).rest = rest := by
  obtain ⟨bytes, written⟩ : ∃ bytes, encode (decoded text) = .ok bytes := ⟨_, rfl⟩
  refine ⟨bytes, (decoded text).writes.run_ok written, (Except.ok.inj written).symm,
    ModifiedUtf8.zero_notMem_encode text, fun front rest bigEndian => ?_⟩
  intro cursor
  have behind : cursor.rest = bytes ++ rest := by
    simp [Cursor.rest, cursor]
  have reaches : cursor.Reaches bytes := ⟨by simp [cursor], behind ▸ List.prefix_append bytes rest⟩
  refine ⟨unordered_decode.run (reads_encode written trivial) reaches, ?_⟩
  simp [Cursor.rest, Cursor.advance, cursor]

/-- A zero unit takes two bytes, and a character outside the basic plane two units of three. -/
example : (encode (decoded "\x00😀")).toOption = some [3, 0xc0, 0x80, 0xed, 0xa0, 0xbd, 0xed, 0xb8, 0x80, 0] := by
  decide +kernel

end StringData
end DexImage
