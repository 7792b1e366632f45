import DexImage.Proofs.Codec.Writing
import DexImage.Proofs.Rereading.Decoding
/-! # Debug programs that are written and read back

Every debug program is written, but what is written does not always tell it. An operation that advances address
and line at once is written as its code, which may be that of another operation or of the end of the program. A
name whose index has a sign bit is read as none, and the count in front of the parameter names may be cut off.
All other programs are read back (`DebugInfo.Lossless`).
-/

namespace DexImage.DebugInfo

/-- Whether what is written of a program tells the program: no operation has the code of another one, names have
indices of 31 bits, and the count tells how many parameters there are. -/
structure Lossless (info : DebugInfo) : Prop where
  readable : info.Readable
  counted : info.Counted

/-- Whatever is read is told by what is written of it. -/
theorem lossless_of_decode {info : DebugInfo} {cursor after : Cursor} (read : decode cursor = (.ok info, after)) :
    info.Lossless :=
  ⟨gives_decode.holds _ _ _ read, gives_counted.holds _ _ _ read⟩

/-- Every program is written. It is read back from what is written, whatever follows it, if no operation has the code of
another one, no name has a sign bit and the count tells the number of parameters; otherwise it is read from nothing at
all. Names that have a sign bit are read as none. -/
theorem reads_iff_lossless (info : DebugInfo) : ∃ bytes : Bytes,
    (∀ out, info.write out = (.ok bytes.length, out ++ bytes)) ∧
      (info.Lossless → Reads decode bytes info) ∧
      (¬info.Lossless → ∀ cursor after, decode cursor ≠ (.ok info, after)) ∧
      ((∀ op ∈ info.ops, op.Told) → info.Counted → Reads decode bytes info.narrowed) := by
  obtain ⟨bytes, encoded⟩ : ∃ bytes, encode info = .ok bytes := ⟨_, rfl⟩
  refine ⟨bytes, info.writes.run_ok encoded, fun lossless => ?_,
    fun lossy cursor after read => ?_, fun told counted => ?_⟩
  · exact reads_encode encoded lossless.readable lossless.counted
  · exact lossy (lossless_of_decode read)
  · exact reads_narrowed encoded told counted

/-- A parameter whose name has the least index with a sign bit. -/
def wideName : DebugInfo := ⟨1, [.of 0x80000000], []⟩

/-- An operation with the code that ends programs, and another one after it. -/
def cutShort : DebugInfo := ⟨1, [], [.special 0, .special 20]⟩

/-- A name with a sign bit is written and read as none, and a program is read up to an operation with the code that ends
programs. -/
theorem wideName_lost :
    (∃ bytes : Bytes, wideName.write [] = (.ok bytes.length, bytes) ∧ ¬Reads decode bytes wideName ∧
      Reads decode bytes ⟨1, [.absent], []⟩) ∧
    ∃ bytes : Bytes, cutShort.write [] = (.ok bytes.length, bytes) ∧ ¬Reads decode bytes cutShort ∧
      ∃ after, decode (.ofBytes bytes) = (.ok ⟨1, [], []⟩, after) ∧ after.position = bytes.length - 2 := by
  have refused {info : DebugInfo} {bytes : Bytes} (lossy : ¬info.Lossless) : ¬Reads decode bytes info := fun reads =>
    lossy (lossless_of_decode (reads (.ofBytes bytes) ⟨rfl, Nat.zero_le _, List.prefix_rfl⟩))
  constructor
  · have encoded : encode wideName = .ok [1, 1, 0x81, 0x80, 0x80, 0x80, 8, 0] := by decide +kernel
    have lossy : ¬wideName.Lossless := fun lossless =>
      absurd (lossless.readable.names (.of 0x80000000) List.mem_cons_self _ rfl) (by decide)
    have few : wideName.Counted := show 1 < UInt32.size by decide
    exact ⟨_, wideName.writes.run_ok encoded [], refused lossy, reads_narrowed encoded nofun few⟩
  · have encoded : encode cutShort = .ok [1, 0, 0, 20, 0] := by decide +kernel
    have lossy : ¬cutShort.Lossless := fun lossless => by
      have own : DebugOp.Code.firstSpecial ≤ 0 := lossless.readable.ops (.special 0) List.mem_cons_self
      revert own
      decide
    have few : (DebugInfo.mk 1 [] []).Counted := show 0 < UInt32.size by decide
    have front : encode (DebugInfo.mk 1 [] []) = .ok [1, 0, 0] := by decide +kernel
    have reads : Reads decode [1, 0, 0] ⟨1, [], []⟩ := reads_narrowed front nofun few
    exact ⟨_, cutShort.writes.run_ok encoded [], refused lossy, _, reads _ ⟨rfl, Nat.zero_le _, [20, 0], rfl⟩, rfl⟩

end DexImage.DebugInfo
