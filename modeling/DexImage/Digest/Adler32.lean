import DexImage.Bytes
/-! # Adler-32

Two sums modulo the largest prime below 2^16: of the bytes, starting from one, and of the
successive values of the first sum.
-/

namespace DexImage.Digest

def adlerModulus : Nat := 65521

/-- The two sums after one more byte. -/
def adlerStep (sums : Nat × Nat) (byte : UInt8) : Nat × Nat :=
  let first := (sums.1 + byte.toNat) % adlerModulus
  (first, (sums.2 + first) % adlerModulus)

def adler32 (bytes : Bytes) : UInt32 :=
  let (first, second) := bytes.foldl adlerStep (1, 0)
  (second * 65536 + first).toUInt32

end DexImage.Digest
