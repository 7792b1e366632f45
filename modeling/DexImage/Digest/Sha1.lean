import DexImage.Bytes
/-! # SHA-1

The message is padded to whole blocks of sixty-four bytes, the last eight of which hold its
length in bits. Each block stirs five words of state in eighty rounds.
-/

namespace DexImage.Digest

structure Sha1State where
  a : UInt32
  b : UInt32
  c : UInt32
  d : UInt32
  e : UInt32
deriving DecidableEq, Repr

namespace Sha1State

def initial : Sha1State := ⟨0x67452301, 0xefcdab89, 0x98badcfe, 0x10325476, 0xc3d2e1f0⟩

def rotateLeft (word : UInt32) (count : UInt32) : UInt32 :=
  word <<< count ||| word >>> (32 - count)

/-- The mixing function and the constant of a round. -/
def mix (state : Sha1State) (round : Nat) : UInt32 × UInt32 :=
  let ⟨_, b, c, d, _⟩ := state
  if round < 20 then ((b &&& c) ||| (~~~b &&& d), 0x5a827999)
  else if round < 40 then (b ^^^ c ^^^ d, 0x6ed9eba1)
  else if round < 60 then ((b &&& c) ||| (b &&& d) ||| (c &&& d), 0x8f1bbcdc)
  else (b ^^^ c ^^^ d, 0xca62c1d6)

def step (state : Sha1State) (round : Nat) (word : UInt32) : Sha1State :=
  let (mixed, constant) := state.mix round
  let head := rotateLeft state.a 5 + mixed + state.e + constant + word
  ⟨head, state.a, rotateLeft state.b 30, state.c, state.d⟩

def add (x y : Sha1State) : Sha1State := ⟨x.a + y.a, x.b + y.b, x.c + y.c, x.d + y.d, x.e + y.e⟩

/-- The words of a block extended to one word for each round. -/
def schedule (words : Array UInt32) : Array UInt32 :=
  (List.range 64).foldl (fun words _ =>
    let at' (back : Nat) : UInt32 := words.getD (words.size - back) 0
    words.push (rotateLeft (at' 3 ^^^ at' 8 ^^^ at' 14 ^^^ at' 16) 1)) words

/-- The big-endian words of a byte string. -/
def words : Bytes → List UInt32
  | a :: b :: c :: d :: rest =>
    (a.toUInt32 <<< 24 ||| b.toUInt32 <<< 16 ||| c.toUInt32 <<< 8 ||| d.toUInt32) :: words rest
  | _ => []

def block (state : Sha1State) (bytes : Bytes) : Sha1State :=
  let rounds := schedule (words bytes).toArray
  let stirred := (List.range 80).foldl
    (fun stirred round => stirred.step round (rounds.getD round 0)) state
  state.add stirred

def bytes (state : Sha1State) : Bytes :=
  [state.a, state.b, state.c, state.d, state.e].flatMap fun word =>
    (Bytes.littleEndian 4 word.toNat).reverse

end Sha1State

/-- The padding that follows a message of the given length. -/
def sha1Padding (length : Nat) : Bytes :=
  0x80 :: Bytes.zeros (Bytes.padding (length + 9) 64) ++ (Bytes.littleEndian 8 (8 * length)).reverse

/-- The twenty bytes of the digest. -/
def sha1 (message : Bytes) : Bytes :=
  let padded := message ++ sha1Padding message.length
  (go (padded.length / 64) padded .initial).bytes
where
  go : Nat → Bytes → Sha1State → Sha1State
    | 0, _, state => state
    | blocks + 1, bytes, state => go blocks (bytes.drop 64) (state.block (bytes.take 64))

end DexImage.Digest
