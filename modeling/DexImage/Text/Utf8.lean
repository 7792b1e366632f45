import DexImage.Bytes
/-! # UTF-8 and UTF-16

A byte string is cut into segments, each a well-formed character or a longest run of bytes that
begins one without completing it. A byte string is valid when every segment is a character.
-/

namespace DexImage.Text

/-- The UTF-16 code units of a character. -/
def charUnits16 (c : Char) : List UInt16 :=
  let n := c.toNat
  if n < 0x10000 then [n.toUInt16]
  else
    [(0xd800 + (n - 0x10000) / 0x400).toUInt16, (0xdc00 + (n - 0x10000) % 0x400).toUInt16]

/-- The UTF-16 code units of a string. -/
def units16 (text : String) : List UInt16 := text.toList.flatMap charUnits16

namespace Utf8

def isContinuation (byte : UInt8) : Bool := 0x80 ≤ byte && byte ≤ 0xbf

/-- The value bits of a continuation byte. -/
def low (byte : UInt8) : Nat := byte.toNat % 0x40

/-- Whether a second byte may follow the first byte of a character of three or four bytes. The
bounds exclude overlong forms, surrogates and numbers past the last character. -/
def mayFollow (first second : UInt8) : Bool :=
  if first = 0xe0 then 0xa0 ≤ second && second ≤ 0xbf
  else if first = 0xed then 0x80 ≤ second && second ≤ 0x9f
  else if first = 0xf0 then 0x90 ≤ second && second ≤ 0xbf
  else if first = 0xf4 then 0x80 ≤ second && second ≤ 0x8f
  else isContinuation second

/-- The segment at the front of a byte string: its character, if it is one, and its length. -/
def next (first : UInt8) (rest : Bytes) : Option Char × Nat :=
  if first < 0x80 then (some (Char.ofNat first.toNat), 1)
  else if 0xc2 ≤ first && first ≤ 0xdf then
    match rest with
    | second :: _ =>
      if isContinuation second then
        (some (Char.ofNat (first.toNat % 0x20 * 0x40 + low second)), 2)
      else (none, 1)
    | [] => (none, 1)
  else if 0xe0 ≤ first && first ≤ 0xef then
    match rest with
    | second :: third? =>
      if mayFollow first second then
        match third? with
        | third :: _ =>
          if isContinuation third then
            (some (Char.ofNat
              ((first.toNat % 0x10 * 0x40 + low second) * 0x40 + low third)), 3)
          else (none, 2)
        | [] => (none, 2)
      else (none, 1)
    | [] => (none, 1)
  else if 0xf0 ≤ first && first ≤ 0xf4 then
    match rest with
    | second :: third? =>
      if mayFollow first second then
        match third? with
        | third :: fourth? =>
          if isContinuation third then
            match fourth? with
            | fourth :: _ =>
              if isContinuation fourth then
                (some (Char.ofNat
                  (((first.toNat % 0x08 * 0x40 + low second) * 0x40 + low third) * 0x40
                    + low fourth)), 4)
              else (none, 3)
            | [] => (none, 3)
          else (none, 2)
        | [] => (none, 2)
      else (none, 1)
    | [] => (none, 1)
  else (none, 1)

/-- The segments of a byte string, `none` for each run that is not a character. -/
def segments (bytes : Bytes) : List (Option Char) :=
  go bytes.length bytes []
where
  go : Nat → Bytes → List (Option Char) → List (Option Char)
    | 0, _, found => found.reverse
    | _, [], found => found.reverse
    | fuel + 1, first :: rest, found =>
      let (char?, length) := next first rest
      go fuel (rest.drop (length - 1)) (char? :: found)

/-- The string that a valid byte string encodes. -/
def decode? (bytes : Bytes) : Option String :=
  ((segments bytes).mapM id).map String.ofList

/-- The string with every run that is not a character shown as a replacement character. -/
def decodeLossy (bytes : Bytes) : String :=
  String.ofList ((segments bytes).map fun char? => char?.getD '\uFFFD')

end Utf8
end DexImage.Text
