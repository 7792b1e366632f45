import DexImage.Text.Utf8
/-! # Modified UTF-8

Each UTF-16 code unit of a string is encoded on its own: unit zero in two bytes, so that no
zero byte occurs, and a surrogate in three. Decoding also accepts plain UTF-8, whose characters
outside the basic plane take four bytes.
-/

namespace DexImage.Text.ModifiedUtf8

def encodeUnit (unit : UInt16) : Bytes :=
  let n := unit.toNat
  if 0 < n ∧ n < 0x80 then [n.toUInt8]
  else if n < 0x800 then [(0xc0 + n / 0x40).toUInt8, (0x80 + n % 0x40).toUInt8]
  else
    [(0xe0 + n / 0x1000).toUInt8, (0x80 + n / 0x40 % 0x40).toUInt8, (0x80 + n % 0x40).toUInt8]

def encode (text : String) : Bytes := (units16 text).flatMap encodeUnit

/-- The character at the front of a byte string and the bytes after it. -/
def next? : Bytes → Option (Char × Bytes)
  | [] => none
  | first :: rest =>
    if first = 0 then none
    else if first < 0x80 then some (Char.ofNat first.toNat, rest)
    else match rest with
      | [] => none
      | second :: rest =>
        if first = 0xc0 then if second = 0x80 then some ('\x00', rest) else none
        else if !Utf8.isContinuation second then none
        else if 0xc2 ≤ first && first ≤ 0xdf then
          some (Char.ofNat (first.toNat % 0x20 * 0x40 + Utf8.low second), rest)
        else if 0xe0 ≤ first && first ≤ 0xef then
          match rest with
          | [] => none
          | third :: rest =>
            let unit := (first.toNat % 0x10 * 0x40 + Utf8.low second) * 0x40 + Utf8.low third
            if !Utf8.isContinuation third then none
            else if Utf8.mayFollow first second then some (Char.ofNat unit, rest)
            else if first = 0xed && second < 0xb0 then lowSurrogate? unit rest
            else none
        else none
where
  /-- The character whose high surrogate has been read. -/
  lowSurrogate? (high : Nat) : Bytes → Option (Char × Bytes)
    | fourth :: fifth :: sixth :: rest =>
      if fourth = 0xed && 0xb0 ≤ fifth && fifth ≤ 0xbf && Utf8.isContinuation sixth then
        let unit := (0xd * 0x40 + Utf8.low fifth) * 0x40 + Utf8.low sixth
        some (Char.ofNat (0x10000 + (high - 0xd800) * 0x400 + (unit - 0xdc00)), rest)
      else none
    | _ => none

def decodeUnits? (bytes : Bytes) : Option String :=
  go bytes.length bytes []
where
  go : Nat → Bytes → List Char → Option String
    | _, [], found => some (String.ofList found.reverse)
    | 0, _ :: _, _ => none
    | fuel + 1, first :: rest, found =>
      match next? (first :: rest) with
      | some (char, rest) => go fuel rest (char :: found)
      | none => none

def decode? (bytes : Bytes) : Option String := Utf8.decode? bytes <|> decodeUnits? bytes

end DexImage.Text.ModifiedUtf8
