import DexImage.Cursor
import DexImage.Referring
import DexImage.Text.ModifiedUtf8
import DexImage.TrackedList
/-! # Strings

A string is stored as its length in UTF-16 code units, its modified UTF-8 and a zero byte. Bytes
that do not decode to a string of the stated length are kept as they are.
-/

namespace DexImage

inductive StringData where
  | decoded (text : String)
  | raw (units : UInt32) (payload : Bytes)
deriving DecidableEq, Repr

namespace StringData

open Text

def text? : StringData → Option String
  | decoded text => some text
  | raw .. => none

/-- The text, with undecodable bytes shown as replacement characters. -/
def textLossy : StringData → String
  | decoded text => text
  | raw _ payload => Utf8.decodeLossy payload

/-- The length in UTF-16 code units, as stored. -/
def units : StringData → UInt32
  | decoded text => (units16 text).length.toUInt32
  | raw units _ => units

/-- The bytes between the length and the terminator. -/
def payload : StringData → Bytes
  | decoded text => ModifiedUtf8.encode text
  | raw _ payload => payload

/-- The order of the string pool: by UTF-16 code units where both strings decode, else by their
stored bytes. -/
def order (a b : StringData) : Ordering :=
  match a, b with
  | decoded a, decoded b => compare (units16 a) (units16 b)
  | _, _ => compare a.payload b.payload

instance : Encodable StringData where
  encodedSize string := Leb128.lengthUInt32 string.units + string.payload.length + 1
  encode string := .ok (Leb128.encodeUInt32 string.units ++ string.payload ++ [0])
  refresh string := string
  isDirty _ := false

instance : Referring StringData where
  uses _ := []
  visit _ string := pure string

/-- The bytes up to a zero byte, which is passed over. -/
def terminated : Decoder Bytes := do
  go ((← Decoder.remaining) + 1) []
where
  go : Nat → Bytes → Decoder Bytes
    | 0, found => return found.reverse
    | fuel + 1, found => do
      let byte ← Decoder.u1
      if byte = 0 then return found.reverse else go fuel (byte :: found)

/-- A payload counts as text only if it decodes to the stated number of units. -/
def ofPayload (units : UInt32) (payload : Bytes) : StringData :=
  match ModifiedUtf8.decode? payload with
  | some text => if (decoded text).units = units then decoded text else raw units payload
  | none => raw units payload

def decode : Decoder StringData := do
  let units ← Decoder.uleb128
  return ofPayload units (← terminated)

end StringData
end DexImage
