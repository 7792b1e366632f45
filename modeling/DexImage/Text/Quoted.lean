import DexImage.Text.Digits
/-! # Quoted strings

A string constant between double quotes. Quotes and backslashes are escaped, line feeds,
carriage returns and tabs have short escapes, and the other ASCII control characters are written
as four hexadecimal digits; every other character stands for itself.
-/

namespace DexImage.Text

def quotedChar (c : Char) : String :=
  if c = '"' then "\\\""
  else if c = '\\' then "\\\\"
  else if c = '\n' then "\\n"
  else if c = '\r' then "\\r"
  else if c = '\t' then "\\t"
  else if c.toNat < 0x20 ∨ c.toNat = 0x7f then "\\u" ++ hexPadded 4 c.toNat
  else c.toString

def quote (text : String) : String :=
  "\"" ++ String.join (text.toList.map quotedChar) ++ "\""

end DexImage.Text
