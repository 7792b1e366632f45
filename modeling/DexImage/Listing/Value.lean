import DexImage.Decimal.Shortest
import DexImage.Key
import DexImage.Text.Lines
/-! # Listings of values and annotations

The readable form of encoded values, arrays and annotations. Integers are in hexadecimal with a
letter for their width, and references are shown by the names of their targets.
-/

namespace DexImage

open Text

/-- A group of texts between braces. -/
def braced (parts : List String) : String := "\x7b " ++ ", ".intercalate parts ++ " \x7d"

/-- A UTF-16 unit as a character, unless it is a surrogate or a control character. -/
def unitText (unit : UInt16) : String :=
  let n := unit.toNat
  let isSurrogate := 0xd800 ≤ n && n < 0xe000
  let isControl := n < 0x20 || (0x7f ≤ n && n < 0xa0)
  if isSurrogate || isControl then "'\\u" ++ hexPadded 4 n ++ "'"
  else "'" ++ (Char.ofNat n).toString ++ "'"

def Scalar.text (pools : Pools) : Scalar → String
  | byte value => hexPattern 8 value.toInt ++ "t"
  | short value => hexPattern 16 value.toInt ++ "s"
  | char value => unitText value
  | int value => hexPattern 32 value.toInt
  | long value => hexPattern 64 value.toInt ++ "L"
  | float bits => Decimal.floatText Decimal.binary32 bits.toNat ++ "f"
  | double bits => Decimal.floatText Decimal.binary64 bits.toNat
  | methodType ref => pools.describeRef ref
  | methodHandle index => "method_handle@" ++ decimal index.toNat
  | string ref => pools.describeRef ref
  | type ref => pools.describeRef ref
  | field ref => pools.describeRef ref
  | method ref => pools.describeRef ref
  | enum ref => ".enum " ++ pools.describeRef ref

/-- The name of an annotation element, without quotes. -/
def elementName (pools : Pools) (name : IdRef .stringId) : String :=
  match pools.resolveId? name with
  | some string => StringData.textLossy string
  | none => "<none>"

mutual

def EncodedValue.text (pools : Pools) : EncodedValue → String
  | .scalar value _ => value.text pools
  | .array elements => braced (listTexts pools elements)
  | .annotationBody type elements =>
    ".subannotation " ++ pools.describeRef type ++ " " ++ braced (elementTexts pools elements)
  | .null => "null"
  | .boolean true => "true"
  | .boolean false => "false"

def listTexts (pools : Pools) : List EncodedValue → List String
  | [] => []
  | value :: rest => value.text pools :: listTexts pools rest

def elementTexts (pools : Pools) : List (IdRef .stringId × EncodedValue) → List String
  | [] => []
  | (name, value) :: rest =>
    (elementName pools name ++ " = " ++ value.text pools) :: elementTexts pools rest

end

def AnnotationBody.text (pools : Pools) (body : AnnotationBody) : String :=
  pools.describeRef body.type ++ " " ++ braced (elementTexts pools body.elements)

/-- The array on one line. -/
def EncodedArray.text (pools : Pools) (array : EncodedArray) : String :=
  let parts := array.slots.items.map fun slot =>
    (slot.map (EncodedValue.text pools)).getD "<placeholder>"
  "[" ++ ", ".intercalate parts ++ "]"

def EncodedArray.lines (pools : Pools) (array : EncodedArray) : Lines :=
  Lines.line (array.text pools)

def AnnotationItem.lines (pools : Pools) (item : AnnotationItem) : Lines :=
  Lines.line (".annotation " ++ item.visibility.name ++ " " ++ item.body.text pools)

/-- The annotations of a set that resolve. -/
def AnnotationSet.lines (pools : Pools) (set : AnnotationSet) : Lines :=
  (set.items.filterMap pools.resolve?).flatMap (AnnotationItem.lines pools)

namespace AnnotationsDirectory

/-- A heading with the annotations of a set below it, if the set resolves. -/
def setLines (pools : Pools) (ref : DataRef .annotationSet) : Lines :=
  match pools.resolve? ref with
  | some set => AnnotationSet.lines pools set
  | none => []

def parameterLines (pools : Pools) (entry : AnnotatedMember .methodId .annotationSetRefList) :
    Lines :=
  match pools.resolve? entry.annotations with
  | none => []
  | some list =>
    (AnnotationSetRefList.sets list).zipIdx.flatMap fun (ref, position) =>
      match pools.resolve? ref with
      | none => []
      | some set =>
        Lines.line ("# parameter p" ++ decimal position ++ " of " ++ pools.describeRef entry.member)
          ++ Lines.indent (AnnotationSet.lines pools set)

def lines (pools : Pools) (directory : AnnotationsDirectory) : Lines :=
  setLines pools directory.classSet
    ++ (directory.fields.flatMap fun entry =>
      Lines.line ("# field " ++ pools.describeRef entry.member)
        ++ Lines.indent (setLines pools entry.annotations))
    ++ (directory.methods.flatMap fun entry =>
      Lines.line ("# method " ++ pools.describeRef entry.member)
        ++ Lines.indent (setLines pools entry.annotations))
    ++ directory.parameters.flatMap (parameterLines pools)

end AnnotationsDirectory
end DexImage
