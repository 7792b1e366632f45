import DexImage.Image.Basic
import DexImage.Listing.Item
/-! # Listings of images

The readable form of a whole image: the header and then every class definition.
-/

namespace DexImage

open Text

def ClassDef.lines (pools : Pools) (definition : ClassDef) : Lines :=
  let interfaces := match pools.resolve? definition.interfaces with
    | some list => TypeList.types list
    | none => []
  Lines.line (memberHeading ".class" definition.access false (pools.describeRef definition.type))
    ++ (if definition.superclass.isPresent then
        Lines.line (".super " ++ pools.describeRef definition.superclass) else [])
    ++ (if definition.sourceFile.isPresent then
        Lines.line (".source " ++ pools.describeRef definition.sourceFile) else [])
    ++ (interfaces.flatMap fun type => Lines.line (".implements " ++ pools.describeRef type))
    ++ (match pools.resolve? definition.annotations with
      | some directory => AnnotationsDirectory.lines pools directory
      | none => [])
    ++ (match pools.resolve? definition.staticValues with
      | some array => Lines.line (".static-values " ++ EncodedArray.text pools array)
      | none => [])
    ++ match pools.resolve? definition.classData with
      | some data => ClassData.lines pools data
      | none => []

def Image.lines (image : Image) : Lines :=
  image.header.lines
    ++ image.pools.classDefs.items.flatMap fun definition =>
      Lines.blank ++ definition.lines image.pools

end DexImage
