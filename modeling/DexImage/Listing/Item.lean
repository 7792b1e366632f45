import DexImage.Listing.Code
import DexImage.Listing.Value
/-! # Listings of items

The kinds of item that have a readable form of their own.
-/

namespace DexImage

/-- The readable form of an item, for the kinds that have one. -/
def itemLines? (pools : Pools) : (kind : PoolKind) → Item kind → Option Text.Lines
  | .annotationSet, set => some (AnnotationSet.lines pools set)
  | .classData, data => some (ClassData.lines pools data)
  | .code, code => some (CodeItem.lines pools code)
  | .debugInfo, info => some (DebugInfo.lines pools info)
  | .annotationItem, item => some (AnnotationItem.lines pools item)
  | .encodedArray, array => some (EncodedArray.lines pools array)
  | .annotationsDirectory, directory => some (AnnotationsDirectory.lines pools directory)
  | _, _ => none

end DexImage
