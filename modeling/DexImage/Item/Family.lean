import DexImage.Item.Annotations
import DexImage.Item.ClassData
import DexImage.Item.Code
import DexImage.Item.DebugInfo
import DexImage.Item.EncodedArray
import DexImage.Item.Ids
import DexImage.Item.StringData
/-! # The items of each pool

The type of the items of every pool kind, with what all of them have in common: an encoding, a
way to be brought up to date, references and a comparison.
-/

namespace DexImage

abbrev Item : PoolKind → Type
  | .stringId => StringData
  | .typeId => TypeId
  | .protoId => ProtoId
  | .fieldId => FieldId
  | .methodId => MethodId
  | .classDef => ClassDef
  | .typeList => TypeList
  | .annotationSetRefList => AnnotationSetRefList
  | .annotationSet => AnnotationSet
  | .classData => ClassData
  | .code => CodeItem
  | .debugInfo => DebugInfo
  | .annotationItem => AnnotationItem
  | .encodedArray => EncodedArray
  | .annotationsDirectory => AnnotationsDirectory

instance itemEncodable : (kind : PoolKind) → Encodable (Item kind)
  | .stringId => inferInstanceAs (Encodable StringData)
  | .typeId => inferInstanceAs (Encodable TypeId)
  | .protoId => inferInstanceAs (Encodable ProtoId)
  | .fieldId => inferInstanceAs (Encodable FieldId)
  | .methodId => inferInstanceAs (Encodable MethodId)
  | .classDef => inferInstanceAs (Encodable ClassDef)
  | .typeList => inferInstanceAs (Encodable TypeList)
  | .annotationSetRefList => inferInstanceAs (Encodable AnnotationSetRefList)
  | .annotationSet => inferInstanceAs (Encodable AnnotationSet)
  | .classData => inferInstanceAs (Encodable ClassData)
  | .code => inferInstanceAs (Encodable CodeItem)
  | .debugInfo => inferInstanceAs (Encodable DebugInfo)
  | .annotationItem => inferInstanceAs (Encodable AnnotationItem)
  | .encodedArray => inferInstanceAs (Encodable EncodedArray)
  | .annotationsDirectory => inferInstanceAs (Encodable AnnotationsDirectory)

instance itemReferring : (kind : PoolKind) → Referring (Item kind)
  | .stringId => inferInstanceAs (Referring StringData)
  | .typeId => inferInstanceAs (Referring TypeId)
  | .protoId => inferInstanceAs (Referring ProtoId)
  | .fieldId => inferInstanceAs (Referring FieldId)
  | .methodId => inferInstanceAs (Referring MethodId)
  | .classDef => inferInstanceAs (Referring ClassDef)
  | .typeList => inferInstanceAs (Referring TypeList)
  | .annotationSetRefList => inferInstanceAs (Referring AnnotationSetRefList)
  | .annotationSet => inferInstanceAs (Referring AnnotationSet)
  | .classData => inferInstanceAs (Referring ClassData)
  | .code => inferInstanceAs (Referring CodeItem)
  | .debugInfo => inferInstanceAs (Referring DebugInfo)
  | .annotationItem => inferInstanceAs (Referring AnnotationItem)
  | .encodedArray => inferInstanceAs (Referring EncodedArray)
  | .annotationsDirectory => inferInstanceAs (Referring AnnotationsDirectory)

instance itemBEq : (kind : PoolKind) → BEq (Item kind)
  | .stringId => inferInstanceAs (BEq StringData)
  | .typeId => inferInstanceAs (BEq TypeId)
  | .protoId => inferInstanceAs (BEq ProtoId)
  | .fieldId => inferInstanceAs (BEq FieldId)
  | .methodId => inferInstanceAs (BEq MethodId)
  | .classDef => inferInstanceAs (BEq ClassDef)
  | .typeList => inferInstanceAs (BEq TypeList)
  | .annotationSetRefList => inferInstanceAs (BEq AnnotationSetRefList)
  | .annotationSet => inferInstanceAs (BEq AnnotationSet)
  | .classData => inferInstanceAs (BEq ClassData)
  | .code => inferInstanceAs (BEq CodeItem)
  | .debugInfo => inferInstanceAs (BEq DebugInfo)
  | .annotationItem => inferInstanceAs (BEq AnnotationItem)
  | .encodedArray => inferInstanceAs (BEq EncodedArray)
  | .annotationsDirectory => inferInstanceAs (BEq AnnotationsDirectory)

end DexImage
