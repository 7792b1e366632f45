import DexImage.Item.Ids
import DexImage.Value.Basic
/-! # Annotations

Annotation items, the sets and lists that point at them, and the directory that assigns sets to
a class, its fields, its methods and the parameters of its methods.
-/

namespace DexImage

/-- When an annotation is visible. -/
inductive Visibility where
  | build
  | runtime
  | system
  | other (code : UInt8)
deriving DecidableEq, Repr

namespace Visibility

def ofCode (code : UInt8) : Visibility :=
  if code = 0 then build else if code = 1 then runtime else if code = 2 then system else other code

def code : Visibility → UInt8
  | build => 0
  | runtime => 1
  | system => 2
  | other code => code

theorem code_ofCode (code : UInt8) : (ofCode code).code = code := by
  unfold ofCode
  by_cases zero : code = 0
  · simp [zero, Visibility.code]
  · by_cases one : code = 1
    · simp [one, Visibility.code]
    · by_cases two : code = 2 <;> simp [zero, one, two, Visibility.code]

def name : Visibility → String
  | build => "build"
  | runtime => "runtime"
  | system => "system"
  | other code => "0x" ++ Text.hexPadded 2 code.toNat

end Visibility

structure AnnotationItem where
  visibility : Visibility
  body : AnnotationBody
deriving BEq, Repr

namespace AnnotationItem

instance : Encodable AnnotationItem where
  encodedSize item := 1 + encodedSize item.body
  encode item := do
    return item.visibility.code :: (← encode item.body)
  refresh item := { item with body := item.body.sorted }
  isDirty _ := false

instance : Referring AnnotationItem where
  uses item := taggedUses .annotated (uses item.body)
  visit visitor item := do
    return { item with body := ← visit visitor item.body }

def decode : Decoder AnnotationItem := do
  let code ← Decoder.u1
  return ⟨.ofCode code, ← AnnotationBody.decode⟩

end AnnotationItem

/-- A counted list of offsets. -/
def encodeOffsets {target : PoolKind} (refs : List (DataRef target)) : Result Bytes := do
  return Bytes.ofCount refs.length ++ (← encodeAll DataRef.encodeWord refs)

/-- Annotations of one annotated thing, to be ordered by annotation type. -/
structure AnnotationSet where
  items : List (DataRef .annotationItem)
deriving BEq, Repr

namespace AnnotationSet

def ofIndices (indices : List UInt32) : AnnotationSet := ⟨indices.map .unplaced⟩

instance : Encodable AnnotationSet where
  encodedSize set := 4 + 4 * set.items.length
  encode set := encodeOffsets set.items
  refresh set := set
  isDirty _ := false

instance : Referring AnnotationSet where
  uses set := set.items.filterMap (·.use? .annotated)
  visit visitor set := do
    return ⟨← visitAll (DataRef.visit visitor .annotated) set.items⟩

end AnnotationSet

/-- The annotation sets of a method's parameters, which may be absent. -/
structure AnnotationSetRefList where
  sets : List (DataRef .annotationSet)
deriving BEq, Repr

namespace AnnotationSetRefList

instance : Encodable AnnotationSetRefList where
  encodedSize list := 4 + 4 * list.sets.length
  encode list := encodeOffsets list.sets
  refresh list := list
  isDirty _ := false

instance : Referring AnnotationSetRefList where
  uses list := list.sets.filterMap (·.use? .annotated)
  visit visitor list := do
    return ⟨← visitAll (DataRef.visit visitor .annotated) list.sets⟩

end AnnotationSetRefList

/-- A member of a class and where its annotations are. -/
structure AnnotatedMember (member target : PoolKind) where
  member : IdRef member
  annotations : DataRef target
deriving BEq, Repr

namespace AnnotatedMember

variable {member target : PoolKind}

def encode (entry : AnnotatedMember member target) : Result Bytes := do
  return (← entry.member.encodeWord) ++ (← entry.annotations.encodeWord)

def uses (entry : AnnotatedMember member target) : List Use :=
  (entry.member.use? .annotated).toList ++ (entry.annotations.use? .annotated).toList

def visit {σ : Type} (visitor : Visitor σ) (entry : AnnotatedMember member target) :
    StateM σ (AnnotatedMember member target) := do
  let member ← entry.member.visit visitor .annotated
  return ⟨member, ← entry.annotations.visit visitor .annotated⟩

/-- The entries ordered by member index; entries of one member keep their order. -/
def sort (entries : List (AnnotatedMember member target)) : List (AnnotatedMember member target) :=
  entries.mergeSort fun a b => a.member.raw ≤ b.member.raw

end AnnotatedMember

structure AnnotationsDirectory where
  classSet : DataRef .annotationSet
  fields : List (AnnotatedMember .fieldId .annotationSet)
  methods : List (AnnotatedMember .methodId .annotationSet)
  parameters : List (AnnotatedMember .methodId .annotationSetRefList)
deriving BEq, Repr

namespace AnnotationsDirectory

def isEmpty (directory : AnnotationsDirectory) : Bool :=
  !directory.classSet.isPresent && directory.fields.isEmpty && directory.methods.isEmpty
    && directory.parameters.isEmpty

instance : Encodable AnnotationsDirectory where
  encodedSize directory :=
    16 + 8 * (directory.fields.length + directory.methods.length + directory.parameters.length)
  encode directory := do
    return (← directory.classSet.encodeWord) ++ Bytes.ofCount directory.fields.length
      ++ Bytes.ofCount directory.methods.length ++ Bytes.ofCount directory.parameters.length
      ++ (← encodeAll AnnotatedMember.encode directory.fields)
      ++ (← encodeAll AnnotatedMember.encode directory.methods)
      ++ (← encodeAll AnnotatedMember.encode directory.parameters)
  refresh directory :=
    { directory with
      fields := AnnotatedMember.sort directory.fields
      methods := AnnotatedMember.sort directory.methods
      parameters := AnnotatedMember.sort directory.parameters }
  isDirty _ := false

instance : Referring AnnotationsDirectory where
  uses directory :=
    (directory.classSet.use? .annotated).toList
      ++ directory.fields.flatMap AnnotatedMember.uses
      ++ directory.methods.flatMap AnnotatedMember.uses
      ++ directory.parameters.flatMap AnnotatedMember.uses
  visit visitor directory := do
    let classSet ← directory.classSet.visit visitor .annotated
    let fields ← visitAll (AnnotatedMember.visit visitor) directory.fields
    let methods ← visitAll (AnnotatedMember.visit visitor) directory.methods
    let parameters ← visitAll (AnnotatedMember.visit visitor) directory.parameters
    return { classSet, fields, methods, parameters }

end AnnotationsDirectory
end DexImage
