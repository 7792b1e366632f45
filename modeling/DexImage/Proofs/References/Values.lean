import DexImage.Item.Annotations
import DexImage.Item.EncodedArray
import DexImage.Proofs.References.Held
/-! # References in values

The places for references in scalars, encoded values, annotation bodies and encoded arrays. The
nesting of values is followed by one case for each shape.
-/

namespace DexImage

variable {σ : Type}

namespace Scalar

def held : Scalar → List Held
  | methodType ref => [.id .protoId .unmarked ref.index]
  | string ref => [.id .stringId .unmarked ref.index]
  | type ref => [.id .typeId .unmarked ref.index]
  | field ref | enum ref => [.id .fieldId .unmarked ref.index]
  | method ref => [.id .methodId .unmarked ref.index]
  | _ => []

def fill (value : Scalar) (new : List Held) : Scalar :=
  match value with
  | methodType ref => methodType ((IdRef.holding .unmarked).fill ref new)
  | string ref => string ((IdRef.holding .unmarked).fill ref new)
  | type ref => type ((IdRef.holding .unmarked).fill ref new)
  | field ref => field ((IdRef.holding .unmarked).fill ref new)
  | enum ref => enum ((IdRef.holding .unmarked).fill ref new)
  | method ref => method ((IdRef.holding .unmarked).fill ref new)
  | other => other

def places : Places Scalar := ⟨held, fill⟩

theorem lawfulAt (value : Scalar) : places.LawfulAt value := by
  cases value with
  | methodType ref => exact .wrap methodType (fun _ => rfl) (fun _ _ => rfl) ((IdRef.holding _).lawful ref)
  | string ref => exact .wrap string (fun _ => rfl) (fun _ _ => rfl) ((IdRef.holding _).lawful ref)
  | type ref => exact .wrap type (fun _ => rfl) (fun _ _ => rfl) ((IdRef.holding _).lawful ref)
  | field ref => exact .wrap field (fun _ => rfl) (fun _ _ => rfl) ((IdRef.holding _).lawful ref)
  | enum ref => exact .wrap enum (fun _ => rfl) (fun _ _ => rfl) ((IdRef.holding _).lawful ref)
  | method ref => exact .wrap method (fun _ => rfl) (fun _ _ => rfl) ((IdRef.holding _).lawful ref)
  | _ => exact .bare rfl fun _ => rfl

private theorem visit_ref {target : PoolKind} (wrap : IdRef target → Scalar)
    (held_wrap : ∀ ref, held (wrap ref) = [.id target .unmarked ref.index])
    (fill_wrap : ∀ ref new, fill (wrap ref) new = wrap ((IdRef.holding .unmarked).fill ref new))
    (visitor : Visitor σ) (ref : IdRef target) :
    places.visit visitor (wrap ref) = (do return wrap (← ref.visit visitor .unmarked)) := by
  rw [← IdRef.visit_holding]
  exact Places.visit_wrap wrap held_wrap fill_wrap visitor ref

theorem visit_places (visitor : Visitor σ) (value : Scalar) :
    value.visit visitor = places.visit visitor value := by
  cases value with
  | methodType ref => exact (visit_ref methodType (fun _ => rfl) (fun _ _ => rfl) visitor ref).symm
  | string ref => exact (visit_ref string (fun _ => rfl) (fun _ _ => rfl) visitor ref).symm
  | type ref => exact (visit_ref type (fun _ => rfl) (fun _ _ => rfl) visitor ref).symm
  | field ref => exact (visit_ref field (fun _ => rfl) (fun _ _ => rfl) visitor ref).symm
  | enum ref => exact (visit_ref enum (fun _ => rfl) (fun _ _ => rfl) visitor ref).symm
  | method ref => exact (visit_ref method (fun _ => rfl) (fun _ _ => rfl) visitor ref).symm
  | _ => exact (Places.visit_bare rfl (fun _ => rfl) visitor).symm

end Scalar

namespace EncodedValue

mutual

def held : EncodedValue → List Held
  | scalar value _ => value.held
  | array elements => heldList elements
  | annotationBody type elements => .id .typeId .unmarked type.index :: heldElements elements
  | null | boolean _ => []

def heldList : List EncodedValue → List Held
  | [] => []
  | value :: rest => value.held ++ heldList rest

def heldElements : List (IdRef .stringId × EncodedValue) → List Held
  | [] => []
  | (name, value) :: rest => .id .stringId .unmarked name.index :: (value.held ++ heldElements rest)

end

mutual

def fill : EncodedValue → List Held → EncodedValue
  | scalar value width, new => scalar (value.fill new) width
  | array elements, new => array (fillList elements new)
  | annotationBody type elements, new =>
    annotationBody ((IdRef.holding .unmarked).fill type (new.take 1)) (fillElements elements (new.drop 1))
  | null, _ => null
  | boolean value, _ => boolean value

def fillList : List EncodedValue → List Held → List EncodedValue
  | [], _ => []
  | value :: rest, new =>
    value.fill (new.take value.held.length) :: fillList rest (new.drop value.held.length)

def fillElements : List (IdRef .stringId × EncodedValue) → List Held →
    List (IdRef .stringId × EncodedValue)
  | [], _ => []
  | (name, value) :: rest, new =>
    ((IdRef.holding .unmarked).fill name (new.take 1),
        value.fill ((new.drop 1).take value.held.length)) ::
      fillElements rest ((new.drop 1).drop value.held.length)

end

def places : Places EncodedValue := ⟨held, fill⟩

def listPlaces : Places (List EncodedValue) := ⟨heldList, fillList⟩

def elementPlaces : Places (List (IdRef .stringId × EncodedValue)) := ⟨heldElements, fillElements⟩

/-- The places of a value and of the named values after it. -/
private def restPlaces : Places (EncodedValue × List (IdRef .stringId × EncodedValue)) where
  held rest := rest.1.held ++ heldElements rest.2
  fill rest new :=
    (rest.1.fill (new.take rest.1.held.length), fillElements rest.2 (new.drop rest.1.held.length))

mutual

theorem lawfulAt : (value : EncodedValue) → places.LawfulAt value
  | scalar value width =>
    .wrap (p := Scalar.places) (scalar · width) (fun _ => rfl) (fun _ _ => rfl) value.lawfulAt
  | array elements => .wrap (p := listPlaces) array (fun _ => rfl) (fun _ _ => rfl) (lawfulAt_list elements)
  | annotationBody type elements =>
    .join (q := elementPlaces) annotationBody (fun _ _ => rfl) (fun _ _ _ => rfl)
      ((IdRef.holding .unmarked).lawful type) (lawfulAt_elements elements)
  | null => .bare rfl fun _ => rfl
  | boolean _ => .bare rfl fun _ => rfl

theorem lawfulAt_list : (elements : List EncodedValue) → listPlaces.LawfulAt elements
  | [] => .bare rfl fun _ => rfl
  | value :: rest => 
    .join (p := places) (q := listPlaces) List.cons (fun _ _ => rfl) (fun _ _ _ => rfl) value.lawfulAt
      (lawfulAt_list rest)

theorem lawfulAt_elements : (elements : List (IdRef .stringId × EncodedValue)) →
    elementPlaces.LawfulAt elements
  | [] => .bare rfl fun _ => rfl
  | (name, value) :: rest =>
    .join (q := restPlaces) (fun name rest => (name, rest.1) :: rest.2)
      (fun _ _ => rfl) (fun _ _ _ => rfl) ((IdRef.holding .unmarked).lawful name)
      (.join (p := places) (q := elementPlaces) Prod.mk (fun _ _ => rfl)
        (fun _ _ _ => rfl) value.lawfulAt (lawfulAt_elements rest))

end

mutual

theorem visit_places (visitor : Visitor σ) :
    (value : EncodedValue) → value.visit visitor = places.visit visitor value
  | scalar value width => by
    rw [EncodedValue.visit, Scalar.visit_places]
    exact (Places.visit_wrap (p := Scalar.places) (scalar · width) (fun _ => rfl) (fun _ _ => rfl) visitor value).symm
  | array elements => by
    rw [EncodedValue.visit, visitList_places]
    exact (Places.visit_wrap (p := listPlaces) array (fun _ => rfl) (fun _ _ => rfl) visitor elements).symm
  | annotationBody type elements => by
    rw [EncodedValue.visit, visitElements_places, ← IdRef.visit_holding]
    exact (Places.visit_join (q := elementPlaces) annotationBody
      (fun _ _ => rfl) (fun _ _ _ => rfl) visitor type elements).symm
  | null => (Places.visit_bare rfl (fun _ => rfl) visitor).symm
  | boolean _ => (Places.visit_bare rfl (fun _ => rfl) visitor).symm

theorem visitList_places (visitor : Visitor σ) : (elements : List EncodedValue) →
    visitList visitor elements = listPlaces.visit visitor elements
  | [] => (Places.visit_bare rfl (fun _ => rfl) visitor).symm
  | value :: rest => by
    rw [visitList, visit_places visitor value, visitList_places visitor rest]
    exact (Places.visit_join (p := places) (q := listPlaces) List.cons
      (fun _ _ => rfl) (fun _ _ _ => rfl) visitor value rest).symm

theorem visitElements_places (visitor : Visitor σ) :
    (elements : List (IdRef .stringId × EncodedValue)) →
      visitElements visitor elements = elementPlaces.visit visitor elements
  | [] => (Places.visit_bare rfl (fun _ => rfl) visitor).symm
  | (name, value) :: rest => by
    rw [visitElements, visit_places visitor value, visitElements_places visitor rest,
      ← IdRef.visit_holding]
    refine Eq.symm ((Places.visit_join (q := restPlaces)
      (fun name rest => (name, rest.1) :: rest.2) (fun _ _ => rfl) (fun _ _ _ => rfl) visitor name
      (value, rest)).trans ?_)
    rw [show restPlaces.visit visitor (value, rest) = _ from
      Places.visit_join (p := places) (q := elementPlaces) Prod.mk
        (fun _ _ => rfl) (fun _ _ _ => rfl) visitor value rest]
    simp only [bind_assoc, pure_bind]

end

def holding : Holding EncodedValue := ⟨places, lawfulAt⟩

theorem visit_holding (visitor : Visitor σ) (value : EncodedValue) :
    holding.visit visitor value = visit visitor value :=
  (visit_places visitor value).symm

end EncodedValue

namespace AnnotationBody

def holding : Holding AnnotationBody :=
  ((IdRef.holding .unmarked).pair
      ⟨EncodedValue.elementPlaces, EncodedValue.lawfulAt_elements⟩).part
    (fun body => (body.type, body.elements)) (fun _ part => ⟨part.1, part.2⟩)

theorem visit_holding (visitor : Visitor σ) (body : AnnotationBody) :
    holding.visit visitor body = DexImage.visit visitor body := by
  simp only [holding, Holding.visit_part, Holding.visit_pair, IdRef.visit_holding, bind_assoc, pure_bind]
  simp only [DexImage.visit, Referring.visit, EncodedValue.visitElements_places]

end AnnotationBody

namespace AnnotationItem

def holding : Holding AnnotationItem :=
  AnnotationBody.holding.part body fun item body => { item with body }

theorem visit_holding (visitor : Visitor σ) (item : AnnotationItem) :
    holding.visit visitor item = DexImage.visit visitor item := by
  simp only [holding, Holding.visit_part, AnnotationBody.visit_holding]
  rfl

end AnnotationItem

namespace EncodedArray

/-- A pass over an encoded array leaves it marked as edited. -/
def holding : Holding EncodedArray :=
  EncodedValue.holding.option.list.part (fun array => array.slots.items) fun _ items => ⟨⟨items, true⟩⟩

theorem visit_holding (visitor : Visitor σ) (array : EncodedArray) :
    holding.visit visitor array = DexImage.visit visitor array := by
  rw [holding, Holding.visit_part, Holding.visit_list]
  change (do return ⟨⟨← _, true⟩⟩ : StateM σ EncodedArray) = (do return ⟨⟨← _, true⟩⟩)
  congr 1
  refine visitAll_congr fun slot _ => ?_
  rw [Holding.visit_option]
  cases slot with
  | none => rfl
  | some value => simp only [EncodedValue.visit_holding, map_eq_pure_bind]

end EncodedArray
end DexImage
