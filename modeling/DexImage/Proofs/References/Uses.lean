import DexImage.Proofs.References.Items
/-! # References that are present

The references that an item lists as its uses are those that stand in its places, in the same order
(`uses_itemHolding`). Those in an encoded array or in an annotation are listed under the usage of
the item. The slots shown to a visitor are those of all places (`slots_eq`).
-/

namespace DexImage

/-- The references in a form that are present. -/
def Places.uses {α : Type} (p : Places α) (x : α) : List Use := (p.held x).filterMap (·.slot.use?)

/-- A reference as the item that holds it lists it. -/
def Use.heldBy (use : Use) : PoolKind → Use
  | .annotationItem => { use with usage := .annotated }
  | .encodedArray => { use with usage := .staticValue }
  | _ => use

@[simp] theorem Use.kind_heldBy (use : Use) (holder : PoolKind) : (use.heldBy holder).kind = use.kind := by
  cases holder <;> rfl

@[simp] theorem Use.index_heldBy (use : Use) (holder : PoolKind) :
    (use.heldBy holder).index = use.index := by
  cases holder <;> rfl

namespace Holding

variable {α β : Type}

theorem uses_pair (first : Holding α) (second : Holding β) :
    (first.pair second).uses = fun x => first.uses x.1 ++ second.uses x.2 :=
  funext fun _ => List.filterMap_append

theorem uses_list (holding : Holding α) :
    holding.list.uses = fun items => items.flatMap holding.uses :=
  funext fun _ => List.filterMap_flatMap

theorem uses_part (holding : Holding β) {get : α → β} {put : α → β → α} (get_put put_put) :
    (holding.part get put get_put put_put).uses = fun x => holding.uses (get x) :=
  rfl

theorem uses_option (holding : Holding α) :
    holding.option.uses = fun x => (x.map holding.uses).getD [] := by
  funext x
  cases x <;> rfl

end Holding

section References

variable {target : PoolKind}

theorem IdRef.uses_holding (usage : Usage) :
    (IdRef.holding usage).uses = fun ref : IdRef target => (ref.use? usage).toList := by
  funext ⟨index⟩
  cases index <;> rfl

theorem DataRef.uses_holding (usage : Usage) :
    (DataRef.holding usage).uses = fun ref : DataRef target => (ref.use? usage).toList := by
  funext ref
  cases ref <;> rfl

end References

namespace EncodedValue

private theorem uses_scalar (value : Scalar) : Scalar.places.uses value = value.uses := by
  cases value with
  | methodType ref | string ref | type ref | field ref | enum ref | method ref =>
    exact congrFun (IdRef.uses_holding .unmarked) ref
  | _ => rfl

mutual

theorem uses_places : (value : EncodedValue) → places.uses value = value.uses
  | scalar value _ => uses_scalar value
  | array elements => uses_listPlaces elements
  | annotationBody type elements => by
    rw [EncodedValue.uses, ← uses_elementPlaces elements, ← congrFun (IdRef.uses_holding .unmarked) type]
    exact List.filterMap_append (l := [Held.id .typeId .unmarked type.index])
  | null => rfl
  | boolean _ => rfl

theorem uses_listPlaces :
    (elements : List EncodedValue) → listPlaces.uses elements = usesOfList elements
  | [] => rfl
  | value :: rest => by
    rw [usesOfList, ← uses_places value, ← uses_listPlaces rest]
    exact List.filterMap_append

theorem uses_elementPlaces : (elements : List (IdRef .stringId × EncodedValue)) →
    elementPlaces.uses elements = usesOfElements elements
  | [] => rfl
  | (name, value) :: rest => by
    rw [usesOfElements, ← uses_places value, ← uses_elementPlaces rest,
      ← congrFun (IdRef.uses_holding .unmarked) name, List.append_assoc]
    refine (List.filterMap_append (l := [Held.id .stringId .unmarked name.index])).trans ?_
    exact congrArg _ List.filterMap_append

end

theorem uses_holding : holding.uses = EncodedValue.uses := funext uses_places

end EncodedValue

theorem DefinedMethod.uses_holding : DefinedMethod.holding.uses = DefinedMethod.uses := by
  simp only [holding, Holding.uses_part, Holding.uses_pair, IdRef.uses_holding, DataRef.uses_holding]
  rfl

theorem DebugOp.uses_holding : DebugOp.holding.uses = DebugOp.uses := by
  funext op
  cases op with
  | startLocal register name type =>
    change ((IdRef.holding .debug).pair (IdRef.holding .debug)).uses (name, type) = _
    simp only [Holding.uses_pair, IdRef.uses_holding]
    rfl
  | startLocalExtended register name type signature =>
    change ((IdRef.holding .debug).pair ((IdRef.holding .debug).pair
      (IdRef.holding .debug))).uses (name, type, signature) = _
    simp only [Holding.uses_pair, IdRef.uses_holding, ← List.append_assoc]
    rfl
  | setFile name => exact congrFun (IdRef.uses_holding .debug) name
  | _ => rfl

theorem InstructionList.uses_holding : InstructionList.holding.uses = uses := by
  funext list
  simp only [uses, holding, held, Places.uses, Places.list, List.filterMap_flatMap]
  refine List.flatMap_congr fun instruction _ => ?_
  simp only [Instruction.places, List.filterMap_map]
  exact congrFun List.filterMap_eq_map instruction.refs

theorem HandlerList.uses_holding : HandlerList.holding.uses = uses := by
  funext list
  simp only [uses, List.filterMap_eq_flatMap_toList, holding, Holding.uses_part, Holding.uses_list]
  refine List.flatMap_congr fun handler _ => ?_
  cases handler with
  | typed type _ => exact congrFun (IdRef.uses_holding .caught) type
  | catchAll _ => rfl

theorem TryTable.uses_holding : TryTable.holding.uses = uses := by
  simp only [holding, Holding.uses_part, Holding.uses_list, HandlerList.uses_holding]
  rfl

theorem CodeItem.uses_holding : CodeItem.holding.uses = uses := by
  simp only [holding, Holding.uses_part, Holding.uses_pair, Holding.uses_option, DataRef.uses_holding,
    InstructionList.uses_holding, TryTable.uses_holding, ← List.append_assoc]
  rfl

theorem AnnotatedMember.uses_holding {member target : PoolKind} :
    (@holding member target).uses = AnnotatedMember.uses := by
  simp only [holding, Holding.uses_part, Holding.uses_pair, IdRef.uses_holding, DataRef.uses_holding]
  rfl

theorem AnnotationBody.uses_holding : AnnotationBody.holding.uses = uses := by
  simp only [holding, Holding.uses_part, Holding.uses_pair, IdRef.uses_holding,
    funext EncodedValue.uses_elementPlaces]
  rfl

theorem EncodedArray.uses_holding (array : EncodedArray) :
    taggedUses .staticValue (holding.uses array) = uses array := by
  simp only [uses, holding, Holding.uses_part, Holding.uses_list, taggedUses, List.map_flatMap,
    List.filterMap_eq_flatMap_toList, List.flatMap_assoc]
  refine List.flatMap_congr fun slot _ => ?_
  cases slot with
  | none => rfl
  | some value =>
    refine Eq.trans ?_ (List.flatMap_singleton _ value).symm
    simp only [Holding.uses_option, Option.map_some, Option.getD_some, EncodedValue.uses_holding]

/-- The references that an item lists are those that stand in its places. -/
theorem uses_itemHolding {kind : PoolKind} (item : Item kind) :
    uses item = ((itemHolding kind).uses item).map (·.heldBy kind) := by
  cases kind with
  | stringId => rfl
  | annotationItem =>
    change taggedUses .annotated (uses item.body) = taggedUses .annotated (AnnotationBody.holding.uses item.body)
    rw [AnnotationBody.uses_holding]
  | encodedArray => exact (EncodedArray.uses_holding item).symm
  | code => simp only [Use.heldBy, List.map_id_fun', id, itemHolding, CodeItem.uses_holding]
  | typeId | protoId | fieldId | methodId | classDef | typeList | annotationSetRefList
  | annotationSet | classData | debugInfo | annotationsDirectory =>
    simp only [Use.heldBy, List.map_id_fun', id, itemHolding, TypeId.holding, ProtoId.holding,
      FieldId.holding, MethodId.holding, ClassDef.holding, TypeList.holding,
      AnnotationSetRefList.holding, AnnotationSet.holding, ClassData.holding, DefinedField.holding,
      DefinedMethod.uses_holding, DebugInfo.holding, AnnotationsDirectory.holding,
      Holding.uses_part, Holding.uses_pair, Holding.uses_list, IdRef.uses_holding, DataRef.uses_holding,
      AnnotatedMember.uses_holding, DebugOp.uses_holding, ← List.filterMap_eq_flatMap_toList]
    simp only [uses, ClassData.fields, ClassData.methods, List.filterMap_append,
      List.flatMap_append, List.append_assoc]

section Slots

private theorem visitAll_record (held : List Held) (found : List Slot) :
    visitAll (Held.visit fun slot => do
        modify fun found => slot :: found
        return .keep) held found = (held, (held.map Held.slot).reverse ++ found) := by
  induction held generalizing found with
  | nil => rfl
  | cons one rest ih =>
    rw [visitAll_cons]
    have kept : one.edited .keep = one := by cases one <;> rfl
    change (let run := visitAll _ rest (one.slot :: found)
      ((one.edited .keep :: run.1, run.2) : List Held × List Slot)) = _
    rw [ih, kept]
    simp

/-- The slots of an item are those of its places. -/
theorem slots_eq {kind : PoolKind} (item : Item kind) :
    slots item = ((itemHolding kind).held item).map Held.slot := by
  rw [slots, ← visit_itemHolding]
  change (visitAll _ ((itemHolding kind).held item) []).2.reverse = _
  rw [visitAll_record]
  simp

theorem EncodedValue.slots_eq (value : EncodedValue) : slots value = value.held.map Held.slot := by
  rw [slots]
  change (value.visit _ []).2.reverse = _
  rw [← visit_holding]
  change (visitAll _ value.held []).2.reverse = _
  rw [visitAll_record]
  simp

/-- The references that an item lists are those of its slots that are present. -/
theorem uses_eq_slots {kind : PoolKind} (item : Item kind) :
    uses item = ((slots item).filterMap Slot.use?).map (·.heldBy kind) := by
  rw [uses_itemHolding, slots_eq, List.filterMap_map]
  rfl

end Slots
end DexImage
