import DexImage.Copying
import DexImage.Proofs.References.Uses
/-! # Items that are alike

Two items are alike when they have the same form and the same slots. They then hold the same, apart
from edit marks and from the offsets known for data items, which is what the comparison of shared
items goes by (`alike_of_beq`). Operands stand in code alone (`plain_of_ne_code`).
-/

namespace DexImage
namespace Holding

variable {α β : Type}

theorem form_pair (first : Holding α) (second : Holding β) (x : α × β) :
    (first.pair second).form x = (first.form x.1, second.form x.2) := by
  have length : (first.held x.1).length = ((first.held x.1).map Held.blank).length := by simp
  simp only [form, pair, List.map_append]
  rw [length, List.take_left, List.drop_left]

theorem form_list (holding : Holding α) (items : List α) :
    holding.list.form items = items.map holding.form := by
  induction items with
  | nil => rfl
  | cons x rest ih =>
    have length : (holding.held x).length = ((holding.held x).map Held.blank).length := by simp
    simp only [form, list, Places.list, Places.fillMembers, List.flatMap_cons, List.map_append,
      List.map_cons] at ih ⊢
    rw [length, List.take_left, List.drop_left, ih]

theorem form_part (holding : Holding β) {get : α → β} {put : α → β → α} (get_put put_put) (x : α) :
    (holding.part get put get_put put_put).form x = put x (holding.form (get x)) :=
  rfl

theorem form_option (holding : Holding α) (x : Option α) : holding.option.form x = x.map holding.form := by
  cases x <;> rfl

/-- Forms that hold the same, apart from edit marks and the offsets known for data items. -/
structure Alike (holding : Holding α) (a b : α) : Prop where
  form : holding.form a = holding.form b
  slots : (holding.held a).map Held.slot = (holding.held b).map Held.slot

theorem Alike.refl (holding : Holding α) (a : α) : holding.Alike a a := ⟨rfl, rfl⟩

theorem Alike.trans {holding : Holding α} {a b c : α} (first : holding.Alike a b)
    (second : holding.Alike b c) : holding.Alike a c :=
  ⟨first.form.trans second.form, first.slots.trans second.slots⟩

theorem Alike.pair {first : Holding α} {second : Holding β} {a b : α × β}
    (left : first.Alike a.1 b.1) (right : second.Alike a.2 b.2) : (first.pair second).Alike a b where
  form := by rw [form_pair, form_pair, left.form, right.form]
  slots := by
    change (first.held a.1 ++ second.held a.2).map _ = (first.held b.1 ++ second.held b.2).map _
    rw [List.map_append, List.map_append, left.slots, right.slots]

theorem Alike.list {holding : Holding α} {as bs : List α} (members : List.Forall₂ holding.Alike as bs) :
    holding.list.Alike as bs := by
  induction members with
  | nil => exact .refl _ _
  | cons head _ ih =>
    refine ⟨?_, ?_⟩
    · rw [form_list, form_list, List.map_cons, List.map_cons, head.form, ← form_list, ← form_list, ih.form]
    · have rest := ih.slots
      simp only [Holding.list, Places.list, List.flatMap_cons, List.map_append] at rest ⊢
      rw [head.slots, rest]

theorem Alike.part {holding : Holding β} {get : α → β} {put : α → β → α} {get_put put_put} {a b : α}
    (same : ∀ part, put a part = put b part) (alike : holding.Alike (get a) (get b)) :
    (holding.part get put get_put put_put).Alike a b where
  form := by rw [form_part, form_part, alike.form, same]
  slots := alike.slots

end Holding

theorem DataRef.alike_of_beq {target : PoolKind} {a b : DataRef target} (same : (a == b) = true)
    (usage : Usage) : (DataRef.holding usage).Alike a b := by
  have index : a.index = b.index := eq_of_beq same
  refine ⟨rfl, ?_⟩
  change [Held.slot (.data target usage a.state)] = [Held.slot (.data target usage b.state)]
  simp only [Held.slot, Held.kind, Held.index, Held.usage, ← DataRef.index_eq, index]

theorem forall₂_of_beq {α : Type} [BEq α] {R : α → α → Prop}
    (related : ∀ a b : α, (a == b) = true → R a b) {as bs : List α} (same : (as == bs) = true) :
    List.Forall₂ R as bs := by
  induction as generalizing bs with
  | nil =>
    cases bs with
    | nil => exact .nil
    | cons => cases same
  | cons a as ih =>
    cases bs with
    | nil => cases same
    | cons b bs =>
      obtain ⟨head, rest⟩ := Bool.and_eq_true_iff.mp same
      exact .cons (related a b head) (ih rest)

namespace EncodedValue

mutual

theorem eq_of_beq : (a b : EncodedValue) → a.beq b = true → a = b
  | scalar a v, scalar b w, same => by
    simp only [beq, Bool.and_eq_true, beq_iff_eq] at same
    rw [same.1, same.2]
  | array xs, array ys, same => by rw [eq_of_beqList xs ys (by simpa [beq] using same)]
  | annotationBody a xs, annotationBody b ys, same => by
    simp only [beq, Bool.and_eq_true, beq_iff_eq] at same
    rw [same.1, eq_of_beqElements xs ys same.2]
  | null, null, _ => rfl
  | boolean a, boolean b, same => by
    simp only [beq, beq_iff_eq] at same
    rw [same]

theorem eq_of_beqList : (xs ys : List EncodedValue) → beqList xs ys = true → xs = ys
  | [], [], _ => rfl
  | x :: xs, y :: ys, same => by
    simp only [beqList, Bool.and_eq_true] at same
    rw [eq_of_beq x y same.1, eq_of_beqList xs ys same.2]

theorem eq_of_beqElements : (xs ys : List (IdRef .stringId × EncodedValue)) →
    beqElements xs ys = true → xs = ys
  | [], [], _ => rfl
  | (m, x) :: xs, (n, y) :: ys, same => by
    simp only [beqElements, Bool.and_eq_true, beq_iff_eq] at same
    rw [same.1.1, eq_of_beq x y same.1.2, eq_of_beqElements xs ys same.2]

end

mutual

theorem beq_self : (value : EncodedValue) → value.beq value = true
  | scalar value width => by simp only [beq, beq_self_eq_true, Bool.and_self]
  | array elements => by rw [beq, beqList_self elements]
  | annotationBody type elements => by rw [beq, beqElements_self elements, beq_self_eq_true, Bool.and_self]
  | null => rfl
  | boolean value => by rw [beq, beq_self_eq_true]

theorem beqList_self : (values : List EncodedValue) → beqList values values = true
  | [] => rfl
  | value :: rest => by rw [beqList, beq_self value, beqList_self rest, Bool.and_self]

theorem beqElements_self : (elements : List (IdRef .stringId × EncodedValue)) →
    beqElements elements elements = true
  | [] => rfl
  | (name, value) :: rest => by
    rw [beqElements, beq_self value, beqElements_self rest, beq_self_eq_true, Bool.and_self, Bool.and_self]

end

instance : DecidableEq EncodedValue := fun a b =>
  decidable_of_iff (a.beq b = true) ⟨eq_of_beq a b, fun same => same ▸ beq_self a⟩

end EncodedValue

/-- Protos are compared by the indices that they hold. -/
theorem ProtoId.beq_iff {one other : ProtoId} : (one == other) = true ↔ one.shorty = other.shorty ∧
    one.returnType = other.returnType ∧ one.parameters.index = other.parameters.index := by
  obtain ⟨shorty, returnType, parameters⟩ := one
  obtain ⟨shorty', returnType', parameters'⟩ := other
  change (shorty == shorty' && (returnType == returnType' && parameters.index == parameters'.index)) = true ↔ _
  simp only [Bool.and_eq_true, beq_iff_eq]

theorem ProtoId.alike_of_beq {a b : ProtoId} (same : (a == b) = true) : ProtoId.holding.Alike a b := by
  obtain ⟨shorty, returnType, parameters⟩ := a
  obtain ⟨shorty', returnType', parameters'⟩ := b
  obtain ⟨rfl, rfl, same⟩ := ProtoId.beq_iff.mp same
  have parameters := beq_iff_eq.mpr same
  unfold ProtoId.holding
  refine .part (fun _ => rfl) ?_
  exact .pair (.refl _ _) (.pair (.refl _ _) (DataRef.alike_of_beq parameters _))

theorem ClassDef.alike_of_beq {a b : ClassDef} (same : (a == b) = true) : ClassDef.holding.Alike a b := by
  obtain ⟨type, access, superclass, interfaces, sourceFile, annotations, classData, values⟩ := a
  obtain ⟨type', access', superclass', interfaces', sourceFile', annotations', classData', values'⟩ := b
  change (type == type' && (access == access' && (superclass == superclass' &&
    (interfaces == interfaces' && (sourceFile == sourceFile' && (annotations == annotations' &&
      (classData == classData' && values == values'))))))) = true at same
  simp only [Bool.and_eq_true] at same
  obtain ⟨sameType, sameAccess, sameSuper, interfaces, sameSource, annotations, classData, values⟩ := same
  obtain rfl := eq_of_beq sameType
  obtain rfl := eq_of_beq sameAccess
  obtain rfl := eq_of_beq sameSuper
  obtain rfl := eq_of_beq sameSource
  unfold ClassDef.holding
  refine .part (fun _ => rfl) ?_
  exact .pair (.refl _ _) (.pair (.refl _ _) (.pair (DataRef.alike_of_beq interfaces _)
    (.pair (.refl _ _) (.pair (DataRef.alike_of_beq annotations _)
      (.pair (DataRef.alike_of_beq classData _) (DataRef.alike_of_beq values _))))))

theorem AnnotationSetRefList.alike_of_beq {a b : AnnotationSetRefList} (same : (a == b) = true) :
    AnnotationSetRefList.holding.Alike a b := by
  unfold AnnotationSetRefList.holding
  refine .part (fun _ => rfl) ?_
  exact .list (forall₂_of_beq (fun _ _ same => DataRef.alike_of_beq same _) same)

theorem AnnotationSet.alike_of_beq {a b : AnnotationSet} (same : (a == b) = true) :
    AnnotationSet.holding.Alike a b := by
  unfold AnnotationSet.holding
  refine .part (fun _ => rfl) ?_
  exact .list (forall₂_of_beq (fun _ _ same => DataRef.alike_of_beq same _) same)

theorem AnnotationItem.eq_of_beq {a b : AnnotationItem} (same : (a == b) = true) : a = b := by
  obtain ⟨visibility, type, elements⟩ := a
  obtain ⟨visibility', type', elements'⟩ := b
  change (visibility == visibility' && (type == type' &&
    EncodedValue.beqElements elements elements')) = true at same
  simp only [Bool.and_eq_true, beq_iff_eq] at same
  obtain ⟨rfl, rfl, same⟩ := same
  rw [EncodedValue.eq_of_beqElements elements elements' same]

theorem EncodedArray.alike_of_beq {a b : EncodedArray} (same : (a == b) = true) :
    EncodedArray.holding.Alike a b := by
  have slots : ∀ first second : ValueSlot, (first == second) = true → first = second := by
    intro first second same
    cases first <;> cases second
    · rfl
    · cases same
    · cases same
    · exact congrArg some (EncodedValue.eq_of_beq _ _ same)
  have items : a.slots.items = b.slots.items := (forall₂_of_beq (R := Eq) slots same).eq_of id
  unfold EncodedArray.holding
  refine .part (fun _ => rfl) ?_
  rw [items]
  exact .refl _ _

/-- Items that hold the same, apart from edit marks and the offsets known for data items. -/
def Alike {kind : PoolKind} (a b : Item kind) : Prop := (itemHolding kind).Alike a b

/-- Equal items are alike, of every kind whose copies are shared. -/
theorem alike_of_beq {kind : PoolKind} (shared : Copying.isShared kind) {a b : Item kind}
    (same : (a == b) = true) : Alike a b := by
  cases kind with
  | stringId => exact eq_of_beq (α := StringData) same ▸ .refl _ _
  | typeId => exact eq_of_beq (α := TypeId) same ▸ .refl _ _
  | fieldId => exact eq_of_beq (α := FieldId) same ▸ .refl _ _
  | methodId => exact eq_of_beq (α := MethodId) same ▸ .refl _ _
  | typeList => exact eq_of_beq (α := TypeList) same ▸ .refl _ _
  | protoId => exact ProtoId.alike_of_beq same
  | classDef => exact ClassDef.alike_of_beq same
  | annotationSetRefList => exact AnnotationSetRefList.alike_of_beq same
  | annotationSet => exact AnnotationSet.alike_of_beq same
  | annotationItem => exact AnnotationItem.eq_of_beq same ▸ .refl _ _
  | encodedArray => exact EncodedArray.alike_of_beq same
  | classData | code | debugInfo | annotationsDirectory => cases shared

/-- What can stand in the places of an item: references into id tables by index, references to other
items by offset as well, and operands in code. Nothing refers to class definitions. -/
def Held.Proper (holder : PoolKind) : Held → Prop
  | id target .. => target.toSection.isIdTable = true ∧ target ≠ .classDef
  | data target .. => target.toSection.isIdTable = false
  | operand target .. => holder = .code ∧ target.toSection.isIdTable = true ∧ target ≠ .classDef

/-- Whether what stands in a place is an operand. -/
def Held.isOperand : Held → Bool
  | operand .. => true
  | _ => false

theorem Held.Proper.plain {holder : PoolKind} {one : Held} (proper : one.Proper holder) (differ : holder ≠ .code) :
    one.isOperand = false := by
  cases one with
  | id | data => rfl
  | operand => exact absurd proper.1 differ

theorem Held.Proper.kind_ne_classDef {holder : PoolKind} {one : Held} (proper : one.Proper holder) :
    one.kind ≠ .classDef := by
  cases one with
  | id => exact proper.2
  | operand => exact proper.2.2
  | data =>
    rintro rfl
    cases proper

namespace Places

variable {α : Type}

/-- Whether what stands in the places of a form obeys a law. -/
def Each (law : Held → Prop) (p : Places α) (x : α) : Prop := ∀ one ∈ p.held x, law one

theorem Each.list {law : Held → Prop} {p : Places α} {items : List α} (each : ∀ item ∈ items, p.Each law item) :
    p.list.Each law items := by
  intro one member
  obtain ⟨item, present, member⟩ := List.mem_flatMap.mp member
  exact each item present one member

end Places

namespace Holding

variable {α β : Type} {law : Held → Prop}

theorem each_pair {first : Holding α} {second : Holding β} (left : ∀ x, first.Each law x)
    (right : ∀ x, second.Each law x) (x : α × β) : (first.pair second).Each law x := by
  intro one member
  rcases List.mem_append.mp member with member | member
  · exact left _ one member
  · exact right _ one member

theorem each_list {holding : Holding α} (each : ∀ x, holding.Each law x) (items : List α) :
    holding.list.Each law items :=
  .list fun item _ => each item

theorem each_option {holding : Holding α} (each : ∀ x, holding.Each law x) (x : Option α) :
    holding.option.Each law x := by
  cases x with
  | none => exact fun one member => absurd member (List.not_mem_nil)
  | some x => exact each x

end Holding

theorem IdRef.each {law : Held → Prop} {target : PoolKind} {usage : Usage} (ids : ∀ index, law (.id target usage index))
    (ref : IdRef target) : (IdRef.holding usage).Each law ref :=
  List.forall_mem_singleton.mpr (ids ref.index)

theorem DataRef.each {law : Held → Prop} {target : PoolKind} {usage : Usage}
    (data : ∀ state, law (.data target usage state)) (ref : DataRef target) : (DataRef.holding usage).Each law ref :=
  List.forall_mem_singleton.mpr (data ref.state)

section Proper

variable {holder : PoolKind}

theorem Scalar.proper (value : Scalar) : Scalar.places.Each (Held.Proper holder) value := by
  cases value <;> simp [Places.Each, Scalar.places, Scalar.held, Held.Proper, PoolKind.toSection, SectionKind.isIdTable]

namespace EncodedValue

mutual

theorem proper : (value : EncodedValue) → places.Each (Held.Proper holder) value
  | scalar value _ => value.proper
  | array elements => proper_list elements
  | annotationBody _ elements => List.forall_mem_cons.mpr ⟨⟨rfl, by decide⟩, proper_elements elements⟩
  | null => fun _ member => absurd member List.not_mem_nil
  | boolean _ => fun _ member => absurd member List.not_mem_nil

theorem proper_list : (elements : List EncodedValue) → listPlaces.Each (Held.Proper holder) elements
  | [] => fun _ member => absurd member List.not_mem_nil
  | value :: rest => List.forall_mem_append.mpr ⟨proper value, proper_list rest⟩

theorem proper_elements : (elements : List (IdRef .stringId × EncodedValue)) →
    elementPlaces.Each (Held.Proper holder) elements
  | [] => fun _ member => absurd member List.not_mem_nil
  | (_, value) :: rest =>
    List.forall_mem_cons.mpr ⟨⟨rfl, by decide⟩, List.forall_mem_append.mpr ⟨proper value, proper_elements rest⟩⟩

end

end EncodedValue

open Holding

/-- Operands refer to entries of id tables. -/
theorem Instruction.proper (instruction : Instruction) : Instruction.places.Each (Held.Proper .code) instruction := by
  have table {target : OperandTarget} {pool : PoolKind} (found : target.pool? = some pool) :
      pool.toSection.isIdTable = true ∧ pool ≠ .classDef := by
    cases target <;> cases found <;> decide
  intro one member
  obtain ⟨ref, listed, rfl⟩ := List.mem_map.mp member
  refine ⟨rfl, ?_⟩
  obtain ⟨address, shape, units⟩ := instruction
  cases shape with
  | payload => cases listed
  | op opcode =>
    rcases List.mem_append.mp listed with listed | listed <;>
    · obtain ⟨pool, found, rfl⟩ := Option.map_eq_some_iff.mp (Option.mem_toList.mp listed)
      exact table found

/-- Caught types are id references. -/
theorem TryTable.proper (table : TryTable) : TryTable.holding.Each (Held.Proper holder) table := by
  refine each_list (fun list => each_list (fun handler => ?_) list.handlers) table.handlers.items
  cases handler with
  | typed type _ => exact IdRef.each (fun _ => ⟨rfl, by decide⟩) type
  | catchAll _ => exact fun one member => absurd member List.not_mem_nil

theorem DebugOp.proper (op : DebugOp) : DebugOp.holding.Each (Held.Proper holder) op := by
  have string (ref : IdRef .stringId) : (IdRef.holding .debug).Each (Held.Proper holder) ref :=
    IdRef.each (fun _ => ⟨rfl, by decide⟩) ref
  have type (ref : IdRef .typeId) : (IdRef.holding .debug).Each (Held.Proper holder) ref :=
    IdRef.each (fun _ => ⟨rfl, by decide⟩) ref
  cases op with
  | startLocal => exact each_pair string type _
  | startLocalExtended => exact each_pair string (each_pair type string) _
  | setFile => exact string _
  | _ => exact fun _ member => absurd member List.not_mem_nil

/-- Whatever stands in a place of an item can stand there. -/
theorem proper_of_held {kind : PoolKind} (item : Item kind) : (itemHolding kind).Each (Held.Proper kind) item := by
  have id {target : PoolKind} (table : target.toSection.isIdTable = true ∧
    target ≠ .classDef) (usage : Usage) (ref : IdRef target) :
      (IdRef.holding usage).Each (Held.Proper kind) ref := IdRef.each (fun _ => table) ref
  have data {target : PoolKind} (apart : target.toSection.isIdTable = false) (usage : Usage) (ref : DataRef target) :
      (DataRef.holding usage).Each (Held.Proper kind) ref := DataRef.each (fun _ => apart) ref
  cases kind with
  | stringId => exact fun _ member => absurd member List.not_mem_nil
  | typeId => exact id (by decide) _ _
  | protoId => exact each_pair (id (by decide) _) (each_pair (id (by decide) _) (data rfl _)) _
  | fieldId | methodId => exact each_pair (id (by decide) _) (each_pair (id (by decide) _) (id (by decide) _)) _
  | classDef =>
    exact each_pair (id (by decide) _) (each_pair (id (by decide) _)
      (each_pair (data rfl _) (each_pair (id (by decide) _)
      (each_pair (data rfl _) (each_pair (data rfl _) (data rfl _)))))) _
  | typeList => exact each_list (id (by decide) _) _
  | annotationSetRefList | annotationSet => exact each_list (data rfl _) _
  | classData =>
    have field : ∀ entry, DefinedField.holding.Each (Held.Proper .classData) entry := fun _ => id (by decide) _ _
    have method : ∀ entry, DefinedMethod.holding.Each (Held.Proper .classData) entry :=
      fun _ => each_pair (id (by decide) _) (data rfl _) _
    exact each_pair (each_list field) (each_pair (each_list field) (each_pair (each_list method) (each_list method))) _
  | code =>
    have list (list : InstructionList) : InstructionList.holding.Each (Held.Proper .code) list :=
      Places.Each.list fun instruction _ => instruction.proper
    exact each_pair (data rfl _) (each_pair list (each_option TryTable.proper)) _
  | debugInfo => exact each_pair (each_list (id (by decide) _)) (each_list DebugOp.proper) _
  | annotationItem =>
    exact List.forall_mem_cons.mpr ⟨⟨rfl, by decide⟩, EncodedValue.proper_elements item.body.elements⟩
  | encodedArray => exact each_list (each_option EncodedValue.proper) _
  | annotationsDirectory =>
    have annotated {member target : PoolKind} (table : member.toSection.isIdTable = true ∧ member ≠ .classDef)
        (apart : target.toSection.isIdTable = false) :
        ∀ entry, (@AnnotatedMember.holding member target).Each (Held.Proper .annotationsDirectory) entry :=
      fun _ => each_pair (id table _) (data apart _) _
    exact each_pair (data rfl _) (each_pair (each_list (annotated (by decide) rfl))
      (each_pair (each_list (annotated (by decide) rfl))
      (each_list (annotated (by decide) rfl)))) _

/-- Operands stand in code alone. -/
theorem plain_of_ne_code {kind : PoolKind} (differ : kind ≠ .code) (item : Item kind) :
    ∀ one ∈ (itemHolding kind).held item, one.isOperand = false :=
  fun one member => (proper_of_held item one member).plain differ

end Proper
end DexImage
