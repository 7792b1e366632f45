import DexImage.Proofs.Codec.Values
import DexImage.Proofs.Copying.Classes
import DexImage.Proofs.References.Names
import DexImage.Proofs.Reachability.Repeated
import DexImage.Proofs.Sorting.Sorted
/-! # Initial values of static fields

The values of a class belong to its static fields by their position alone: each to the field at the same place
in the list of static fields (`Pools.initials`). Fields are compared by their keys, and values by the names
of what they refer to. Where class definitions and what they refer to correspond, they have the same initial
values (`Counterparts.initials_eq`); so they have when id tables are sorted, when unused items are removed, in
a copy of the class and while other classes are merged (`Carries`).
-/

namespace DexImage

namespace EncodedValue

mutual

/-- The value without the widths that are remembered in it. -/
def plain : EncodedValue → EncodedValue
  | scalar value _ => scalar value 0
  | array elements => array (plainList elements)
  | annotationBody type elements => annotationBody type (plainElements elements)
  | null => null
  | boolean value => boolean value

def plainList : List EncodedValue → List EncodedValue
  | [] => []
  | value :: rest => value.plain :: plainList rest

def plainElements : List (IdRef .stringId × EncodedValue) → List (IdRef .stringId × EncodedValue)
  | [] => []
  | (name, value) :: rest => (name, value.plain) :: plainElements rest

end

mutual

/-- The references in a value have nothing to do with widths. -/
theorem held_effective : (value : EncodedValue) → value.effective.held = value.held
  | scalar .. => rfl
  | array elements => heldList_effectiveList elements
  | annotationBody _ elements => congrArg (_ :: ·) (heldElements_effectiveElements elements)
  | null => rfl
  | boolean _ => rfl

theorem heldList_effectiveList : (values : List EncodedValue) → heldList (effectiveList values) = heldList values
  | [] => rfl
  | value :: rest => by
    rw [effectiveList, heldList, heldList, held_effective value, heldList_effectiveList rest]

theorem heldElements_effectiveElements : (elements : List (IdRef .stringId × EncodedValue)) →
    heldElements (effectiveElements elements) = heldElements elements
  | [] => rfl
  | (name, value) :: rest => by
    rw [effectiveElements, heldElements, heldElements, held_effective value, heldElements_effectiveElements rest]

end

mutual

theorem plain_fill_effective : (value : EncodedValue) → (new : List Held) →
    (value.effective.fill new).plain = (value.fill new).plain
  | scalar .., _ => rfl
  | array elements, new => congrArg array (plainList_fillList_effectiveList elements new)
  | annotationBody _ elements, new =>
    congrArg (annotationBody _) (plainElements_fillElements_effectiveElements elements (new.drop 1))
  | null, _ => rfl
  | boolean _, _ => rfl

theorem plainList_fillList_effectiveList : (values : List EncodedValue) → (new : List Held) →
    plainList (fillList (effectiveList values) new) = plainList (fillList values new)
  | [], _ => rfl
  | value :: rest, new => by
    rw [effectiveList, fillList, fillList, plainList, plainList, held_effective value, plain_fill_effective value,
      plainList_fillList_effectiveList rest]

theorem plainElements_fillElements_effectiveElements :
    (elements : List (IdRef .stringId × EncodedValue)) → (new : List Held) →
      plainElements (fillElements (effectiveElements elements) new) = plainElements (fillElements elements new)
  | [], _ => rfl
  | (name, value) :: rest, new => by
    rw [effectiveElements, fillElements, fillElements, plainElements, plainElements, held_effective value,
      plain_fill_effective value, plainElements_fillElements_effectiveElements rest]

end

/-- A value that is written with other widths is the same value. -/
theorem plain_form_effective (value : EncodedValue) :
    (holding.form value.effective).plain = (holding.form value).plain := by
  rw [Holding.form, Holding.form]
  change (fill value.effective (value.effective.held.map Held.blank)).plain = _
  rw [held_effective, plain_fill_effective]
  rfl

end EncodedValue

/-- A value apart from its references and its widths, and the names of what the references lead to. -/
structure NamedValue where
  form : EncodedValue
  names : List (Option Name)
deriving DecidableEq

namespace Pools

/-- A value by the names of what it refers to. A placeholder counts as the null that is written for it. -/
def namedValue (pools : Pools) (slot : ValueSlot) : NamedValue where
  form := (EncodedValue.holding.form (slot.getD .null)).plain
  names := (EncodedValue.holding.held (slot.getD .null)).map pools.nameOfHeld?

/-- A field by its key, if it has one. -/
def fieldKey? (pools : Pools) (entry : DefinedField) : Option FieldKey :=
  entry.field.index.bind fun index => (FieldKey.at? pools index).toOption

/-- The static fields of a class definition and the values listed for them, if it has class data and values. -/
def staticsOf? (pools : Pools) (definition : ClassDef) : Option (List DefinedField × List ValueSlot) :=
  (pools.resolve? definition.classData).bind fun data =>
    (pools.resolve? definition.staticValues).map fun values =>
      (ClassData.staticFields data, (EncodedArray.slots values).items)

def statics? (pools : Pools) (index : UInt32) : Option (List DefinedField × List ValueSlot) :=
  (pools.get? .classDef index).bind pools.staticsOf?

/-- Fields with values, by position. -/
def paired (pools : Pools) (fields : List DefinedField) (values : List ValueSlot) :
    List (Option FieldKey × NamedValue) :=
  (fields.map pools.fieldKey?).zip (values.map pools.namedValue)

/-- The static fields of a class with their initial values. -/
def initials (pools : Pools) (index : UInt32) : Option (List (Option FieldKey × NamedValue)) :=
  (pools.statics? index).map fun statics => pools.paired statics.1 statics.2

end Pools

/-- What is held in a slot is held in the value that is written for it. -/
theorem ValueSlot.getD_form (slot : ValueSlot) :
    EncodedValue.holding.form (slot.getD .null) = (EncodedValue.holding.option.form slot).getD .null := by
  cases slot <;> rfl

theorem ValueSlot.held_getD (slot : ValueSlot) :
    EncodedValue.holding.held (slot.getD .null) = EncodedValue.holding.option.held slot := by
  cases slot <;> rfl

namespace Counterparts

variable {related : Relation} {before after : Pools} (counterparts : Counterparts related before after)
include counterparts

omit counterparts in
/-- Values with equal forms are the same by name if what they refer to has the same names. -/
theorem namedValues_eq {values others : List ValueSlot}
    (forms : values.map EncodedValue.holding.option.form = others.map EncodedValue.holding.option.form)
    (names : (EncodedValue.holding.option.list.held values).map before.nameOfHeld? =
      (EncodedValue.holding.option.list.held others).map after.nameOfHeld?) :
    values.map before.namedValue = others.map after.namedValue := by
  induction values generalizing others with
  | nil =>
    obtain rfl := List.map_eq_nil_iff.mp forms.symm
    rfl
  | cons value values ih =>
    cases others with
    | nil => cases forms
    | cons other others =>
      obtain ⟨form, forms⟩ := List.cons.inj forms
      simp only [Holding.list, Places.list, List.flatMap_cons, List.map_append] at names
      have lengths : ((EncodedValue.holding.option.held value).map before.nameOfHeld?).length =
          ((EncodedValue.holding.option.held other).map after.nameOfHeld?).length := by
        rw [List.length_map, List.length_map, Holding.length_held_of_form form]
      obtain ⟨head, rest⟩ := List.append_inj names lengths
      rw [List.map_cons, List.map_cons, ih forms rest, Pools.namedValue, Pools.namedValue]
      simp only [ValueSlot.getD_form, ValueSlot.held_getD, form, head]

/-- Arrays that correspond hold the same values by name. -/
theorem array_eq {values others : Item .encodedArray}
    (form : EncodedArray.holding.form others = EncodedArray.holding.form values)
    (leads : List.Forall₂ (Slot.Leads related before) (slots values) (slots others)) :
    (EncodedArray.slots values).items.map before.namedValue =
    (EncodedArray.slots others).items.map after.namedValue := by
  rw [slots_eq, slots_eq] at leads
  refine namedValues_eq ?_ (counterparts.names_eq leads)
  have items := congrArg (fun array : EncodedArray => array.slots.items) form
  unfold EncodedArray.holding at items
  rw [Holding.form_part, Holding.form_part, Holding.form_list, Holding.form_list] at items
  exact items.symm

private theorem fieldKeys_eq {ones others : List DefinedField}
    (leads : List.Forall₂ (fun one other : DefinedField =>
      Slot.Leads related before (one.field.slot .definition) (other.field.slot .definition)) ones others) :
    ones.map before.fieldKey? = others.map after.fieldKey? := by
  induction leads with
  | nil => rfl
  | cons head _ ih =>
    rw [List.map_cons, List.map_cons, ih]
    congr 1
    exact head.bind_index (fun pools index => (FieldKey.at? pools index).toOption)
      counterparts.fieldKey_eq fieldKey_of_le

omit counterparts in
/-- The references of class data begin with its static fields. -/
theorem slots_classData (data : Item .classData) :
    ∃ others, slots data =
      (ClassData.staticFields data).map (fun entry => entry.field.slot .definition) ++ others := by
  refine ⟨_, (slots_eq data).trans ((List.map_append ..).trans (congrArg (· ++ _) ?_))⟩
  change ((ClassData.staticFields data).flatMap fun entry =>
    [Held.id .fieldId .definition entry.field.index]).map Held.slot = _
  rw [List.map_flatMap]
  exact List.flatMap_pure_eq_map _ _

/-- Class data that corresponds lists the same static fields. -/
theorem fields_eq {data other : Item .classData} (form : ClassData.holding.form other = ClassData.holding.form data)
    (leads : List.Forall₂ (Slot.Leads related before) (slots data) (slots other)) :
    (ClassData.staticFields data).map before.fieldKey? = (ClassData.staticFields other).map after.fieldKey? := by
  have length : (ClassData.staticFields data).length = (ClassData.staticFields other).length := by
    have fields := congrArg (fun data : ClassData => data.staticFields.length) form
    unfold ClassData.holding at fields
    simp only [Holding.form_part, Holding.form_pair, Holding.form_list, List.length_map] at fields
    exact fields.symm
  obtain ⟨rest, split⟩ := slots_classData data
  obtain ⟨rest', split'⟩ := slots_classData other
  rw [split, split'] at leads
  have fields := List.forall₂_take (ClassData.staticFields data).length leads
  rw [List.take_left' (List.length_map _), List.take_left' (by rw [List.length_map, length]), List.forall₂_map_left_iff,
    List.forall₂_map_right_iff] at fields
  exact counterparts.fieldKeys_eq fields

omit counterparts in
/-- The references of a class definition. -/
theorem slots_classDef (definition : Item .classDef) :
    slots definition = [(ClassDef.type definition).slot .definition, (ClassDef.superclass definition).slot .definition,
      (ClassDef.interfaces definition).slot .definition, (ClassDef.sourceFile definition).slot .definition,
      (ClassDef.annotations definition).slot .annotated, (ClassDef.classData definition).slot .definition,
      (ClassDef.staticValues definition).slot .staticValue] := by
  have data {target : PoolKind} (one : DataRef target) (usage : Usage) :
      (Held.data target usage one.state).slot = one.slot usage := by
    cases one <;> rfl
  rw [slots_eq]
  simp only [← data]
  rfl

/-- What is made of the targets of references that correspond is the same if it is for targets that do. -/
theorem bind_resolve {α : Type} {target : PoolKind} {one other : DataRef target}
    {usage : Usage} (plain : target ≠ .code)
    (leads : Slot.Leads related before (one.slot usage) (other.slot usage)) {make make' : Item target → Option α}
    (same : ∀ {item copy}, (itemHolding target).form copy = (itemHolding target).form item →
      List.Forall₂ (Slot.Leads related before) (slots item) (slots copy) → make item = make' copy) :
    (before.resolve? one).bind make = (after.resolve? other).bind make' := by
  rcases leads with ⟨-, ⟨first, second, old, new, follows⟩ | ⟨gone, away⟩⟩
  · change related target first second at follows
    rw [Pools.resolve?, Pools.resolve?, show one.index = some first from old, show other.index = some second from new]
    exact counterparts.bind_get? follows plain same
  · have missing : before.resolve? one = none := by
      rcases old : one.index with _ | first
      · rw [Pools.resolve?, old]
        rfl
      · rw [Pools.resolve?, old]
        exact Pools.get?_of_le (away first old)
    rw [missing, Pools.resolve?, show other.index = none from gone]
    rfl

/-- Class definitions that correspond have the same initial values. -/
theorem initials_eq {old new : UInt32} (same : related .classDef old new) :
    before.initials old = after.initials new := by
  rw [Pools.initials, Pools.initials, Pools.statics?, Pools.statics?, Option.map_bind, Option.map_bind]
  refine counterparts.bind_get? same (by decide) fun {definition copy} _ leads => ?_
  rw [slots_classDef, slots_classDef] at leads
  obtain _ | ⟨_, _ | ⟨_, _ | ⟨_, _ | ⟨_, _ | ⟨_, _ | ⟨dataLeads, _ | ⟨valuesLeads, -⟩⟩⟩⟩⟩⟩⟩ :=
    leads
  simp only [Function.comp_apply, Pools.staticsOf?, Option.map_bind]
  refine counterparts.bind_resolve (by decide) dataLeads fun form fields => ?_
  simp only [Function.comp_apply, Option.map_eq_bind, Option.bind_assoc, Option.bind_some]
  refine counterparts.bind_resolve (by decide) valuesLeads fun form' values => ?_
  simp only [Pools.paired, counterparts.fields_eq form fields, counterparts.array_eq form' values]

end Counterparts

end DexImage
