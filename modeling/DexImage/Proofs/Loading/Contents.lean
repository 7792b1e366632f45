import DexImage.Proofs.Layout.Placing
import DexImage.Proofs.References.Names
/-! # Items with the same contents

Data items of two images have the same contents when they are equal but for the numbers of the data items
that they refer to, and their references lead, one by one, to data items with the same contents
(`SameContents`). Encoded values are compared by value and by the width that they are written with.
-/

namespace DexImage

/-- What stands in two places that match: the same id or operand, or references to data items that are both
absent or lead to related items. -/
inductive Held.Matches (related : Relation) : Held → Held → Prop where
  | id (target : PoolKind) (usage : Usage) (index : Option UInt32) :
      Matches related (.id target usage index) (.id target usage index)
  | operand (target : PoolKind) (wide lost : Bool) (index : UInt32) :
      Matches related (.operand target wide lost index) (.operand target wide lost index)
  | absent (target : PoolKind) (usage : Usage) : Matches related (.data target usage none) (.data target usage none)
  | data {target : PoolKind} (usage : Usage) {index other : UInt32} (known known' : Option UInt32)
      (leads : related target index other) :
      Matches related (.data target usage (some (index, known))) (.data target usage (some (other, known')))

theorem Held.Matches.mono {first second : Relation} {one other : Held} (matching : Held.Matches first one other)
    (implies : ∀ {target index other}, first target index other → second target index other) :
    Held.Matches second one other := by
  cases matching with
  | id => exact .id _ _ _
  | operand => exact .operand _ _ _ _
  | absent => exact .absent _ _
  | data _ _ _ leads => exact .data _ _ _ (implies leads)

namespace Holding

variable {α β : Type} {related : Relation}

/-- Forms that are equal but for the numbers of the data items that they refer to. -/
structure Matches (holding : Holding α) (related : Relation) (a b : α) : Prop where
  form : holding.form a = holding.form b
  held : List.Forall₂ (Held.Matches related) (holding.held a) (holding.held b)

theorem Matches.mono {holding : Holding α} {stronger : Relation} {a b : α} (matching : holding.Matches stronger a b)
    (implies : ∀ {target index other}, stronger target index other → related target index other) :
    holding.Matches related a b :=
  ⟨matching.form, matching.held.imp fun _ _ one => one.mono implies⟩

theorem Matches.pair {first : Holding α} {second : Holding β} {a b : α × β}
    (left : first.Matches related a.1 b.1) (right : second.Matches related a.2 b.2) :
    (first.pair second).Matches related a b where
  form := by rw [form_pair, form_pair, left.form, right.form]
  held := List.rel_append left.held right.held

theorem Matches.list {holding : Holding α} {as bs : List α} (members : List.Forall₂ (holding.Matches related) as bs) :
    holding.list.Matches related as bs := by
  induction members with
  | nil => exact ⟨rfl, .nil⟩
  | cons head _ ih =>
    refine ⟨?_, List.rel_append head.held ih.held⟩
    rw [form_list, form_list, List.map_cons, List.map_cons, head.form, ← form_list, ← form_list, ih.form]

theorem Matches.part {holding : Holding β} {get : α → β} {put : α → β → α} {get_put put_put} {a b : α}
    (same : ∀ part, put a part = put b part) (matching : holding.Matches related (get a) (get b)) :
    (holding.part get put get_put put_put).Matches related a b where
  form := by rw [form_part, form_part, matching.form, same]
  held := matching.held

theorem Matches.of_pair {first : Holding α} {second : Holding β} {a b : α × β}
    (matching : (first.pair second).Matches related a b) :
    first.Matches related a.1 b.1 ∧ second.Matches related a.2 b.2 := by
  have form := matching.form
  rw [form_pair, form_pair] at form
  obtain ⟨left, right⟩ := Prod.mk.inj form
  have length := length_held_of_form left
  have head := List.forall₂_take (first.held a.1).length matching.held
  have tail := List.forall₂_drop (first.held a.1).length matching.held
  change List.Forall₂ _ (List.take _ (first.held a.1 ++ second.held a.2))
    (List.take _ (first.held b.1 ++ second.held b.2))
    at head
  change List.Forall₂ _ (List.drop _ (first.held a.1 ++ second.held a.2))
    (List.drop _ (first.held b.1 ++ second.held b.2))
    at tail
  rw [List.take_left' rfl, List.take_left' length.symm] at head
  rw [List.drop_left' rfl, List.drop_left' length.symm] at tail
  exact ⟨⟨left, head⟩, right, tail⟩

theorem Matches.of_list {holding : Holding α} {as bs : List α} (matching : holding.list.Matches related as bs) :
    List.Forall₂ (holding.Matches related) as bs := by
  induction as generalizing bs with
  | nil =>
    have form := matching.form
    rw [form_list, form_list] at form
    rw [List.map_eq_nil_iff.mp form.symm]
    exact .nil
  | cons a as ih =>
    have form := matching.form
    rw [form_list, form_list, List.map_cons] at form
    obtain ⟨b, bs, rfl, head, tail⟩ := List.map_eq_cons_iff.mp form.symm
    have split : (holding.pair holding.list).Matches related (a, as) (b, bs) := by
      refine ⟨?_, matching.held⟩
      rw [form_pair, form_pair, form_list, form_list, head, tail]
    exact .cons split.of_pair.1 (ih split.of_pair.2)

theorem Matches.of_part {holding : Holding β} {get : α → β} {put : α → β → α} {get_put put_put} {a b : α}
    (matching : (holding.part get put get_put put_put).Matches related a b) :
    holding.Matches related (get a) (get b) where
  form := by
    have form := congrArg get matching.form
    rwa [form_part, form_part, get_put, get_put] at form
  held := matching.held

/-- A form without references to data items matches itself. -/
theorem Matches.refl {holding : Holding α} {a : α}
    (dataless : ∀ target usage state, Held.data target usage (some state) ∉ holding.held a) :
    holding.Matches related a a := by
  refine ⟨rfl, List.forall₂_same.mpr fun one member => ?_⟩
  cases one with
  | id => exact .id _ _ _
  | operand => exact .operand _ _ _ _
  | data target usage state =>
    cases state with
    | none => exact .absent _ _
    | some state => exact absurd member (dataless target usage state)

end Holding

theorem Held.Matches.eq {related : Relation} {one other : Held} (matching : Held.Matches related one other)
    (dataless : ∀ target usage state, one ≠ .data target usage (some state)) : one = other := by
  cases matching with
  | id | operand | absent => rfl
  | data => exact absurd rfl (dataless _ _ _)

/-- A form that refers to no data item holds the same references as every form that it matches. -/
theorem Holding.Matches.held_eq {α : Type} {holding : Holding α} {related : Relation} {a b : α}
    (matching : holding.Matches related a b)
    (dataless : ∀ target usage state, Held.data target usage (some state) ∉ holding.held a) :
    holding.held a = holding.held b := by
  refine List.forall₂_eq_eq_eq ▸ List.Forall₂.of_getElem? matching.held.length_eq fun position one found => ?_
  obtain ⟨other, there, same⟩ := matching.held.getElem?_left found
  refine ⟨other, there, same.eq ?_⟩
  rintro target usage state rfl
  exact dataless target usage state (List.mem_of_getElem? found)

/-- A form without references to data items matches no other. -/
theorem Holding.Matches.eq {α : Type} {holding : Holding α} {related : Relation} {a b : α}
    (matching : holding.Matches related a b) (whole : ∀ x, holding.fill x (holding.held x) = x)
    (dataless : ∀ target usage state, Held.data target usage (some state) ∉ holding.held a) : a = b :=
  Holding.eq_of_form whole matching.form (matching.held_eq dataless)

/-- References to data items match when both are absent or lead to related items. -/
theorem DataRef.matches_absent {target : PoolKind} (usage : Usage) (related : Relation) :
    (DataRef.holding usage).Matches related (.absent : DataRef target) .absent :=
  ⟨rfl, .cons (.absent _ _) .nil⟩

theorem DataRef.matches_placed {target : PoolKind} (usage : Usage) {related : Relation} {index other : UInt32}
    (offset offset' : UInt32) (leads : related target index other) :
    (DataRef.holding usage).Matches related (.placed index offset : DataRef target) (.placed other offset') :=
  ⟨rfl, .cons (.data _ _ _ leads) .nil⟩

/-- Id references match only themselves. -/
theorem IdRef.eq_of_matches {target : PoolKind} {usage : Usage} {related : Relation} {one other : IdRef target}
    (matching : (IdRef.holding usage).Matches related one other) : one = other := by
  have held : List.Forall₂ (Held.Matches related) [Held.id target usage one.index] [Held.id target usage other.index] :=
    matching.held
  obtain ⟨head, -⟩ := List.forall₂_cons.mp held
  generalize same : one.index = index at head
  generalize same' : other.index = index' at head
  cases head
  exact congrArg IdRef.mk (same.trans same'.symm)

/-- An item to whose references no offset matters refers to no data item. -/
theorem dataless_of_locate {kind : PoolKind} {item : Item kind}
    (same : ∀ find other, locate find item = locate other item) (target : PoolKind) (usage : Usage)
    (state : UInt32 × Option UInt32) : Held.data target usage (some state) ∉ (itemHolding kind).held item := by
  intro member
  obtain ⟨index, known⟩ := state
  have told (offset : UInt32) : (Held.data target usage (some (index, known))).edited (.place offset) =
      .data target usage (some (index, some offset)) := rfl
  have first := held_locate (fun _ => some 0) item
  rw [same _ fun _ => some 1, held_locate] at first
  have both := List.map_inj_left.mp first _ member
  simp only [Finder.edit, told] at both
  injection both with _ _ both
  injection both with both
  injection both with _ both
  injection both with both
  exact absurd both (by decide)

/-- The item with the widths that its values are written with. -/
def effective : {kind : PoolKind} → Item kind → Item kind
  | .annotationItem, item => AnnotationItem.effective item
  | .encodedArray, array => EncodedArray.effective array
  | _, item => item

theorem effective_effective {kind : PoolKind} (item : Item kind) : effective (effective item) = effective item := by
  cases kind with
  | annotationItem =>
    simp only [effective, AnnotationItem.effective, AnnotationBody.effective,
      EncodedValue.effectiveElements_effectiveElements]
  | encodedArray =>
    simp only [effective, EncodedArray.effective, TrackedList.ofList, List.map_map, Function.comp_def, Option.getD_some,
      EncodedValue.effective_effective]
  | _ => rfl

/-- Whether the data items at two positions of different images have the same contents. -/
inductive SameContents (first second : Pools) : Relation where
  | intro {kind : PoolKind} {index other : UInt32} {item counterpart : Item kind} (related : Relation)
      (found : first.get? kind index = some item) (there : second.get? kind other = some counterpart)
      (matching : (itemHolding kind).Matches related (effective item) (effective counterpart))
      (deeper : ∀ {target index other}, related target index other → SameContents first second target index other) :
      SameContents first second kind index other

theorem SameContents.mono {first second longer : Pools} {kind : PoolKind} {index other : UInt32}
    (same : SameContents first second kind index other) (grows : second.Extends longer) :
    SameContents first longer kind index other := by
  induction same with
  | intro related found there matching _ ih => exact .intro related found (grows.get? there) matching ih

end DexImage
