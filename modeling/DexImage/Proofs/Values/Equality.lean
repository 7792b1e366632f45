import DexImage.Proofs.References.Alike
import DexImage.Proofs.Rereading.Decoding
import DexImage.Proofs.Values.Rewritten
/-! # Equality of encoded values and their encoding

Values are equal when they hold the same and remember the same widths, while they are written with the widths that they
need (`EncodedValue.WrittenAlike`). A value that is made, set or read remembers widths that suffice for it. To give a
reference in it another index leaves the widths as they were, and the reference may outgrow its own. Where one has, the
value is written as values are that it is not equal to, the one that is read back among them. Where none has
(`EncodedValue.Fitting`), equality tells the encoding (`EncodedValue.beq_iff_write`).
-/

namespace DexImage

open EncodedValue

/-- A pass gives another index to a reference, and leaves whatever is none. -/
theorem Scalar.visit_cases {σ : Type} (visitor : Visitor σ) (state : σ) (value : Scalar) :
    (value.visit visitor state).1 = value ∨
      (value.visit visitor state).1.kind = value.kind ∧ (value.visit visitor state).1.held ≠ [] := by
  cases value with
  | methodType | string | type | field | method | enum => exact .inr ⟨rfl, List.cons_ne_nil _ _⟩
  | _ => exact .inl rfl

namespace EncodedValue

theorem beq_iff {x y : EncodedValue} : (x == y) = true ↔ x = y :=
  ⟨eq_of_beq x y, fun same => same ▸ beq_self x⟩

mutual

/-- Whether all scalars in a value are such, given the widths that are remembered for them. -/
def All (P : Scalar → Nat → Prop) : EncodedValue → Prop
  | scalar value width => P value width
  | array elements => AllList P elements
  | annotationBody _ elements => AllElements P elements
  | null | boolean _ => True

def AllList (P : Scalar → Nat → Prop) : List EncodedValue → Prop
  | [] => True
  | value :: rest => value.All P ∧ AllList P rest

def AllElements (P : Scalar → Nat → Prop) : List (IdRef .stringId × EncodedValue) → Prop
  | [] => True
  | (_, value) :: rest => value.All P ∧ AllElements P rest

end

section All

variable {P Q R : Scalar → Nat → Prop}

theorem allList_of {values : List EncodedValue} (each : ∀ value ∈ values, value.All P) : AllList P values := by
  induction values with
  | nil => trivial
  | cons value rest ih =>
    obtain ⟨head, tail⟩ := List.forall_mem_cons.mp each
    exact ⟨head, ih tail⟩

theorem allElements_of {elements : List (IdRef .stringId × EncodedValue)}
    (each : ∀ element ∈ elements, element.2.All P) : AllElements P elements := by
  induction elements with
  | nil => trivial
  | cons element rest ih =>
    obtain ⟨head, tail⟩ := List.forall_mem_cons.mp each
    exact ⟨head, ih tail⟩

mutual

theorem All.both (implies : ∀ value width, P value width → Q value width → R value width) :
    (value : EncodedValue) → value.All P → value.All Q → value.All R
  | scalar value width, first, second => implies value width first second
  | array elements, first, second => AllList.both implies elements first second
  | annotationBody _ elements, first, second => AllElements.both implies elements first second
  | null, _, _ => trivial
  | boolean _, _, _ => trivial

theorem AllList.both (implies : ∀ value width, P value width → Q value width → R value width) :
    (values : List EncodedValue) → AllList P values → AllList Q values → AllList R values
  | [], _, _ => trivial
  | value :: rest, first, second =>
    ⟨All.both implies value first.1 second.1, AllList.both implies rest first.2 second.2⟩

theorem AllElements.both (implies : ∀ value width, P value width → Q value width → R value width) :
    (elements : List (IdRef .stringId × EncodedValue)) → AllElements P elements → AllElements Q elements →
      AllElements R elements
  | [], _, _ => trivial
  | (_, value) :: rest, first, second =>
    ⟨All.both implies value first.1 second.1, AllElements.both implies rest first.2 second.2⟩

end

theorem All.imp {value : EncodedValue} (implies : ∀ value width, P value width → Q value width) (all : value.All P) :
    value.All Q :=
  All.both (fun value width holds _ => implies value width holds) value all all

variable {σ : Type} {visitor : Visitor σ}

mutual

/-- A pass keeps what it keeps of each scalar, with the width that was remembered before. -/
theorem All.visit (keeps : ∀ value width state, P value width → P (value.visit visitor state).1 width) :
    (value : EncodedValue) → (state : σ) → value.All P → (value.visit visitor state).1.All P
  | scalar value width, state, all => keeps value width state all
  | array elements, state, all => AllList.visit keeps elements state all
  | annotationBody _ elements, _, all => AllElements.visit keeps elements _ all
  | null, _, _ => trivial
  | boolean _, _, _ => trivial

theorem AllList.visit (keeps : ∀ value width state, P value width → P (value.visit visitor state).1 width) :
    (values : List EncodedValue) → (state : σ) → AllList P values → AllList P (visitList visitor values state).1
  | [], _, _ => trivial
  | value :: rest, state, all => ⟨All.visit keeps value state all.1, AllList.visit keeps rest _ all.2⟩

theorem AllElements.visit (keeps : ∀ value width state, P value width → P (value.visit visitor state).1 width) :
    (elements : List (IdRef .stringId × EncodedValue)) → (state : σ) → AllElements P elements →
      AllElements P (visitElements visitor elements state).1
  | [], _, _ => trivial
  | (_, value) :: rest, _, all => ⟨All.visit keeps value _ all.1, AllElements.visit keeps rest _ all.2⟩

end

mutual

theorem effective_eq_iff : (value : EncodedValue) →
    value.effective = value ↔ value.All fun held width => (scalar held width).width = width
  | scalar .. => by simp [effective, All]
  | array elements => by simp [effective, All, effectiveList_eq_iff elements]
  | annotationBody _ elements => by simp [effective, All, effectiveElements_eq_iff elements]
  | null => by simp [effective, All]
  | boolean _ => by simp [effective, All]

theorem effectiveList_eq_iff : (values : List EncodedValue) →
    effectiveList values = values ↔ AllList (fun held width => (scalar held width).width = width) values
  | [] => by simp [effectiveList, AllList]
  | value :: rest => by simp [effectiveList, AllList, effective_eq_iff value, effectiveList_eq_iff rest]

theorem effectiveElements_eq_iff : (elements : List (IdRef .stringId × EncodedValue)) →
    effectiveElements elements = elements ↔ AllElements (fun held width => (scalar held width).width = width) elements
  | [] => by simp [effectiveElements, AllElements]
  | (_, value) :: rest => by
    simp [effectiveElements, AllElements, effective_eq_iff value, effectiveElements_eq_iff rest]

end

end All

/-- Whether no reference has outgrown the width that is remembered for it. -/
def Fitting (value : EncodedValue) : Prop := value.All fun held width => held.held ≠ [] → held.leastWidth ≤ width

/-- Whether each width is one that the kind allows, and suffices unless a reference may have outgrown it. -/
def Bounded (value : EncodedValue) : Prop :=
  value.All fun held width => width ≤ held.kind.maxWidth ∧ (held.held = [] → held.leastWidth ≤ width)

/-- Values that can be made. To set a value is to make it anew, and the pass of a visitor over the references in a value
may give each of them any index, or none. -/
inductive Reached : EncodedValue → Prop
  | ofScalar (value : Scalar) : Reached (ofScalar value)
  | array {elements : List EncodedValue} (each : ∀ value ∈ elements, Reached value) : Reached (array elements)
  | annotationBody (type : IdRef .typeId) {elements : List (IdRef .stringId × EncodedValue)}
      (each : ∀ element ∈ elements, Reached element.2) : Reached (annotationBody type elements)
  | null : Reached null
  | boolean (value : Bool) : Reached (boolean value)
  | read {cursor after : Cursor} {value : EncodedValue} (success : decode cursor = (.ok value, after)) : Reached value
  | merge {τ : Type} {translator : Translator τ} {before after : τ} {other value : EncodedValue}
    (reached : Reached other)
      (success : merge translator other before = (.ok value, after)) : Reached value
  | visit {σ : Type} (visitor : Visitor σ) (state : σ) {value : EncodedValue} (reached : Reached value) :
      Reached (value.visit visitor state).1

/-- In a value that remembers the widths that it is written with, nothing has outgrown its width. -/
theorem fitting_of_settled {value : EncodedValue} (settled : value.effective = value) : value.Fitting := by
  refine ((effective_eq_iff value).mp settled).imp fun held width same _ => ?_
  rw [← same]
  exact (width_scalar_spec held width).1

theorem bounded_ofScalar (value : Scalar) : (ofScalar value).Bounded :=
  ⟨value.leastWidth_le_maxWidth, fun _ => Nat.le_refl _⟩

theorem Spelled.bounded {value : EncodedValue} (spelled : value.Spelled) : value.Bounded := by
  refine ((effective_eq_iff value).mp spelled.settled).imp fun held width same => ?_
  obtain ⟨least, most, -⟩ := width_scalar_spec held width
  rw [same] at least most
  exact ⟨most, fun _ => least⟩

theorem Bounded.visit {σ : Type} {visitor : Visitor σ} {value : EncodedValue} (bounded : value.Bounded) (state : σ) :
    (value.visit visitor state).1.Bounded := by
  refine All.visit (fun held width state bounded => ?_) value state bounded
  rcases held.visit_cases visitor state with same | ⟨kind, reference⟩
  · rw [same]
    exact bounded
  · rw [kind]
    exact ⟨bounded.1, fun none => absurd none reference⟩

/-- A merge that succeeds yields the other value as a pass over its references has left it. -/
theorem eq_of_merge {τ : Type} {translator : Translator τ} {before after : τ} {other value : EncodedValue}
    (success : merge translator other before = (.ok value, after)) :
    value = (translate translator other before).1.value := by
  rcases run : translate translator other before with ⟨⟨_ | fault, taken⟩, state⟩
  · simp only [merge, bind, StateT.bind, run] at success
    exact (Except.ok.inj (Prod.mk.inj success).1).symm
  · simp only [merge, bind, StateT.bind, run] at success
    cases (Prod.mk.inj success).1

theorem Bounded.merge {τ : Type} {translator : Translator τ} {before after : τ} {other value : EncodedValue}
    (bounded : other.Bounded) (success : merge translator other before = (.ok value, after)) : value.Bounded := by
  rw [eq_of_merge success]
  exact bounded.visit _

theorem Reached.bounded {value : EncodedValue} (reached : value.Reached) : value.Bounded := by
  induction reached with
  | ofScalar value => exact bounded_ofScalar value
  | array _ each => exact allList_of each
  | annotationBody _ _ each => exact allElements_of each
  | null => trivial
  | boolean => trivial
  | read success => exact (gives_decode.holds _ _ _ success).bounded
  | merge _ success bounded => exact bounded.merge success
  | visit _ state _ bounded => exact bounded.visit state

/-- A value that can be made is written with the widths that it remembers just if no reference has outgrown its own. -/
theorem Bounded.settled_iff {value : EncodedValue} (bounded : value.Bounded) :
    value.effective = value ↔ value.Fitting := by
  refine ⟨fitting_of_settled, fun fitting => (effective_eq_iff value).mpr ?_⟩
  refine All.both (fun held width bounded fits => ?_) value bounded fitting
  have least : held.leastWidth ≤ width := by
    by_cases plain : held.held = []
    · exact bounded.2 plain
    · exact fits plain
  rw [EncodedValue.width, Nat.max_eq_left least, Nat.min_eq_left bounded.1]

/-- Values that can be written are written as the same bytes just if they are alike. -/
theorem write_eq_iff {a b : EncodedValue} (resolvedA : a.Resolved) (resolvedB : b.Resolved) (countedA : a.Counted)
    (countedB : b.Counted) : (∀ out, a.write out = b.write out) ↔ a.WrittenAlike b := by
  obtain ⟨bytes, successA⟩ := exists_encode_of_resolved resolvedA
  obtain ⟨others, successB⟩ := exists_encode_of_resolved resolvedB
  rw [writtenAlike_iff]
  constructor
  · intro same
    have written := same []
    rw [write_eq_ok successA, write_eq_ok successB] at written
    obtain rfl : bytes = others := (Prod.mk.inj written).2
    have there : (Cursor.ofBytes bytes).Ahead bytes := ⟨rfl, Nat.zero_le _, List.prefix_rfl⟩
    have readA := (decodes_encode a successA countedA).reads _ there
    have readB := (decodes_encode b successB countedB).reads _ there
    exact Except.ok.inj (Prod.mk.inj (readA.symm.trans readB)).1
  · intro same out
    have encoded : a.encode = b.encode := by rw [← encode_effective a, same, encode_effective]
    rw [write_eq_ok (encoded.trans successB), write_eq_ok successB]

/-- Lists that are too long for their counts are not told apart: the count is cut off, and the members are written like
those of the list around it. -/
theorem encode_wrapped {values : List EncodedValue} (wraps : values.length = UInt32.size) :
    (array [array values]).encode = (array (array [] :: values)).encode := by
  have inner : Bytes.ofVarCount values.length = Bytes.ofVarCount ([] : List EncodedValue).length := by
    rw [wraps]
    rfl
  have outer : Bytes.ofVarCount (array [] :: values).length = Bytes.ofVarCount [array values].length := by
    rw [List.length_cons, wraps]
    exact congrArg Leb128.encodeUInt32 (by decide : (UInt32.size + 1).toUInt32 = 1)
  have alone : encodeList [array values] = encodeList (array [] :: values) := by
    simp only [encodeList, encode, inner]
    rcases encodeList values with fault | bytes
    · rfl
    · simp [bind, Except.bind, pure, Except.pure]
  rw [encode, encode, outer, alone]

/-- Of values that can be made and written, those that are equal are written as the same bytes, and those that are
written as the same bytes are alike. Where no reference has outgrown its width, they are equal. A value is equal to the
one that is read back just if no reference in it has outgrown its width. -/
theorem beq_iff_write {a b : EncodedValue} (reachedA : a.Reached) (reachedB : b.Reached) (resolvedA : a.Resolved)
    (resolvedB : b.Resolved) (countedA : a.Counted) (countedB : b.Counted) :
    ((a == b) = true → ∀ out, a.write out = b.write out) ∧
    ((∀ out, a.write out = b.write out) ↔ a.WrittenAlike b) ∧
    (a.Fitting → b.Fitting → ((a == b) = true ↔ ∀ out, a.write out = b.write out)) ∧
    ∃ bytes back, (∀ out, a.write out = (.ok bytes.length, out ++ bytes)) ∧ Reads decode bytes back ∧
      back.Fitting ∧ ((back == a) = true ↔ a.Fitting) := by
  have alike := write_eq_iff resolvedA resolvedB countedA countedB
  refine ⟨fun same _ => beq_iff.mp same ▸ rfl, alike, fun fittingA fittingB => ?_, ?_⟩
  · rw [alike, writtenAlike_iff, reachedA.bounded.settled_iff.mpr fittingA, reachedB.bounded.settled_iff.mpr fittingB]
    exact beq_iff
  · obtain ⟨bytes, success⟩ := exists_encode_of_resolved resolvedA
    refine ⟨bytes, a.effective, write_eq_ok success, (decodes_encode a success countedA).reads,
      fitting_of_settled (effective_effective a), ?_⟩
    rw [beq_iff]
    exact reachedA.bounded.settled_iff

/-- The pass that gives every reference an index. -/
def retargeting (index : UInt32) : Visitor Unit := fun _ => pure (.retarget (some index))

/-- A reference that is given an index of the same width. -/
theorem beq_iff_write_retargeted : ∃ a b : EncodedValue, a = array [ofScalar (.string (.of 300))] ∧
    b = ((array [ofScalar (.string (.of 999))]).visit (retargeting 300) ()).1 ∧
      (∀ out, a.write out = b.write out) ∧ ∃ bytes back, Reads decode bytes back ∧ (back == a) = true := by
  refine ⟨_, _, rfl, rfl, ?_⟩
  have reached (index : UInt32) : (array [ofScalar (.string (.of index))]).Reached :=
    .array (by simpa using .ofScalar _)
  have counted (index : UInt32) : (array [ofScalar (.string (.of index))]).Counted :=
    ⟨(by decide : 1 < UInt32.size), trivial, trivial⟩
  obtain ⟨written, -, -, bytes, back, -, reads, -, same⟩ := beq_iff_write (reached 300)
    (.visit (retargeting 300) () (reached 999)) (by unfold Resolved; decide) (by unfold Resolved; decide)
    (counted 300) (counted 300)
  exact ⟨written (by decide), bytes, back, reads, same.mpr ⟨fun _ => Nat.le_refl _, trivial⟩⟩

/-- A string with an index of one byte that is given an index of two bytes. -/
theorem beq_outgrown : ∃ a b : EncodedValue, (a.Reached ∧ a.Resolved) ∧ (b.Reached ∧ b.Resolved) ∧
    (∀ out, a.write out = b.write out) ∧ (a == b) = false ∧
      ∃ bytes back, (∀ out, a.write out = (.ok bytes.length, out ++ bytes)) ∧ Reads decode bytes back ∧
        (back == a) = false := by
  have made (index : UInt32) : (ofScalar (.string (.of index))).Reached := .ofScalar _
  have resolved : (ofScalar (.string (.of 300))).Resolved := by unfold Resolved; decide
  have resolved' : ((ofScalar (.string (.of 1))).visit (retargeting 300) ()).1.Resolved := by unfold Resolved; decide
  refine ⟨((ofScalar (.string (.of 1))).visit (retargeting 300) ()).1, ofScalar (.string (.of 300)),
    ⟨.visit _ _ (made 1), resolved'⟩, ⟨made 300, resolved⟩, ?_, by decide, ?_⟩
  · exact (write_eq_iff resolved' resolved trivial trivial).mpr ⟨rfl, by decide⟩
  · obtain ⟨bytes, success⟩ := exists_encode_of_resolved resolved'
    exact ⟨bytes, _, write_eq_ok success, (decodes_encode _ success trivial).reads, by decide⟩

end EncodedValue
end DexImage
