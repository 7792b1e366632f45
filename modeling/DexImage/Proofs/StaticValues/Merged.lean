import DexImage.Proofs.Copying.Stopped
/-! # Merging arrays

A merge with a translator that always has an answer leaves nothing of the receiver: the slots that are added or
kept are overwritten one after the other, a placeholder by a placeholder and a value by what becomes of it
(`EncodedValue.translated`). What comes out is the other array with its references translated, so of several
merges in a row only the last one counts (`EncodedArray.merge_translates`).
-/

namespace DexImage

variable {τ : Type}

/-- Gives for an index what a function has for it and its section, whatever the state is, and leaves the state alone. -/
def Translator.ofFunction (new : SectionKind → UInt32 → UInt32) : Translator τ :=
  fun kind index => pure (.ok (new kind index))

theorem Translator.identity_eq : (identity : Translator τ) = ofFunction fun _ index => index := rfl

section Translated

variable (new : SectionKind → UInt32 → UInt32)

/-! ## References that are translated -/

def Use.translated (use : Use) : Use := { use with index := new use.kind.toSection use.index }

def IdRef.translated {target : PoolKind} (ref : IdRef target) : IdRef target := ⟨ref.index.map (new target.toSection)⟩

def Scalar.translated : Scalar → Scalar
  | methodType ref => methodType (ref.translated new)
  | string ref => string (ref.translated new)
  | type ref => type (ref.translated new)
  | field ref => field (ref.translated new)
  | method ref => method (ref.translated new)
  | enum ref => enum (ref.translated new)
  | other => other

namespace EncodedValue

mutual

/-- The same value with every index in it translated, at any depth. -/
def translated : EncodedValue → EncodedValue
  | scalar value width => scalar (value.translated new) width
  | array elements => array (translatedList elements)
  | annotationBody type elements => annotationBody (type.translated new) (translatedElements elements)
  | null => null
  | boolean value => boolean value

def translatedList : List EncodedValue → List EncodedValue
  | [] => []
  | value :: rest => value.translated :: translatedList rest

def translatedElements : List (IdRef .stringId × EncodedValue) → List (IdRef .stringId × EncodedValue)
  | [] => []
  | (name, value) :: rest => (name.translated new, value.translated) :: translatedElements rest

end

end EncodedValue

/-- The same array with every index in it translated. -/
def EncodedArray.translated (array : EncodedArray) : EncodedArray :=
  ⟨.ofList (array.slots.items.map (Option.map (EncodedValue.translated new)))⟩

/-! ## What they refer to -/

theorem IdRef.use?_translated {target : PoolKind} (ref : IdRef target) (usage : Usage) :
    (ref.translated new).use? usage = (ref.use? usage).map (Use.translated new) := by
  rcases ref with ⟨_ | index⟩ <;> rfl

theorem Scalar.uses_translated (value : Scalar) : (value.translated new).uses = value.uses.map
    (Use.translated new) := by
  cases value <;> simp only [translated, uses, IdRef.use?_translated, Option.toList_map, List.map_nil]

namespace EncodedValue

mutual

theorem uses_translated : (value : EncodedValue) → (value.translated new).uses = value.uses.map (Use.translated new)
  | scalar value _ => value.uses_translated new
  | array elements => usesOfList_translated elements
  | annotationBody type elements => by
    simp only [translated, uses, IdRef.use?_translated, Option.toList_map,
      usesOfElements_translated elements, List.map_append]
  | null | boolean _ => rfl

theorem usesOfList_translated :
    (elements : List EncodedValue) → usesOfList (translatedList new elements) =
    (usesOfList elements).map (Use.translated new)
  | [] => rfl
  | value :: rest => by
    simp only [translatedList, usesOfList, uses_translated value, usesOfList_translated rest, List.map_append]

theorem usesOfElements_translated : (elements : List (IdRef .stringId × EncodedValue)) →
    usesOfElements (translatedElements new elements) = (usesOfElements elements).map (Use.translated new)
  | [] => rfl
  | (name, value) :: rest => by
    simp only [translatedElements, usesOfElements, IdRef.use?_translated, Option.toList_map, uses_translated value,
      usesOfElements_translated rest, List.map_append]

end

end EncodedValue

theorem EncodedArray.uses_translated (array : EncodedArray) :
    uses (array.translated new) = (uses array).map (Use.translated new) := by
  change ((array.slots.items.map (Option.map (EncodedValue.translated new))).filterMap id).flatMap _ =
    ((array.slots.items.filterMap id).flatMap _).map _
  induction array.slots.items with
  | nil => rfl
  | cons slot rest ih =>
    rcases slot with _ | value
    · exact ih
    · have first : taggedUses .staticValue (value.translated new).uses =
          (taggedUses .staticValue value.uses).map (Use.translated new) := by
        rw [value.uses_translated, taggedUses, taggedUses, List.map_map, List.map_map]
        rfl
      refine (congrArg₂ (· ++ ·) first ih).trans ?_
      exact List.map_append.symm

/-! ## Visits that translate -/

section Visiting

variable {new} {σ : Type} {visitor : Visitor σ} {state : σ}

/-- Whether a visitor has an answer for every reference that is present and stays in the state that it is in. -/
def Visitor.Answers (visitor : Visitor σ) (new : SectionKind → UInt32 → UInt32) (state : σ) : Prop :=
  ∀ slot, visitor slot state =
    (slot.index.elim .keep fun index => .retarget (some (new slot.kind.toSection index)), state)

theorem IdRef.visit_translated (answers : visitor.Answers new state)
    {target : PoolKind} (ref : IdRef target) (usage : Usage) :
    ref.visit visitor usage state = (ref.translated new, state) := by
  change (ref.edited (visitor (ref.slot usage) state).1, (visitor (ref.slot usage) state).2) = _
  rw [answers]
  rcases ref with ⟨_ | index⟩ <;> rfl

theorem Scalar.visit_translated (answers : visitor.Answers new state) (value : Scalar) :
    value.visit visitor state = (value.translated new, state) := by
  cases value <;> first
    | rfl
    | simp only [visit, bind, StateT.bind, IdRef.visit_translated answers]
      rfl

namespace EncodedValue

mutual

theorem visit_translated (answers : visitor.Answers new state) :
    (value : EncodedValue) → value.visit visitor state = (value.translated new, state)
  | scalar value _ => by
    simp only [visit, bind, StateT.bind, value.visit_translated answers]
    rfl
  | array elements => by
    simp only [visit, bind, StateT.bind, visitList_translated answers elements]
    rfl
  | annotationBody type elements => by
    simp only [visit, bind, StateT.bind, type.visit_translated answers, visitElements_translated answers elements]
    rfl
  | null | boolean _ => rfl

theorem visitList_translated (answers : visitor.Answers new state) :
    (elements : List EncodedValue) → visitList visitor elements state = (translatedList new elements, state)
  | [] => rfl
  | value :: rest => by
    simp only [visitList, bind, StateT.bind, visit_translated answers value, visitList_translated answers rest]
    rfl

theorem visitElements_translated (answers : visitor.Answers new state) :
    (elements : List (IdRef .stringId × EncodedValue)) →
    visitElements visitor elements state = (translatedElements new elements, state)
  | [] => rfl
  | (name, value) :: rest => by
    simp only [visitElements, bind, StateT.bind, name.visit_translated answers, visit_translated answers value,
      visitElements_translated answers rest]
    rfl

end

end EncodedValue

end Visiting

/-! ## Merges that go through -/

theorem EncodedValue.merge_ofFunction (other : EncodedValue) (state : τ) :
    merge (.ofFunction new) other state = (.ok (other.translated new), state) := by
  have translated : translate (.ofFunction new) other state = (⟨none, other.translated new⟩, state) := by
    have answers : (translating (.ofFunction new)).Answers new (none, state) := by
      rintro ⟨kind, _ | index, usage⟩ <;> rfl
    have visited :
        DexImage.visit (translating (.ofFunction new)) other (none, state) = (other.translated new, none, state) :=
      visit_translated answers other
    rw [translate_apply, visited]
  rw [merge_apply, translated]
  rfl

namespace EncodedArray

variable {front back : List ValueSlot} {dirty : Bool}

/-- The slots from where the work has got to are overwritten, and those before stay as they are. -/
private theorem go_ofFunction (slots : List ValueSlot) (fits : back.length = slots.length) (state : τ) :
    ∃ marked, merge.go (.ofFunction new) front.length slots ⟨⟨front ++ back, dirty⟩⟩ state =
      (⟨none, ⟨⟨front ++ slots.map (Option.map (EncodedValue.translated new)), marked⟩⟩⟩, state) := by
  induction slots generalizing front back dirty with
  | nil =>
    obtain rfl := List.eq_nil_of_length_eq_zero fits
    exact ⟨dirty, rfl⟩
  | cons slot rest ih =>
    obtain ⟨old, back, rfl⟩ := List.exists_cons_of_length_eq_add_one fits
    obtain ⟨marked, done⟩ := @ih (front ++ [slot.map (EncodedValue.translated new)]) back true (Nat.succ.inj fits)
    refine ⟨marked, ?_⟩
    rw [List.length_append, List.append_assoc, List.append_assoc] at done
    rcases slot with _ | coming
    · simp only [merge.go, putSlot_append]
      exact done
    · simp only [merge.go, getOrCreate_append, bind, StateT.bind, EncodedValue.merge_ofFunction, putSlot_append]
      exact done

/-- Nothing of what the receiver was is left. -/
theorem merge_ofFunction (array other : EncodedArray) (state : τ) :
    ∃ marked, merge (.ofFunction new) array other state =
    (⟨none, ⟨⟨(other.translated new).slots.items, marked⟩⟩⟩, state) :=
  @go_ofFunction τ new [] (array.setLength other.length).slots.items _ other.slots.items
    (length_setLength array other.length) state

end EncodedArray

end Translated

/-! ## Identities -/

theorem IdRef.translated_self {target : PoolKind} (ref : IdRef target) :
    ref.translated (fun _ index => index) = ref := by
  rcases ref with ⟨_ | index⟩ <;> rfl

theorem Scalar.translated_self (value : Scalar) : value.translated (fun _ index => index) = value := by
  cases value <;> simp only [translated, IdRef.translated_self]

namespace EncodedValue

mutual

theorem translated_self : (value : EncodedValue) → value.translated (fun _ index => index) = value
  | scalar value _ => by rw [translated, value.translated_self]
  | array elements => by rw [translated, translatedList_self elements]
  | annotationBody type elements => by rw [translated, type.translated_self, translatedElements_self elements]
  | null | boolean _ => rfl

theorem translatedList_self : (elements : List EncodedValue) → translatedList (fun _ index => index) elements = elements
  | [] => rfl
  | value :: rest => by rw [translatedList, translated_self value, translatedList_self rest]

theorem translatedElements_self :
    (elements : List (IdRef .stringId × EncodedValue)) → translatedElements (fun _ index => index) elements = elements
  | [] => rfl
  | (name, value) :: rest => by
    rw [translatedElements, name.translated_self, translated_self value, translatedElements_self rest]

end

end EncodedValue

namespace EncodedArray

/-- Merging with the identity copies the slots. -/
theorem merge_identity (array other : EncodedArray) (state : τ) :
    ∃ marked, merge .identity array other state = (⟨none, ⟨⟨other.slots.items, marked⟩⟩⟩, state) := by
  have same : (other.translated fun _ index => index).slots.items = other.slots.items := by
    change other.slots.items.map _ = _
    rw [funext EncodedValue.translated_self, Option.map_id_fun', List.map_id]
  obtain ⟨marked, done⟩ := merge_ofFunction (fun _ index => index) array other state
  exact ⟨marked, by rw [Translator.identity_eq, done, same]⟩

/-- With a translator that always has an answer, a merge goes through and leaves the other array with every
index translated: a placeholder for a placeholder, and for a value that value. With the identity, it does not
matter whether two arrays are merged one after the other or the second one is first merged into the first. -/
theorem merge_translates (new : SectionKind → UInt32 → UInt32) (array other third : EncodedArray) (state : τ) :
    (∃ merged, merge (.ofFunction new) array other state = (⟨none, merged⟩, state) ∧
      (merged == other.translated new) = true ∧
        (∀ index, merged.slot? index = (other.slot? index).map (Option.map (EncodedValue.translated new))) ∧
          uses merged = (uses other).map (Use.translated new)) ∧
      ∃ stepwise whole combined atOnce, merge .identity array other state = (⟨none, stepwise⟩, state) ∧
        merge .identity stepwise third state = (⟨none, whole⟩, state) ∧
          merge .identity other third state = (⟨none, combined⟩, state) ∧
            merge .identity array combined state = (⟨none, atOnce⟩, state) ∧ (whole == atOnce) = true := by
  constructor
  · obtain ⟨marked, done⟩ := merge_ofFunction new array other state
    refine ⟨_, done, beq_self_eq_true (other.translated new).slots.items, fun index => ?_, ?_⟩
    · exact List.getElem?_map
    · exact (rfl : _ = uses (other.translated new)).trans (other.uses_translated new)
  · obtain ⟨_, stepwise⟩ := merge_identity array other state
    obtain ⟨_, whole⟩ := merge_identity _ third state
    obtain ⟨_, combined⟩ := merge_identity other third state
    obtain ⟨_, atOnce⟩ := merge_identity array _ state
    exact ⟨_, _, _, _, stepwise, whole, combined, atOnce, beq_self_eq_true third.slots.items⟩

end EncodedArray

end DexImage
