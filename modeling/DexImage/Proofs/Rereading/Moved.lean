import DexImage.Proofs.Loading.Code
import DexImage.Proofs.Traversals
/-! # Items that lie elsewhere

An item that is written again lies elsewhere, and so do the items that it refers to. It is read back with the
new offsets and without edit marks (`moved`), and equals the item that was written.
-/

namespace DexImage

/-- The offsets of the items of all kinds. -/
def OffsetTable.finder (offsets : OffsetTable) : Finder := fun slot =>
  slot.index.bind (offsets.offset? slot.kind.toSection)

/-- The item without edit marks, as one that has just been read. -/
def unmarked : {kind : PoolKind} → Item kind → Item kind
  | .code, code => CodeItem.reread code
  | .encodedArray, array => EncodedArray.mk (.ofList array.slots.items)
  | _, item => item

/-- The item as it is read where its references find the offsets of their targets. -/
def moved (find : Finder) {kind : PoolKind} (item : Item kind) : Item kind := unmarked (locate find item)

theorem untouched_unmarked {kind : PoolKind} (item : Item kind) : untouched (unmarked item) = untouched item := by
  cases kind with
  | code =>
    obtain ⟨registers, ins, outs, debugInfo, instructions, _ | table⟩ := item
    · rfl
    · rfl
  | _ => rfl

theorem encode_unmarked {kind : PoolKind} (item : Item kind) : encode (unmarked item) = encode item := by
  rw [← encode_untouched, untouched_unmarked, encode_untouched]

section Locating

variable {find first : Finder}

/-- What is told last, or else what has been told first. -/
def Finder.or (find first : Finder) : Finder := fun slot => (find slot).or (first slot)

theorem DataRef.located_located {target : PoolKind} (usage : Usage) (ref : DataRef target) :
    (ref.located first usage).located find usage = ref.located (find.or first) usage := by
  have slot : (ref.located first usage).slot usage = ref.slot usage := by
    rw [located, Finder.edit]
    cases first (ref.slot usage) with
    | none => rfl
    | some offset => cases ref <;> rfl
  rw [located, slot, located, located, Finder.edit, Finder.edit, Finder.edit, Finder.or]
  cases find (ref.slot usage) with
  | none => cases first (ref.slot usage) <;> rfl
  | some offset =>
    cases first (ref.slot usage) with
    | none => rfl
    | some earlier => cases ref <;> rfl

/-- What is told in two turns can be told in one. -/
theorem locate_locate {kind : PoolKind} (item : Item kind) :
    locate find (locate first item) = locate (find.or first) item := by
  have refs {target : PoolKind} (usage : Usage) (refs : List (DataRef target)) :
      (refs.map (DataRef.located first usage)).map (DataRef.located find usage) =
        refs.map (DataRef.located (find.or first) usage) := by
    rw [List.map_map]
    exact List.map_congr_left fun ref _ => ref.located_located usage
  have methods (entries : List DefinedMethod) :
    (entries.map (DefinedMethod.located first)).map (DefinedMethod.located find) =
      entries.map (DefinedMethod.located (find.or first)) := by
    rw [List.map_map]
    exact List.map_congr_left fun entry _ => congrArg (DefinedMethod.mk _ _) (entry.code.located_located _)
  have members {member target : PoolKind} (entries : List (AnnotatedMember member target)) :
      (entries.map (AnnotatedMember.located first)).map (AnnotatedMember.located find) =
        entries.map (AnnotatedMember.located (find.or first)) := by
    rw [List.map_map]
    exact List.map_congr_left fun entry _ => congrArg (AnnotatedMember.mk _) (entry.annotations.located_located _)
  cases kind with
  | protoId => exact congrArg (ProtoId.mk _ _) (DataRef.located_located _ _)
  | classDef => simp only [locate, DataRef.located_located]
  | annotationSetRefList => exact congrArg AnnotationSetRefList.mk (refs _ _)
  | annotationSet => exact congrArg AnnotationSet.mk (refs _ _)
  | classData => simp only [locate, methods]
  | code =>
    obtain ⟨registers, ins, outs, debugInfo, instructions, _ | table⟩ := item
    · exact congrArg (CodeItem.mk _ _ _ · _ _) (debugInfo.located_located _)
    · exact congrArg (CodeItem.mk _ _ _ · _ _) (debugInfo.located_located _)
  | annotationsDirectory => simp only [locate, members, DataRef.located_located]
  | _ => rfl

theorem locate_untouched {kind : PoolKind} (item : Item kind) : locate find (untouched item) = locate find item := by
  rw [untouched, locate_locate]
  congr
  funext slot
  exact Option.or_none

/-- Only what is known of data items matters. -/
theorem locate_congr {kind : PoolKind} (item : Item kind)
    (same : ∀ slot : Slot, slot.kind.toSection.isIdTable = false → find slot = first slot) :
    locate find item = locate first item := by
  rw [← fill_finder, ← fill_finder]
  refine congrArg ((itemHolding kind).fill item) (List.map_congr_left fun one member => ?_)
  have proper := proper_of_held item one member
  rw [Finder.edit, Finder.edit]
  cases one with
  | id | operand => cases find _ <;> cases first _ <;> rfl
  | data target usage state => rw [same (Held.data target usage state).slot proper]

/-- Neither edit marks nor earlier offsets matter to where an item lies. -/
theorem locate_moved {kind : PoolKind} (item : Item kind) : locate find (moved find item) = locate find item := by
  rw [moved, ← locate_untouched, untouched_unmarked, locate_untouched, locate_locate]
  congr
  funext slot
  rw [Finder.or, Option.or_self]

/-- Whether what the references of an item know is what they would be told. -/
def Knows (find : Finder) {kind : PoolKind} (item : Item kind) : Prop :=
  ∀ target usage index known, Held.data target usage (some (index, known)) ∈ (itemHolding kind).held item →
    ∀ offset, find ⟨target, some index, usage⟩ = some offset → known = some offset

/-- An item whose references know the offsets already changes in its edit marks alone. -/
theorem Knows.locate_eq {kind : PoolKind} {item : Item kind} (knows : Knows find item) :
    locate find item = untouched item := by
  rw [← fill_finder find item, untouched, ← fill_finder]
  refine congrArg ((itemHolding kind).fill item) (List.map_congr_left fun one member => ?_)
  rw [Finder.edit, Finder.edit]
  dsimp only
  cases told : find one.slot with
  | none => rfl
  | some offset =>
    cases one with
    | id | operand => rfl
    | data target usage state =>
      cases state with
      | none => rfl
      | some state =>
        obtain ⟨index, known⟩ := state
        obtain rfl := knows target usage index known member offset told
        rfl

theorem Knows.encode_locate {kind : PoolKind} {item : Item kind} (knows : Knows find item) :
    encode (locate find item) = encode item := by
  rw [knows.locate_eq, encode_untouched]

/-- What stands in a place is told the offset of its target, whatever it knew of it before. -/
theorem Finder.edited_eq_of_alike {one other : Held} (blank : one.blank = other.blank) (slot : one.slot = other.slot)
    (kept : one.isLost = false) (kept' : other.isLost = false)
    (finds : ∀ target usage index known, one = .data target usage (some (index, known)) →
      (find ⟨target, some index, usage⟩).isSome) :
    one.edited (find.edit one.slot) = other.edited (find.edit other.slot) := by
  cases one with
  | id =>
    cases other <;> cases blank
    cases slot
    rfl
  | operand =>
    cases other <;> cases blank
    cases slot
    obtain rfl : _ = false := kept
    obtain rfl : _ = false := kept'
    rfl
  | data target usage state =>
    cases other <;> cases blank
    rename_i state'
    have indices : state'.map Prod.fst = state.map Prod.fst := (congrArg Slot.index slot).symm
    rcases state with _ | ⟨index, known⟩
    · rw [Option.map_none, Option.map_eq_none_iff] at indices
      rw [indices]
    · obtain ⟨⟨place, known'⟩, rfl, same⟩ := Option.map_eq_some_iff.mp indices
      obtain rfl : index = place := same.symm
      obtain ⟨offset, found⟩ := Option.isSome_iff_exists.mp (finds _ _ _ _ rfl)
      have edit (known : Option UInt32) : (Held.data target usage (some (index, known))).edited
          (find.edit (Held.data target usage (some (index, known))).slot) =
            .data target usage (some (index, some offset)) := by
        rw [Finder.edit,
          show (Held.data target usage (some (index, known))).slot = ⟨target, some index, usage⟩ from rfl, found]
        rfl
      exact (edit known).trans (edit known').symm

/-- Items that differ in edit marks and known offsets lie in the same place when they are told all offsets. -/
theorem locate_eq_of_alike {kind : PoolKind} {item other : Item kind} (alike : Alike item other)
    (finds : ∀ target usage index known, Held.data target usage (some (index, known)) ∈ (itemHolding kind).held item →
      (find ⟨target, some index, usage⟩).isSome) : locate find item = locate find other := by
  have told (item : Item kind) : locate find item = (itemHolding kind).fill ((itemHolding kind).form item)
      (((itemHolding kind).held item).map fun one => one.edited (find.edit one.slot)) := by
    rw [← fill_finder, (itemHolding kind).fill_form ((itemHolding kind).fits_edited item _)]
  rw [told item, told other, alike.form]
  -- At each position the two items hold what differs in the offset that is known for it alone.
  have blanks := congrArg (itemHolding kind).held alike.form
  rw [Holding.held_form, Holding.held_form] at blanks
  refine congrArg _ (List.ext_getElem? fun position => ?_)
  have blank := congrArg (·[position]?) blanks
  have slot := congrArg (·[position]?) alike.slots
  simp only [List.getElem?_map] at blank slot ⊢
  rcases here : ((itemHolding kind).held item)[position]? with _ | one
  · rw [here] at slot
    rw [Option.map_none, Option.map_eq_none_iff.mp slot.symm, Option.map_none]
  · rw [here] at blank slot
    obtain ⟨second, there, slot⟩ := Option.map_eq_some_iff.mp slot.symm
    rw [there] at blank ⊢
    refine congrArg some (find.edited_eq_of_alike (Option.some.inj blank) slot.symm
      (((itemHolding kind).lawful item).kept one (List.mem_of_getElem? here)).1
      (((itemHolding kind).lawful other).kept second (List.mem_of_getElem? there)).1 ?_)
    rintro target usage index known rfl
    exact finds target usage index known (List.mem_of_getElem? here)

end Locating

section Equality

variable (find : Finder)

theorem DataRef.index_located {target : PoolKind} (usage : Usage) (ref : DataRef target) :
    (ref.located find usage).index = ref.index := by
  rw [located, Finder.edit]
  cases find (ref.slot usage) with
  | none => rfl
  | some offset => cases ref <;> rfl

theorem DataRef.located_beq {target : PoolKind} (usage : Usage) (ref : DataRef target) :
    (ref.located find usage == ref) = true := by
  change ((ref.located find usage).index == ref.index) = true
  rw [index_located, beq_self_eq_true]

theorem DefinedMethod.located_beq (entry : DefinedMethod) : (entry.located find == entry) = true := by
  change (entry.method == entry.method &&
    (entry.access == entry.access && entry.code.located find .code == entry.code)) = true
  rw [DataRef.located_beq, beq_self_eq_true, beq_self_eq_true, Bool.and_self, Bool.and_self]

theorem AnnotatedMember.located_beq {member target : PoolKind} (entry : AnnotatedMember member target) :
    (entry.located find == entry) = true := by
  change (entry.member == entry.member && entry.annotations.located find .annotated == entry.annotations) = true
  rw [DataRef.located_beq, beq_self_eq_true, Bool.and_self]

/-- An item that lies elsewhere equals what it was. -/
theorem moved_beq {kind : PoolKind} (item : Item kind) : (moved find item == item) = true := by
  cases kind with
  | protoId =>
    obtain ⟨shorty, returnType, parameters⟩ := (item : ProtoId)
    change (shorty == shorty && (returnType == returnType && parameters.located find .idItem == parameters)) = true
    simp only [DataRef.located_beq, beq_self_eq_true, Bool.and_self]
  | classDef =>
    obtain ⟨type, access, superclass, interfaces, sourceFile, annotations, classData, staticValues⟩ := (item : ClassDef)
    change (type == type && (access == access &&
      (superclass == superclass && (interfaces.located find .definition == interfaces &&
      (sourceFile == sourceFile && (annotations.located find .annotated == annotations &&
        (classData.located find .definition == classData &&
          staticValues.located find .staticValue == staticValues))))))) = true
    simp only [DataRef.located_beq, beq_self_eq_true, Bool.and_self]
  | annotationSetRefList => exact List.map_beq (DataRef.located_beq find .annotated) (item : AnnotationSetRefList).sets
  | annotationSet => exact List.map_beq (DataRef.located_beq find .annotated) (item : AnnotationSet).items
  | classData =>
    obtain ⟨staticFields, instanceFields, directMethods, virtualMethods⟩ := (item : ClassData)
    change (staticFields == staticFields && (instanceFields == instanceFields &&
      (directMethods.map (DefinedMethod.located find) == directMethods &&
        virtualMethods.map (DefinedMethod.located find) == virtualMethods))) = true
    simp only [List.map_beq (DefinedMethod.located_beq find), beq_self_eq_true, Bool.and_self]
  | code =>
    obtain ⟨registers, ins, outs, debugInfo, instructions, tryTable⟩ := (item : CodeItem)
    have table : ((tryTable.map fun table => { table with handlers := table.handlers.markDirty }).map
        (fun table => { table with handlers := .ofList table.handlers.items }) == tryTable) = true := by
      cases tryTable with
      | none => rfl
      | some table => exact beq_self_eq_true (some table)
    change (registers == registers && (ins == ins && (outs == outs && (debugInfo.located find .debug == debugInfo &&
      (instructions == instructions && _ == tryTable))))) = true
    simp only [DataRef.located_beq, beq_self_eq_true, Bool.true_and]
    exact table
  | encodedArray => exact beq_self_eq_true (item : EncodedArray)
  | annotationsDirectory =>
    obtain ⟨classSet, fields, methods, parameters⟩ := (item : AnnotationsDirectory)
    change (classSet.located find .annotated == classSet && (fields.map (AnnotatedMember.located find) == fields &&
      (methods.map (AnnotatedMember.located find) == methods &&
        parameters.map (AnnotatedMember.located find) == parameters))) = true
    simp only [DataRef.located_beq, List.map_beq (AnnotatedMember.located_beq find), Bool.and_self]
  | _ => exact beq_self_eq_true item

end Equality
end DexImage
