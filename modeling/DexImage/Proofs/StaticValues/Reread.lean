import Mathlib
import DexImage.Proofs.RoundTrip
import DexImage.Proofs.StaticValues.Written
/-! # Static fields and their values in what is read back

Names are made of the id tables and of parameter lists, which are read back as they were written, so that whatever
is read back has the name that it was written with (`Pools.Reread.counterparts`). The values of a class come back by
value, and they belong to the fields that they were written behind (`Pools.initials_reread`).
-/

namespace DexImage

open Pools (get?_of_le)

/-- Whether an item that names are made of is the one that was written: an entry of an id table in its place, or a
parameter list with the same contents. -/
def NamedAlike (written read : Pools) : Relation := fun kind old new =>
  kind.isKeyed = true ∧ new = old ∨ kind = .typeList ∧ SameContents written read kind old new

theorem NamedAlike.isNamed {written read : Pools} {kind : PoolKind} {old new : UInt32}
    (alike : NamedAlike written read kind old new) : kind.isNamed = true := by
  rcases alike with ⟨keyed, -⟩ | ⟨rfl, -⟩
  · exact Bool.or_eq_true_iff.mpr (.inl keyed)
  · rfl

theorem Held.Matches.leads {written read : Pools} {one other : Held}
    (matching : Held.Matches (SameContents written read) one other) (name : one.isName = true) :
    Slot.Leads (NamedAlike written read) written one.slot other.slot := by
  cases matching with
  | id target usage index =>
    refine ⟨rfl, ?_⟩
    cases index with
    | none => exact .inr ⟨rfl, fun _ some => nomatch some⟩
    | some index => exact .inl ⟨index, index, rfl, rfl, .inl ⟨name, rfl⟩⟩
  | operand => cases name
  | absent => exact ⟨rfl, .inr ⟨rfl, fun _ some => nomatch some⟩⟩
  | data _ _ _ leads =>
    exact ⟨rfl, .inl ⟨_, _, rfl, rfl, .inr ⟨beq_iff_eq.mp name, leads⟩⟩⟩

namespace Pools.Reread

variable {written read : Pools} (reread : written.Reread read)
include reread

/-- Id tables are read back entry by entry. -/
theorem table {kind : PoolKind} (keyed : kind.isKeyed = true) :
    List.Forall₂ ((itemHolding kind).Matches (SameContents written read)) (written.pool kind).items
      (read.pool kind).items := by
  have same {kind : PoolKind} (dataless : ∀ (item : Item kind) find other, locate find item = locate other item)
      (items : (read.pool kind).items = (written.pool kind).items) :
      List.Forall₂ ((itemHolding kind).Matches (SameContents written read)) (written.pool kind).items
        (read.pool kind).items := by
    rw [items]
    exact List.forall₂_same.mpr fun item _ => .refl (dataless_of_locate (dataless item))
  cases kind with
  | stringId => exact @same .stringId (fun _ _ _ => rfl) reread.strings
  | typeId => exact @same .typeId (fun _ _ _ => rfl) reread.types
  | fieldId => exact @same .fieldId (fun _ _ _ => rfl) reread.fields
  | methodId => exact @same .methodId (fun _ _ _ => rfl) reread.methods
  | protoId => exact reread.protos
  | _ => cases keyed

/-- What names are made of is read back. -/
theorem counterparts : Counterparts (NamedAlike written read) written read where
  items := by
    intro kind old new alike _
    have leads {item other : Item kind} (matching : (itemHolding kind).Matches (SameContents written read) item other) :
        List.Forall₂ (Slot.Leads (NamedAlike written read) written) (DexImage.slots item) (DexImage.slots other) := by
      rw [slots_eq, slots_eq, List.forall₂_map_left_iff, List.forall₂_map_right_iff]
      refine List.Forall₂.of_getElem? matching.held.length_eq fun position one found => ?_
      obtain ⟨other, there, same⟩ := matching.held.getElem?_left found
      exact ⟨other, there, same.leads (isName_of_held alike.isNamed item one (List.mem_of_getElem? found))⟩
    rcases alike with ⟨keyed, rfl⟩ | ⟨rfl, same⟩
    · have table := reread.table keyed
      have sizes : (written.pool kind).size = (read.pool kind).size := by
        rw [← Pool.length_items, table.length_eq, Pool.length_items]
      rcases Nat.lt_or_ge new.toNat (written.pool kind).size with inside | beyond
      · obtain ⟨other, there, matching⟩ := table.getElem?_left (List.getElem?_eq_getElem (by rwa [Pool.length_items]))
        exact .inr ⟨_, other, Pool.get?_eq_some.mpr (List.getElem?_eq_getElem _), Pool.get?_eq_some.mpr there,
          matching.form.symm, leads matching⟩
      · exact .inl ⟨get?_of_le beyond, get?_of_le (sizes ▸ beyond)⟩
    · cases same with
      | intro related found there matching deeper =>
        exact .inr ⟨_, _, found, there, matching.form.symm, leads (matching.mono deeper)⟩

theorem nameOfHeld?_eq : read.nameOfHeld? = written.nameOfHeld? := by
  funext one
  rw [nameOfHeld?, nameOfHeld?]
  congr 1
  funext index
  by_cases keyed : one.kind.isKeyed = true
  · exact (reread.counterparts.name_eq (.inl ⟨keyed, rfl⟩)).symm
  · cases kind : one.kind <;> first | rfl | exact absurd (kind ▸ rfl) keyed

theorem fieldKey?_eq : read.fieldKey? = written.fieldKey? := by
  funext entry
  rw [fieldKey?, fieldKey?]
  congr 1
  funext index
  exact (reread.counterparts.fieldKey_eq (.inl ⟨rfl, rfl⟩)).symm

theorem namedValue_eq : read.namedValue = written.namedValue := by
  funext slot
  rw [namedValue, namedValue, reread.nameOfHeld?_eq]

end Pools.Reread

/-- Class data with the same contents defines the same static fields. -/
theorem ClassData.staticFields_of_matches {related : Relation} {data copy : ClassData}
    (matching : ClassData.holding.Matches related data copy) :
    data.staticFields.map (·.field.index) = copy.staticFields.map (·.field.index) := by
  unfold ClassData.holding at matching
  refine matching.of_part.of_pair.1.of_list.map_eq fun same => ?_
  unfold DefinedField.holding at same
  exact congrArg IdRef.index (IdRef.eq_of_matches same.of_part)

namespace Pools

/-- The widths that values are written with do not matter. -/
theorem namedValue_effective (pools : Pools) (slot : ValueSlot) :
    pools.namedValue (some (slot.getD .null).effective) = pools.namedValue slot := by
  have form := EncodedValue.plain_form_effective (slot.getD .null)
  have held := EncodedValue.held_effective (slot.getD .null)
  change NamedValue.mk (EncodedValue.holding.form (slot.getD .null).effective).plain
    ((slot.getD .null).effective.held.map pools.nameOfHeld?) = _
  rw [form, held]
  rfl

/-- Arrays with the same contents hold the same values by name. -/
theorem namedValues_of_matches (pools : Pools) {related : Relation} {array copy : EncodedArray}
    (matching : EncodedArray.holding.Matches related array.effective copy.effective) :
    array.slots.items.map pools.namedValue = copy.slots.items.map pools.namedValue := by
  have held := matching.held_eq (@dataless_of_locate .encodedArray array.effective fun _ _ => rfl)
  have forms := congrArg (fun array : EncodedArray => array.slots.items) matching.form
  unfold EncodedArray.holding at forms
  rw [Holding.form_part, Holding.form_part, Holding.form_list, Holding.form_list] at forms
  have effective : array.effective.slots.items.map pools.namedValue = copy.effective.slots.items.map pools.namedValue :=
    Counterparts.namedValues_eq forms (congrArg (List.map pools.nameOfHeld?) held)
  have widths (array : EncodedArray) : array.effective.slots.items.map pools.namedValue =
      array.slots.items.map pools.namedValue :=
    List.map_map.trans (List.map_congr_left fun slot _ => pools.namedValue_effective slot)
  rwa [widths, widths] at effective

/-- References that match lead to items with the same contents, or to none. -/
theorem resolve?_of_matches {written read : Pools} {target : PoolKind} {usage : Usage} {one other : DataRef target}
    (matching : Held.Matches (SameContents written read)
      (.data target usage one.state) (.data target usage other.state)) :
    written.resolve? one = none ∧ read.resolve? other = none ∨
      ∃ item copy, written.resolve? one = some item ∧ read.resolve? other = some copy ∧
        (itemHolding target).Matches (SameContents written read) (effective item) (effective copy) := by
  generalize left : one.state = first at matching
  generalize right : other.state = second at matching
  cases matching with
  | absent =>
    cases one <;> cases left
    cases other <;> cases right
    exact .inl ⟨rfl, rfl⟩
  | data _ known known' leads =>
    have follow {ref : DataRef target} {index : UInt32} {known : Option UInt32}
      (state : ref.state = some (index, known))
        (pools : Pools) : pools.resolve? ref = pools.get? target index := by
      cases ref <;> cases state <;> rfl
    obtain ⟨related, found, there, matching, deeper⟩ := leads
    rw [follow left, follow right]
    exact .inr ⟨_, _, found, there, matching.mono deeper⟩

section Reread

variable {written read : Pools} (reread : written.Reread read)
include reread

/-- The same fields with the same values are paired alike. -/
theorem paired_reread {fields others : List DefinedField} {values slots : List ValueSlot}
    (same : fields.map (·.field.index) = others.map (·.field.index))
    (named : values.map written.namedValue = slots.map written.namedValue) :
    read.paired others slots = written.paired fields values := by
  have keys (fields : List DefinedField) : fields.map written.fieldKey? = (fields.map (·.field.index)).map
      (fun index => index.bind fun index => (FieldKey.at? written index).toOption) := by
    rw [List.map_map]
    rfl
  rw [Pools.paired, Pools.paired, reread.fieldKey?_eq, reread.namedValue_eq, keys, keys, same, named]

/-- Class definitions with the same contents have the same static fields and values. -/
theorem statics_of_matches {definition copy : ClassDef}
    (matching : ClassDef.holding.Matches (SameContents written read) definition copy) :
    (read.staticsOf? copy).map (fun statics => read.paired statics.1 statics.2) =
      (written.staticsOf? definition).map fun statics => written.paired statics.1 statics.2 := by
  -- The references to class data and to the array of values are the last but one and the last that it holds.
  obtain _ | ⟨_, _ | ⟨_, _ | ⟨_, _ | ⟨_, _ | ⟨_, _ | ⟨data, _ | ⟨array, -⟩⟩⟩⟩⟩⟩⟩ := matching.held
  rw [staticsOf?, staticsOf?]
  rcases resolve?_of_matches data with ⟨missing, missing'⟩ | ⟨data, other, found, there, same⟩
  · rw [missing, missing']
    rfl
  rw [found, there]
  rcases resolve?_of_matches array with ⟨missing, missing'⟩ | ⟨array, copy, found, there, values⟩
  · rw [missing, missing']
    rfl
  rw [found, there]
  exact congrArg some
    (paired_reread reread (ClassData.staticFields_of_matches same) (written.namedValues_of_matches values))

end Reread

/-- The static fields and values that are read back are those that were written. -/
theorem initials_reread {written read : Pools} (reread : written.Reread read) (index : UInt32) :
    read.initials index = written.initials index := by
  have definitions := reread.classDefs
  have sizes : (written.pool .classDef).size = (read.pool .classDef).size := by
    rw [← Pool.length_items, ← Pool.length_items]
    exact definitions.length_eq
  rw [initials, initials, statics?, statics?]
  rcases Nat.lt_or_ge index.toNat (written.pool .classDef).size with inside | beyond
  · obtain ⟨copy, there, matching⟩ :=
      definitions.getElem?_left (List.getElem?_eq_getElem (by rwa [← Pool.length_items] at inside))
    have copied : read.get? .classDef index = some copy := Pool.get?_eq_some.mpr there
    have found : written.get? .classDef index = some _ :=
      Pool.get?_eq_some.mpr (List.getElem?_eq_getElem (by rwa [Pool.length_items]))
    rw [copied, found]
    exact statics_of_matches reread matching
  · rw [get?_of_le beyond, get?_of_le (sizes ▸ beyond)]
    rfl

end Pools

namespace Image

open Pools (initials initials_reread)

/-- A class definition that is carried along, written and read back has its static fields in the order of their
indices, and its values where they were. Fields that were in this order keep their values. -/
theorem initials_written {first image after : Image} {old index : UInt32} {bytes : Bytes} {fields : List DefinedField}
    {values : List ValueSlot} (reached : image.Reached) (carries : Carries first old image index)
    (statics : image.pools.statics? index = some (fields, values)) (success : image.write = (.ok bytes, after)) :
    first.pools.initials old = some (image.pools.paired fields values) ∧ ∃ again,
    Image.read bytes .lenient = .ok again ∧
      again.pools.initials index = some (image.pools.paired (DefinedField.sort fields) values) ∧
      (fields.Pairwise (fun a b => a.field.raw ≤ b.field.raw) →
        again.pools.initials index = first.pools.initials old) := by
  obtain ⟨again, decoded, -, reread⟩ := reached.sane.reread_of_write success
  have before : first.pools.initials old = some (image.pools.paired fields values) := by
    rw [carries.initials_eq.2, initials, statics]
    rfl
  have written : again.pools.initials index = some (image.pools.paired (DefinedField.sort fields) values) := by
    rw [initials_reread reread, initials_of_write statics success]
  refine ⟨before, again, decoded, written, fun ordered => ?_⟩
  have same : DefinedField.sort fields = fields := List.mergeSort_of_pairwise (by simpa using ordered)
  rw [written, before, same]

/-- An image with a class whose one static field has the initial value 10. -/
def oneStatic : Image :=
  let (field, pools) := Pools.internField "LA;" "a" "I" .empty
  let (type, pools) := Pools.internType "LA;" pools
  let data : ClassData := ⟨[⟨.of field, 8⟩], [], [], []⟩
  let definition : ClassDef := ⟨.of type, 1, .absent, .absent, .absent, .absent, .unplaced 0, .unplaced 0⟩
  { header := .ofVersion 35
    pools :=
      ((pools.push .classData data).push .encodedArray ⟨.ofList [some (.scalar (.int 10) 1)]⟩).push .classDef definition
    map := .empty }

/-- The class is read from one image, merged into another, written and read back. -/
theorem initials_written_oneStatic : ∃ bytes source written after again, oneStatic.write.1 = .ok bytes ∧
    Image.read bytes .lenient = .ok source ∧ ((ofVersion 35).mergeClass source 0).2.write = (.ok written, after) ∧
      Image.read written .lenient = .ok again ∧ (source.pools.initials 0).isSome ∧
        again.pools.initials 0 = source.pools.initials 0 := by
  have run : (oneStatic.write.1 >>= fun bytes => Image.read bytes .lenient >>= fun source =>
      ((ofVersion 35).mergeClass source 0).1 >>= fun index =>
        ((ofVersion 35).mergeClass source 0).2.write.1 >>= fun _ =>
        pure (decide (0 < source.pools.classDefs.size ∧ index = 0) &&
          (((ofVersion 35).mergeClass source 0).2.pools.statics? 0).any (·.1.length ≤ 1) &&
          PoolKind.all.all fun kind => (((ofVersion 35).mergeClass source 0).2.pools.pool kind).size ≤
            UInt32.size)).toOption =
      some true := by decide +kernel
  obtain ⟨checked, run, same⟩ : ∃ checked, _ = Except.ok checked ∧ checked = true := by
    obtain ⟨checked, ok⟩ := Result.exists_of_toOption (Option.isSome_of_eq_some run)
    exact ⟨checked, ok, Option.some.inj ((congrArg Except.toOption ok).symm.trans run)⟩
  obtain ⟨bytes, encoded, run⟩ := Result.bind_eq_ok.mp run
  obtain ⟨source, decoded, run⟩ := Result.bind_eq_ok.mp run
  obtain ⟨index, merged, run⟩ := Result.bind_eq_ok.mp run
  obtain ⟨written, success, run⟩ := Result.bind_eq_ok.mp run
  have conditions := (Except.ok.inj run).trans same
  simp only [Bool.and_eq_true, decide_eq_true_eq, List.all_eq_true] at conditions
  obtain ⟨⟨⟨inside, rfl⟩, few⟩, sizes⟩ := conditions
  generalize found : ((ofVersion 35).mergeClass source 0).2.pools.statics? 0 = statics at few
  obtain _ | ⟨fields, values⟩ := statics
  · cases few
  have carries : Carries source 0 ((ofVersion 35).mergeClass source 0).2 0 :=
    .copied (.refl inside) (Prod.ext merged rfl) fun kind => sizes kind (PoolKind.mem_all kind)
  obtain ⟨before, again, reread, -, kept⟩ := initials_written (.merged 0 (.new 35) (.read decoded)) carries found
    (Prod.ext success rfl)
  have ordered : fields.Pairwise fun a b => a.field.raw ≤ b.field.raw := by
    rcases fields with _ | ⟨field, _ | ⟨other, rest⟩⟩
    · exact .nil
    · exact List.pairwise_singleton ..
    · simp at few
  exact ⟨bytes, source, written, _, again, encoded, decoded, Prod.ext success rfl, reread,
    by rw [before]; rfl, kept ordered⟩

/-- An image with a class of which two static fields, `b` and `a`, have the initial values 10 and 20. -/
def twoStatics : Image :=
  let (b, pools) := Pools.internField "LA;" "b" "I" .empty
  let (a, pools) := Pools.internField "LA;" "a" "I" pools
  let (type, pools) := Pools.internType "LA;" pools
  let data : ClassData := ⟨[⟨.of b, 8⟩, ⟨.of a, 8⟩], [], [], []⟩
  let values : EncodedArray := ⟨.ofList [some (.scalar (.int 10) 1), some (.scalar (.int 20) 1)]⟩
  let definition : ClassDef := ⟨.of type, 1, .absent, .absent, .absent, .absent, .unplaced 0, .unplaced 0⟩
  { header := .ofVersion 35
    pools := ((pools.push .classData data).push .encodedArray values).push .classDef definition
    map := .empty }

/-- The image with its id tables in order. -/
def twoStaticsSorted : Image :=
  { header := .ofVersion 35
    pools := { Pools.empty with
      strings := .ofList [.decoded "I", .decoded "LA;", .decoded "a", .decoded "b"]
      types := .ofList [⟨.of 0⟩, ⟨.of 1⟩]
      fields := .ofList [⟨.of 1, .of 0, .of 2⟩, ⟨.of 1, .of 0, .of 3⟩]
      classDefs := .ofList [⟨.of 1, 1, .absent, .absent, .absent, .absent, .unplaced 0, .unplaced 0⟩]
      classData := .ofList [⟨[⟨.of 1, 8⟩, ⟨.of 0, 8⟩], [], [], []⟩]
      encodedArrays := .ofList [⟨⟨[some (.scalar (.int 10) 1), some (.scalar (.int 20) 1)], true⟩⟩] }
    map := .empty }

/-- A field of the class. -/
def intField (name : String) : FieldKey := ⟨⟨"LA;"⟩, name, ⟨"I"⟩⟩

def intValue (number : Int32) : NamedValue := ⟨.scalar (.int number) 0, []⟩

theorem sortIds_twoStatics : twoStatics.sortIds = .ok twoStaticsSorted := by cbv

/-- The image with its items up to date. -/
def twoStaticsRefreshed : Image :=
  { twoStaticsSorted with pools := { twoStaticsSorted.pools with
      classData := .ofList [⟨[⟨.of 0, 8⟩, ⟨.of 1, 8⟩], [], [], []⟩]
      encodedArrays := .ofList [⟨⟨[some (.scalar (.int 10) 1), some (.scalar (.int 20) 1)], false⟩⟩] } }

theorem refreshAll_twoStaticsSorted : twoStaticsSorted.pools.refreshAll = twoStaticsRefreshed.pools := by cbv

/-- Sorting puts the field `a` first, and then each field has the value of the other. -/
theorem initials_twoStatics_swapped :
    twoStatics.pools.initials 0 = some [(some (intField "b"), intValue 10), (some (intField "a"), intValue 20)] ∧
      ∃ sorted bytes written again, twoStatics.sortIds = .ok sorted ∧ sorted.write = (.ok bytes, written) ∧
        Image.read bytes .lenient = .ok again ∧
        again.pools.initials 0 = some [(some (intField "a"), intValue 10), (some (intField "b"), intValue 20)] := by
  have before : twoStatics.pools.initials 0 =
      some [(some (intField "b"), intValue 10), (some (intField "a"), intValue 20)] := by decide +kernel
  have after : ((twoStaticsSorted.write.1 >>= fun bytes => Image.read bytes .lenient).toOption.map fun again =>
      again.pools.initials 0) =
        some (some [(some (intField "a"), intValue 10), (some (intField "b"), intValue 20)]) := by
    rw [write, refreshAll_twoStaticsSorted]
    decide +kernel
  refine ⟨before, ?_⟩
  rcases written : twoStaticsSorted.write with ⟨fault | bytes, image⟩
  · rw [written] at after
    cases after
  rcases reread : Image.read bytes .lenient with fault | again
  · rw [written] at after
    simp only [bind, Except.bind, reread] at after
    cases after
  · rw [written] at after
    simp only [bind, Except.bind, reread] at after
    exact ⟨_, bytes, image, again, sortIds_twoStatics, written, reread, Option.some.inj after⟩

end Image
end DexImage
