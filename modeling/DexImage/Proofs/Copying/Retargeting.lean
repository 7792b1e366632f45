import DexImage.Proofs.Codec.Reading
import DexImage.Proofs.Copying.Translating
import DexImage.Proofs.References.Operands
import DexImage.Proofs.References.Uses
/-! # Translations that are not stopped

A translator that is asked for the references of an item, first to last, gives each a new index (`Translator.findAll`).
Where no fault stops it, the translated item is the item with these indices (`translate_done_iff`): in the operands of
code, unless they are too narrow for their index, and in the typed handlers of a try table.
-/

namespace DexImage

variable {τ : Type} {translator : Translator τ}

/-- The indices that a translator finds for references, first to last, up to a fault. -/
def Translator.findAll (translator : Translator τ) : List Use → Reading τ (List UInt32)
  | [] => pure []
  | use :: rest => do
    let new ← ExceptT.mk (translator use.kind.toSection use.index)
    return new :: (← findAll translator rest)

/-- The visitor that gives the references that are present the indices of a list, first to last. -/
def Visitor.supplying : Visitor (List UInt32) := fun slot supply =>
  match slot.index, supply with
  | some _, index :: rest => (.retarget (some index), rest)
  | _, _ => (.keep, supply)

/-- An item with other indices in its references, first to last. -/
def retargeted {α : Type} [Referring α] (new : List UInt32) (item : α) : α := (visit Visitor.supplying item new).1

namespace Translator

open Reading

theorem findAll_cons_eq_ok {use : Use} {rest : List Use} {before after : τ} {new : List UInt32} :
    translator.findAll (use :: rest) before = (.ok new, after) ↔ ∃ first between others,
      translator use.kind.toSection use.index before = (.ok first, between) ∧
        translator.findAll rest between = (.ok others, after) ∧ new = first :: others := by
  rw [findAll, bind_eq_ok]
  refine exists_congr fun first => exists_congr fun between => ?_
  rw [bind_eq_ok]
  constructor
  · rintro ⟨found, others, stop, run, done⟩
    obtain ⟨same, rfl⟩ := Prod.mk.inj done
    exact ⟨others, found, run, (Except.ok.inj same).symm⟩
  · rintro ⟨others, found, run, rfl⟩
    exact ⟨found, others, after, run, rfl⟩

theorem findAll_cons_of_ok {use : Use} {rest : List Use} {before between : τ} {first : UInt32}
    (found : translator use.kind.toSection use.index before = (.ok first, between)) :
    translator.findAll (use :: rest) before =
      (do return first :: (← translator.findAll rest) : Reading τ (List UInt32)) between :=
  @bind_ok τ _ _ (ExceptT.mk (translator use.kind.toSection use.index)) _ _ _ _ found

theorem findAll_cons_of_error {use : Use} {rest : List Use} {before after : τ} {fault : Fault}
    (failed : translator use.kind.toSection use.index before = (.error fault, after)) :
    translator.findAll (use :: rest) before = (.error fault, after) :=
  @bind_error τ _ _ (ExceptT.mk (translator use.kind.toSection use.index)) _ _ _ _ failed

/-- A translator is asked for references in a row one after the other. -/
theorem findAll_append_eq_ok {first second : List Use} {before after : τ} {new : List UInt32} :
    translator.findAll (first ++ second) before = (.ok new, after) ↔ ∃ front between back,
      translator.findAll first before = (.ok front, between) ∧
        translator.findAll second between = (.ok back, after) ∧ new = front ++ back := by
  induction first generalizing before new with
  | nil =>
    constructor
    · exact fun run => ⟨[], before, new, rfl, run, rfl⟩
    · rintro ⟨_, _, back, ⟨⟩, run, rfl⟩
      exact run
  | cons use rest ih =>
    rw [List.cons_append, findAll_cons_eq_ok]
    simp only [ih, findAll_cons_eq_ok]
    constructor
    · rintro ⟨one, next, _, found, ⟨front, between, back, run, last, rfl⟩, rfl⟩
      exact ⟨one :: front, between, back, ⟨one, next, front, found, run, rfl⟩, last, rfl⟩
    · rintro ⟨_, between, back, ⟨one, next, front, found, run, rfl⟩, last, rfl⟩
      exact ⟨one, next, front ++ back, found, ⟨front, between, back, run, last, rfl⟩, rfl⟩

/-- Whether a translator finds indices for the first of some references, and then fails at the next one. -/
inductive StopsAt (translator : Translator τ) : List Use → τ → List UInt32 → Fault → τ → Prop where
  | here {use : Use} {rest : List Use} {before after : τ} {fault : Fault}
      (fails : translator use.kind.toSection use.index before = (.error fault, after)) :
      StopsAt translator (use :: rest) before [] fault after
  | later {use : Use} {rest : List Use} {before between after : τ}
    {index : UInt32} {found : List UInt32} {fault : Fault}
      (finds : translator use.kind.toSection use.index before = (.ok index, between))
      (stops : StopsAt translator rest between found fault after) :
      StopsAt translator (use :: rest) before (index :: found) fault after

/-- Indices are not found for all references exactly if the search stops at one of them. -/
theorem findAll_eq_error {uses : List Use} {before after : τ} {fault : Fault} :
    translator.findAll uses before = (.error fault, after) ↔
      ∃ found, translator.StopsAt uses before found fault after := by
  constructor
  · intro failed
    induction uses generalizing before with
    | nil => cases failed
    | cons use rest ih =>
      rcases asked : translator use.kind.toSection use.index before with ⟨other | index, between⟩
      · obtain ⟨⟨⟩, rfl⟩ := Prod.mk.inj ((findAll_cons_of_error asked).symm.trans failed)
        exact ⟨[], .here asked⟩
      · rw [findAll_cons_of_ok asked] at failed
        rcases Reading.bind_eq_error failed with failed | ⟨_, _, _, ⟨⟩⟩
        obtain ⟨found, stops⟩ := ih failed
        exact ⟨index :: found, .later asked stops⟩
  · rintro ⟨found, stops⟩
    induction stops with
    | here fails => exact findAll_cons_of_error fails
    | later finds _ ih => rw [findAll_cons_of_ok finds, Reading.bind_error ih]

/-- An index is found for each reference, or the search stops. -/
theorem findAll_cases (translator : Translator τ) (uses : List Use) (before : τ) :
    (∃ new after, translator.findAll uses before = (.ok new, after)) ∨
      ∃ found fault after, translator.StopsAt uses before found fault after := by
  rcases outcome : translator.findAll uses before with ⟨fault | new, after⟩
  · obtain ⟨found, stops⟩ := findAll_eq_error.mp outcome
    exact .inr ⟨found, fault, after, stops⟩
  · exact .inl ⟨new, after, rfl⟩

/-- A search that stops has found the same indices whenever it is made. -/
theorem StopsAt.unique {uses : List Use} {before after after' : τ} {found found' : List UInt32} {fault fault' : Fault}
    (stops : translator.StopsAt uses before found fault after)
    (again : translator.StopsAt uses before found' fault' after') :
    found = found' := by
  induction stops generalizing found' with
  | here fails =>
    cases again with
    | here => rfl
    | later finds => cases fails.symm.trans finds
  | later finds _ ih =>
    cases again with
    | here fails => cases finds.symm.trans fails
    | later finds' stops' =>
      obtain ⟨same, rfl⟩ := Prod.mk.inj (finds.symm.trans finds')
      rw [Except.ok.inj same, ih stops']

/-- Each reference is given an index. -/
theorem length_findAll {uses : List Use} {before after : τ} {new : List UInt32}
    (found : translator.findAll uses before = (.ok new, after)) : new.length = uses.length := by
  induction uses generalizing before new with
  | nil =>
    cases found
    rfl
  | cons use rest ih =>
    obtain ⟨first, between, others, -, run, rfl⟩ := findAll_cons_eq_ok.mp found
    exact congrArg Nat.succ (ih run)

end Translator

section Supplying

variable {one : Held} {rest : List Held} {old : UInt32}

private theorem uses_absent (missing : one.index = none) :
    (one :: rest).filterMap (·.slot.use?) = rest.filterMap (·.slot.use?) := by
  have unused : one.slot.use? = none := by rw [Slot.use?, Held.slot, missing, Option.map_none]
  exact List.filterMap_cons_none unused

private theorem uses_present (present : one.index = some old) :
    (one :: rest).filterMap (·.slot.use?) = ⟨one.kind, old, one.usage⟩ :: rest.filterMap (·.slot.use?) := by
  have used : one.slot.use? = some ⟨one.kind, old, one.usage⟩ := by
    rw [Slot.use?, Held.slot, present, Option.map_some]
  exact List.filterMap_cons_some used

private theorem supply_absent (missing : one.index = none) (new : List UInt32) :
    (visitAll (Held.visit Visitor.supplying) (one :: rest) new).1 =
      one :: (visitAll (Held.visit Visitor.supplying) rest new).1 := by
  have kept : Visitor.supplying one.slot new = (.keep, new) := by simp [Visitor.supplying, Held.slot, missing]
  change one.edited (Visitor.supplying one.slot new).1 ::
    (visitAll (Held.visit Visitor.supplying) rest (Visitor.supplying one.slot new).2).1 = _
  rw [kept, Held.edited_keep]

private theorem supply_present (present : one.index = some old) (index : UInt32) (new : List UInt32) :
    (visitAll (Held.visit Visitor.supplying) (one :: rest) (index :: new)).1 =
      one.edited (.retarget (some index)) :: (visitAll (Held.visit Visitor.supplying) rest new).1 := by
  have given : Visitor.supplying one.slot (index :: new) = (.retarget (some index), new) := by
    simp [Visitor.supplying, Held.slot, present]
  change one.edited (Visitor.supplying one.slot (index :: new)).1 ::
    (visitAll (Held.visit Visitor.supplying) rest (Visitor.supplying one.slot (index :: new)).2).1 = _
  rw [given]

/-- What a translation leaves in the places is what the indices that are found leave there. -/
theorem Translated.supplied {held places : List Held} {before after : τ}
    (run : Translated translator held before places after none) :
    ∃ new, translator.findAll (held.filterMap (·.slot.use?)) before = (.ok new, after) ∧
      places = (visitAll (Held.visit Visitor.supplying) held new).1 := by
  generalize stop : (none : Option Fault) = fault? at run
  induction run with
  | done => exact ⟨[], rfl, rfl⟩
  | absent missing run ih =>
    obtain ⟨new, found, rfl⟩ := ih stop
    exact ⟨new, by rwa [uses_absent missing], (supply_absent missing new).symm⟩
  | @moved one rest places old index before next after fault? present finds run ih =>
    obtain ⟨new, found, rfl⟩ := ih stop
    refine ⟨index :: new, ?_, (supply_present present index new).symm⟩
    rw [uses_present present]
    exact Translator.findAll_cons_eq_ok.mpr ⟨index, next, new, finds, found, rfl⟩
  | failed => cases stop

/-- References that are given no index stay as they are. -/
theorem visitAll_supplying_nil (held : List Held) : visitAll (Held.visit Visitor.supplying) held [] = (held, []) := by
  induction held with
  | nil => rfl
  | cons one rest ih =>
    have kept : Visitor.supplying one.slot [] = (.keep, []) := by simp [Visitor.supplying]
    change (one.edited (Visitor.supplying one.slot []).1 ::
      (visitAll (Held.visit Visitor.supplying) rest (Visitor.supplying one.slot []).2).1,
      (visitAll (Held.visit Visitor.supplying) rest (Visitor.supplying one.slot []).2).2) = _
    rw [kept, ih, Held.edited_keep]

/-- Where a fault stops a translation, it stops the search for indices, and the references have those that were
found. -/
theorem Translated.stopped {held places : List Held} {before after : τ} {fault : Fault}
    (run : Translated translator held before places after (some fault)) :
    ∃ found, translator.StopsAt (held.filterMap (·.slot.use?)) before found fault after ∧
      places = (visitAll (Held.visit Visitor.supplying) held found).1 := by
  generalize stop : some fault = fault? at run
  induction run with
  | done => cases stop
  | absent missing run ih =>
    obtain ⟨found, stops, rfl⟩ := ih stop
    exact ⟨found, by rwa [uses_absent missing], (supply_absent missing found).symm⟩
  | @moved one rest places old index before next after fault? present finds run ih =>
    obtain ⟨found, stops, rfl⟩ := ih stop
    refine ⟨index :: found, ?_, (supply_present present index found).symm⟩
    rw [uses_present present]
    exact .later finds stops
  | failed present fails =>
    obtain rfl := Option.some.inj stop
    refine ⟨[], ?_, (congrArg Prod.fst (visitAll_supplying_nil _)).symm⟩
    rw [uses_present present]
    exact .here fails

section Translations

variable {α : Type} [Referring α] (holding : Holding α) {item : α}
  (same : ∀ {σ : Type} (visitor : Visitor σ), holding.visit visitor item = visit visitor item)
  (listed : holding.uses item = uses item) {value : α} {before after : τ} {fault : Fault}
include same listed

/-- A translation finds an index for every reference or is stopped, and the references have what has been found. -/
private theorem translate_cases :
    (∃ new, translator.findAll (uses item) before = (.ok new, (translate translator item before).2) ∧
        (translate translator item before).1 = ⟨none, retargeted new item⟩) ∨
      ∃ found fault, translator.StopsAt (uses item) before found fault (translate translator item before).2 ∧
        (translate translator item before).1 = ⟨some fault, retargeted found item⟩ := by
  obtain ⟨places, filled, run⟩ := translate_holding holding translator same before
  have value (new : List UInt32) (supplied : places =
    (visitAll (Held.visit Visitor.supplying) (holding.held item) new).1) :
      (translate translator item before).1.value = retargeted new item := by
    rw [filled, retargeted, ← same, supplied]
    rfl
  generalize translate translator item before = outcome at run value ⊢
  rcases outcome with ⟨⟨fault?, translated⟩, stop⟩
  rw [← listed]
  cases fault? with
  | none =>
    obtain ⟨new, found, supplied⟩ := run.supplied
    exact .inl ⟨new, found, congrArg (Outcome.mk none) (value new supplied)⟩
  | some fault =>
    obtain ⟨found, stops, supplied⟩ := run.stopped
    exact .inr ⟨found, fault, stops, congrArg (Outcome.mk (some fault)) (value found supplied)⟩

/-- A translation goes through exactly if an index is found for every reference, and makes the item with these
indices. -/
theorem translate_done_iff :
    translate translator item before = (⟨none, value⟩, after) ↔ ∃ new,
      translator.findAll (uses item) before = (.ok new, after) ∧ value = retargeted new item := by
  have outcomes := @translate_cases τ translator α _ holding item same listed before
  generalize translate translator item before = run at outcomes ⊢
  obtain ⟨outcome, stop⟩ := run
  rcases outcomes with ⟨new, found, ⟨⟩⟩ | ⟨front, fault, stops, ⟨⟩⟩
  · constructor
    · rintro ⟨⟩
      exact ⟨new, found, rfl⟩
    · rintro ⟨other, again, rfl⟩
      obtain ⟨equal, rfl⟩ := Prod.mk.inj (found.symm.trans again)
      rw [Except.ok.inj equal]
  · refine iff_of_false (by rintro ⟨⟩) ?_
    rintro ⟨new, found, -⟩
    cases (Translator.findAll_eq_error.mpr ⟨front, stops⟩).symm.trans found

/-- A translation is stopped exactly if the search for indices stops, and makes the item with the indices found
by then. -/
theorem translate_stopped_iff :
    translate translator item before = (⟨some fault, value⟩, after) ↔ ∃ found,
      translator.StopsAt (uses item) before found fault after ∧ value = retargeted found item := by
  have outcomes := @translate_cases τ translator α _ holding item same listed before
  generalize translate translator item before = run at outcomes ⊢
  obtain ⟨outcome, stop⟩ := run
  rcases outcomes with ⟨new, found, ⟨⟩⟩ | ⟨front, other, stops, ⟨⟩⟩
  · refine iff_of_false (by rintro ⟨⟩) ?_
    rintro ⟨front, stops, -⟩
    cases (Translator.findAll_eq_error.mpr ⟨front, stops⟩).symm.trans found
  · constructor
    · rintro ⟨⟩
      exact ⟨front, stops, rfl⟩
    · rintro ⟨again, repeated, rfl⟩
      have failed := Translator.findAll_eq_error.mpr ⟨front, stops⟩
      obtain ⟨⟨⟩, rfl⟩ := Prod.mk.inj (failed.symm.trans (Translator.findAll_eq_error.mpr ⟨again, repeated⟩))
      rw [stops.unique repeated]

end Translations

/-- Indices that are given to references other than operands are what stands there. -/
theorem indices_supplied {held : List Held} {new : List UInt32} (plain : ∀ one ∈ held, one.isOperand = false)
    (length : new.length = (held.filterMap (·.slot.use?)).length) :
    ((visitAll (Held.visit Visitor.supplying) held new).1.filterMap (·.slot.use?)).map Use.index = new := by
  induction held generalizing new with
  | nil => exact (List.eq_nil_of_length_eq_zero length).symm
  | cons one rest ih =>
    obtain ⟨first, plain⟩ := List.forall_mem_cons.mp plain
    rcases found : one.index with _ | old
    · rw [uses_absent found] at length
      rw [supply_absent found, uses_absent found, ih plain length]
    · rw [uses_present found] at length
      obtain ⟨index, others, rfl⟩ := List.exists_cons_of_length_eq_add_one length
      have given : (one.edited (.retarget (some index))).index = some index := by
        cases one with
        | id => rfl
        | data target usage state =>
          simp only [Held.edited, Held.index]
          split_ifs with same
          · exact same
          · rfl
        | operand => cases first
      rw [supply_present found, uses_present given, List.map_cons, ih plain (Nat.succ.inj length)]

end Supplying

namespace OperandRef

variable {ref : OperandRef} {stream : List UInt16} {index : UInt32}

/-- An operand holds the index that is left in it, or keeps the one it had if it is too narrow. -/
theorem index_leaving :
    (¬ref.Refuses (some index) → (ref.leaving stream (some index)).index = some index) ∧
      (ref.Refuses (some index) → (ref.leaving stream (some index)).index = some (ref.stored stream)) := by
  rw [refuses_some, leaving, held]
  simp only [Held.edited]
  split_ifs with same fits
  · subst same
    exact ⟨fun _ => rfl, fun _ => rfl⟩
  · exact ⟨fun _ => rfl, fun big => absurd (fits.symm.trans big) (by decide)⟩
  · exact ⟨fun small => absurd (by simpa using fits) small, fun _ => rfl⟩

end OperandRef

namespace InstructionList

variable (list : InstructionList)

/-- The references that code lists are what stands in its operands. -/
theorem uses_eq_stored :
    uses list = list.operandRefs.map fun ref => ⟨ref.target, ref.stored list.units, .instruction⟩ := by
  rw [← uses_holding, Places.uses]
  change list.held.filterMap (·.slot.use?) = _
  rw [list.held_eq, List.filterMap_map]
  exact congrFun List.filterMap_eq_map list.operandRefs

/-- The pass that gives the operands the indices of a list. -/
def Pass.supplying (new : List UInt32) : Pass := ⟨Visitor.supplying, new⟩

private theorem noted_supplying {refs : List OperandRef} {new : List UInt32} (length : new.length = refs.length)
    (units : List UInt16) (found : List (Option UInt32)) :
    (visitAll (Held.visit Visitor.supplying.noting) (refs.map fun ref => ref.held (units.drop ref.position))
      (new, found)).2.2 = found ++ new.map some := by
  induction refs generalizing new found with
  | nil =>
    rw [List.eq_nil_of_length_eq_zero length]
    exact (List.append_nil found).symm
  | cons ref rest ih =>
    obtain ⟨index, others, rfl⟩ := List.exists_cons_of_length_eq_add_one length
    refine (ih (Nat.succ.inj length) (found ++ [some index])).trans ?_
    rw [List.append_assoc]
    rfl

theorem Pass.left_supplying {new : List UInt32} (length : new.length = list.operandRefs.length) :
    (Pass.supplying new).left list = new.map some := by
  rw [Pass.left, ← visit_holding]
  change (visitAll (Held.visit Visitor.supplying.noting) list.held (new, [])).2.2 = _
  rw [list.held_eq]
  exact noted_supplying length list.units []

/-- Code with other indices in its operands. It is as it was apart from them, and has them unless an operand is
too narrow for its index; such an operand keeps its own, and the code refuses to be written, as it does if it
did before. -/
theorem retargeted_spec {new : List UInt32} (length : new.length = list.operandRefs.length) :
    list.Retains (retargeted new list) ∧
      ((retargeted new list).overflow = true ↔
        list.overflow = true ∨ ∃ entry ∈ list.operandRefs.zip new, entry.1.Refuses (some entry.2)) ∧
      List.Forall₂ (fun ref index =>
        (¬ref.Refuses (some index) → ref.stored (retargeted new list).units = index) ∧
          (ref.Refuses (some index) → ref.stored (retargeted new list).units = ref.stored list.units))
        list.operandRefs new := by
  have left := Pass.left_supplying list length
  have entries : list.operandRefs.zip ((Pass.supplying new).left list) =
      (list.operandRefs.zip new).map fun entry => (entry.1, some entry.2) := by
    rw [left, List.zip_map_right]
    rfl
  refine ⟨(Pass.supplying new).retains_run list, ((Pass.supplying new).overflow_run list).trans (or_congr_right ?_),
    List.forall₂_iff_zip.mpr ⟨length.symm, ?_⟩⟩
  · rw [Pass.Loses, entries]
    simp only [List.mem_map, exists_exists_and_eq_and]
  · intro ref index member
    have stands := (Pass.supplying new).index_run list (entries ▸ List.mem_map_of_mem member)
    exact ⟨fun small => Option.some.inj (stands.symm.trans (OperandRef.index_leaving.1 small)),
      fun big => Option.some.inj (stands.symm.trans (OperandRef.index_leaving.2 big))⟩

end InstructionList

/-- Whether a handler differs from another one in the index of its type alone. -/
def ExceptionHandler.Retyped : ExceptionHandler → ExceptionHandler → Prop
  | typed type address, typed type' address' => type'.isPresent = type.isPresent ∧ address' = address
  | catchAll address, catchAll address' => address' = address
  | _, _ => False

namespace TryTable

variable {table : TryTable}

/-- A try table with other caught types: the same ranges, and handler lists that differ in their types alone. -/
theorem retargeted_spec {new : List UInt32} (length : new.length = (uses table).length) :
    (retargeted new table).tries = table.tries ∧
      List.Forall₂ (fun before after => List.Forall₂ ExceptionHandler.Retyped before.handlers after.handlers)
        table.handlers.items (retargeted new table).handlers.items ∧
      (uses (retargeted new table)).map Use.index = new ∧ (retargeted new table).handlers.dirty = true := by
  have retyped (list : HandlerList) (supply : List UInt32) :
      List.Forall₂ ExceptionHandler.Retyped list.handlers (visit Visitor.supplying list supply).1.handlers := by
    refine visitAll_forall₂ (fun handler _ supply => ?_) supply
    cases handler with
    | catchAll address => rfl
    | typed type address =>
      obtain ⟨_ | index⟩ := type <;> cases supply <;> exact ⟨rfl, rfl⟩
  refine ⟨rfl, ?_, ?_, rfl⟩
  · exact @visitAll_forall₂ _ _ (visit Visitor.supplying) _ table.handlers.items (fun list _ => retyped list) new
  · have plain : ∀ one ∈ holding.held table, one.isOperand = false := fun one member =>
      (show one.Proper .stringId from TryTable.proper table one member).plain (by decide)
    rw [← uses_holding] at length ⊢
    have fits := holding.fits_visitAll Visitor.supplying table new
    have kept := fun one => @kept_of_plain _ _ fits plain one
    rw [retargeted, ← visit_holding]
    change ((holding.held (holding.fill table _)).filterMap _).map _ = _
    rw [holding.held_fill_kept fits kept]
    exact indices_supplied plain length

end TryTable
end DexImage
