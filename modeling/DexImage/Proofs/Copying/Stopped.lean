import DexImage.Proofs.Methods.Merging
import DexImage.Proofs.Traversals
/-! # Merging that is stopped

A merge asks a translator for the index of each reference of what it takes over, and the translator may fail at any of
them. Values and try tables are translated apart from the receiver, which they replace at the end: a fault leaves the
receiver as it was. The other merges translate within the receiver. Of code the units have been taken over, of a code
item whatever comes before the failing reference (`CodeItem.merge_eq_error`), and of an array the length and the slots
before the failing one (`EncodedArray.merge_eq_error`); what was there is lost, and what is left may be written.
-/

namespace DexImage

variable {τ : Type} {translator : Translator τ} {before after : τ} {fault : Fault}

private theorem pure_run {α : Type} (value : α) (state : τ) : (pure value : StateM τ α) state = (value, state) := rfl

/-- Whether an item still equals what it was and is written as that was. -/
def Intact {α : Type} [BEq α] [Encodable α] (item left : α) : Prop := (left == item) = true ∧ encode left = encode item

namespace Outcome

variable {α : Type}

/-- What has been made, unless a fault has stopped the work. -/
def made (outcome : Outcome α) : Result α := outcome.fault?.elim (.ok outcome.value) .error

/-- What replaces an item, or the item with the fault because of which nothing does. -/
def replacing (item : α) : Result α → Outcome α
  | .ok new => ⟨none, new⟩
  | .error fault => ⟨some fault, item⟩

theorem made_eq_error {outcome : Outcome α} : outcome.made = .error fault ↔
    outcome = ⟨some fault, outcome.value⟩ := by
  rcases outcome with ⟨_ | fault, value⟩ <;> simp [made]

/-- What is to be replaced stays as it is exactly if there is nothing to replace it. -/
theorem replacing_eq_fault {item left : α} {making : StateM τ (Result α)} :
    (do return replacing item (← making) : StateM τ (Outcome α)) before = (⟨some fault, left⟩, after) ↔
      making before = (.error fault, after) ∧ left = item := by
  change (replacing item (making before).1, (making before).2) = _ ↔ _
  rcases making before with ⟨other | new, stop⟩
  · constructor
    · rintro ⟨⟩
      exact ⟨rfl, rfl⟩
    · rintro ⟨⟨⟩, rfl⟩
      rfl
  · exact iff_of_false (by rintro ⟨⟩) (by rintro ⟨⟨⟩, -⟩)

/-- A translation from which only the finished item is taken fails exactly if the search for indices stops. -/
theorem made_translate_eq_error [Referring α] (holding : Holding α) {item : α}
    (same : ∀ {σ : Type} (visitor : Visitor σ), holding.visit visitor item = visit visitor item)
    (listed : holding.uses item = uses item) :
    ((translate translator item before).1.made, (translate translator item before).2) = (.error fault, after) ↔
      ∃ found, translator.StopsAt (uses item) before found fault after := by
  have stopped (value : α) := @translate_stopped_iff τ translator α _ holding item same listed value before after fault
  rw [Prod.ext_iff, Outcome.made_eq_error]
  constructor
  · rintro ⟨outcome, state⟩
    exact ((stopped _).mp (Prod.ext outcome state)).imp fun _ => And.left
  · rintro ⟨found, stops⟩
    rw [(stopped _).mpr ⟨found, stops, rfl⟩]
    exact ⟨rfl, rfl⟩

end Outcome

/-- A value that takes over another one. -/
def EncodedValue.takeOver (translator : Translator τ) (value other : EncodedValue) : StateM τ
    (Outcome EncodedValue) := do
  return .replacing value (← merge translator other)

/-- A try table that takes over another one. -/
def TryTable.takeOver (translator : Translator τ) (table other : TryTable) : StateM τ (Outcome TryTable) := do
  return .replacing table (← merge translator other)

namespace EncodedValue

variable {other : EncodedValue}

theorem merge_apply (translator : Translator τ) (other : EncodedValue) (before : τ) :
    merge translator other before =
      ((translate translator other before).1.made, (translate translator other before).2) := by
  rw [merge]
  simp only [bind, StateT.bind]
  rcases translate translator other before with ⟨⟨_ | fault, value⟩, stop⟩ <;> rfl

theorem merge_eq_error : merge translator other before = (.error fault, after) ↔ ∃ found,
    translator.StopsAt (DexImage.uses other) before found fault after := by
  rw [merge_apply]
  exact Outcome.made_translate_eq_error holding (fun visitor => visit_holding visitor other)
    (congrFun uses_holding other)

end EncodedValue

namespace TryTable

variable {other : TryTable}

theorem merge_eq_error : merge translator other before = (.error fault, after) ↔ ∃ found,
    translator.StopsAt (uses other) before found fault after := by
  -- A pass over a table has marked it already.
  have apply : merge translator other before =
      ((translate translator other before).1.made, (translate translator other before).2) := by
    have marked : (translate translator other before).1.value.handlers.dirty = true := rfl
    rw [merge]
    simp only [bind, StateT.bind]
    generalize translate translator other before = run at marked ⊢
    obtain ⟨⟨_ | fault, tries, items, dirty⟩, stop⟩ := run
    · obtain rfl : dirty = true := marked
      rfl
    · rfl
  rw [apply]
  exact Outcome.made_translate_eq_error holding (fun visitor => visit_holding visitor other)
    (congrFun uses_holding other)

end TryTable

theorem InstructionList.merge_eq_fault {list left : InstructionList} :
    merge translator list before = (⟨some fault, left⟩, after) ↔ ∃ found,
      translator.StopsAt (uses list) before found fault after ∧ left = retargeted found (ofUnits list.units) :=
  translate_stopped_iff holding (fun visitor => visit_holding visitor _) (congrFun uses_holding _)

namespace CodeItem

/-- How far a merge has got: the index that has been found for the debug info, those that have been given to
operands once the units have been taken over, and whether the try table has been reached. -/
structure Progress where
  debug? : Option UInt32
  operands? : Option (List UInt32)
  table : Bool

/-- What a merge that has got so far leaves of an item. -/
def leftAt (code other : CodeItem) (progress : Progress) : CodeItem where
  registers := other.registers
  ins := other.ins
  outs := other.outs
  debugInfo := progress.debug?.elim code.debugInfo code.debugInfo.setTarget
  instructions :=
    progress.operands?.elim code.instructions fun found => retargeted found (.ofUnits other.instructions.units)
  tryTable := if progress.table then some code.tableOrEmpty else code.tryTable

/-- How far merging an item gets where it is stopped. -/
inductive StopsAt (translator : Translator τ) (other : CodeItem) (before : τ) (fault : Fault) (after : τ) :
    Progress → Prop where
  | debugInfo {index : UInt32} (present : other.debugInfo.index = some index)
      (fails : translator .debugInfo index before = (.error fault, after)) :
      StopsAt translator other before fault after ⟨none, none, false⟩
  | operands {debug? : Option UInt32} {first : τ} {found : List UInt32}
      (debugInfo : translator.findAll (other.debugInfo.use? .debug).toList before = (.ok debug?.toList, first))
      (stops : translator.StopsAt (uses other.instructions) first found fault after) :
      StopsAt translator other before fault after ⟨debug?, some found, false⟩
  | types {debug? : Option UInt32} {first second : τ} {operands found : List UInt32} {table : TryTable}
      (debugInfo : translator.findAll (other.debugInfo.use? .debug).toList before = (.ok debug?.toList, first))
      (instructions : translator.findAll (uses other.instructions) first = (.ok operands, second))
      (present : other.tryTable = some table) (stops : translator.StopsAt (uses table) second found fault after) :
      StopsAt translator other before fault after ⟨debug?, some operands, true⟩

variable {code other left : CodeItem}

theorem merge_of_stopsAt {progress : Progress} (stops : StopsAt translator other before fault after progress) :
    merge translator code other before = (⟨some fault, code.leftAt other progress⟩, after) := by
  cases stops with
  | debugInfo present fails => exact merge_of_fault present fails
  | operands debugInfo stops =>
    have taken := InstructionList.merge_eq_fault.mpr ⟨_, stops, rfl⟩
    rw [merge_of_debugInfo debugInfo]
    simp only [merge, bind, StateT.bind, pure_run, DataRef.index, taken]
    rfl
  | types debugInfo instructions present stops =>
    have taken := InstructionList.merge_eq_ok.mpr ⟨_, instructions, rfl⟩
    have failed := TryTable.merge_eq_error.mpr ⟨_, stops⟩
    rw [merge_of_debugInfo debugInfo]
    simp only [merge, bind, StateT.bind, pure_run, DataRef.index, taken, present, failed]
    rfl

/-- A merge goes through, or is stopped at the debug info of the other item, at an operand or at a caught type. -/
theorem merge_cases (translator : Translator τ) (code other : CodeItem) (before : τ) :
    (∃ merged after, merge translator code other before = (⟨none, merged⟩, after)) ∨
      ∃ progress fault after, StopsAt translator other before fault after progress := by
  rcases debugInfo_cases translator other.debugInfo before with ⟨debug?, first, debugInfo⟩ |
    ⟨index, fault, after, present, fails⟩
  · rcases translator.findAll_cases (uses other.instructions) first with
      ⟨operands, second, instructions⟩ | ⟨found, fault, after, stops⟩
    · rcases present : other.tryTable with _ | table
      · exact .inl ⟨_, second, merge_eq_ok.mpr
          ⟨debug?, first, debugInfo, operands, second, instructions, [], by rw [present]; rfl, rfl⟩⟩
      · rcases translator.findAll_cases (uses table) second with ⟨caught, after, types⟩ |
          ⟨found, fault, after, stops⟩
        · exact .inl ⟨_, after, merge_eq_ok.mpr
            ⟨debug?, first, debugInfo, operands, second, instructions, caught, by rwa [present], rfl⟩⟩
        · exact .inr ⟨_, fault, after, .types debugInfo instructions present stops⟩
    · exact .inr ⟨_, fault, after, .operands debugInfo stops⟩
  · exact .inr ⟨_, fault, after, .debugInfo present fails⟩

theorem merge_eq_fault : merge translator code other before = (⟨some fault, left⟩, after) ↔
    ∃ progress, StopsAt translator other before fault after progress ∧ left = code.leftAt other progress := by
  constructor
  · intro failed
    rcases merge_cases translator code other before with ⟨merged, stop, done⟩ | ⟨progress, found, stop, stops⟩
    · cases failed.symm.trans done
    · cases failed.symm.trans (merge_of_stopsAt stops)
      exact ⟨progress, stops, rfl⟩
  · rintro ⟨progress, stops, rfl⟩
    exact merge_of_stopsAt stops

/-- Items are compared field by field, and debug info by its index. -/
theorem beq_iff {one another : CodeItem} : (one == another) = true ↔ one.registers = another.registers ∧
    one.ins = another.ins ∧ one.outs = another.outs ∧ one.debugInfo.index = another.debugInfo.index ∧
      one.instructions = another.instructions ∧ (one.tryTable == another.tryTable) = true := by
  obtain ⟨registers, ins, outs, ref, list, table?⟩ := one
  obtain ⟨registers', ins', outs', ref', list', table'⟩ := another
  change (registers == registers' && (ins == ins' && (outs == outs' && (ref.index == ref'.index &&
    (list == list' && table? == table'))))) = true ↔ _
  simp only [Bool.and_eq_true, beq_iff_eq]

/-- Nothing is changed by taking over what was there. -/
theorem leftAt_eq_self {progress : Progress} (registers : code.registers = other.registers) (ins : code.ins = other.ins)
    (outs : code.outs = other.outs) (debugInfo : ∀ new, progress.debug? = some new → code.debugInfo.index = some new)
    (instructions : ∀ found, progress.operands? = some found →
      code.instructions = retargeted found (.ofUnits other.instructions.units))
    (table : progress.table = true → code.tryTable.isSome = true) : code.leftAt other progress = code := by
  obtain ⟨debug?, operands?, reached⟩ := progress
  have ref : debug?.elim code.debugInfo code.debugInfo.setTarget = code.debugInfo := by
    cases debug? with
    | none => rfl
    | some new => exact if_pos (debugInfo new rfl)
  have list : operands?.elim code.instructions (fun found => retargeted found (.ofUnits other.instructions.units)) =
      code.instructions := by
    cases operands? with
    | none => rfl
    | some found => exact (instructions found rfl).symm
  have tries : (if reached = true then some code.tableOrEmpty else code.tryTable) = code.tryTable := by
    split_ifs with got
    · obtain ⟨own, present⟩ := Option.isSome_iff_exists.mp (table got)
      rw [tableOrEmpty, present, Option.getD_some]
    · rfl
  rw [leftAt, ref, list, tries, ← registers, ← ins, ← outs]

/-- An item is intact if it had all that has been taken over. -/
theorem intact_leftAt {progress : Progress} : Intact code (code.leftAt other progress) ↔
    code.registers = other.registers ∧ code.ins = other.ins ∧ code.outs = other.outs ∧
      (∀ new, progress.debug? = some new → code.debugInfo.index = some new) ∧
        (∀ found, progress.operands? = some found →
          code.instructions = retargeted found (.ofUnits other.instructions.units)) ∧
          (progress.table = true → code.tryTable.isSome = true) := by
  obtain ⟨debug?, operands?, reached⟩ := progress
  constructor
  · rintro ⟨same, -⟩
    obtain ⟨registers, ins, outs, debugInfo, instructions, table⟩ := beq_iff.mp same
    refine ⟨registers.symm, ins.symm, outs.symm, ?_, ?_, ?_⟩
    · rintro new ⟨⟩
      exact debugInfo.symm.trans (index_setTarget code.debugInfo new)
    · rintro found ⟨⟩
      exact instructions.symm
    · rintro ⟨⟩
      change (some code.tableOrEmpty == code.tryTable) = true at table
      cases present : code.tryTable with
      | none => rw [present] at table; cases table
      | some => rfl
  · rintro ⟨registers, ins, outs, debugInfo, instructions, table⟩
    rw [Intact, leftAt_eq_self registers ins outs debugInfo instructions table]
    exact ⟨beq_self_eq_true code, rfl⟩

end CodeItem

instance : LawfulBEq EncodedValue where
  eq_of_beq := EncodedValue.eq_of_beq _ _

namespace EncodedArray

/-- Where taking over the slots of an array is stopped: what the slots before have become, and the value that fails. -/
inductive StopsAt (translator : Translator τ) :
    List ValueSlot → τ → List ValueSlot → EncodedValue → Fault → τ → Prop where
  | here {coming : EncodedValue} {rest : List ValueSlot} {before after : τ} {fault : Fault}
      (fails : EncodedValue.merge translator coming before = (.error fault, after)) :
      StopsAt translator (some coming :: rest) before [] coming fault after
  | gap {rest taken : List ValueSlot} {coming : EncodedValue} {before after : τ} {fault : Fault}
      (stops : StopsAt translator rest before taken coming fault after) :
      StopsAt translator (none :: rest) before (none :: taken) coming fault after
  | value {first value coming : EncodedValue} {rest taken : List ValueSlot} {before between after : τ} {fault : Fault}
      (merged : EncodedValue.merge translator first before = (.ok value, between))
      (stops : StopsAt translator rest between taken coming fault after) :
      StopsAt translator (some first :: rest) before (some value :: taken) coming fault after

/-- What a merge leaves of an array that has been given a length, where it is stopped at a value after the slots
that it has taken over. -/
def leftAt (array : EncodedArray) (length : Nat) (taken : List ValueSlot) (coming : EncodedValue) : EncodedArray :=
  let slots := (array.setLength length).slots.items
  ⟨⟨taken ++ some (filled coming.kind slots[taken.length]?.join) :: slots.drop (taken.length + 1), true⟩⟩

variable {array other left : EncodedArray} {front back slots taken : List ValueSlot}
  {slot new : ValueSlot} {dirty : Bool}
  {coming : EncodedValue}

theorem StopsAt.length_lt (stops : StopsAt translator slots before taken coming fault after) :
    taken.length < slots.length := by
  induction stops with
  | here => exact Nat.succ_pos _
  | gap _ ih | value _ _ ih => exact Nat.succ_lt_succ ih

theorem putSlot_append :
    putSlot ⟨⟨front ++ slot :: back, dirty⟩⟩ front.length new = ⟨⟨front ++ new :: back, true⟩⟩ := by
  have modified : (front ++ slot :: back).modify front.length (fun _ => new) = front ++ new :: back := by
    induction front with
    | nil => rfl
    | cons first front ih => exact congrArg (first :: ·) ih
  rw [putSlot, TrackedList.modify, modified]

theorem getOrCreate_append (kind : ValueKind) : getOrCreate ⟨⟨front ++ slot :: back, dirty⟩⟩ kind front.length =
    (filled kind slot, ⟨⟨front ++ some (filled kind slot) :: back, true⟩⟩) := by
  have long : ¬(⟨⟨front ++ slot :: back, dirty⟩⟩ : EncodedArray).length < front.length + 1 := by
    simp [length, TrackedList.length]
  have found : (⟨⟨front ++ slot :: back, dirty⟩⟩ : EncodedArray).get? front.length = slot := by
    simp [get?, slot?, TrackedList.get?]
  simp only [getOrCreate, ensureLength, if_neg long, found, putSlot_append]

/-- The work on the slots is stopped where their values are. -/
private theorem go_of_stopsAt (stops : StopsAt translator slots before taken coming fault after)
    (fits : back.length = slots.length) :
    merge.go translator front.length slots ⟨⟨front ++ back, dirty⟩⟩ before =
      (⟨some fault, ⟨⟨front ++ taken ++
        some (filled coming.kind back[taken.length]?.join) :: back.drop (taken.length + 1), true⟩⟩⟩, after) := by
  induction stops generalizing front back dirty with
  | here fails =>
    obtain ⟨slot, back, rfl⟩ := List.exists_cons_of_length_eq_add_one fits
    simp only [merge.go, getOrCreate_append, bind, StateT.bind, fails, List.append_nil]
    rfl
  | @gap rest taken coming before after fault _ ih =>
    obtain ⟨slot, back, rfl⟩ := List.exists_cons_of_length_eq_add_one fits
    have rest := @ih (front ++ [none]) back true (Nat.succ.inj fits)
    rw [List.length_append] at rest
    simp only [merge.go, putSlot_append, List.length_cons, List.getElem?_cons_succ, List.drop_succ_cons]
    rw [List.append_cons front none taken, List.append_cons front none back]
    exact rest
  | @value first value coming rest taken before between after fault merged _ ih =>
    obtain ⟨slot, back, rfl⟩ := List.exists_cons_of_length_eq_add_one fits
    have rest := @ih (front ++ [some value]) back true (Nat.succ.inj fits)
    rw [List.length_append] at rest
    simp only [merge.go, getOrCreate_append, bind, StateT.bind, merged, putSlot_append, List.length_cons,
      List.getElem?_cons_succ, List.drop_succ_cons]
    rw [List.append_cons front (some value) taken, List.append_cons front (some value) back]
    exact rest

private theorem go_cases (translator : Translator τ) (slots : List ValueSlot)
    (index : Nat) (array : EncodedArray) (before : τ) :
    (∃ merged after, merge.go translator index slots array before = (⟨none, merged⟩, after)) ∨
      ∃ taken coming fault after, StopsAt translator slots before taken coming fault after := by
  induction slots generalizing index array before with
  | nil => exact .inl ⟨array, before, rfl⟩
  | cons slot rest ih =>
    rcases slot with _ | first
    · rcases ih (index + 1) (array.putSlot index none) before with done | ⟨taken, coming, fault, after, stops⟩
      · exact .inl done
      · exact .inr ⟨none :: taken, coming, fault, after, .gap stops⟩
    · rcases run : EncodedValue.merge translator first before with ⟨fault | value, between⟩
      · exact .inr ⟨[], first, fault, between, .here run⟩
      · rcases ih (index + 1) ((array.getOrCreate first.kind index).2.putSlot index (some value)) between with
          done | ⟨taken, coming, fault, after, stops⟩
        · refine .inl (done.imp fun merged => Exists.imp fun after go => ?_)
          simp only [merge.go, bind, StateT.bind, run]
          exact go
        · exact .inr ⟨some value :: taken, coming, fault, after, .value run stops⟩

theorem length_setLength (array : EncodedArray) (length : Nat) :
    (array.setLength length).slots.items.length = length := by
  rw [setLength, ensureLength]
  split_ifs with short long
  · have cut : array.slots.truncate length = ⟨array.slots.items.take length, true⟩ := if_pos short
    rw [cut]
    exact List.length_take_of_le (Nat.le_of_lt short)
  · have grown : array.slots.resize length none = ⟨array.slots.items.take length ++ _, true⟩ :=
      if_neg (Nat.ne_of_gt long)
    rw [grown, List.length_append, List.length_replicate, List.take_of_length_le (Nat.le_of_lt long)]
    exact Nat.add_sub_cancel' (Nat.le_of_lt long)
  · exact Nat.le_antisymm (Nat.not_lt.mp short) (Nat.not_lt.mp long)

/-- An array that has a length keeps its slots when it is given it. -/
theorem setLength_self (array : EncodedArray) : array.setLength array.length = array := by
  rw [setLength, if_neg (Nat.lt_irrefl _), ensureLength, if_neg (Nat.lt_irrefl _)]

theorem merge_of_stopsAt (stops : StopsAt translator other.slots.items before taken coming fault after) :
    merge translator array other before = (⟨some fault, array.leftAt other.length taken coming⟩, after) :=
  @go_of_stopsAt τ translator before after fault [] (array.setLength other.length).slots.items _ _ _ _ stops
    (length_setLength array other.length)

theorem merge_eq_fault : merge translator array other before = (⟨some fault, left⟩, after) ↔ ∃ taken coming,
    StopsAt translator other.slots.items before taken coming fault after ∧
      left = array.leftAt other.length taken coming := by
  constructor
  · intro failed
    rcases go_cases translator other.slots.items 0 (array.setLength other.length) before with
      ⟨merged, stop, done⟩ | ⟨taken, coming, found, stop, stops⟩
    · cases failed.symm.trans done
    · cases failed.symm.trans (merge_of_stopsAt stops)
      exact ⟨taken, coming, stops, rfl⟩
  · rintro ⟨taken, coming, stops, rfl⟩
    exact merge_of_stopsAt stops

theorem kind_ofKind (kind : ValueKind) : (EncodedValue.ofKind kind).kind = kind := by
  cases kind <;> rfl

theorem filled_eq_iff {kind : ValueKind} : some (filled kind slot) = slot ↔
    ∃ value, slot = some value ∧ value.kind = kind := by
  rcases slot with _ | value
  · simp
  · simp only [filled, Option.some.injEq, exists_eq_left']
    split_ifs with same
    · simp [same]
    · refine iff_of_false (fun fresh => same ?_) same
      rw [← fresh, kind_ofKind]

/-- An array is intact if its slots are: neither comparing nor writing depends on the mark of edited arrays. -/
theorem intact_iff : Intact array left ↔ left.slots.items = array.slots.items := by
  constructor
  · exact fun same => eq_of_beq same.1
  · intro same
    obtain ⟨items, dirty⟩ := left
    obtain rfl : items = array.slots.items := same
    exact ⟨beq_self_eq_true array.slots.items, rfl⟩

theorem items_leftAt {length : Nat} (same : array.length = length) : (array.leftAt length taken coming).slots.items =
    taken ++ some (filled coming.kind (array.get? taken.length)) :: array.slots.items.drop (taken.length + 1) := by
  rw [leftAt, ← same, setLength_self]
  rfl

/-- An array is intact if it had the length and the values that have been taken over, and one of the right kind
in the slot at which the work has been stopped. -/
theorem intact_leftAt (stops : StopsAt translator slots before taken coming fault after) :
    Intact array (array.leftAt slots.length taken coming) ↔ array.length = slots.length ∧
      array.slots.items.take taken.length = taken ∧
        ∃ value, array.get? taken.length = some value ∧ value.kind = coming.kind := by
  have inside := stops.length_lt
  rw [intact_iff]
  constructor
  · intro same
    -- What is left has as many slots as have been asked for, however far the work has come.
    have length : array.length = slots.length := by
      have count := congrArg List.length same
      simp only [leftAt, List.length_append, List.length_cons, List.length_drop, length_setLength] at count
      change _ = array.length at count
      omega
    rw [items_leftAt length] at same
    refine ⟨length, by rw [← same, List.take_left], ?_⟩
    have slot : array.get? taken.length = some (filled coming.kind (array.get? taken.length)) := by
      have found := congrArg (·[taken.length]?.join) same
      change array.slots.items[taken.length]?.join = _
      simpa using found.symm
    exact filled_eq_iff.mp slot.symm
  · rintro ⟨length, front, value, slot, kind⟩
    have present : array.slots.items[taken.length]? = some (some value) := Option.join_eq_some_iff.mp slot
    obtain ⟨bound, entry⟩ := List.getElem?_eq_some_iff.mp present
    rw [items_leftAt length, slot, filled_eq_iff.mpr ⟨value, rfl, kind⟩, ← entry, ← List.drop_eq_getElem_cons bound]
    nth_rewrite 1 [← front]
    exact List.take_append_drop _ _

end EncodedArray

/-- What a merge that fails leaves of the receiver. A value and a try table are as they were. Of an array, code
and a code item it is what has been taken over until then, in place of what was there: each is as it was, and is
written as it was, only if it had all that before. -/
theorem failed_merges (translator : Translator τ) (before after : τ) (fault : Fault) :
    (∀ value other left : EncodedValue, value.takeOver translator other before = (⟨some fault, left⟩, after) ↔
        (∃ found, translator.StopsAt (uses other) before found fault after) ∧ left = value) ∧
      (∀ table other left : TryTable, table.takeOver translator other before = (⟨some fault, left⟩, after) ↔
        (∃ found, translator.StopsAt (uses other) before found fault after) ∧ left = table) ∧
      (∀ array other : EncodedArray,
        (∀ left, array.merge translator other before = (⟨some fault, left⟩, after) ↔ ∃ taken coming,
          EncodedArray.StopsAt translator other.slots.items before taken coming fault after ∧
            left = array.leftAt other.length taken coming) ∧
        ∀ taken coming, EncodedArray.StopsAt translator other.slots.items before taken coming fault after →
          (Intact array (array.leftAt other.length taken coming) ↔ array.length = other.length ∧
            array.slots.items.take taken.length = taken ∧
              ∃ value, array.get? taken.length = some value ∧ value.kind = coming.kind)) ∧
      (∀ list other : InstructionList,
        (∀ left, InstructionList.merge translator other before = (⟨some fault, left⟩, after) ↔ ∃ found,
          translator.StopsAt (uses other) before found fault after ∧ left = retargeted found (.ofUnits other.units)) ∧
        ∀ found, Intact list (retargeted found (.ofUnits other.units)) ↔
          list = retargeted found (.ofUnits other.units)) ∧
      ∀ code other : CodeItem,
        (∀ left, code.merge translator other before = (⟨some fault, left⟩, after) ↔ ∃ progress,
          CodeItem.StopsAt translator other before fault after progress ∧ left = code.leftAt other progress) ∧
        ∀ progress, Intact code (code.leftAt other progress) ↔
          code.registers = other.registers ∧ code.ins = other.ins ∧ code.outs = other.outs ∧
            (∀ new, progress.debug? = some new → code.debugInfo.index = some new) ∧
            (∀ found, progress.operands? = some found →
              code.instructions = retargeted found (.ofUnits other.instructions.units)) ∧
            (progress.table = true → code.tryTable.isSome = true) := by
  refine ⟨fun value other left => ?_, fun table other left => ?_, fun array other => ⟨fun left => ?_, ?_⟩,
    fun list other => ⟨fun left => ?_, fun found => ⟨fun same => (eq_of_beq same.1).symm, ?_⟩⟩,
    fun code other => ⟨fun left => ?_, fun progress => ?_⟩⟩
  · rw [← EncodedValue.merge_eq_error]
    exact Outcome.replacing_eq_fault
  · rw [← TryTable.merge_eq_error]
    exact Outcome.replacing_eq_fault
  · exact EncodedArray.merge_eq_fault
  · exact fun taken coming stops => EncodedArray.intact_leftAt stops
  · exact InstructionList.merge_eq_fault
  · rintro rfl
    exact ⟨beq_self_eq_true _, rfl⟩
  · exact CodeItem.merge_eq_fault
  · exact CodeItem.intact_leftAt

/-- An array, code and a code item that have lost what they were to a merge that fails, and are written as
something else. -/
theorem failed_merges_spoil : ∃ (translator : Translator Unit) (fault : Fault),
    (∃ array other left : EncodedArray, array.merge translator other () = (⟨some fault, left⟩, ()) ∧
      (left == array) = false ∧ (encode array).toOption = some [2, 0x04, 5, 0x17, 3] ∧
        (encode left).toOption = some [2, 0x3f, 0x17, 3]) ∧
    (∃ list other left : InstructionList, InstructionList.merge translator other () = (⟨some fault, left⟩, ()) ∧
      (left == list) = false ∧ encode list = .ok [0x0e, 0] ∧ encode left = .ok [0x1a, 0, 7, 0]) ∧
    ∃ code other left : CodeItem, code.merge translator other () = (⟨some fault, left⟩, ()) ∧
      (left == code) = false ∧ encode code = .ok [1, 0, 0, 0, 0, 0, 0, 0, 0, 0, 0, 0, 1, 0, 0, 0, 0x0e, 0] ∧
        encode left = .ok [2, 0, 0, 0, 0, 0, 0, 0, 0, 0, 0, 0, 1, 0, 0, 0, 0x0e, 0] := by
  let fault := Fault.of (.noValueRefersTo .stringId)
  let array (first : EncodedValue) : EncodedArray := ⟨⟨[some first, some (.ofScalar (.string (.of 3)))], true⟩⟩
  refine ⟨fun _ _ => pure (.error fault), fault,
    ⟨array (.ofScalar (.int 5)), ⟨.ofList [some (.boolean true), some (.ofScalar (.string (.of 0)))]⟩,
      array (.boolean true),
      rfl, rfl, by decide +kernel, by decide +kernel⟩,
    ⟨.ofUnits [0x000e], .ofUnits [0x001a, 7], .ofUnits [0x001a, 7], rfl, rfl, rfl, rfl⟩,
    .ofUnits 1 0 0 [0x000e], ⟨2, 0, 0, .unplaced 0, .ofUnits [0x001a, 7], none⟩,
      .ofUnits 2 0 0 [0x000e], rfl, rfl, rfl, rfl⟩

end DexImage
