import DexImage.Proofs.Copying.Retargeting
/-! # Merged code

Merging takes over the code units of other code, or another code item, and asks a translator for the index of each
reference. The mark of code that has lost an operand is not taken over: merged code refuses to be written if an index
that has been found is too large for its operand, and not if the other code did
(`InstructionList.merge_forgets_overflow`). Of the item that another one is merged into, nothing remains but its debug
info and its try table, each where the other item has none (`CodeItem.merge_overwrites`).
-/

namespace DexImage

variable {τ : Type} {translator : Translator τ} {before after : τ}

private theorem pure_apply {α : Type} (value : α) (state : τ) : (pure value : StateM τ α) state = (value, state) := rfl

namespace InstructionList

/-- Whether code has the units of other code with new indices in its operands. An operand that is too narrow for its
index keeps the one it had; the code refuses to be written if there is one, and only then. -/
structure TakesOver (list : InstructionList) (new : List UInt32) (merged : InstructionList) : Prop where
  retains : (ofUnits list.units).Retains merged
  refused : encode merged = .error (Fault.of .operandTooWide) ↔
    ∃ entry ∈ list.operandRefs.zip new, entry.1.Refuses (some entry.2)
  stored : List.Forall₂ (fun ref index =>
    (¬ref.Refuses (some index) → ref.stored merged.units = index) ∧
      (ref.Refuses (some index) → ref.stored merged.units = ref.stored list.units)) list.operandRefs new

variable {list merged : InstructionList} {new : List UInt32}

/-- Merging goes through exactly if an index is found for every operand. -/
theorem merge_eq_ok : merge translator list before = (⟨none, merged⟩, after) ↔ ∃ new,
    translator.findAll (uses list) before = (.ok new, after) ∧ merged = retargeted new (ofUnits list.units) :=
  translate_done_iff holding (fun visitor => visit_holding visitor _) (congrFun uses_holding _)

theorem length_operands (found : translator.findAll (uses list) before = (.ok new, after)) :
    new.length = list.operandRefs.length := by
  rw [Translator.length_findAll found, uses_eq_stored, List.length_map]

theorem takesOver_retargeted (length : new.length = list.operandRefs.length) :
    list.TakesOver new (retargeted new (ofUnits list.units)) := by
  obtain ⟨retains, overflow, stored⟩ := retargeted_spec (ofUnits list.units) length
  exact ⟨retains, encode_eq_error.trans (overflow.trans (or_iff_right Bool.false_ne_true)), stored⟩

/-- Code that can be written has all the indices that have been found. -/
theorem TakesOver.stored_of_encode (takes : list.TakesOver new merged) {bytes : Bytes}
    (success : encode merged = .ok bytes) :
    List.Forall₂ (fun ref index => ref.stored merged.units = index) list.operandRefs new := by
  obtain ⟨length, stored⟩ := List.forall₂_iff_zip.mp takes.stored
  refine List.forall₂_iff_zip.mpr ⟨length, fun {ref index} member => (stored member).1 fun refuses => ?_⟩
  cases success.symm.trans (takes.refused.mpr ⟨(ref, index), member, refuses⟩)

end InstructionList

theorem TryTable.merge_eq_ok {other merged : TryTable} :
    merge translator other before = (.ok merged, after) ↔ ∃ caught,
      translator.findAll (uses other) before = (.ok caught, after) ∧ merged = retargeted caught other := by
  have done {value : TryTable} {stop : τ} := @translate_done_iff τ translator _ _ holding other
    (fun visitor => visit_holding visitor _) (congrFun uses_holding _) value before stop
  have run : merge translator other before =
      ((translate translator other before).1.fault?.elim
        (.ok { (translate translator other before).1.value with
          handlers := (translate translator other before).1.value.handlers.markDirty }) .error,
        (translate translator other before).2) := by
    rw [merge]
    simp only [bind, StateT.bind]
    rcases translate translator other before with ⟨⟨_ | fault, value⟩, stop⟩ <;> rfl
  rw [run]
  rcases outcome : translate translator other before with ⟨⟨_ | fault, value⟩, stop⟩
  · obtain ⟨caught, found, rfl⟩ := done.mp outcome
    -- A pass over a table has marked it already.
    constructor
    · rintro ⟨⟩
      exact ⟨caught, found, rfl⟩
    · rintro ⟨again, repeated, rfl⟩
      obtain ⟨equal, rfl⟩ := Prod.mk.inj (found.symm.trans repeated)
      rw [← Except.ok.inj equal]
      rfl
  · refine iff_of_false (by rintro ⟨⟩) ?_
    rintro ⟨caught, found, -⟩
    cases outcome.symm.trans (done.mpr ⟨caught, found, rfl⟩)

namespace CodeItem

/-- A code item that has taken over another one, with new indices for its debug info, its operands and its
caught types. -/
def overwritten (code other : CodeItem) (debug? : Option UInt32) (operands caught : List UInt32) : CodeItem where
  registers := other.registers
  ins := other.ins
  outs := other.outs
  debugInfo := debug?.elim code.debugInfo code.debugInfo.setTarget
  instructions := retargeted operands (.ofUnits other.instructions.units)
  tryTable := (other.tryTable.map (retargeted caught)).or code.tryTable

variable {code other merged : CodeItem}

/-- Code without debug info is taken over up to its operands, and then up to the types that its try table catches. -/
private theorem merge_alone_eq_ok (alone : other.debugInfo = .absent) :
    merge translator code other before = (⟨none, merged⟩, after) ↔ ∃ operands between,
      translator.findAll (uses other.instructions) before = (.ok operands, between) ∧ ∃ caught,
        translator.findAll ((other.tryTable.map uses).getD []) between = (.ok caught, after) ∧
          merged = code.overwritten other none operands caught := by
  obtain ⟨registers, ins, outs, debugInfo, instructions, table⟩ := other
  obtain rfl : debugInfo = .absent := alone
  rcases first : InstructionList.merge translator instructions before with ⟨⟨_ | fault, value⟩, between⟩
  · obtain ⟨operands, found, rfl⟩ := InstructionList.merge_eq_ok.mp first
    rw [Reading.exists_ok found]
    rcases table with _ | table
    · simp only [merge, bind, StateT.bind, pure_apply, DataRef.index, first]
      constructor
      · rintro ⟨⟩
        exact ⟨[], rfl, rfl⟩
      · rintro ⟨_, ⟨⟩, rfl⟩
        rfl
    · have last {taken : TryTable} {stop : τ} := @TryTable.merge_eq_ok τ translator between stop table taken
      rcases second : TryTable.merge translator table between with ⟨fault | taken, stop⟩
      · simp only [merge, bind, StateT.bind, pure_apply, DataRef.index, first, second]
        refine iff_of_false (by rintro ⟨⟩) ?_
        rintro ⟨caught, found, -⟩
        cases second.symm.trans (last.mpr ⟨caught, found, rfl⟩)
      · simp only [merge, bind, StateT.bind, pure_apply, DataRef.index, first, second]
        constructor
        · rintro ⟨⟩
          obtain ⟨caught, found, rfl⟩ := last.mp second
          exact ⟨caught, found, rfl⟩
        · rintro ⟨caught, found, rfl⟩
          obtain ⟨⟨⟩, rfl⟩ := Prod.mk.inj (second.symm.trans (last.mpr ⟨caught, found, rfl⟩))
          rfl
  · simp only [merge, bind, StateT.bind, pure_apply, DataRef.index, first]
    refine iff_of_false (by rintro ⟨⟩) ?_
    rintro ⟨operands, stop, found, -⟩
    cases first.symm.trans (InstructionList.merge_eq_ok.mpr ⟨operands, found, rfl⟩)

private theorem use_present {ref : DataRef .debugInfo} {index : UInt32} (present : ref.index = some index) :
    (ref.use? .debug).toList = [⟨.debugInfo, index, .debug⟩] := by
  rw [DataRef.use?, Slot.use?, DataRef.slot, present]
  rfl

/-- Once an index has been found for its debug info, the other item might as well have none. -/
theorem merge_of_debugInfo {debug? : Option UInt32} {first : τ}
    (found : translator.findAll (other.debugInfo.use? .debug).toList before = (.ok debug?.toList, first)) :
    merge translator code other before = merge translator
      { code with debugInfo := debug?.elim code.debugInfo code.debugInfo.setTarget }
      { other with debugInfo := .absent } first := by
  obtain ⟨registers, ins, outs, debugInfo, instructions, table⟩ := other
  rcases present : debugInfo.index with _ | index
  · obtain rfl : debugInfo = .absent := by cases debugInfo <;> first | rfl | cases present
    obtain ⟨same, rfl⟩ := Prod.mk.inj found
    obtain rfl : debug? = none := Option.toList_eq_nil_iff.mp (Except.ok.inj same).symm
    rfl
  · rw [use_present present] at found
    obtain ⟨new, between, others, asked, rest, same⟩ := Translator.findAll_cons_eq_ok.mp found
    obtain ⟨⟨⟩, rfl⟩ := Prod.mk.inj rest
    obtain rfl : debug? = some new := Option.toList_eq_singleton_iff.mp same
    change translator .debugInfo index before = _ at asked
    simp only [merge, bind, StateT.bind, pure_apply, present, asked]
    rfl

/-- Where no index is found for its debug info, only the register counts of the other item are taken over. -/
theorem merge_of_fault {index : UInt32} {fault : Fault} (present : other.debugInfo.index = some index)
    (fails : translator .debugInfo index before = (.error fault, after)) : merge translator code other before =
      (⟨some fault, { code with registers := other.registers, ins := other.ins, outs := other.outs }⟩, after) := by
  simp only [merge, bind, StateT.bind, pure_apply, present, fails]
  rfl

/-- An index is found for the debug info of an item, if it has any, or there is a fault. -/
theorem debugInfo_cases (translator : Translator τ) (ref : DataRef .debugInfo) (before : τ) :
    (∃ debug? first, translator.findAll (ref.use? .debug).toList before = (.ok (Option.toList debug?), first)) ∨
      ∃ index fault after, ref.index = some index ∧ translator .debugInfo index before = (.error fault, after) := by
  rcases present : ref.index with _ | index
  · obtain rfl : ref = .absent := by cases ref <;> first | rfl | cases present
    exact .inl ⟨none, before, rfl⟩
  · rcases asked : translator .debugInfo index before with ⟨fault | new, first⟩
    · exact .inr ⟨index, fault, first, rfl, asked⟩
    · rw [use_present present]
      exact .inl ⟨some new, first, Translator.findAll_cons_of_ok asked⟩

/-- Merging goes through exactly if an index is found for every reference of the other item: its debug info, its
operands and the types that its try table catches. -/
theorem merge_eq_ok : merge translator code other before = (⟨none, merged⟩, after) ↔
    ∃ (debug? : Option UInt32) (first : τ),
      translator.findAll (other.debugInfo.use? .debug).toList before = (.ok debug?.toList, first) ∧ ∃ operands second,
        translator.findAll (uses other.instructions) first = (.ok operands, second) ∧ ∃ caught,
          translator.findAll ((other.tryTable.map uses).getD []) second = (.ok caught, after) ∧
            merged = code.overwritten other debug? operands caught := by
  rcases debugInfo_cases translator other.debugInfo before with ⟨debug?, first, found⟩ |
    ⟨index, fault, stop, present, fails⟩
  · rw [merge_of_debugInfo found, merge_alone_eq_ok rfl]
    constructor
    · rintro ⟨operands, second, instructions, caught, table, rfl⟩
      exact ⟨debug?, first, found, operands, second, instructions, caught, table, rfl⟩
    · rintro ⟨debug', _, again, operands, second, instructions, caught, table, rfl⟩
      obtain ⟨same, rfl⟩ := Prod.mk.inj (found.symm.trans again)
      obtain rfl : debug? = debug' := by cases debug? <;> cases debug' <;> cases same <;> rfl
      exact ⟨operands, second, instructions, caught, table, rfl⟩
  · rw [merge_of_fault present fails]
    refine iff_of_false (by rintro ⟨⟩) ?_
    rintro ⟨_, _, found, -⟩
    rw [use_present present] at found
    cases (Translator.findAll_cons_of_error fails).symm.trans found

/-- Whether an item has become another one that it has taken over, with the indices that have been found. Its
debug info and its try table are its own where the other item has none. -/
structure TakesOver (code other : CodeItem) (debug? : Option UInt32)
    (operands caught : List UInt32) (merged : CodeItem) :
    Prop where
  registers : merged.registers = other.registers
  ins : merged.ins = other.ins
  outs : merged.outs = other.outs
  instructions : other.instructions.TakesOver operands merged.instructions
  debugInfo : merged.debugInfo.index = debug?.or code.debugInfo.index
  kept : other.tryTable = none → merged.tryTable = code.tryTable
  table : ∀ table, other.tryTable = some table → ∃ taken,
    merged.tryTable = some taken ∧ taken.tries = table.tries ∧
    List.Forall₂ (fun before after => List.Forall₂ ExceptionHandler.Retyped before.handlers after.handlers)
      table.handlers.items taken.handlers.items ∧ (uses taken).map Use.index = caught

variable {debug? : Option UInt32} {operands caught : List UInt32}

theorem index_setTarget (ref : DataRef .debugInfo) (index : UInt32) : (ref.setTarget index).index = some index := by
  rw [DataRef.setTarget]
  split_ifs with same
  · exact same
  · rfl

theorem index_overwritten :
    (code.overwritten other debug? operands caught).debugInfo.index = debug?.or code.debugInfo.index := by
  cases debug? with
  | none => rfl
  | some new => exact index_setTarget code.debugInfo new

theorem takesOver_overwritten (length : operands.length = other.instructions.operandRefs.length)
    (types : caught.length = ((other.tryTable.map uses).getD []).length) :
    code.TakesOver other debug? operands caught (code.overwritten other debug? operands caught) where
  registers := rfl
  ins := rfl
  outs := rfl
  instructions := InstructionList.takesOver_retargeted length
  debugInfo := index_overwritten
  kept missing := by rw [overwritten, missing]; rfl
  table table present := by
    rw [present] at types
    obtain ⟨tries, retyped, indices, -⟩ := TryTable.retargeted_spec types
    exact ⟨retargeted caught table, by rw [overwritten, present]; rfl, tries, retyped, indices⟩

/-- An index is found for the debug info of an item if it has any. -/
theorem exists_debugInfo {ref : DataRef .debugInfo} {new : List UInt32}
    (found : translator.findAll (ref.use? .debug).toList before = (.ok new, after)) :
    ∃ debug? : Option UInt32, new = debug?.toList ∧ debug?.isSome = ref.isPresent := by
  have length := Translator.length_findAll found
  cases ref with
  | absent => exact ⟨none, List.eq_nil_of_length_eq_zero length, rfl⟩
  | unplaced | placed =>
    obtain ⟨index, rfl⟩ := List.length_eq_one_iff.mp length
    exact ⟨some index, rfl, rfl⟩

theorem isSome_debugInfo {ref : DataRef .debugInfo}
    (found : translator.findAll (ref.use? .debug).toList before = (.ok debug?.toList, after)) :
    debug?.isSome = ref.isPresent := by
  obtain ⟨same?, same, isSome⟩ := exists_debugInfo found
  rw [← isSome]
  cases debug? <;> cases same? <;> first | rfl | cases same

/-- The references of an item are that to its debug info, its operands and the types that its try table catches. -/
theorem findAll_eq_ok {new : List UInt32} : translator.findAll (uses other) before = (.ok new, after) ↔
    ∃ (debug? : Option UInt32) (first : τ),
      translator.findAll (other.debugInfo.use? .debug).toList before = (.ok debug?.toList, first) ∧ ∃ operands second,
        translator.findAll (uses other.instructions) first = (.ok operands, second) ∧ ∃ caught,
          translator.findAll ((other.tryTable.map uses).getD []) second = (.ok caught, after) ∧
            new = debug?.toList ++ operands ++ caught := by
  have parts : uses other = (other.debugInfo.use? .debug).toList ++ uses other.instructions ++
      (other.tryTable.map uses).getD [] := rfl
  rw [parts, Translator.findAll_append_eq_ok]
  constructor
  · rintro ⟨_, second, caught, front, table, rfl⟩
    obtain ⟨_, first, operands, debugInfo, instructions, rfl⟩ := Translator.findAll_append_eq_ok.mp front
    obtain ⟨debug?, rfl, -⟩ := exists_debugInfo debugInfo
    exact ⟨debug?, first, debugInfo, operands, second, instructions, caught, table, rfl⟩
  · rintro ⟨debug?, first, debugInfo, operands, second, instructions, caught, table, rfl⟩
    exact ⟨_, second, caught, Translator.findAll_append_eq_ok.mpr ⟨_, first, operands, debugInfo, instructions, rfl⟩,
      table, rfl⟩

/-- An item that another one is merged into becomes the other one, with the indices that are found for the references of
that, if one is found for each. What it was before shows in its debug info and in its try table, where the other one has
none, and nowhere else. -/
theorem merge_overwrites (translator : Translator τ) (code other : CodeItem) (before after : τ) :
    ((∃ merged, merge translator code other before = (⟨none, merged⟩, after)) ↔
        ∃ new, translator.findAll (uses other) before = (.ok new, after)) ∧
      (∀ merged, merge translator code other before = (⟨none, merged⟩, after) → ∃ debug? operands caught,
        translator.findAll (uses other) before = (.ok (debug?.toList ++ operands ++ caught), after) ∧
          debug?.isSome = other.debugInfo.isPresent ∧ code.TakesOver other debug? operands caught merged) ∧
      ∀ (merged previous : CodeItem), merge translator code other before = (⟨none, merged⟩, after) →
        ∃ again, merge translator previous other before = (⟨none, again⟩, after) ∧
          again = { merged with debugInfo := again.debugInfo, tryTable := again.tryTable } ∧
          (again.debugInfo.index = merged.debugInfo.index ↔
            other.debugInfo.isPresent = true ∨ previous.debugInfo.index = code.debugInfo.index) ∧
          (again.tryTable = merged.tryTable ↔ other.tryTable.isSome = true ∨ previous.tryTable = code.tryTable) := by
  refine ⟨⟨?_, ?_⟩, ?_, ?_⟩
  · rintro ⟨merged, run⟩
    obtain ⟨debug?, first, debugInfo, operands, second, instructions, caught, table, -⟩ := merge_eq_ok.mp run
    exact ⟨_, findAll_eq_ok.mpr ⟨debug?, first, debugInfo, operands, second, instructions, caught, table, rfl⟩⟩
  · rintro ⟨new, found⟩
    obtain ⟨debug?, first, debugInfo, operands, second, instructions, caught, table, -⟩ := findAll_eq_ok.mp found
    exact ⟨_, merge_eq_ok.mpr ⟨debug?, first, debugInfo, operands, second, instructions, caught, table, rfl⟩⟩
  · intro merged run
    obtain ⟨debug?, first, debugInfo, operands, second, instructions, caught, table, rfl⟩ := merge_eq_ok.mp run
    refine ⟨debug?, operands, caught, ?_, isSome_debugInfo debugInfo, ?_⟩
    · exact findAll_eq_ok.mpr ⟨debug?, first, debugInfo, operands, second, instructions, caught, table, rfl⟩
    · exact takesOver_overwritten (InstructionList.length_operands instructions) (Translator.length_findAll table)
  · intro merged previous run
    obtain ⟨debug?, first, debugInfo, operands, second, instructions, caught, table, rfl⟩ := merge_eq_ok.mp run
    refine ⟨previous.overwritten other debug? operands caught,
      merge_eq_ok.mpr ⟨debug?, first, debugInfo, operands, second, instructions, caught, table, rfl⟩, rfl, ?_, ?_⟩
    · rw [index_overwritten, index_overwritten, ← isSome_debugInfo debugInfo]
      cases debug? <;> simp
    · rw [overwritten, overwritten]
      cases other.tryTable <;> simp

/-- An item without debug info leaves the debug info that there was. -/
theorem merge_keepsDebugInfo : ∃ code previous other merged again : CodeItem,
    merge Translator.identity code other () = (⟨none, merged⟩, ()) ∧
      merge Translator.identity previous other () = (⟨none, again⟩, ()) ∧
        other.debugInfo = .absent ∧ other.tryTable = none ∧ code.tryTable = previous.tryTable ∧
          merged.debugInfo = .unplaced 3 ∧ again.debugInfo = .absent := by
  refine ⟨⟨1, 0, 0, .unplaced 3, .ofUnits [0x000e], none⟩, ⟨1, 0, 0, .absent, .ofUnits [0x000e], none⟩,
    ⟨2, 1, 0, .absent, .ofUnits [0x000e], none⟩, ⟨2, 1, 0, .unplaced 3, .ofUnits [0x000e], none⟩,
    ⟨2, 1, 0, .absent, .ofUnits [0x000e], none⟩, ?_, ?_, rfl, rfl, rfl, rfl, rfl⟩ <;> rfl

end CodeItem

namespace InstructionList

/-- The index that was left last in each operand of code that can be written is what the code holds. -/
theorem uses_rewrite {units : List UInt16} {earlier : List Pass} {last : Pass} {bytes : Bytes}
    (success : encode ((ofUnits units).rewrite (earlier ++ [last])) = .ok bytes) :
    (uses ((ofUnits units).rewrite (earlier ++ [last]))).map (fun use => some use.index) =
      last.left ((ofUnits units).rewrite earlier) := by
  rw [rewrite_concat] at success ⊢
  obtain ⟨plain, -⟩ := encode_eq_ok success
  have stored := last.stored_run _ (by rw [plain]; rfl)
  rw [uses_eq_stored, (last.retains_run _).refs, List.map_map]
  exact (stored.map_eq fun left => left.symm).trans (List.map_id _)

/-- Code that is merged, on its own or as part of a code item, takes over the units of the other code. It refuses to be
written if and only if an index that has been found is too large for its operand, even if the other code was unwritable;
where it can be written, its operands have the indices that were found for what the other code holds. So unwritable code
leads to writable code unless some index is too large. -/
theorem merge_forgets_overflow (translator : Translator τ) (list : InstructionList) :
    (∀ before merged after, merge translator list before = (⟨none, merged⟩, after) → ∃ new,
        translator.findAll (uses list) before = (.ok new, after) ∧ list.TakesOver new merged) ∧
      (∀ (code other : CodeItem) before merged after, other.instructions = list →
        CodeItem.merge translator code other before = (⟨none, merged⟩, after) →
          (∃ start new stop, translator.findAll (uses list) start = (.ok new, stop) ∧
            list.TakesOver new merged.instructions) ∧
            ∀ bytes, encode merged = .ok bytes → ∃ part, encode merged.instructions = .ok part) ∧
      (∀ new merged, list.TakesOver new merged →
        (∀ bytes, encode merged = .ok bytes →
          List.Forall₂ (fun ref index => ref.stored merged.units = index) list.operandRefs new) ∧
        ((encode list = .error (Fault.of .operandTooWide) → encode merged = .error (Fault.of .operandTooWide)) ↔
          (∃ bytes, encode list = .ok bytes) ∨ ∃ entry ∈ list.operandRefs.zip new,
          entry.1.Refuses (some entry.2))) ∧
      ∀ units earlier (last : Pass) bytes, list = (ofUnits units).rewrite (earlier ++ [last]) →
        encode list = .ok bytes →
        (uses list).map (fun use => some use.index) = last.left ((ofUnits units).rewrite earlier) := by
  refine ⟨fun before merged after run => ?_, ?_, ?_, ?_⟩
  · obtain ⟨new, found, rfl⟩ := merge_eq_ok.mp run
    exact ⟨new, found, takesOver_retargeted (length_operands found)⟩
  · rintro code other before merged after rfl run
    obtain ⟨debug?, start, -, operands, stop, found, caught, -, rfl⟩ := CodeItem.merge_eq_ok.mp run
    refine ⟨⟨start, operands, stop, found, takesOver_retargeted (length_operands found)⟩, fun bytes success => ?_⟩
    obtain ⟨-, -, part, -, -, written, -⟩ := CodeItem.encode_eq_ok success
    exact ⟨part, written⟩
  · intro new merged takes
    refine ⟨fun bytes success => takes.stored_of_encode success, ?_⟩
    have writable : (∃ bytes, encode list = .ok bytes) ↔ ¬encode list = .error (Fault.of .operandTooWide) := by
      rw [encode_eq_error]
      simp only [encode]
      cases list.overflow <;> simp
    rw [takes.refused, writable]
    exact imp_iff_not_or
  · rintro units earlier last bytes rfl success
    exact uses_rewrite success

/-- Code of which an index has been raised beyond its operand. -/
def raised : InstructionList := (ofUnits [0x001a, 5]).rewrite [.raising 0x10000]

/-- Raised code refuses to be written, on its own and as part of a code item. Merged without changing any index, it is
written with the index that it had before. -/
theorem raised_forgotten : encode raised = .error (Fault.of .operandTooWide) ∧
    (∃ merged, merge Translator.identity raised () = (⟨none, merged⟩, ()) ∧ encode merged = .ok [0x1a, 0, 5, 0]) ∧
      ∃ code other merged : CodeItem, other.instructions = raised ∧ (∀ bytes, encode other ≠ .ok bytes) ∧
        CodeItem.merge Translator.identity code other () = (⟨none, merged⟩, ()) ∧
          encode merged = .ok [1, 0, 0, 0, 0, 0, 0, 0, 0, 0, 0, 0, 2, 0, 0, 0, 0x1a, 0, 5, 0] := by
  have lost : raised = ⟨[0x001a, 5], true⟩ := by decide +kernel
  refine ⟨by rw [lost]; rfl, ⟨ofUnits [0x001a, 5], ?_, rfl⟩, .ofUnits 0 0 0 [], ⟨1, 0, 0, .absent, raised, none⟩,
    .ofUnits 1 0 0 [0x001a, 5], rfl, ?_, ?_, rfl⟩
  · rw [lost]
    rfl
  · rw [lost]
    rintro bytes ⟨⟩
  · rw [lost]
    rfl

end InstructionList
end DexImage
