import DexImage.Proofs.Layout.Placing
/-! # What a pass over references sees and what it leaves

An item offers every visitor the same slots, whatever the visitor answers, and the references that it
lists are those of the slots that are not empty. The pools offer the slots of all their items, pool
after pool. A visitor whose answers leave every slot as it is leaves the items equal to what they were
and their encodings the same (`visit_agrees`).
-/

namespace DexImage

/-- The item that a slot leads to, unless it is empty. -/
def Slot.target? (slot : Slot) : Option (PoolKind × UInt32) := slot.index.map (slot.kind, ·)

/-- The slots of all items, pool after pool. -/
def Pools.slots (pools : Pools) : List Slot :=
  PoolKind.all.flatMap fun kind => (pools.pool kind).items.flatMap DexImage.slots

/-- Whether an edit leaves a slot as it is. -/
def Edit.Leaves (slot : Slot) : Edit → Prop
  | .keep => True
  | .retarget index => index = slot.index
  | .place _ => slot.index = none

namespace Visitor

variable {σ : Type}

/-- The state of a visitor that has been shown slots, first to last. -/
def shown (visitor : Visitor σ) (state : σ) (slots : List Slot) : σ :=
  slots.foldl (fun state slot => (visitor slot state).2) state

/-- Whether a visitor leaves every slot as it is. -/
def Leaves (visitor : Visitor σ) : Prop := ∀ slot state, (visitor slot state).1.Leaves slot

@[simp] theorem shown_nil (visitor : Visitor σ) (state : σ) : visitor.shown state [] = state := rfl

theorem shown_cons (visitor : Visitor σ) (state : σ) (slot : Slot) (rest : List Slot) :
    visitor.shown state (slot :: rest) = visitor.shown (visitor slot state).2 rest := rfl

theorem shown_append (visitor : Visitor σ) (state : σ) (first second : List Slot) :
    visitor.shown state (first ++ second) = visitor.shown (visitor.shown state first) second :=
  List.foldl_append

end Visitor

/-- The references that an item lists lead where its slots lead. -/
theorem targets_uses {kind : PoolKind} (item : Item kind) :
    (uses item).map Use.target = (slots item).filterMap Slot.target? := by
  have same (slot : Slot) : (slot.use?.map (·.heldBy kind)).map Use.target = slot.target? := by
    rw [Slot.use?, Slot.target?, Option.map_map, Option.map_map]
    refine congrArg (Option.map · slot.index) (funext fun index => ?_)
    simp only [Function.comp_apply, Use.target, Use.kind_heldBy, Use.index_heldBy]
  rw [uses_eq_slots, List.map_filterMap, List.map_filterMap]
  exact congrArg (List.filterMap · (slots item)) (funext same)

section Places

variable {σ : Type} {visitor : Visitor σ}

theorem Held.edited_of_leaves {one : Held} {edit : Edit} (leaves : edit.Leaves one.slot) :
    one.edited edit = one := by
  cases edit with
  | keep => exact one.edited_keep
  | retarget index =>
    obtain rfl : index = one.index := leaves
    rcases one with ⟨target, usage, index⟩ | ⟨target, usage, _ | ⟨index, offset⟩⟩ |
      ⟨target, wide, lost, index⟩
    · rfl
    · rfl
    · exact congrArg (Held.data target usage) (if_pos rfl)
    · exact if_pos rfl
  | place offset =>
    have empty : one.index = none := leaves
    rcases one with ⟨target, usage, index⟩ | ⟨target, usage, _ | state⟩ | ⟨target, wide, lost, index⟩
    · rfl
    · rfl
    · cases empty
    · cases empty

theorem shown_visitAll (held : List Held) (state : σ) :
    (visitAll (Held.visit visitor) held state).2 = visitor.shown state (held.map Held.slot) := by
  induction held generalizing state with
  | nil => rfl
  | cons one rest ih => exact ih _

theorem visitAll_leaves (leaves : visitor.Leaves) (held : List Held) (state : σ) :
    (visitAll (Held.visit visitor) held state).1 = held := by
  induction held generalizing state with
  | nil => rfl
  | cons one rest ih =>
    change one.edited (visitor one.slot state).1 :: (visitAll _ rest (visitor one.slot state).2).1 = _
    rw [Held.edited_of_leaves (leaves one.slot state), ih]

end Places

section Items

variable {σ : Type} {visitor : Visitor σ}

/-- An item shows every visitor the same slots. -/
theorem shown_visit {kind : PoolKind} (item : Item kind) (state : σ) :
    (visit visitor item state).2 = visitor.shown state (slots item) := by
  rw [← visit_itemHolding, slots_eq]
  exact shown_visitAll _ state

/-- The item after a pass that leaves its slots: at most its edit marks are set. -/
abbrev untouched {kind : PoolKind} (item : Item kind) : Item kind := locate (fun _ => none) item

theorem visit_leaves (leaves : visitor.Leaves) {kind : PoolKind} (item : Item kind) (state : σ) :
    (visit visitor item state).1 = untouched item := by
  have filled := fill_finder (fun _ => none) item
  have same : ((itemHolding kind).held item).map (fun one => one.edited (Finder.edit (fun _ => none) one.slot)) =
      (itemHolding kind).held item :=
    (List.map_congr_left fun one _ => one.edited_keep).trans (List.map_id _)
  rw [same] at filled
  rw [← visit_itemHolding, untouched, ← filled]
  exact congrArg ((itemHolding kind).fill item) (visitAll_leaves leaves _ state)

end Items

section Equality

instance {target : PoolKind} : ReflBEq (DataRef target) where
  rfl {ref} := by
    change (ref.index == ref.index) = true
    exact beq_self_eq_true ref.index

instance {α : Type} [BEq α] [ReflBEq α] : ReflBEq (TrackedList α) where
  rfl {list} := by
    change (list.items == list.items) = true
    exact beq_self_eq_true list.items

instance : ReflBEq EncodedValue := ⟨fun {value} => value.beq_self⟩

instance : ReflBEq AnnotationBody where
  rfl {body} := by
    change (body.type == body.type && EncodedValue.beqElements body.elements body.elements) = true
    rw [EncodedValue.beqElements_self, beq_self_eq_true, Bool.and_self]

deriving instance ReflBEq for ProtoId, ClassDef, DefinedMethod, ClassData, TryTable, CodeItem, EncodedArray,
  AnnotationItem, AnnotationSet, AnnotationSetRefList, AnnotatedMember, AnnotationsDirectory

instance itemReflBEq : (kind : PoolKind) → ReflBEq (Item kind)
  | .stringId => inferInstanceAs (ReflBEq StringData)
  | .typeId => inferInstanceAs (ReflBEq TypeId)
  | .protoId => inferInstanceAs (ReflBEq ProtoId)
  | .fieldId => inferInstanceAs (ReflBEq FieldId)
  | .methodId => inferInstanceAs (ReflBEq MethodId)
  | .classDef => inferInstanceAs (ReflBEq ClassDef)
  | .typeList => inferInstanceAs (ReflBEq TypeList)
  | .annotationSetRefList => inferInstanceAs (ReflBEq AnnotationSetRefList)
  | .annotationSet => inferInstanceAs (ReflBEq AnnotationSet)
  | .classData => inferInstanceAs (ReflBEq ClassData)
  | .code => inferInstanceAs (ReflBEq CodeItem)
  | .debugInfo => inferInstanceAs (ReflBEq DebugInfo)
  | .annotationItem => inferInstanceAs (ReflBEq AnnotationItem)
  | .encodedArray => inferInstanceAs (ReflBEq EncodedArray)
  | .annotationsDirectory => inferInstanceAs (ReflBEq AnnotationsDirectory)

theorem untouched_eq {kind : PoolKind} (noCode : kind ≠ .code) (noArray : kind ≠ .encodedArray) (item : Item kind) :
    untouched item = item := by
  have refs {target : PoolKind} (usage : Usage) (refs : List (DataRef target)) :
      refs.map (DataRef.located (fun _ => none) usage) = refs := List.map_id refs
  have methods (entries : List DefinedMethod) : entries.map (DefinedMethod.located fun _ => none) = entries :=
    List.map_id entries
  have members {member target : PoolKind} (entries : List (AnnotatedMember member target)) :
      entries.map (AnnotatedMember.located fun _ => none) = entries := List.map_id entries
  cases kind with
  | annotationSetRefList | annotationSet => simp only [untouched, locate, refs]
  | classData => simp only [untouched, locate, methods]
  | annotationsDirectory => 
    simp only [untouched, locate, members]
    rfl
  | code => exact absurd rfl noCode
  | encodedArray => exact absurd rfl noArray
  | _ => rfl

theorem untouched_beq {kind : PoolKind} (item : Item kind) : (untouched item == item) = true := by
  by_cases noCode : kind = .code
  · subst noCode
    obtain ⟨registers, ins, outs, debugInfo, instructions, _ | table⟩ := item
    · exact beq_self_eq_true (CodeItem.mk registers ins outs debugInfo instructions none)
    · exact beq_self_eq_true (CodeItem.mk registers ins outs debugInfo instructions (some table))
  by_cases noArray : kind = .encodedArray
  · subst noArray
    exact beq_self_eq_true (item : EncodedArray)
  rw [untouched_eq noCode noArray]
  exact beq_self_eq_true item

/-- An edit mark does not show in the encoding. -/
theorem TryTable.encode_markDirty (table : TryTable) :
    encode { table with handlers := table.handlers.markDirty } = encode table := by
  have ranges (items : List TryItem) (index : Nat) :
      encodeTries { table with handlers := table.handlers.markDirty } index items = table.encodeTries index items := by
    induction items generalizing index with
    | nil => rfl
    | cons item rest ih =>
      rw [encodeTries, encodeTries, ih]
      rfl
  change (encodeTries _ 0 table.tries >>= _) = (table.encodeTries 0 table.tries >>= _)
  rw [ranges]
  rfl

theorem encode_untouched {kind : PoolKind} (item : Item kind) : encode (untouched item) = encode item := by
  by_cases noCode : kind = .code
  · subst noCode
    obtain ⟨registers, ins, outs, debugInfo, instructions, _ | table⟩ := item
    · rfl
    · let code (table : TryTable) := CodeItem.mk registers ins outs debugInfo instructions (some table)
      have written : (code { table with handlers := table.handlers.markDirty }).writtenTable?.map encode =
          (code table).writtenTable?.map encode := by
        by_cases some : 0 < table.tries.length.toUInt16
        · refine (congrArg (Option.map encode) (if_pos some)).trans
            (Eq.trans ?_ (congrArg (Option.map encode) (if_pos some)).symm)
          exact congrArg Option.some table.encode_markDirty
        · exact (congrArg (Option.map encode) (if_neg some)).trans (congrArg (Option.map encode) (if_neg some)).symm
      refine (code { table with handlers := table.handlers.markDirty }).encode_eq.trans
        (Eq.trans ?_ (code table).encode_eq.symm)
      rw [written]
      rfl
  by_cases noArray : kind = .encodedArray
  · subst noArray
    rfl
  rw [untouched_eq noCode noArray]

end Equality

section Pools

variable {σ : Type} {visitor : Visitor σ}

theorem Pool.shown_mapM {kind : PoolKind} (pool : Pool (Item kind)) (state : σ) :
    (pool.mapM (visit visitor) state).2 = visitor.shown state (pool.items.flatMap slots) := by
  rw [Pool.mapM_eq, Pool.items]
  change (visitAll _ pool.entries.toList state).2 = _
  induction pool.entries.toList generalizing state with
  | nil => rfl
  | cons entry rest ih =>
    rw [List.map_cons, List.flatMap_cons, Visitor.shown_append, ← shown_visit]
    exact ih _

theorem Pool.mapM_leaves (leaves : visitor.Leaves) {kind : PoolKind} (pool : Pool (Item kind)) (state : σ) :
    (pool.mapM (visit visitor) state).1 = pool.map untouched := by
  have each (entries : List (PoolEntry (Item kind))) (state : σ) :
      (visitAll (fun entry => do return { entry with item := ← visit visitor entry.item }) entries state).1 =
        entries.map fun entry => { entry with item := untouched entry.item } := by
    induction entries generalizing state with
    | nil => rfl
    | cons entry rest ih =>
      rw [List.map_cons, ← ih (visit visitor entry.item state).2, ← visit_leaves leaves entry.item state]
      rfl
  rw [Pool.mapM_eq]
  change (⟨(visitAll _ pool.entries.toList state).1.toArray⟩ : Pool (Item kind)) = _
  rw [each, Pool.map, ← Array.toList_map, Array.toArray_toList]

theorem Pool.map_beq {α : Type} [BEq α] (pool : Pool α) {edit : α → α} (same : ∀ item, (edit item == item) = true) :
    (pool.map edit == pool) = true := by
  change ((pool.map edit).items == pool.items) = true
  rw [items_map]
  exact pool.items.map_beq same

namespace Pools

/-- The part of a pass that goes over one pool. -/
def visitPool (visitor : Visitor σ) (pools : Pools) (kind : PoolKind) : StateM σ Pools := do
  let pool ← (pools.pool kind).mapM (DexImage.visit visitor)
  return pools.setPool kind pool

/-- A pass over some pools shows their slots, one pool after the other. -/
private theorem shown_foldlM {kinds : List PoolKind} (distinct : kinds.Nodup) (pools : Pools) (state : σ) :
    (kinds.foldlM (visitPool visitor) pools state).2 =
      visitor.shown state (kinds.flatMap fun kind => (pools.pool kind).items.flatMap DexImage.slots) := by
  induction kinds generalizing pools state with
  | nil => rfl
  | cons kind rest ih =>
    obtain ⟨fresh, distinct⟩ := List.nodup_cons.mp distinct
    rw [List.foldlM_cons, List.flatMap_cons, Visitor.shown_append, ← Pool.shown_mapM]
    refine (ih distinct _ _).trans ?_
    -- The pools that are still to be visited are as they were.
    refine congrArg (visitor.shown _) (List.flatMap_congr fun other member => ?_)
    rw [pool_setPool_of_ne]
    rintro rfl
    exact fresh member

/-- The pools show every visitor the slots of all their items. -/
theorem shown_visit (pools : Pools) (state : σ) : (pools.visit visitor state).2 = visitor.shown state pools.slots :=
  shown_foldlM nodup_all pools state

private theorem foldlM_leaves (leaves : visitor.Leaves) (kinds : List PoolKind) (pools : Pools) (state : σ) :
    (kinds.foldlM (visitPool visitor) pools state).1 =
      kinds.foldl (fun pools kind => pools.setPool kind ((pools.pool kind).map untouched)) pools := by
  induction kinds generalizing pools state with
  | nil => rfl
  | cons kind rest ih =>
    rw [List.foldlM_cons, List.foldl_cons, ← Pool.mapM_leaves leaves _ state]
    exact ih _ _

theorem pool_visit_leaves (leaves : visitor.Leaves) (pools : Pools) (state : σ) (kind : PoolKind) :
    (pools.visit visitor state).1.pool kind = (pools.pool kind).map untouched := by
  change (PoolKind.all.foldlM (visitPool visitor) pools state).1.pool kind = _
  rw [foldlM_leaves leaves]
  exact pool_foldl_all (fun kind pool => pool.map untouched) (fun _ _ => pool_setPool_self _ _ _)
    (fun _ _ _ differ => pool_setPool_of_ne _ differ _) pools kind

theorem encodeItem_leaves (leaves : visitor.Leaves) (pools : Pools) (state : σ) (kind : SectionKind) (index : UInt32) :
    (pools.visit visitor state).1.encodeItem kind index = pools.encodeItem kind index := by
  rw [encodeItem, encodeItem]
  cases kind.pool? with
  | none => rfl
  | some pool =>
    have found : (pools.visit visitor state).1.get? pool index = (pools.get? pool index).map untouched := by
      rw [Pools.get?, Pools.get?, pool_visit_leaves leaves]
      simp [Pool.get?, Pool.map, Function.comp_def]
    simp only [found, pool_visit_leaves leaves, Pool.size_map]
    cases pools.get? pool index with
    | none => rfl
    | some item => simp only [Option.map_some, encode_untouched]

theorem beq_of_pools {first second : Pools} (same : ∀ kind, (first.pool kind == second.pool kind) = true) :
    (first == second) = true := by
  obtain ⟨⟩ := first
  obtain ⟨⟩ := second
  simp only [BEq.beq, instBEqPools.beq, Bool.and_eq_true]
  exact ⟨same .stringId, same .typeId, same .protoId, same .fieldId, same .methodId, same .classDef,
    same .typeList, same .annotationSetRefList, same .annotationSet, same .classData, same .code,
    same .debugInfo, same .annotationItem, same .encodedArray, same .annotationsDirectory⟩

end Pools
end Pools

/-- The two ways to go through references agree. Every item lists the references that are in the slots
that it shows, in the same order; it shows every visitor the same slots, and the pools show those of all
their items. A visitor that leaves the slots leaves all items equal to what they were, with the same
encoding or the same fault. -/
theorem visit_agrees {σ : Type} (visitor : Visitor σ) (state : σ) :
    (∀ {kind : PoolKind} (item : Item kind),
      (uses item).map Use.target = (slots item).filterMap Slot.target? ∧
        (visit visitor item state).2 = visitor.shown state (slots item) ∧
          (visitor.Leaves → ((visit visitor item state).1 == item) = true ∧
            encode (visit visitor item state).1 = encode item)) ∧
      ∀ pools : Pools,
        (pools.visit visitor state).2 = visitor.shown state pools.slots ∧
          (visitor.Leaves → ((pools.visit visitor state).1 == pools) = true ∧
            ∀ kind index, (pools.visit visitor state).1.encodeItem kind index = pools.encodeItem kind index) := by
  constructor
  · intro kind item
    refine ⟨targets_uses item, shown_visit item state, fun leaves => ?_⟩
    rw [visit_leaves leaves]
    exact ⟨untouched_beq item, encode_untouched item⟩
  · intro pools
    refine ⟨pools.shown_visit state, fun leaves => ⟨Pools.beq_of_pools fun kind => ?_, fun kind index => ?_⟩⟩
    · rw [Pools.pool_visit_leaves leaves]
      exact Pool.map_beq _ untouched_beq
    · exact Pools.encodeItem_leaves leaves pools state kind index

/-- A visitor that counts the slots and gives each the index that it has. -/
def countingVisitor : Visitor Nat := fun slot count => (.retarget slot.index, count + 1)

/-- A string, a missing type and the parts of an annotation in one array. -/
def nestedArray : Item .encodedArray :=
  EncodedArray.mk (.ofList [some (.scalar (.string (.of 3)) 0),
    some (.array [.scalar (.type .absent) 1, .annotationBody (.of 1) [(.of 2, .null)]]), none])

theorem visit_agrees_counting :
    countingVisitor.Leaves ∧
      (uses nestedArray).map Use.target = [(.stringId, 3), (.typeId, 1), (.stringId, 2)] ∧
      (visit countingVisitor nestedArray 0).2 = 4 ∧
      ((visit countingVisitor nestedArray 0).1 == nestedArray) = true := by
  have leaves : countingVisitor.Leaves := fun _ _ => rfl
  obtain ⟨listed, shown, left⟩ := (visit_agrees countingVisitor 0).1 nestedArray
  exact ⟨leaves, listed.trans rfl, shown.trans rfl, (left leaves).1⟩

end DexImage
