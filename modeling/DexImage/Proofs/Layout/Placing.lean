import DexImage.Layout
import DexImage.Proofs.Codec.Sizes
import DexImage.Proofs.Pools
import DexImage.Proofs.References.Alike
/-! # Items whose references learn offsets

Laying out a section tells the references into it the offsets of their targets. That changes the offsets
known to data references and nothing else (`locate`), and no size but that of class data, which spells
the offsets of its code.
-/

namespace DexImage

/-- Offsets for the targets of slots, as far as they are known. -/
abbrev Finder := Slot → Option UInt32

/-- What a slot is told. -/
def Finder.edit (find : Finder) (slot : Slot) : Edit :=
  match find slot with
  | some offset => .place offset
  | none => .keep

def DataRef.located {target : PoolKind} (find : Finder) (usage : Usage) (ref : DataRef target) : DataRef target :=
  ref.edited (find.edit (ref.slot usage))

def DefinedMethod.located (find : Finder) (entry : DefinedMethod) : DefinedMethod :=
  { entry with code := entry.code.located find .code }

def AnnotatedMember.located {member target : PoolKind} (find : Finder) (entry : AnnotatedMember member target) :
    AnnotatedMember member target :=
  { entry with annotations := entry.annotations.located find .annotated }

/-- The item with the offsets that its data references are told. -/
def locate (find : Finder) : {kind : PoolKind} → Item kind → Item kind
  | .stringId, string => string
  | .typeId, type => type
  | .protoId, proto => { (proto : ProtoId) with parameters := proto.parameters.located find .idItem }
  | .fieldId, field => field
  | .methodId, method => method
  | .classDef, definition =>
    { (definition : ClassDef) with
      interfaces := definition.interfaces.located find .definition
      annotations := definition.annotations.located find .annotated
      classData := definition.classData.located find .definition
      staticValues := definition.staticValues.located find .staticValue }
  | .typeList, list => list
  | .annotationSetRefList, list => AnnotationSetRefList.mk (list.sets.map (DataRef.located find .annotated))
  | .annotationSet, set => AnnotationSet.mk (set.items.map (DataRef.located find .annotated))
  | .classData, data =>
    { (data : ClassData) with
      directMethods := data.directMethods.map (DefinedMethod.located find)
      virtualMethods := data.virtualMethods.map (DefinedMethod.located find) }
  | .code, code =>
    { (code : CodeItem) with
      debugInfo := code.debugInfo.located find .debug
      tryTable := code.tryTable.map fun table => { table with handlers := table.handlers.markDirty } }
  | .debugInfo, info => info
  | .annotationItem, item => item
  | .encodedArray, array => EncodedArray.mk array.slots.markDirty
  | .annotationsDirectory, directory =>
    { classSet := directory.classSet.located find .annotated
      fields := directory.fields.map (AnnotatedMember.located find)
      methods := directory.methods.map (AnnotatedMember.located find)
      parameters := directory.parameters.map (AnnotatedMember.located find) : AnnotationsDirectory }

section Passes

/-- A pass that tells offsets. -/
abbrev Finder.visitor (find : Finder) : Visitor Unit := fun slot => pure (find.edit slot)

variable (find : Finder)

theorem visitAll_pure {α σ : Type} {visitOne : α → StateM σ α} (edit : α → α) {items : List α}
    (each : ∀ item, visitOne item = pure (edit item)) : visitAll visitOne items = pure (items.map edit) := by
  induction items with
  | nil => rfl
  | cons item rest ih => rw [visitAll_cons, each, ih, pure_bind, pure_bind, List.map_cons]

theorem visitAll_kept {α σ : Type} {visitOne : α → StateM σ α} {items : List α}
    (each : ∀ item, visitOne item = pure item) : visitAll visitOne items = pure items :=
  (visitAll_pure id each).trans (congrArg pure (List.map_id items))

@[simp] theorem IdRef.visit_finder {target : PoolKind} (usage : Usage) (ref : IdRef target) :
    ref.visit find.visitor usage = pure ref := by
  have kept : ref.edited (find.edit (ref.slot usage)) = ref := by
    rw [Finder.edit]
    cases find (ref.slot usage) <;> rfl
  rw [IdRef.visit, pure_bind, kept]

@[simp] theorem DataRef.visit_finder {target : PoolKind} (usage : Usage) (ref : DataRef target) :
    ref.visit find.visitor usage = pure (ref.located find usage) := rfl

theorem visitAll_ids {target : PoolKind} (usage : Usage) (refs : List (IdRef target)) :
    visitAll (IdRef.visit find.visitor usage) refs = pure refs :=
  visitAll_kept (IdRef.visit_finder find usage)

theorem Scalar.visit_finder (value : Scalar) : value.visit find.visitor = pure value := by
  cases value <;> simp [Scalar.visit]

namespace EncodedValue

mutual

theorem visit_finder : (value : EncodedValue) → value.visit find.visitor = pure value
  | scalar value width => by rw [EncodedValue.visit, Scalar.visit_finder, pure_bind]
  | array elements => by rw [EncodedValue.visit, visitList_finder elements, pure_bind]
  | annotationBody type elements => by
    rw [EncodedValue.visit, IdRef.visit_finder, pure_bind, visitElements_finder elements, pure_bind]
  | null => rfl
  | boolean _ => rfl

theorem visitList_finder : (values : List EncodedValue) → visitList find.visitor values = pure values
  | [] => rfl
  | value :: rest => by rw [visitList, visit_finder value, pure_bind, visitList_finder rest, pure_bind]

theorem visitElements_finder : (elements : List (IdRef .stringId × EncodedValue)) →
    visitElements find.visitor elements = pure elements
  | [] => rfl
  | (name, value) :: rest => by
    rw [visitElements, IdRef.visit_finder, pure_bind, visit_finder value, pure_bind,
      visitElements_finder rest, pure_bind]

end

end EncodedValue

theorem InstructionList.visit_finder (list : InstructionList) :
    DexImage.visit find.visitor list = pure list := by
  have refs (refs : List OperandRef) (units : List UInt16) :
      Instruction.visitRefs find.visitor refs units = pure (units, false) := by
    induction refs with
    | nil => rfl
    | cons ref rest ih =>
      rw [Instruction.visitRefs, pure_bind, Finder.edit]
      cases find (ref.slot units) <;>
        simp only [Option.getD_some, ih, pure_bind, Option.isNone_some, Bool.or_false]
  have each (instructions : List Instruction) :
      Instruction.visitEach find.visitor instructions = pure (instructions.map fun one => (one.units, false)) := by
    induction instructions with
    | nil => rfl
    | cons instruction rest ih => rw [Instruction.visitEach, refs, pure_bind, ih, pure_bind, List.map_cons]
  have whole := (Disassembly.ofUnits_listing list.units).2
  change (Instruction.visitEach find.visitor list.disassembly.instructions >>= fun edited =>
    (pure ⟨edited.flatMap Prod.fst ++ list.disassembly.rest, list.overflow || edited.any Prod.snd⟩ :
      StateM Unit InstructionList)) = _
  have lost : (list.disassembly.instructions.map fun one => (one.units, false)).any Prod.snd = false := by
    simp
  rw [each, pure_bind, lost, Bool.or_false, List.flatMap_map]
  change pure (InstructionList.mk (Disassembly.unitsOf list.disassembly.instructions ++ _) _) = _
  rw [InstructionList.disassembly, whole]

theorem DebugOp.visit_finder (op : DebugOp) : op.visit find.visitor = pure op := by
  cases op <;> simp [DebugOp.visit]

theorem HandlerList.visit_finder (list : HandlerList) : DexImage.visit find.visitor list = pure list := by
  refine congrArg (· >>= fun handlers => (pure ⟨handlers⟩ : StateM Unit HandlerList)) (visitAll_kept fun handler => ?_)
  cases handler <;> simp

theorem HandlerList.visitAll_finder (lists : List HandlerList) :
    visitAll (DexImage.visit find.visitor) lists = pure lists :=
  visitAll_kept (HandlerList.visit_finder find)

/-- A pass over a try table leaves its handler lists to be numbered again. -/
theorem TryTable.visit_finder (table : TryTable) :
    DexImage.visit find.visitor table = pure { table with handlers := table.handlers.markDirty } :=
  congrArg (· >>= fun lists => (pure { table with handlers := ⟨lists, true⟩ } : StateM Unit TryTable))
    (HandlerList.visitAll_finder find table.handlers.items)

theorem DataRef.visitAll_finder {target : PoolKind} (usage : Usage) (refs : List (DataRef target)) :
    visitAll (DataRef.visit find.visitor usage) refs = pure (refs.map (DataRef.located find usage)) :=
  visitAll_pure _ (DataRef.visit_finder find usage)

theorem DebugOp.visitAll_finder (ops : List DebugOp) : visitAll (DebugOp.visit find.visitor) ops = pure ops :=
  visitAll_kept (DebugOp.visit_finder find)

theorem DefinedField.visitAll_finder (entries : List DefinedField) :
    visitAll (DefinedField.visit find.visitor) entries = pure entries := by
  refine visitAll_kept fun entry => ?_
  rw [DefinedField.visit, IdRef.visit_finder, pure_bind]

theorem DefinedMethod.visitAll_finder (entries : List DefinedMethod) :
    visitAll (DefinedMethod.visit find.visitor) entries = pure (entries.map (DefinedMethod.located find)) := by
  refine visitAll_pure _ fun entry => ?_
  rw [DefinedMethod.visit, IdRef.visit_finder, pure_bind, DataRef.visit_finder, pure_bind]
  rfl

theorem AnnotatedMember.visitAll_finder {member target : PoolKind} (entries : List (AnnotatedMember member target)) :
    visitAll (AnnotatedMember.visit find.visitor) entries = pure (entries.map (AnnotatedMember.located find)) := by
  refine visitAll_pure _ fun entry => ?_
  rw [AnnotatedMember.visit, IdRef.visit_finder, pure_bind, DataRef.visit_finder, pure_bind]
  rfl

theorem CodeItem.visit_finder (code : Item .code) : visit find.visitor code = pure (locate find code) := by
  refine (CodeItem.visit_holding find.visitor code).symm.trans ?_
  obtain ⟨registers, ins, outs, debugInfo, instructions, tryTable⟩ := code
  simp only [CodeItem.holding, Holding.visit_part, Holding.visit_pair, DataRef.visit_holding,
    InstructionList.visit_holding, Holding.visit_option, TryTable.visit_holding, DataRef.visit_finder,
    InstructionList.visit_finder, pure_bind]
  cases tryTable with
  | none => rfl
  | some table => simp only [TryTable.visit_finder]; rfl

theorem EncodedArray.visit_finder (array : Item .encodedArray) :
    visit find.visitor array = pure (locate find array) := by
  refine congrArg (· >>= fun items => pure (EncodedArray.mk ⟨items, true⟩)) (visitAll_kept fun slot => ?_)
  cases slot with
  | none => rfl
  | some value => simp [EncodedValue.visit_finder]

/-- A pass that tells offsets locates the item. -/
theorem visit_finder {kind : PoolKind} (item : Item kind) :
    visit find.visitor item = pure (locate find item) := by
  cases kind with
  | stringId => rfl
  | typeId => exact congrArg (· >>= fun ref => pure (TypeId.mk ref)) (IdRef.visit_finder find .idItem _)
  | typeList => exact congrArg (· >>= fun refs => pure (TypeList.mk refs)) (visitAll_ids find .typeList _)
  | annotationSetRefList =>
    exact congrArg (· >>= fun refs => pure (AnnotationSetRefList.mk refs)) (DataRef.visitAll_finder find .annotated _)
  | annotationSet =>
    exact congrArg (· >>= fun refs => pure (AnnotationSet.mk refs)) (DataRef.visitAll_finder find .annotated _)
  | code => exact CodeItem.visit_finder find item
  | encodedArray => exact EncodedArray.visit_finder find item
  | protoId | fieldId | methodId | classDef | classData | debugInfo | annotationItem | annotationsDirectory =>
    simp only [visit, Referring.visit, IdRef.visit_finder, DataRef.visit_finder, visitAll_ids,
      DefinedField.visitAll_finder, DefinedMethod.visitAll_finder, AnnotatedMember.visitAll_finder,
      DebugOp.visitAll_finder, EncodedValue.visitElements_finder, pure_bind]
    rfl

/-- Filling the places of an item with what they are told locates it. -/
theorem fill_finder {kind : PoolKind} (item : Item kind) :
    (itemHolding kind).fill item (((itemHolding kind).held item).map fun one => one.edited (find.edit one.slot)) =
      locate find item := by
  have pass := ((itemHolding kind).visit_pure (σ := Unit) find.edit item).symm.trans
    ((visit_itemHolding find.visitor item).trans (visit_finder find item))
  exact congrArg Prod.fst (congrFun pass ())

private theorem kept_finder {kind : PoolKind} (item : Item kind) :
    ∀ one ∈ ((itemHolding kind).held item).map fun one => one.edited (find.edit one.slot), one.isLost = false := by
  intro one member
  obtain ⟨old, present, rfl⟩ := List.mem_map.mp member
  have kept := (((itemHolding kind).lawful item).kept old present).1
  rw [Finder.edit]
  cases find old.slot with
  | none => rwa [Held.edited_keep]
  | some offset => cases old <;> exact kept

theorem held_locate {kind : PoolKind} (item : Item kind) :
    (itemHolding kind).held (locate find item) =
      ((itemHolding kind).held item).map fun one => one.edited (find.edit one.slot) := by
  rw [← fill_finder, (itemHolding kind).held_fill_kept ((itemHolding kind).fits_edited item _) (kept_finder find item)]

/-- What is told changes neither the form of an item nor its slots. -/
theorem alike_locate {kind : PoolKind} (item : Item kind) : Alike (locate find item) item where
  form := by
    rw [← fill_finder]
    exact (itemHolding kind).form_fill ((itemHolding kind).fits_edited item _) (kept_finder find item)
  slots := by
    rw [held_locate, List.map_map]
    refine List.map_congr_left fun one _ => ?_
    rw [Function.comp, Finder.edit]
    cases find one.slot with
    | none => rw [Held.edited_keep]
    | some offset =>
      cases one with
      | data target usage state =>
        simp only [Held.edited, Held.slot, Held.kind, Held.index, Held.usage, Option.map_map]; rfl
      | _ => rfl

end Passes

/-- No size but that of class data depends on the offsets that references are told. -/
theorem encodedSize_locate (find : Finder) {kind : PoolKind} (item : Item kind)
    (steady : kind = .classData → ∀ slot : Slot, slot.kind = .code → find slot = none) :
    encodedSize (locate find item) = encodedSize item := by
  cases kind with
  | annotationSetRefList | annotationSet =>
    simp only [encodedSize, locate, List.length_map]
  | annotationsDirectory => simp only [encodedSize, locate, List.length_map]
  | classData =>
    have code (ref : DataRef .code) : ref.located find .code = ref := by
      rw [DataRef.located, Finder.edit, steady rfl _ rfl]
      rfl
    have method (entry : DefinedMethod) : entry.located find = entry := by rw [DefinedMethod.located, code]
    have methods (entries : List DefinedMethod) : entries.map (DefinedMethod.located find) = entries := by
      rw [funext method]
      exact List.map_id _
    simp only [locate, methods]
  | code =>
    obtain ⟨registers, ins, outs, debugInfo, instructions, _ | table⟩ := item
    · rfl
    · have written : ((if 0 < table.tries.length.toUInt16 then
          some { table with handlers := table.handlers.markDirty } else none).map encodedSize).getD 0 =
            ((if 0 < table.tries.length.toUInt16 then some table else none).map encodedSize).getD 0 := by
        split_ifs <;> rfl
      exact congrArg (_ + ·) written
  | _ => rfl

section Faults

variable {α β : Type}

/-- Whether a run keeps a fault that has occurred before it. -/
def Stays (run : StateM (Option Fault) α) : Prop := ∀ fault, (run (some fault)).2 ≠ none

/-- Whether a run yields a value unless a fault occurs. -/
def Yields (run : StateM (Option Fault) α) (value : α) : Prop := (run none).2 = none → (run none).1 = value

theorem Stays.pure (value : α) : Stays (Pure.pure value) := fun _ => Option.some_ne_none _

theorem Stays.bind {run : StateM (Option Fault) α} {next : α → StateM (Option Fault) β} (stays : Stays run)
    (others : ∀ value, Stays (next value)) : Stays (run >>= next) := by
  intro fault
  have first := stays fault
  change (next (run (some fault)).1 (run (some fault)).2).2 ≠ none
  obtain ⟨other, same⟩ := Option.ne_none_iff_exists'.mp first
  rw [same]
  exact others _ other

theorem Yields.pure (value : α) : Yields (Pure.pure value) value := fun _ => rfl

theorem Yields.bind {run : StateM (Option Fault) α} {next : α → StateM (Option Fault) β} {value : α} {result : β}
    (yields : Yields run value) (others : ∀ value, Stays (next value)) (then' : Yields (next value) result) :
    Yields (run >>= next) result := by
  intro success
  change (next (run none).1 (run none).2).2 = none at success
  change (next (run none).1 (run none).2).1 = result
  rcases faulty : (run none).2 with _ | fault
  · rw [faulty, yields faulty] at success
    rw [yields faulty]
    exact then' success
  · rw [faulty] at success
    exact absurd success (others _ fault)

theorem Stays.visitAll {visitOne : α → StateM (Option Fault) α} (each : ∀ item, Stays (visitOne item))
    (items : List α) : Stays (DexImage.visitAll visitOne items) := by
  induction items with
  | nil => exact .pure _
  | cons item rest ih => exact (each item).bind fun _ => ih.bind fun _ => .pure _

theorem Yields.visitAll {visitOne : α → StateM (Option Fault) α} (edit : α → α)
    (stays : ∀ item, Stays (visitOne item)) (each : ∀ item, Yields (visitOne item) (edit item)) (items : List α) :
    Yields (DexImage.visitAll visitOne items) (items.map edit) := by
  induction items with
  | nil => exact .pure _
  | cons item rest ih =>
    exact (each item).bind (fun _ => (Stays.visitAll stays rest).bind fun _ => .pure _)
      (ih.bind (fun _ => .pure _) (.pure _))

/-- A pass over the items of a pool is a pass over their list. -/
theorem Pool.mapM_eq {σ : Type} (pool : Pool α) (edit : α → StateM σ α) :
    pool.mapM edit = (do
      let entries ← visitAll (fun entry => do return { entry with item := ← edit entry.item }) pool.entries.toList
      return ⟨entries.toArray⟩) := by
  obtain ⟨⟨entries⟩⟩ := pool
  rw [Pool.mapM, List.mapM_toArray]
  have each : ∀ entries : List (PoolEntry α), entries.mapM (fun entry => do
      let item ← edit entry.item
      return { entry with item }) =
        visitAll (fun entry => do return { entry with item := ← edit entry.item }) entries := by
    intro entries
    induction entries with
    | nil => rfl
    | cons entry rest ih => rw [List.mapM_cons, visitAll_cons, ih]
  rw [each]
  simp

end Faults

namespace Layout

/-- The offsets of the items of a kind. -/
def finder (offsets : OffsetTable) (kind : PoolKind) : Finder := fun slot =>
  if slot.kind = kind then slot.index.bind (offsets.offset? kind.toSection) else none

/-- What `updateRefs` does with a slot. -/
def telling (offsets : OffsetTable) (kind : PoolKind) : Visitor (Option Fault) := fun slot fault? =>
  match fault? with
  | some _ => (.keep, fault?)
  | none =>
    if slot.kind = kind then
      match slot.placement offsets with
      | .ok edit => (edit, none)
      | .error fault => (.keep, some fault)
    else (.keep, none)

private theorem telling_none {offsets : OffsetTable} {kind : PoolKind} {slot : Slot}
    (success : (telling offsets kind slot none).2 = none) :
    (telling offsets kind slot none).1 = (finder offsets kind).edit slot := by
  by_cases same : slot.kind = kind
  · obtain ⟨_, index, usage⟩ := slot
    obtain rfl := same
    cases index with
    | none => simp [telling, Slot.placement, finder, Finder.edit]
    | some index =>
      simp only [telling, if_true, Slot.placement, finder, Finder.edit, Option.bind_some] at success ⊢
      cases found : offsets.offset? (PoolKind.toSection _) index with
      | none => simp [found] at success
      | some offset => rfl
  · simp [telling, finder, Finder.edit, same]

private theorem stays_telling (offsets : OffsetTable) (kind : PoolKind) {other : PoolKind} (item : Item other) :
    Stays (visit (telling offsets kind) item) := by
  rw [← visit_itemHolding]
  refine (Stays.visitAll (fun one => ?_) _).bind fun _ => .pure _
  exact Stays.bind (fun _ => Option.some_ne_none _) fun _ => .pure _

private theorem yields_telling (offsets : OffsetTable) (kind : PoolKind) {other : PoolKind} (item : Item other) :
    Yields (visit (telling offsets kind) item) (locate (finder offsets kind) item) := by
  rw [← visit_itemHolding, ← fill_finder]
  refine (Yields.visitAll (fun one => one.edited ((finder offsets kind).edit one.slot))
    (fun one => ?_) (fun one => ?_) _).bind (fun _ => .pure _) (.pure _)
  · exact Stays.bind (fun _ => Option.some_ne_none _) fun _ => .pure _
  · intro success
    change one.edited (telling offsets kind one.slot none).1 = _
    rw [telling_none success]

/-- What telling the offsets makes of the pool of a kind. -/
private def toldPool (offsets : OffsetTable) (kind : PoolKind) (pools : Pools) (other : PoolKind) : Pools :=
  pools.setPool other ((pools.pool other).map (locate (finder offsets kind)))

private theorem stays_pool (offsets : OffsetTable) (kind other : PoolKind) (pools : Pools) : Stays (do
    let pool ← (pools.pool other).mapM (visit (telling offsets kind))
    return pools.setPool other pool) := by
  rw [Pool.mapM_eq, bind_assoc]
  refine (Stays.visitAll (fun entry => ?_) _).bind fun _ => .pure _
  exact (stays_telling offsets kind entry.item).bind fun _ => .pure _

private theorem yields_pool (offsets : OffsetTable) (kind other : PoolKind) (pools : Pools) : Yields (do
    let pool ← (pools.pool other).mapM (visit (telling offsets kind))
    return pools.setPool other pool) (toldPool offsets kind pools other) := by
  rw [Pool.mapM_eq, bind_assoc]
  refine (Yields.visitAll (fun entry => { entry with item := locate (finder offsets kind) entry.item })
    (fun entry => ?_) (fun entry => ?_) _).bind (fun _ => .pure _) ?_
  · exact (stays_telling offsets kind entry.item).bind fun _ => .pure _
  · exact (yields_telling offsets kind entry.item).bind (fun _ => .pure _) (.pure _)
  · rw [← Array.toList_map, Array.toArray_toList]
    exact .pure _

private theorem yields_pools (offsets : OffsetTable) (kind : PoolKind) (kinds : List PoolKind) (pools : Pools) :
    Yields (kinds.foldlM (fun pools other => do
        let pool ← (pools.pool other).mapM (visit (telling offsets kind))
        return pools.setPool other pool) pools) (kinds.foldl (toldPool offsets kind) pools) := by
  have stays (kinds : List PoolKind) (pools : Pools) : Stays (kinds.foldlM (fun pools other => do
      let pool ← (pools.pool other).mapM (visit (telling offsets kind))
      return pools.setPool other pool) pools) := by
    induction kinds generalizing pools with
    | nil => exact .pure _
    | cons first rest ih => exact (stays_pool offsets kind first pools).bind fun pools => ih pools
  induction kinds generalizing pools with
  | nil => exact .pure _
  | cons first rest ih => exact (yields_pool offsets kind first pools).bind (stays rest) (ih _)

theorem updateRefs_eq (offsets : OffsetTable) (kind : PoolKind) (pools : Pools) :
    updateRefs offsets kind pools =
      ⟨(pools.visit (telling offsets kind) none).2, (pools.visit (telling offsets kind) none).1⟩ := by
  delta updateRefs telling
  generalize @Pools.visit = visit
  rfl

/-- Where the items of a section have been laid out, the references to them learn their offsets, and
nothing else changes. -/
theorem updateRefs_spec {offsets : OffsetTable} {kind : PoolKind} {pools : Pools}
    (success : (updateRefs offsets kind pools).fault? = none) (other : PoolKind) :
    (updateRefs offsets kind pools).value.pool other = (pools.pool other).map (locate (finder offsets kind)) := by
  rw [updateRefs_eq] at success ⊢
  simp only [Pools.visit] at success ⊢
  rw [yields_pools offsets kind PoolKind.all pools success]
  exact Pools.pool_foldl_all (fun _ pool => pool.map (locate (finder offsets kind)))
    (fun _ _ => Pools.pool_setPool_self _ _ _) (fun _ _ _ differ => Pools.pool_setPool_of_ne _ differ _) pools other

end Layout
end DexImage
