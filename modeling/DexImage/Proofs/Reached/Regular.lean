import DexImage.Proofs.Loading.Contents
import DexImage.Proofs.Layout.Placing
import DexImage.Proofs.Codec.Programs
import DexImage.Proofs.Codec.Strings
import DexImage.Proofs.Reachability.Scan
import DexImage.Proofs.References.Lost
/-! # Regular pools

What reading, interning and copying make of pools: items are of a form that can be written so that it is read back
(`Formed`), and references to data items lead to items (`Anchored`). An index that could be taken for another
one when it is read back leads to an item as well, so that it is too small for that as long as the pools can be
written.
-/

namespace DexImage

/-- An index below this need not lead to an item. In debug info an index has 31 bits, and the superclass and the
source file of a class definition, which stand in its second and fourth place, are absent when they are `noIndex`. -/
def slack (holder : PoolKind) (position : Nat) (target : PoolKind) : Nat :=
  if target.toSection.isIdTable then
    match holder with
    | .debugInfo => 2 ^ 31
    | .classDef => if position = 1 ∨ position = 3 then noIndex.toNat else UInt32.size
    | _ => UInt32.size
  else 0

/-- Whether a reference in a place leads to an item, unless it need not. -/
def Pools.Anchors (pools : Pools) (holder : PoolKind) (position : Nat) (slot : Slot) : Prop :=
  ∀ index, slot.index = some index → index.toNat < slack holder position slot.kind ∨ pools.contains (slot.kind, index)

/-- Whether the references of an item lead to items, unless they need not. -/
def Anchored (pools : Pools) {kind : PoolKind} (item : Item kind) : Prop :=
  ∀ (position : Nat) slot, (slots item)[position]? = some slot → pools.Anchors kind position slot

/-- Whether a try table has as many ranges as can be counted, and no empty handler list. -/
structure TryTable.Formed (table : TryTable) : Prop where
  some : 0 < table.tries.length
  few : table.tries.length < UInt16.size
  lists : ∀ list ∈ table.handlers.items, list.handlers ≠ []

/-- Whether an operation that is written by its code alone has one that stands for no other operation. -/
def DebugOp.Formed : DebugOp → Prop
  | special code => Code.firstSpecial ≤ code
  | _ => True

/-- Whether an item has a form that is read back, whatever its references. -/
def Formed : {kind : PoolKind} → Item kind → Prop
  | .stringId, string => StringData.Settled string
  | .code, code => ∀ table, (code : CodeItem).tryTable = some table → table.Formed
  | .debugInfo, info => ∀ op ∈ (info : DebugInfo).ops, op.Formed
  | .annotationItem, item => .ofCode (item : AnnotationItem).visibility.code = (item : AnnotationItem).visibility
  | _, _ => True

/-- Whether all items have a form that is read back, and their references lead to items. -/
structure Pools.Regular (pools : Pools) : Prop where
  formed : ∀ kind, ∀ item ∈ (pools.pool kind).items, Formed item
  anchored : ∀ kind, ∀ item ∈ (pools.pool kind).items, Anchored pools item

section Content

/-- A handler list that is put in order keeps its handlers. -/
theorem HandlerList.normalized_ne_nil {list : HandlerList} (some : list.handlers ≠ []) :
    list.normalized.handlers ≠ [] := by
  obtain ⟨handler, member⟩ := List.exists_mem_of_ne_nil _ some
  refine List.ne_nil_of_mem (List.mem_append.mpr ?_ : handler ∈ list.typed ++ list.catchAlls)
  rw [typed, catchAlls, List.mem_filter, List.mem_filter]
  cases handler.isCatchAll <;> simp [member]

theorem TryTable.formed_form {table : TryTable} : (TryTable.holding.form table).Formed ↔ table.Formed := by
  have lists : (TryTable.holding.form table).handlers.items = table.handlers.items.map HandlerList.holding.form := by
    unfold TryTable.holding
    rw [Holding.form_part, Holding.form_list]
  have handlers (list : HandlerList) : (HandlerList.holding.form list).handlers ≠ [] ↔ list.handlers ≠ [] := by
    unfold HandlerList.holding
    rw [Holding.form_part, Holding.form_list, ne_eq, List.map_eq_nil_iff]
  constructor
  · rintro ⟨some, few, each⟩
    rw [lists, List.forall_mem_map] at each
    exact ⟨some, few, fun list member => (handlers list).mp (each list member)⟩
  · rintro ⟨some, few, each⟩
    refine ⟨some, few, ?_⟩
    rw [lists, List.forall_mem_map]
    exact fun list member => (handlers list).mpr (each list member)

theorem DebugOp.formed_form {op : DebugOp} : (DebugOp.holding.form op).Formed ↔ op.Formed := by
  cases op <;> exact Iff.rfl

/-- The form of an item does not depend on its references. -/
theorem formed_content {kind : PoolKind} {item : Item kind} : Formed (content item) ↔ Formed item := by
  cases kind with
  | code =>
    have tries : (CodeItem.holding.form item).tryTable = (CodeItem.tryTable item).map TryTable.holding.form := by
      unfold CodeItem.holding
      rw [Holding.form_part, Holding.form_pair, Holding.form_pair, Holding.form_option]
    change (∀ table, (CodeItem.holding.form item).tryTable = some table → table.Formed) ↔
      ∀ table, (CodeItem.tryTable item) = some table → table.Formed
    rw [tries]
    cases CodeItem.tryTable item with
    | none => simp
    | some table => simpa using TryTable.formed_form
  | debugInfo =>
    have ops : (DebugInfo.holding.form item).ops = (DebugInfo.ops item).map DebugOp.holding.form := by
      unfold DebugInfo.holding
      rw [Holding.form_part, Holding.form_pair, Holding.form_list, Holding.form_list]
    change (∀ op ∈ (DebugInfo.holding.form item).ops, op.Formed) ↔ ∀ op ∈ DebugInfo.ops item, op.Formed
    rw [ops, List.forall_mem_map]
    exact forall₂_congr fun _ _ => DebugOp.formed_form
  | _ => exact Iff.rfl

theorem formed_of_content {kind : PoolKind} {item other : Item kind} (same : content other = content item)
    (formed : Formed item) : Formed other := by
  rw [← formed_content, same]
  exact formed_content.mpr formed

theorem content_of_form {kind : PoolKind} {item other : Item kind}
    (same : (itemHolding kind).form other = (itemHolding kind).form item) : content other = content item := by
  by_cases code : kind = .code
  · subst code
    change ({ CodeItem.holding.form other with
      instructions := { (CodeItem.holding.form other).instructions with overflow := false } } : CodeItem) = _
    rw [show CodeItem.holding.form other = CodeItem.holding.form item from same]
    rfl
  · rw [content_of_ne code, content_of_ne code, same]

end Content

namespace Pools

variable {pools before after : Pools}

theorem contains_of_extends (grows : before.Extends after) {place : PoolKind × UInt32}
    (inside : before.contains place) :
    after.contains place :=
  Nat.lt_of_lt_of_le inside (grows.size_le place.1)

theorem Anchors.mono {holder : PoolKind} {position : Nat} {slot : Slot} (anchors : before.Anchors holder position slot)
    (inside : ∀ place, before.contains place → after.contains place) : after.Anchors holder position slot := by
  intro index present
  exact (anchors index present).imp_right (inside _)

end Pools

theorem Anchored.mono {before after : Pools} {kind : PoolKind} {item : Item kind} (anchored : Anchored before item)
    (inside : ∀ place, before.contains place → after.contains place) : Anchored after item :=
  fun position slot there => (anchored position slot there).mono inside

/-- Where a reference that an item holds leads. -/
theorem Anchored.held {pools : Pools} {kind : PoolKind} {item : Item kind} (anchored : Anchored pools item)
    {position : Nat} {one : Held} (there : ((itemHolding kind).held item)[position]? = some one) :
    pools.Anchors kind position one.slot := by
  apply anchored
  rw [slots_eq, List.getElem?_map, there]
  rfl

/-- Where the place of a reference does not matter, an item is anchored if its references are among those of one
that is. -/
theorem Anchored.of_subset {pools : Pools} {kind : PoolKind} {item other : Item kind} (anchored : Anchored pools item)
    (plain : kind ≠ .classDef) (subset : slots other ⊆ slots item) : Anchored pools other := by
  intro position slot there
  obtain ⟨place, found⟩ := List.getElem?_of_mem (subset (List.mem_of_getElem? there))
  have same : slack kind position slot.kind = slack kind place slot.kind := by
    cases kind <;> first | contradiction | rfl
  intro index present
  rw [same]
  exact anchored place slot found index present

/-- Whether a reference that has been edited leads to an item if it did before, or is an operand. -/
structure Held.Kept (before after : Pools) (one other : Held) : Prop where
  kind : other.kind = one.kind
  leads : ∀ index, other.index = some index → after.contains (one.kind, index) ∨ one.isOperand = true ∨
    one.index = some index ∧ (before.contains (one.kind, index) → after.contains (one.kind, index))

theorem Anchored.of_kept {before after : Pools} {kind : PoolKind} {item other : Item kind}
    (anchored : Anchored before item)
    (kept : List.Forall₂ (Held.Kept before after) ((itemHolding kind).held item) ((itemHolding kind).held other)) :
    Anchored after other := by
  intro position slot there index present
  rw [slots_eq, List.getElem?_map, Option.map_eq_some_iff] at there
  obtain ⟨new, there, rfl⟩ := there
  obtain ⟨one, origin, step⟩ := kept.flip.getElem?_left there
  have slotKind : new.slot.kind = one.kind := step.kind
  rw [slotKind]
  rcases step.leads index present with inside | operand | ⟨same, follows⟩
  · exact .inr inside
  · left
    have whole : slack kind position one.kind = UInt32.size := by
      have proper := proper_of_held item one (List.mem_of_getElem? origin)
      cases one with
      | operand =>
        obtain ⟨rfl, table, -⟩ := proper
        exact if_pos table
      | id | data => cases operand
    exact whole ▸ index.toNat_lt
  · have old : (slots item)[position]? = some one.slot := by
      rw [slots_eq, List.getElem?_map, origin]
      rfl
    exact (anchored position one.slot old index same).imp_right follows

/-- Whether a reference to a data item leads to one, if it is present. -/
def DataRef.Inside {target : PoolKind} (pools : Pools) (ref : DataRef target) : Prop :=
  ∀ index, ref.index = some index → pools.contains (target, index)

/-- Whether what stands in a place leads to a data item, if it is to lead to one. -/
def Held.Inside (pools : Pools) : Held → Prop
  | data target _ state => ∀ index, state.map Prod.fst = some index → pools.contains (target, index)
  | _ => True

theorem DataRef.Inside.each {target : PoolKind} {pools : Pools} {ref : DataRef target} (inside : ref.Inside pools)
    (usage : Usage) : (DataRef.holding usage).Each (Held.Inside pools) ref := by
  refine List.forall_mem_singleton.mpr fun index present => inside index ?_
  rw [DataRef.index_eq]
  exact present

theorem IdRef.inside_each {target : PoolKind} (pools : Pools) (usage : Usage) (ref : IdRef target) :
    (IdRef.holding usage).Each (Held.Inside pools) ref :=
  IdRef.each (fun _ => trivial) ref

theorem DataRef.Inside.mono {target : PoolKind} {before after : Pools} {ref : DataRef target}
    (inside : ref.Inside before) (grows : before.Extends after) : ref.Inside after :=
  fun index present => Pools.contains_of_extends grows (inside index present)

/-- An item whose data references lead to items, and whose references to entries of id tables need not. -/
theorem anchored_of_inside {pools : Pools} {kind : PoolKind} {item : Item kind} (notDebug : kind ≠ .debugInfo)
    (notClass : kind ≠ .classDef) (inside : (itemHolding kind).Each (Held.Inside pools) item) :
    Anchored pools item := by
  intro position slot there index present
  rw [slots_eq] at there
  obtain ⟨one, member, rfl⟩ := List.mem_map.mp (List.mem_of_getElem? there)
  by_cases table : one.slot.kind.toSection.isIdTable = true
  · left
    have whole : slack kind position one.slot.kind = UInt32.size := by
      cases kind <;> first | contradiction | exact if_pos table
    exact whole ▸ index.toNat_lt
  · right
    have proper := proper_of_held item one member
    have leads := inside one member
    cases one with
    | data => exact leads index present
    | id => exact absurd proper.1 table
    | operand => exact absurd proper.2.1 table

/-- Items that refer to no data item need not lead anywhere. -/
theorem anchored_of_ids {kind : PoolKind} {item : Item kind} (pools : Pools) (notDebug : kind ≠ .debugInfo)
    (notClass : kind ≠ .classDef) (dataless : ∀ (item : Item kind) find other, locate find item = locate other item) :
    Anchored pools item := by
  refine anchored_of_inside notDebug notClass fun one member => ?_
  cases one with
  | id | operand => trivial
  | data target usage state =>
    rcases state with _ | state
    · rintro index ⟨⟩
    · exact absurd member (dataless_of_locate (dataless item) target usage state)

theorem anchored_protoId {pools : Pools} {proto : ProtoId} (inside : proto.parameters.Inside pools) :
    @Anchored pools .protoId proto := by
  apply anchored_of_inside (by decide) (by decide)
  have ids := List.forall_mem_append.mpr ⟨IdRef.inside_each pools .idItem proto.shorty,
    List.forall_mem_append.mpr ⟨IdRef.inside_each pools .idItem proto.returnType, inside.each .idItem⟩⟩
  exact ids

/-- A class definition whose superclass and source file could not be taken for absent ones, and whose data references
lead to items. -/
theorem anchored_classDef {pools : Pools} {definition : ClassDef}
    (superclass : ∀ index, definition.superclass.index = some index → index.toNat < noIndex.toNat)
    (sourceFile : ∀ index, definition.sourceFile.index = some index → index.toNat < noIndex.toNat)
    (interfaces : definition.interfaces.Inside pools) (annotations : definition.annotations.Inside pools)
    (classData : definition.classData.Inside pools) (staticValues : definition.staticValues.Inside pools) :
    @Anchored pools .classDef definition := by
  intro position slot there index present
  have there := (congrArg (·[position]?) (@slots_eq .classDef definition)).symm.trans there
  have leads {target : PoolKind} {ref : DataRef target} (inside : ref.Inside pools)
      (there : ref.state.map Prod.fst = some index) : pools.contains (target, index) :=
    inside index (ref.index_eq ▸ there)
  rcases position with _ | _ | _ | _ | _ | _ | _ | position <;> cases there
  · exact .inl index.toNat_lt
  · exact .inl (superclass index present)
  · exact .inr (leads interfaces present)
  · exact .inl (sourceFile index present)
  · exact .inr (leads annotations present)
  · exact .inr (leads classData present)
  · exact .inr (leads staticValues present)

namespace Pools.Regular

variable {before after pools : Pools} {kind : PoolKind}

theorem empty : Pools.empty.Regular where
  formed kind item member := by cases kind <;> cases member
  anchored kind item member := by cases kind <;> cases member

/-- Pools whose items have come from those of regular pools. -/
theorem of_kept (regular : before.Regular) (each : ∀ kind, ∀ other ∈ (after.pool kind).items,
      ∃ item ∈ (before.pool kind).items, content other = content item ∧
        List.Forall₂ (Held.Kept before after) ((itemHolding kind).held item) ((itemHolding kind).held other)) :
    after.Regular where
  formed kind other member := by
    obtain ⟨item, present, same, -⟩ := each kind other member
    exact formed_of_content same (regular.formed kind item present)
  anchored kind other member := by
    obtain ⟨item, present, -, kept⟩ := each kind other member
    exact (regular.anchored kind item present).of_kept kept

/-- An item is appended whose references lead to items that are there already. -/
theorem push (regular : pools.Regular) {item : Item kind} (formed : Formed item) (anchored : Anchored pools item) :
    (pools.push kind item).Regular := by
  have inside := fun place => @contains_of_extends _ _ (extends_push pools kind item) place
  constructor
  · intro other one member
    rcases mem_push member with member | ⟨rfl, rfl⟩
    · exact regular.formed other one member
    · exact formed
  · intro other one member
    rcases mem_push member with member | ⟨rfl, rfl⟩
    · exact (regular.anchored other one member).mono inside
    · exact anchored.mono inside

end Pools.Regular

/-- The index of an item that is appended is one of the pool. -/
theorem Pools.contains_nextIndex (pools : Pools) (kind : PoolKind) (item : Item kind) :
    (pools.push kind item).contains (kind, (pools.pool kind).nextIndex) := by
  have below : (pools.pool kind).nextIndex.toNat ≤ (pools.pool kind).size := by
    rw [Pool.nextIndex, Nat.toUInt32_eq, UInt32.toNat_ofNat']
    exact Nat.mod_le _ _
  rw [contains, pool_push_self, Pool.size_push]
  exact Nat.lt_succ_of_le below

theorem Pools.not_contains_nextIndex {pools : Pools} {kind : PoolKind} (few : (pools.pool kind).size < UInt32.size) :
    ¬ pools.contains (kind, (pools.pool kind).nextIndex) := by
  rw [contains, Pool.toNat_nextIndex few]
  exact Nat.lt_irrefl _

/-- What is in pools after an item is appended was there before, or is the item. -/
theorem Pools.contains_push {pools : Pools} {kind other : PoolKind} {item : Item kind} {index : UInt32}
    (inside : (pools.push kind item).contains (other, index)) :
    pools.contains (other, index) ∨ other = kind ∧ index = (pools.pool other).nextIndex := by
  by_cases same : other = kind
  · subst same
    rw [contains, pool_push_self, Pool.size_push] at inside
    refine (Nat.lt_succ_iff_lt_or_eq.mp inside).imp_right fun last => ⟨rfl, ?_⟩
    rw [Pool.nextIndex, ← last, Nat.toUInt32_eq, UInt32.ofNat_toNat]
  · rw [contains, pool_push_of_ne _ same] at inside
    exact .inl inside

end DexImage
