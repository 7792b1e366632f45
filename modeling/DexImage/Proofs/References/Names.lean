import DexImage.Key
import DexImage.Proofs.Pools
/-! # Names

Strings are named by their text, and entries of the other id tables by their keys. What is related between the
pools of two images keeps its name if related items are the same but for their references, and these lead to
related items or to none (`Counterparts.key_eq`).
-/

namespace DexImage

namespace Result

variable {α β : Type}

theorem toOption_bind (result : Result α) (next : α → Result β) :
    (result >>= next).toOption = result.toOption.bind fun first => (next first).toOption := by
  cases result <;> rfl

theorem toOption_map (result : Result α) (edit : α → β) : (result.map edit).toOption = result.toOption.map edit := by
  cases result <;> rfl

theorem toOption_mapM (find : α → Result β) (items : List α) :
    (items.mapM find).toOption = items.mapM fun item => (find item).toOption := by
  induction items with
  | nil => rfl
  | cons item rest ih =>
    rw [List.mapM_cons, List.mapM_cons, toOption_bind]
    congr 1
    funext found
    rw [toOption_bind, ih]
    rfl

end Result

theorem IdRef.toOption_required {target : PoolKind} (ref : IdRef target) : ref.required.toOption = ref.index := by
  rcases index : ref.index with _ | old <;> rw [required, index] <;> rfl

theorem Pools.toOption_require (pools : Pools) (kind : PoolKind) (index : UInt32) :
    (pools.require kind index).toOption = pools.get? kind index := by
  rw [require, Pool.require, get?]
  cases (pools.pool kind).get? index <;> rfl

/-- The name of a string or of an entry of another id table. -/
abbrev Name := StringData ⊕ EntryKey

namespace Pools

/-- The name at an index, if the item and what its name is made of exist. -/
def nameAt? (pools : Pools) : PoolKind → UInt32 → Option Name
  | .stringId, index => (pools.get? .stringId index).map .inl
  | kind, index => (EntryKey.at? pools kind.toSection index).toOption.map .inr

theorem nameAt?_of_ne {pools : Pools} {kind : PoolKind} (other : kind ≠ .stringId) {index : UInt32} :
    pools.nameAt? kind index = (EntryKey.at? pools kind.toSection index).toOption.map .inr := by
  cases kind <;> first | contradiction | rfl

/-- The name of what a reference leads to. -/
def nameOfHeld? (pools : Pools) (one : Held) : Option Name := one.index.bind (pools.nameAt? one.kind)

end Pools

/-- Related indices, by kind. -/
abbrev Relation := PoolKind → UInt32 → UInt32 → Prop

/-- Whether a reference leads to what a reference of another image does, or both to no item. -/
def Slot.Leads (related : Relation) (before : Pools) (one other : Slot) : Prop :=
  other.kind = one.kind ∧ ((∃ first second, one.index = some first ∧ other.index = some second ∧
    related one.kind first second) ∨
      other.index = none ∧ ∀ first, one.index = some first → (before.pool one.kind).size ≤ first.toNat)

/-- Whether related items are the same but for their references, and these lead to related items. -/
structure Counterparts (related : Relation) (before after : Pools) : Prop where
  items : ∀ {kind old new}, related kind old new → kind ≠ .code →
    (before.get? kind old = none ∧ after.get? kind new = none) ∨
      ∃ item other, before.get? kind old = some item ∧ after.get? kind new = some other ∧
        (itemHolding kind).form other = (itemHolding kind).form item ∧
        List.Forall₂ (Slot.Leads related before) (slots item) (slots other)

theorem slots_typeList (list : TypeList) :
    slots list = list.types.map (·.slot .typeList) := by
  refine (@slots_eq .typeList list).trans ?_
  change (list.types.flatMap fun ref => [Held.id .typeId .typeList ref.index]).map Held.slot = _
  rw [List.map_flatMap]
  exact List.flatMap_pure_eq_map _ _

/-- The kinds of the entries of id tables that others refer to. -/
def PoolKind.isKeyed : PoolKind → Bool
  | .stringId | .typeId | .protoId | .fieldId | .methodId => true
  | _ => false

/-- The kinds of items that names are made of: also the parameter lists of protos. -/
def PoolKind.isNamed (kind : PoolKind) : Bool := kind.isKeyed || kind == .typeList

/-- Whether a reference leads to what names are made of. -/
def Held.isName : Held → Bool
  | .id target _ _ => target.isKeyed
  | .data target _ _ => target == .typeList
  | .operand .. => false

theorem Held.isNamed_of_isName {one : Held} (name : one.isName = true) : one.kind.isNamed = true := by
  cases one with
  | id target => exact Bool.or_eq_true_iff.mpr (.inl name)
  | data target => exact Bool.or_eq_true_iff.mpr (.inr name)
  | operand => cases name

/-- Names are made of what names are made of. -/
theorem isName_of_held {kind : PoolKind} (named : kind.isNamed = true) (item : Item kind) :
    ∀ one ∈ (itemHolding kind).held item, one.isName = true := by
  have three {first second third : Held} (a : first.isName = true) (b : second.isName = true)
      (c : third.isName = true) : ∀ one ∈ [first, second, third], one.isName = true := by
    simp only [List.forall_mem_cons]
    exact ⟨a, b, c, by simp⟩
  cases kind with
  | stringId => exact fun _ member => absurd member List.not_mem_nil
  | typeId => exact List.forall_mem_singleton.mpr rfl
  | protoId | fieldId | methodId => exact three rfl rfl rfl
  | typeList =>
    intro one member
    obtain ⟨type, -, listed⟩ := List.mem_flatMap.mp member
    obtain rfl := List.mem_singleton.mp listed
    rfl
  | _ => cases named

theorem isNamed_of_slots {kind : PoolKind} (named : kind.isNamed = true) (item : Item kind) :
    ∀ slot ∈ slots item, slot.kind.isNamed = true := by
  rw [slots_eq, List.forall_mem_map]
  intro one member
  have same : one.slot.kind = one.kind := by cases one <;> rfl
  exact same ▸ Held.isNamed_of_isName (isName_of_held named item one member)

/-- The types of the parameters, where a list that does not resolve counts as empty. -/
def Pools.parameterTypes (pools : Pools) (parameters : DataRef .typeList) : List (IdRef .typeId) :=
  match pools.resolve? parameters with
  | some list => TypeList.types list
  | none => []

/-- What is found through references is the same if it is for what they lead to. -/
theorem Slot.Leads.bind_index {α : Type} {related : Relation} {before after : Pools} (find : Pools → UInt32 → Option α)
    {one other : Slot} (leads : Leads related before one other)
    (same : ∀ {first second}, related one.kind first second → find before first = find after second)
    (beyond : ∀ {first : UInt32}, (before.pool one.kind).size ≤ first.toNat → find before first = none) :
    one.index.bind (find before) = other.index.bind (find after) := by
  rcases leads with ⟨-, ⟨first, second, old, new, follows⟩ | ⟨gone, away⟩⟩
  · rw [old, new]
    exact same follows
  · rw [gone]
    rcases old : one.index with _ | first
    · rfl
    · exact beyond (away first old)

theorem Pools.get?_of_le {pools : Pools} {kind : PoolKind} {index : UInt32}
    (beyond : (pools.pool kind).size ≤ index.toNat) : pools.get? kind index = none := by
  rw [get?, Pool.get?, Array.getElem?_eq_none beyond]
  rfl

namespace Counterparts

open Pools (get?_of_le)

variable {related : Relation} {before after : Pools} (counterparts : Counterparts related before after)

include counterparts

/-- What is made of the items that two indices lead to is the same if it is for items that have moved. -/
theorem bind_get? {α : Type} {kind : PoolKind} {old new : UInt32} (follows : related kind old new)
    (plain : kind ≠ .code) {make make' : Item kind → Option α}
    (same : ∀ {item other}, (itemHolding kind).form other = (itemHolding kind).form item →
      List.Forall₂ (Slot.Leads related before) (slots item) (slots other) → make item = make' other) :
    (before.get? kind old).bind make = (after.get? kind new).bind make' := by
  rcases counterparts.items follows plain with ⟨old, new⟩ | ⟨item, other, old, new, form, leads⟩
  · rw [old, new]
    rfl
  · rw [old, new]
    exact same form leads

theorem string_eq {old new : UInt32} (follows : related .stringId old new) :
    before.get? .stringId old = after.get? .stringId new := by
  rcases counterparts.items follows (by decide) with ⟨old, new⟩ | ⟨item, other, old, new, form, -⟩
  · rw [old, new]
  · rw [old, new]
    exact congrArg some form.symm

theorem text_eq {old new : UInt32} (follows : related .stringId old new) :
    (before.stringAt old).toOption = (after.stringAt new).toOption := by
  rw [Pools.stringAt, Pools.stringAt, Result.toOption_bind, Result.toOption_bind, Pools.toOption_require,
    Pools.toOption_require, counterparts.string_eq follows]

omit counterparts in
private theorem text_of_le {index : UInt32} (beyond : (before.pool .stringId).size ≤ index.toNat) :
    (before.stringAt index).toOption = none := by
  rw [Pools.stringAt, Result.toOption_bind, Pools.toOption_require, get?_of_le beyond]
  rfl

/-- The text that a reference leads to. -/
private theorem textOf_eq {one other : IdRef .stringId} {usage : Usage}
    (leads : Slot.Leads related before (one.slot usage) (other.slot usage)) :
    (before.stringOf one).toOption = (after.stringOf other).toOption := by
  rw [Pools.stringOf, Pools.stringOf, Result.toOption_bind, Result.toOption_bind, IdRef.toOption_required,
    IdRef.toOption_required]
  exact leads.bind_index (fun pools index => (pools.stringAt index).toOption) counterparts.text_eq text_of_le

theorem typeKey_eq {old new : UInt32} (follows : related .typeId old new) :
    (TypeKey.at? before old).toOption = (TypeKey.at? after new).toOption := by
  rw [TypeKey.at?, TypeKey.at?, Result.toOption_bind, Result.toOption_bind,
    Pools.toOption_require, Pools.toOption_require]
  refine counterparts.bind_get? follows (by decide) fun _ leads => ?_
  obtain _ | ⟨descriptor, -⟩ := leads
  rw [Result.toOption_bind, Result.toOption_bind, counterparts.textOf_eq descriptor]

omit counterparts in
private theorem typeKey_of_le {index : UInt32} (beyond : (before.pool .typeId).size ≤ index.toNat) :
    (TypeKey.at? before index).toOption = none := by
  rw [TypeKey.at?, Result.toOption_bind, Pools.toOption_require, get?_of_le beyond]
  rfl

private theorem typeKeyOf_eq {one other : IdRef .typeId} {usage : Usage}
    (leads : Slot.Leads related before (one.slot usage) (other.slot usage)) :
    (TypeKey.of? before one).toOption = (TypeKey.of? after other).toOption := by
  rw [TypeKey.of?, TypeKey.of?, Result.toOption_bind, Result.toOption_bind, IdRef.toOption_required,
    IdRef.toOption_required]
  exact leads.bind_index (fun pools index => (TypeKey.at? pools index).toOption) counterparts.typeKey_eq
    typeKey_of_le

private theorem typeKeys_eq {ones others : List (IdRef .typeId)}
    (leads : List.Forall₂ (Slot.Leads related before) (ones.map (·.slot .typeList)) (others.map (·.slot .typeList))) :
    (ones.mapM (TypeKey.of? before)).toOption = (others.mapM (TypeKey.of? after)).toOption := by
  rw [List.forall₂_map_left_iff, List.forall₂_map_right_iff] at leads
  rw [Result.toOption_mapM, Result.toOption_mapM]
  induction leads with
  | nil => rfl
  | cons head _ ih => rw [List.mapM_cons, List.mapM_cons, counterparts.typeKeyOf_eq head, ih]

/-- A parameter list leads to the same types, and to none where it does not resolve. -/
theorem parameters {one other : DataRef .typeList} {usage : Usage}
    (leads : Slot.Leads related before (one.slot usage) (other.slot usage)) :
    List.Forall₂ (Slot.Leads related before) ((before.parameterTypes one).map (·.slot .typeList))
      ((after.parameterTypes other).map (·.slot .typeList)) := by
  have none {pools : Pools} {ref : DataRef .typeList} (missing : pools.resolve? ref = none) :
      pools.parameterTypes ref = [] := by
    rw [Pools.parameterTypes, missing]
  rcases leads with ⟨-, ⟨first, second, old, new, follows⟩ | ⟨gone, away⟩⟩
  · change related .typeList first second at follows
    rcases counterparts.items follows (by decide) with ⟨missing, missing'⟩ | ⟨list, copy, found, copied, -, types⟩
    · rw [none (by rw [Pools.resolve?, show one.index = some first from old]; exact missing),
        none (by rw [Pools.resolve?, show other.index = some second from new]; exact missing')]
      exact .nil
    · have resolved : before.resolve? one = some list := by
        rw [Pools.resolve?, show one.index = some first from old]
        exact found
      have resolved' : after.resolve? other = some copy := by
        rw [Pools.resolve?, show other.index = some second from new]
        exact copied
      rw [slots_typeList, slots_typeList] at types
      rw [Pools.parameterTypes, Pools.parameterTypes, resolved, resolved']
      exact types
  · have missing : before.resolve? one = Option.none := by
      rcases old : one.index with _ | first
      · rw [Pools.resolve?, old]
        rfl
      · rw [Pools.resolve?, old]
        exact get?_of_le (away first old)
    rw [none missing, none (by rw [Pools.resolve?, show other.index = Option.none from gone]; rfl)]
    exact .nil

theorem protoKey_eq {old new : UInt32} (follows : related .protoId old new) :
    (ProtoKey.at? before old).toOption = (ProtoKey.at? after new).toOption := by
  rw [ProtoKey.at?, ProtoKey.at?, Result.toOption_bind, Result.toOption_bind,
    Pools.toOption_require, Pools.toOption_require]
  refine counterparts.bind_get? follows (by decide) fun {proto copy} _ leads => ?_
  obtain _ | ⟨_, _ | ⟨returnType, _ | ⟨parameters, -⟩⟩⟩ := leads
  have types := counterparts.typeKeys_eq (counterparts.parameters parameters)
  change (TypeKey.of? before (ProtoId.returnType proto) >>= fun type =>
      (before.parameterTypes (ProtoId.parameters proto)).mapM (TypeKey.of? before) >>= fun types =>
        pure (ProtoKey.mk type types)).toOption =
    (TypeKey.of? after (ProtoId.returnType copy) >>= fun type =>
      (after.parameterTypes (ProtoId.parameters copy)).mapM (TypeKey.of? after) >>= fun types =>
        pure (ProtoKey.mk type types)).toOption
  simp only [Result.toOption_bind, counterparts.typeKeyOf_eq returnType, types]

omit counterparts in
private theorem protoKey_of_le {index : UInt32} (beyond : (before.pool .protoId).size ≤ index.toNat) :
    (ProtoKey.at? before index).toOption = none := by
  rw [ProtoKey.at?, Result.toOption_bind, Pools.toOption_require, get?_of_le beyond]
  rfl

private theorem protoKeyOf_eq {one other : IdRef .protoId} {usage : Usage}
    (leads : Slot.Leads related before (one.slot usage) (other.slot usage)) :
    (ProtoKey.of? before one).toOption = (ProtoKey.of? after other).toOption := by
  rw [ProtoKey.of?, ProtoKey.of?, Result.toOption_bind, Result.toOption_bind, IdRef.toOption_required,
    IdRef.toOption_required]
  exact leads.bind_index (fun pools index => (ProtoKey.at? pools index).toOption) counterparts.protoKey_eq
    protoKey_of_le

omit counterparts in
theorem fieldKey_of_le {index : UInt32} (beyond : (before.pool .fieldId).size ≤ index.toNat) :
    (FieldKey.at? before index).toOption = none := by
  rw [FieldKey.at?, Result.toOption_bind, Pools.toOption_require, get?_of_le beyond]
  rfl

theorem fieldKey_eq {old new : UInt32} (follows : related .fieldId old new) :
    (FieldKey.at? before old).toOption = (FieldKey.at? after new).toOption := by
  rw [FieldKey.at?, FieldKey.at?, Result.toOption_bind, Result.toOption_bind,
    Pools.toOption_require, Pools.toOption_require]
  refine counterparts.bind_get? follows (by decide) fun {field copy} _ leads => ?_
  obtain _ | ⟨definer, _ | ⟨fieldType, _ | ⟨name, -⟩⟩⟩ := leads
  simp only [Result.toOption_bind, counterparts.typeKeyOf_eq definer, counterparts.typeKeyOf_eq fieldType,
    counterparts.textOf_eq name]

omit counterparts in
private theorem methodKey_of_le {index : UInt32} (beyond : (before.pool .methodId).size ≤ index.toNat) :
    (MethodKey.at? before index).toOption = none := by
  rw [MethodKey.at?, Result.toOption_bind, Pools.toOption_require, get?_of_le beyond]
  rfl

theorem methodKey_eq {old new : UInt32} (follows : related .methodId old new) :
    (MethodKey.at? before old).toOption = (MethodKey.at? after new).toOption := by
  rw [MethodKey.at?, MethodKey.at?, Result.toOption_bind, Result.toOption_bind, Pools.toOption_require,
    Pools.toOption_require]
  refine counterparts.bind_get? follows (by decide) fun {method copy} _ leads => ?_
  obtain _ | ⟨definer, _ | ⟨proto, _ | ⟨name, -⟩⟩⟩ := leads
  simp only [Result.toOption_bind, counterparts.typeKeyOf_eq definer, counterparts.protoKeyOf_eq proto,
    counterparts.textOf_eq name]

/-- Entries of the id tables that are related have the same key, if they have one. -/
theorem key_eq {kind : PoolKind} {old new : UInt32} (follows : related kind old new) :
    (EntryKey.at? before kind.toSection old).toOption = (EntryKey.at? after kind.toSection new).toOption := by
  have lift {κ : Type} {found moved : Result κ} (make : κ → EntryKey) (same : found.toOption = moved.toOption) :
      (found.map make).toOption = (moved.map make).toOption := by
    rw [Result.toOption_map, Result.toOption_map, same]
  cases kind with
  | typeId => exact lift .type (counterparts.typeKey_eq follows)
  | protoId => exact lift .proto (counterparts.protoKey_eq follows)
  | fieldId => exact lift .field (counterparts.fieldKey_eq follows)
  | methodId => exact lift .method (counterparts.methodKey_eq follows)
  | _ => rfl

omit counterparts in
private theorem key_of_le {kind : PoolKind} {index : UInt32} (beyond : (before.pool kind).size ≤ index.toNat) :
    (EntryKey.at? before kind.toSection index).toOption = none := by
  cases kind with
  | typeId => exact (Result.toOption_map _ _).trans (congrArg _ (typeKey_of_le beyond))
  | protoId => exact (Result.toOption_map _ _).trans (congrArg _ (protoKey_of_le beyond))
  | fieldId => exact (Result.toOption_map _ _).trans (congrArg _ (fieldKey_of_le beyond))
  | methodId => exact (Result.toOption_map _ _).trans (congrArg _ (methodKey_of_le beyond))
  | _ => rfl

omit counterparts in
private theorem nameAt?_of_le {kind : PoolKind} {index : UInt32} (beyond : (before.pool kind).size ≤ index.toNat) :
    before.nameAt? kind index = none := by
  by_cases strings : kind = .stringId
  · subst strings
    rw [Pools.nameAt?, get?_of_le beyond]
    rfl
  · rw [Pools.nameAt?_of_ne strings, key_of_le beyond]
    rfl

/-- What is related has the same name. -/
theorem name_eq {kind : PoolKind} {old new : UInt32} (follows : related kind old new) :
    before.nameAt? kind old = after.nameAt? kind new := by
  by_cases strings : kind = .stringId
  · subst strings
    exact congrArg (Option.map Sum.inl) (counterparts.string_eq follows)
  · rw [Pools.nameAt?_of_ne strings, Pools.nameAt?_of_ne strings, counterparts.key_eq follows]

/-- What is found through references has the same names. -/
theorem names_eq {ones others : List Held}
    (leads : List.Forall₂ (Slot.Leads related before) (ones.map Held.slot) (others.map Held.slot)) :
    ones.map before.nameOfHeld? = others.map after.nameOfHeld? := by
  rw [List.forall₂_map_left_iff, List.forall₂_map_right_iff] at leads
  induction leads with
  | nil => rfl
  | @cons one other _ _ head _ ih =>
    have kind : other.kind = one.kind := head.1
    have found : one.index.bind (before.nameAt? one.kind) = other.index.bind (after.nameAt? one.kind) :=
      head.bind_index (fun pools => pools.nameAt? one.kind) counterparts.name_eq nameAt?_of_le
    rw [List.map_cons, List.map_cons, ih, Pools.nameOfHeld?, Pools.nameOfHeld?, found, kind]

end Counterparts
end DexImage
