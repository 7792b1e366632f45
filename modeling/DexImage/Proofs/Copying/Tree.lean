import DexImage.Proofs.References.Alike
import DexImage.Proofs.References.Names
/-! # Items that unfold to the same tree

Items of two images unfold to the same tree when they are alike and their references lead, one by
one, to items that unfold to the same tree (`SameTree`). The one thing that may differ is an operand
of one unit whose new index needs two: it keeps its old index, and the code it stands in is
unwritable. Trees stay the same while the pools of the copy grow, and items with the same tree have
equal keys.
-/

namespace DexImage

/-- Code that cannot be written, wherever its debug info and its try table come to stand. -/
def Unwritable : {kind : PoolKind} → Item kind → Prop
  | .code, code => ∀ debugInfo tryTable, ∃ fault,
    encode ({ (code : CodeItem) with debugInfo, tryTable } : CodeItem) = .error fault
  | _, _ => False

/-- How a place of a copy holds the reference of the original, which now leads to a new index. -/
inductive Held.Carried (unwritable : Prop) : Held → UInt32 → Held → Prop where
  | absent {one : Held} {new : UInt32} (missing : one.index = none) : Carried unwritable one new one
  | arrived {one other : Held} {old new : UInt32} (present : one.index = some old)
      (arrives : other.slot = ⟨one.kind, some new, one.usage⟩) (kept : other.isLost = false) :
      Carried unwritable one new other
  /-- An operand of one unit that would have to hold an index of two. -/
  | lost {target : PoolKind} {old new : UInt32} (large : 0xffff < new) (fails : unwritable) :
      Carried unwritable (operand target false false old) new (operand target false true old)

/-- Whether the items at two positions of different images unfold to the same tree. -/
inductive SameTree (source target : Pools) : PoolKind → UInt32 → UInt32 → Prop where
  | intro {kind : PoolKind} {old new : UInt32} {item copy : Item kind} (places : List Held)
      (reached : Nat → UInt32) (found : source.get? kind old = some item)
      (copied : target.get? kind new = some copy)
      (alike : Alike copy ((itemHolding kind).fill item places))
      (fits : List.Forall₂ Held.Fits ((itemHolding kind).held item) places)
      (carried : ∀ (position : Nat) one, ((itemHolding kind).held item)[position]? = some one →
        ∃ other, places[position]? = some other ∧
          one.Carried (Unwritable copy) (reached position) other)
      (deeper : ∀ (position : Nat) one index, ((itemHolding kind).held item)[position]? = some one →
        one.index = some index → SameTree source target one.kind index (reached position)) :
      SameTree source target kind old new

namespace SameTree

open Pools (require_eq)

variable {source target target' : Pools} {kind : PoolKind} {old new : UInt32}

/-- A copy stays one while its pools grow. -/
theorem mono (tree : SameTree source target kind old new) (grows : target.Extends target') :
    SameTree source target' kind old new := by
  induction tree with
  | intro places reached found copied alike fits carried _ ih =>
    exact .intro places reached found (grows.get? copied) alike fits carried ih

/-- A slot of an original and the one of its copy: both absent, or leading to the same tree. -/
def Paired (source target : Pools) (before after : Slot) : Prop :=
  after.kind = before.kind ∧
    match before.index, after.index with
    | some first, some second => SameTree source target before.kind first second
    | none, none => True
    | _, _ => False

/-- An item that is not code has a copy of the same form, whose slots lead to copies. -/
theorem paired (tree : SameTree source target kind old new) (plain : kind ≠ .code) :
    ∃ item copy, source.get? kind old = some item ∧ target.get? kind new = some copy ∧
      (itemHolding kind).form copy = (itemHolding kind).form item ∧
      List.Forall₂ (Paired source target) (slots item) (slots copy) := by
  obtain ⟨places, reached, found, copied, alike, fits, carried, deeper⟩ := tree
  rename_i item copy
  -- Operands alone can be lost, and those are places of code.
  have kept : ∀ other ∈ places, other.isLost = false := by
    intro other member
    obtain ⟨position, present⟩ := List.getElem?_of_mem member
    obtain ⟨one, original, -⟩ := fits.flip.getElem?_left present
    have member := List.mem_of_getElem? original
    obtain ⟨_, same, carried⟩ := carried position one original
    obtain rfl := Option.some.inj (present.symm.trans same)
    cases carried with
    | absent => exact ((itemHolding kind).lawful item).kept _ member |>.1
    | arrived _ _ kept => exact kept
    | lost =>
      have operand := plain_of_ne_code plain item _ (List.mem_of_getElem? original)
      cases operand
  refine ⟨item, copy, found, copied, alike.form.trans ((itemHolding kind).form_fill fits kept), ?_⟩
  rw [slots_eq, slots_eq, alike.slots, (itemHolding kind).held_fill_kept fits kept,
    List.forall₂_map_left_iff, List.forall₂_map_right_iff]
  refine .of_getElem? fits.length_eq fun position one original => ?_
  obtain ⟨other, present, carried⟩ := carried position one original
  refine ⟨other, present, ?_⟩
  cases carried with
  | absent missing => exact ⟨rfl, by simp [Held.slot, missing]⟩
  | arrived old arrives _ =>
    rw [Paired, arrives]
    refine ⟨rfl, ?_⟩
    simp only [Held.slot, old]
    exact deeper position one _ original old
  | lost =>
    have operand := plain_of_ne_code plain item _ (List.mem_of_getElem? original)
    cases operand

/-- A reference of an original and the one of its copy. -/
private theorem index_cases {before after : Slot} (pair : Paired source target before after) :
    (before.index = none ∧ after.index = none) ∨
      ∃ first second, before.index = some first ∧ after.index = some second ∧
        SameTree source target before.kind first second := by
  obtain ⟨-, leads⟩ := pair
  rcases first : before.index with _ | first <;> rcases second : after.index with _ | second <;>
    simp_all

/-- Strings are copied as they are. -/
theorem string_eq (tree : SameTree source target .stringId old new) :
    source.get? .stringId old = target.get? .stringId new := by
  obtain ⟨item, copy, found, copied, form, -⟩ := tree.paired (by decide)
  rw [found, copied]
  exact congrArg some form.symm

private theorem stringAt_eq (tree : SameTree source target .stringId old new) :
    source.stringAt old = target.stringAt new := by
  obtain ⟨item, copy, found, copied, -⟩ := tree.paired (by decide)
  have same := tree.string_eq
  rw [found, copied] at same
  obtain rfl := Option.some.inj same
  rw [Pools.stringAt, Pools.stringAt, require_eq.mpr found, require_eq.mpr copied]

/-- What is found through a reference is the same for both, if it is for what the reference leads
to. -/
private theorem required_eq {α : Type} (find : Pools → UInt32 → Result α) {reached : PoolKind}
    {before after : IdRef reached} {usage : Usage}
    (pair : Paired source target (before.slot usage) (after.slot usage))
    (same : ∀ {first second}, SameTree source target reached first second →
      find source first = find target second) :
    (before.required >>= find source) = (after.required >>= find target) := by
  rcases index_cases pair with ⟨first, second⟩ | ⟨_, _, first, second, tree⟩
  · simp only [IdRef.slot] at first second
    rw [IdRef.required, IdRef.required, first, second]
    rfl
  · simp only [IdRef.slot] at first second
    rw [IdRef.required, IdRef.required, first, second]
    exact same tree

theorem typeKey_eq (tree : SameTree source target .typeId old new) :
    TypeKey.at? source old = TypeKey.at? target new := by
  obtain ⟨type, copy, found, copied, -, pairs⟩ := tree.paired (by decide)
  obtain _ | ⟨descriptor, -⟩ := pairs
  have string := required_eq Pools.stringAt descriptor stringAt_eq
  rw [TypeKey.at?, TypeKey.at?, require_eq.mpr found, require_eq.mpr copied]
  exact congrArg (Except.map TypeKey.mk) string

private theorem types_eq {before after : List (IdRef .typeId)}
    (pairs : List.Forall₂ (Paired source target) (before.map (·.slot .typeList))
      (after.map (·.slot .typeList))) :
    before.mapM (TypeKey.of? source) = after.mapM (TypeKey.of? target) := by
  induction before generalizing after with
  | nil =>
    cases after with
    | nil => rfl
    | cons => cases pairs
  | cons first before ih =>
    cases after with
    | nil => cases pairs
    | cons second after =>
      obtain _ | ⟨head, pairs⟩ := pairs
      have head : TypeKey.of? source first = TypeKey.of? target second :=
        required_eq TypeKey.at? head typeKey_eq
      rw [List.mapM_cons, List.mapM_cons, head, ih pairs]

private theorem parameters_eq {before after : DataRef .typeList} {usage : Usage}
    (pair : Paired source target (before.slot usage) (after.slot usage)) :
    (source.parameterTypes before).mapM (TypeKey.of? source) =
      (target.parameterTypes after).mapM (TypeKey.of? target) := by
  rcases index_cases pair with ⟨first, second⟩ | ⟨_, _, first, second, tree⟩
  · simp only [DataRef.slot] at first second
    simp only [Pools.parameterTypes, Pools.resolve?, first, second]
    rfl
  · simp only [DataRef.slot] at first second tree
    obtain ⟨list, copy, found, copied, -, pairs⟩ := tree.paired (by decide)
    rw [slots_typeList, slots_typeList] at pairs
    simp only [Pools.parameterTypes, Pools.resolve?, first, second, Option.bind_some, found, copied]
    exact types_eq pairs

/-- What the parts of a proto and of its copy lead to is the same. -/
theorem proto_eq (tree : SameTree source target .protoId old new) :
    ∃ proto copy : ProtoId, source.get? .protoId old = some proto ∧ target.get? .protoId new = some copy ∧
      source.stringOf proto.shorty = target.stringOf copy.shorty ∧
      TypeKey.of? source proto.returnType = TypeKey.of? target copy.returnType ∧
      (source.parameterTypes proto.parameters).mapM (TypeKey.of? source) =
        (target.parameterTypes copy.parameters).mapM (TypeKey.of? target) ∧
      copy.parameters.isPresent = proto.parameters.isPresent := by
  obtain ⟨proto, copy, found, copied, -, pairs⟩ := tree.paired (by decide)
  obtain _ | ⟨shorty, _ | ⟨returnType, _ | ⟨parameters, -⟩⟩⟩ := pairs
  refine ⟨proto, copy, found, copied, required_eq Pools.stringAt shorty stringAt_eq,
    required_eq TypeKey.at? returnType typeKey_eq, parameters_eq parameters, ?_⟩
  rcases index_cases parameters with ⟨first, second⟩ | ⟨_, _, first, second, -⟩
  all_goals
    simp only [DataRef.slot] at first second
    simp only [DataRef.isPresent, first, second, Option.isSome]

theorem protoKey_eq (tree : SameTree source target .protoId old new) :
    ProtoKey.at? source old = ProtoKey.at? target new := by
  obtain ⟨proto, copy, found, copied, -, returnType, parameters, -⟩ := tree.proto_eq
  rw [ProtoKey.at?, ProtoKey.at?, require_eq.mpr found, require_eq.mpr copied]
  change (TypeKey.of? source (ProtoId.returnType proto) >>= fun returnType =>
      (source.parameterTypes (ProtoId.parameters proto)).mapM (TypeKey.of? source) >>= fun types => _) =
    (TypeKey.of? target (ProtoId.returnType copy) >>= fun returnType =>
      (target.parameterTypes (ProtoId.parameters copy)).mapM (TypeKey.of? target) >>= fun types => _)
  rw [parameters, returnType]

theorem fieldKey_eq (tree : SameTree source target .fieldId old new) :
    FieldKey.at? source old = FieldKey.at? target new := by
  obtain ⟨field, copy, found, copied, -, pairs⟩ := tree.paired (by decide)
  obtain _ | ⟨definer, _ | ⟨fieldType, _ | ⟨name, -⟩⟩⟩ := pairs
  have definer := required_eq TypeKey.at? definer typeKey_eq
  have fieldType := required_eq TypeKey.at? fieldType typeKey_eq
  have name := required_eq Pools.stringAt name stringAt_eq
  rw [FieldKey.at?, FieldKey.at?, require_eq.mpr found, require_eq.mpr copied]
  change (TypeKey.of? source (FieldId.definer field) >>= fun definer =>
      source.stringOf (FieldId.name field) >>= fun name =>
        TypeKey.of? source (FieldId.fieldType field) >>= fun fieldType => _) =
    (TypeKey.of? target (FieldId.definer copy) >>= fun definer =>
      target.stringOf (FieldId.name copy) >>= fun name =>
        TypeKey.of? target (FieldId.fieldType copy) >>= fun fieldType => _)
  simp only [TypeKey.of?, Pools.stringOf, definer, fieldType, name]

theorem methodKey_eq (tree : SameTree source target .methodId old new) :
    MethodKey.at? source old = MethodKey.at? target new := by
  obtain ⟨method, copy, found, copied, -, pairs⟩ := tree.paired (by decide)
  obtain _ | ⟨definer, _ | ⟨proto, _ | ⟨name, -⟩⟩⟩ := pairs
  have definer := required_eq TypeKey.at? definer typeKey_eq
  have proto := required_eq ProtoKey.at? proto protoKey_eq
  have name := required_eq Pools.stringAt name stringAt_eq
  rw [MethodKey.at?, MethodKey.at?, require_eq.mpr found, require_eq.mpr copied]
  change (TypeKey.of? source (MethodId.definer method) >>= fun definer =>
      source.stringOf (MethodId.name method) >>= fun name =>
        ProtoKey.of? source (MethodId.proto method) >>= fun proto => _) =
    (TypeKey.of? target (MethodId.definer copy) >>= fun definer =>
      target.stringOf (MethodId.name copy) >>= fun name =>
        ProtoKey.of? target (MethodId.proto copy) >>= fun proto => _)
  simp only [TypeKey.of?, ProtoKey.of?, Pools.stringOf, definer, proto, name]

/-- An entry of an id table has the key of its copy. -/
theorem key_eq (tree : SameTree source target kind old new) :
    EntryKey.at? source kind.toSection old = EntryKey.at? target kind.toSection new := by
  cases kind with
  | typeId => exact congrArg (Except.map EntryKey.type) tree.typeKey_eq
  | protoId => exact congrArg (Except.map EntryKey.proto) tree.protoKey_eq
  | fieldId => exact congrArg (Except.map EntryKey.field) tree.fieldKey_eq
  | methodId => exact congrArg (Except.map EntryKey.method) tree.methodKey_eq
  | _ => rfl

end SameTree
end DexImage
