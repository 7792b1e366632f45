import DexImage.Proofs.Interning.Requests
/-! # What interning adds

Interning appends what is not there, and then what was asked for has its name at the index that interning yields
(`Request.grown`). Unrepeated pools stay unrepeated, so that there is no second entry of any name, however many
requests follow each other (`Request.grown_internAll`).
-/

namespace DexImage

open Pools

/-- Whether pools have grown and are unrepeated if they were, and something holds of them and of what they grow into. -/
structure Grown (before after : Pools) (known : Pools → Prop) : Prop where
  grows : before.Extends after
  unrepeated : after.Indexed → before.Unrepeated → after.Unrepeated
  known : after.Indexed → ∀ later, after.Extends later → known later

namespace Grown

variable {before middle after : Pools} {known first second : Pools → Prop}

protected theorem refl (pools : Pools) : Grown pools pools fun _ => True :=
  ⟨.refl pools, fun _ unrepeated => unrepeated, fun _ _ _ => trivial⟩

/-- What has become known stays known. -/
protected theorem trans (one : Grown before middle first) (other : Grown middle after second) :
    Grown before after fun pools => first pools ∧ second pools where
  grows := one.grows.trans other.grows
  unrepeated indexed unrepeated := other.unrepeated indexed (one.unrepeated (other.grows.indexed indexed) unrepeated)
  known indexed later grows :=
    ⟨one.known (other.grows.indexed indexed) later (other.grows.trans grows), other.known indexed later grows⟩

protected theorem imp (grown : Grown before after first) (implies : ∀ pools, first pools → second pools) :
    Grown before after second :=
  ⟨grown.grows, grown.unrepeated, fun indexed later grows => implies later (grown.known indexed later grows)⟩

/-- An item that is spelled right among what is known may be interned. -/
protected theorem internItem (grown : Grown before middle known) (kind : PoolKind) (item : Item kind)
    (spells : ∀ pools, known pools → pools.Spells item) :
    Grown before (internItem kind item middle).2 fun pools =>
      known pools ∧ ∃ other, pools.get? kind (internItem kind item middle).1 = some other ∧
      (other == item) = true where
  grows := grown.grows.trans (extends_internItem item)
  unrepeated indexed unrepeated := by
    have indexed := (extends_internItem item).indexed indexed
    exact unrepeated_internItem (grown.unrepeated indexed unrepeated)
      (spells middle (grown.known indexed middle (.refl middle)))
  known indexed later grows := by
    obtain ⟨other, found, same⟩ := get?_internItem indexed
    have both := (extends_internItem item).trans grows
    exact ⟨grown.known ((extends_internItem item).indexed indexed) later both, other, grows.get? found, same⟩

end Grown

section Steps

variable (before : Pools)

theorem grown_internString (text : String) : Grown before (internString text before).2 fun pools =>
    pools.stringAt (internString text before).1 = .ok text := by
  refine ((Grown.refl before).internItem .stringId (StringData.decoded text) fun _ _ => ⟨text, rfl⟩).imp
    fun pools ⟨_, string, found, same⟩ => ?_
  obtain rfl := eq_of_beq (α := StringData) same
  exact stringAt_eq_ok.mpr ⟨_, found, rfl⟩

theorem grown_internType (descriptor : String) : Grown before (internType descriptor before).2 fun pools =>
    TypeKey.at? pools (internType descriptor before).1 = .ok ⟨descriptor⟩ := by
  have string := grown_internString before descriptor
  refine (string.internItem .typeId (TypeId.ofDescriptor _) fun _ _ => trivial).imp
    fun pools ⟨text, type, found, same⟩ => ?_
  obtain rfl := eq_of_beq (α := TypeId) same
  exact TypeKey.at?_eq_ok.mpr ⟨_, found, stringOf_eq_ok.mpr ⟨_, rfl, text⟩⟩

theorem grown_internTypes (descriptors : List String) : Grown before (internTypes descriptors before).2 fun pools =>
    List.Forall₂ (fun ref key => TypeKey.of? pools ref = .ok key) ((internTypes descriptors before).1.map .of)
      (descriptors.map TypeKey.mk) := by
  induction descriptors generalizing before with
  | nil => exact (Grown.refl before).imp fun _ _ => .nil
  | cons descriptor rest ih =>
    refine ((grown_internType before descriptor).trans (ih _)).imp fun _ ⟨first, others⟩ => ?_
    exact .cons (TypeKey.of?_eq_ok.mpr ⟨_, rfl, first⟩) others

theorem grown_internParameters (indices : List UInt32) : Grown before (internParameters indices before).2 fun pools =>
    pools.parameterTypes (internParameters indices before).1 = indices.map .of ∧
      ((internParameters indices before).1.isPresent = true → indices ≠ []) := by
  cases indices with
  | nil => exact (Grown.refl before).imp fun _ _ => ⟨rfl, by rintro ⟨⟩⟩
  | cons first rest =>
    refine ((Grown.refl before).internItem .typeList (TypeList.ofIndices (first :: rest)) fun _ _ => trivial).imp
      fun pools ⟨_, types, found, same⟩ => ⟨?_, fun _ => List.cons_ne_nil _ _⟩
    obtain rfl := eq_of_beq (α := TypeList) same
    exact parameterTypes_of_get? rfl found

theorem grown_internProto (returnType : String) (parameters : List String) :
    Grown before (internProto returnType parameters before).2 fun pools =>
      ProtoKey.at? pools (internProto returnType parameters before).1 =
        .ok ⟨⟨returnType⟩, parameters.map TypeKey.mk⟩ := by
  let text := String.ofList ((returnType :: parameters).map shortyChar)
  let shorty := internString text before
  let returned := internType returnType shorty.2
  let types := internTypes parameters returned.2
  let list := internParameters types.1 types.2
  let proto : ProtoId := ⟨.of shorty.1, .of returned.1, list.1⟩
  let key : ProtoKey := ⟨⟨returnType⟩, parameters.map TypeKey.mk⟩
  have spelled : text = key.shorty := (ProtoKey.shorty_mk returnType parameters).symm
  have parts := (((grown_internString before text).trans (grown_internType shorty.2 returnType)).trans
    (grown_internTypes returned.2 parameters)).trans (grown_internParameters types.2 types.1)
  have known : Grown before list.2 fun pools => proto.Names pools key ∧ proto.Spelled pools := by
    refine parts.imp fun pools ⟨⟨⟨string, type⟩, types⟩, listed, filled⟩ => ?_
    have names : proto.Names pools key := ⟨TypeKey.of?_eq_ok.mpr ⟨_, rfl, type⟩, listed.symm ▸ types⟩
    refine ⟨names, ⟨key, names, spelled ▸ stringOf_eq_ok.mpr ⟨_, rfl, string⟩⟩, fun present => ?_⟩
    rw [listed]
    exact fun none => filled present (List.map_eq_nil_iff.mp none)
  refine (known.internItem .protoId proto fun _ known =>
    known.2).imp fun pools ⟨⟨names, _⟩, other, found, same⟩ => ?_
  exact ProtoKey.at?_eq_ok.mpr ⟨other, found, names.of_beq same⟩

theorem grown_internField (definer name fieldType : String) :
    Grown before (internField definer name fieldType before).2 fun pools =>
      FieldKey.at? pools (internField definer name fieldType before).1 = .ok ⟨⟨definer⟩, name, ⟨fieldType⟩⟩ := by
  let definerId := internType definer before
  let typeId := internType fieldType definerId.2
  let nameId := internString name typeId.2
  have parts := ((grown_internType before definer).trans (grown_internType definerId.2 fieldType)).trans
    (grown_internString typeId.2 name)
  refine (parts.internItem .fieldId (FieldId.mk (.of definerId.1) (.of typeId.1) (.of nameId.1)) fun _ _ => trivial).imp
    fun pools ⟨⟨⟨definer, fieldType⟩, name⟩, field, found, same⟩ => ?_
  obtain rfl := eq_of_beq (α := FieldId) same
  exact FieldKey.at?_eq_ok.mpr ⟨_, found, TypeKey.of?_eq_ok.mpr ⟨_, rfl, definer⟩,
    stringOf_eq_ok.mpr ⟨_, rfl, name⟩, TypeKey.of?_eq_ok.mpr ⟨_, rfl, fieldType⟩⟩

theorem grown_internMethod (definer name returnType : String) (parameters : List String) :
    Grown before (internMethod definer name returnType parameters before).2 fun pools =>
      MethodKey.at? pools (internMethod definer name returnType parameters before).1 =
        .ok ⟨⟨definer⟩, name, ⟨returnType⟩, parameters.map TypeKey.mk⟩ := by
  let definerId := internType definer before
  let protoId := internProto returnType parameters definerId.2
  let nameId := internString name protoId.2
  have parts := ((grown_internType before definer).trans (grown_internProto definerId.2 returnType parameters)).trans
    (grown_internString protoId.2 name)
  refine (parts.internItem .methodId (MethodId.mk (.of definerId.1) (.of protoId.1) (.of nameId.1))
    fun _ _ => trivial).imp
    fun pools ⟨⟨⟨definer, proto⟩, name⟩, method, found, same⟩ => ?_
  obtain rfl := eq_of_beq (α := MethodId) same
  exact MethodKey.at?_eq_ok.mpr ⟨_, found, TypeKey.of?_eq_ok.mpr ⟨_, rfl, definer⟩,
    stringOf_eq_ok.mpr ⟨_, rfl, name⟩, ProtoKey.of?_eq_ok.mpr ⟨_, rfl, proto⟩⟩

end Steps

/-- What was asked for has its name at the index that interning yields. -/
theorem Request.grown (request : Request) (before : Pools) : Grown before (request.intern before).2 fun pools =>
    pools.nameAt? request.kind (request.intern before).1 = some request.name := by
  cases request with
  | string text =>
    exact ((Grown.refl before).internItem .stringId (StringData.decoded text) fun _ _ => ⟨text, rfl⟩).imp
      fun pools ⟨_, data, found, same⟩ => nameAt?_eq_inl.mpr (eq_of_beq (α := StringData) same ▸ found)
  | type descriptor => exact (grown_internType before descriptor).imp fun _ => nameAt?_eq_type.mpr
  | proto returnType parameters =>
    exact (grown_internProto before returnType parameters).imp fun _ => nameAt?_eq_proto.mpr
  | field definer name fieldType =>
    exact (grown_internField before definer name fieldType).imp fun _ => nameAt?_eq_field.mpr
  | method definer name returnType parameters =>
    exact (grown_internMethod before definer name returnType parameters).imp fun _ => nameAt?_eq_method.mpr

theorem Pools.unrepeated_empty : Pools.empty.Unrepeated where
  items kind item member := by cases kind <;> cases member
  distinct kind _ := by cases kind <;> exact .nil

/-- The pools after requests that follow each other. -/
def Request.internAll (requests : List Request) (pools : Pools) : Pools :=
  requests.foldl (fun pools request => (request.intern pools).2) pools

/-- However many requests follow each other, pools that were unrepeated stay so and have what was asked for. -/
theorem Request.grown_internAll (requests : List Request) (before : Pools) :
    Grown before (Request.internAll requests before) fun pools =>
      ∀ request ∈ requests, ∃ index, pools.nameAt? request.kind index = some request.name := by
  induction requests generalizing before with
  | nil => exact (Grown.refl before).imp fun _ _ _ member => absurd member List.not_mem_nil
  | cons request rest ih =>
    refine ((request.grown before).trans (ih _)).imp fun pools ⟨first, others⟩ => ?_
    exact List.forall_mem_cons.mpr ⟨⟨_, first⟩, others⟩

end DexImage
