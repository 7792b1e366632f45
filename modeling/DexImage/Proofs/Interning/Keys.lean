import DexImage.Proofs.References.Alike
import DexImage.Proofs.References.Names
import DexImage.Proofs.Results
/-! # What keys are made of

An entry has a key if the entries and the texts that it refers to exist, and these make the key up. So it keeps the
key while pools grow, except for a proto whose parameter list does not exist yet.
-/

namespace DexImage

namespace Result

theorem mapM_eq_ok {α β : Type} {find : α → Result β} {items : List α} {values : List β} :
    items.mapM find = .ok values ↔ List.Forall₂ (fun item value => find item = .ok value) items values := by
  induction items generalizing values with
  | nil =>
    rw [List.mapM_nil, List.forall₂_nil_left_iff]
    exact ⟨fun same => (Except.ok.inj same).symm, fun same => congrArg Except.ok same.symm⟩
  | cons item rest ih =>
    rw [List.mapM_cons, bind_eq_ok, List.forall₂_cons_left_iff]
    simp only [map_eq_ok, ih]
    constructor
    · rintro ⟨value, found, values, others, rfl⟩
      exact ⟨value, values, found, others, rfl⟩
    · rintro ⟨value, values, found, others, rfl⟩
      exact ⟨value, found, values, others, rfl⟩

end Result

/-- What is found through a reference that has to be present. -/
theorem IdRef.required_bind_eq_ok {α : Type} {target : PoolKind} {ref : IdRef target} {find : UInt32 → Result α}
    {value : α} : (ref.required >>= find) = .ok value ↔ ∃ index, ref = .of index ∧ find index = .ok value := by
  obtain ⟨_ | index⟩ := ref
  · exact iff_of_false (by rintro ⟨⟩) (by rintro ⟨_, ⟨⟩, _⟩)
  · exact ⟨fun found => ⟨index, rfl, found⟩, fun ⟨_, same, found⟩ => by cases same; exact found⟩

namespace Pools

variable {pools before after : Pools} {index : UInt32}

theorem require_bind_eq_ok {α : Type} {kind : PoolKind} {find : Item kind → Result α} {value : α} :
    (pools.require kind index >>= find) = .ok value ↔
      ∃ item, pools.get? kind index = some item ∧ find item = .ok value := by
  rw [Result.bind_eq_ok]
  simp only [require_eq]

theorem stringAt_eq_ok {text : String} : pools.stringAt index = .ok text ↔
    ∃ string, pools.get? .stringId index = some string ∧ StringData.textLossy string = text := by
  rw [stringAt, require_bind_eq_ok]
  exact exists_congr fun string => and_congr_right fun _ => ⟨Except.ok.inj, congrArg _⟩

theorem stringOf_eq_ok {ref : IdRef .stringId} {text : String} : pools.stringOf ref = .ok text ↔
    ∃ index, ref = .of index ∧ pools.stringAt index = .ok text :=
  IdRef.required_bind_eq_ok

theorem Extends.stringOf (grows : before.Extends after) {ref : IdRef .stringId} {text : String}
    (found : before.stringOf ref = .ok text) : after.stringOf ref = .ok text := by
  obtain ⟨index, rfl, found⟩ := stringOf_eq_ok.mp found
  obtain ⟨string, there, same⟩ := stringAt_eq_ok.mp found
  exact stringOf_eq_ok.mpr ⟨index, rfl, stringAt_eq_ok.mpr ⟨string, grows.get? there, same⟩⟩

/-- What the parameters are depends on where the list is alone. -/
theorem parameterTypes_of_index {one other : DataRef .typeList} (same : one.index = other.index) :
    pools.parameterTypes one = pools.parameterTypes other := by
  rw [parameterTypes, parameterTypes, resolve?, resolve?, same]

theorem parameterTypes_of_absent {parameters : DataRef .typeList} (missing : parameters.index = none) :
    pools.parameterTypes parameters = [] := by
  rw [parameterTypes, resolve?, missing]
  rfl

theorem parameterTypes_of_get? {parameters : DataRef .typeList}
    {list : TypeList} (present : parameters.index = some index)
    (found : pools.get? .typeList index = some list) : pools.parameterTypes parameters = list.types := by
  rw [parameterTypes, resolve?, present, Option.bind_some, found]

end Pools

open Pools

namespace TypeKey

variable {pools before after : Pools} {index : UInt32} {key : TypeKey}

theorem at?_eq_ok : at? pools index = .ok key ↔ ∃ type, pools.get? .typeId index = some type ∧
    pools.stringOf (TypeId.descriptor type) = .ok key.descriptor := by
  rw [at?, require_bind_eq_ok]
  refine exists_congr fun type => and_congr_right fun _ => ?_
  rw [Result.map_eq_ok]
  constructor
  · rintro ⟨descriptor, found, rfl⟩
    exact found
  · exact fun found => ⟨key.descriptor, found, rfl⟩

theorem of?_eq_ok {ref : IdRef .typeId} : of? pools ref = .ok key ↔
    ∃ index, ref = .of index ∧ at? pools index = .ok key :=
  IdRef.required_bind_eq_ok

theorem at?_of_extends (grows : before.Extends after) (found : at? before index = .ok key) :
    at? after index = .ok key := by
  obtain ⟨type, there, descriptor⟩ := at?_eq_ok.mp found
  exact at?_eq_ok.mpr ⟨type, grows.get? there, grows.stringOf descriptor⟩

theorem of?_of_extends (grows : before.Extends after) {ref : IdRef .typeId} (found : of? before ref = .ok key) :
    of? after ref = .ok key := by
  obtain ⟨index, rfl, found⟩ := of?_eq_ok.mp found
  exact of?_eq_ok.mpr ⟨index, rfl, at?_of_extends grows found⟩

end TypeKey

namespace ProtoId

variable {pools before after : Pools} {proto : ProtoId} {key : ProtoKey}

/-- Whether a proto has a key. -/
structure Names (pools : Pools) (proto : ProtoId) (key : ProtoKey) : Prop where
  returnType : TypeKey.of? pools proto.returnType = .ok key.returnType
  parameters : List.Forall₂ (fun ref type => TypeKey.of? pools ref = .ok type)
    (pools.parameterTypes proto.parameters) key.parameters

/-- Whether a proto has a key, the shorty that the key spells, and no parameter list without parameters. -/
structure Spelled (pools : Pools) (proto : ProtoId) : Prop where
  shorty : ∃ key, proto.Names pools key ∧ pools.stringOf proto.shorty = .ok key.shorty
  parameters : proto.parameters.isPresent = true → pools.parameterTypes proto.parameters ≠ []

theorem Names.unique {other : ProtoKey} (names : proto.Names pools key) (others : proto.Names pools other) :
    key = other := by
  obtain ⟨returnType, parameters⟩ := key
  obtain ⟨returnType', parameters'⟩ := other
  obtain rfl : returnType = returnType' := Except.ok.inj (names.returnType.symm.trans others.returnType)
  have types : parameters = parameters' :=
    Except.ok.inj ((Result.mapM_eq_ok.mpr names.parameters).symm.trans (Result.mapM_eq_ok.mpr others.parameters))
  rw [types]

/-- What equals a proto has its key. -/
theorem Names.of_beq {other : ProtoId} (names : proto.Names pools key) (same : (other == proto) = true) :
    other.Names pools key := by
  obtain ⟨-, returnType, parameters⟩ := ProtoId.beq_iff.mp same
  refine ⟨?_, ?_⟩
  · rw [returnType]
    exact names.returnType
  · rw [parameterTypes_of_index parameters]
    exact names.parameters

/-- A parameter list that exists stays what it is. -/
theorem parameterTypes_of_extends (grows : before.Extends after)
    (some : proto.parameters.isPresent = true → before.parameterTypes proto.parameters ≠ []) :
    after.parameterTypes proto.parameters = before.parameterTypes proto.parameters := by
  rcases present : proto.parameters.index with _ | list
  · rw [parameterTypes_of_absent present, parameterTypes_of_absent present]
  rcases found : before.get? .typeList list with _ | types
  · have none : before.parameterTypes proto.parameters = [] := by
      rw [parameterTypes, resolve?, present, Option.bind_some, found]
    exact absurd none (some (by rw [DataRef.isPresent, present]; rfl))
  · rw [parameterTypes_of_get? present found, parameterTypes_of_get? present (grows.get? found)]

theorem Names.of_extends (names : proto.Names before key) (grows : before.Extends after)
    (some : proto.parameters.isPresent = true → before.parameterTypes proto.parameters ≠ []) :
    proto.Names after key where
  returnType := TypeKey.of?_of_extends grows names.returnType
  parameters := by
    rw [parameterTypes_of_extends grows some]
    exact names.parameters.imp fun _ _ => TypeKey.of?_of_extends grows

theorem Spelled.of_extends (spelled : proto.Spelled before) (grows : before.Extends after) : proto.Spelled after := by
  obtain ⟨⟨key, names, shorty⟩, some⟩ := spelled
  refine ⟨⟨key, names.of_extends grows some, grows.stringOf shorty⟩, fun present => ?_⟩
  rw [parameterTypes_of_extends grows some]
  exact some present

end ProtoId

theorem ProtoKey.shorty_mk (returnType : String) (parameters : List String) :
    ProtoKey.shorty ⟨⟨returnType⟩, parameters.map TypeKey.mk⟩ =
      String.ofList ((returnType :: parameters).map shortyChar) := by
  rw [shorty, List.map_cons, List.map_map]
  rfl

theorem ProtoKey.at?_eq_ok {pools : Pools} {index : UInt32} {key : ProtoKey} : at? pools index = .ok key ↔
    ∃ proto : ProtoId, pools.get? .protoId index = some proto ∧ proto.Names pools key := by
  rw [at?, require_bind_eq_ok]
  refine exists_congr fun proto => and_congr_right fun _ => ?_
  change (TypeKey.of? pools (ProtoId.returnType proto) >>= fun returnType =>
    (pools.parameterTypes (ProtoId.parameters proto)).mapM (TypeKey.of? pools) >>= fun parameters =>
      pure ({ returnType, parameters } : ProtoKey)) = _ ↔ _
  simp only [Result.bind_eq_ok, Result.mapM_eq_ok]
  constructor
  · rintro ⟨returnType, found, parameters, types, same⟩
    obtain rfl := Except.ok.inj same
    exact ⟨found, types⟩
  · rintro ⟨found, types⟩
    exact ⟨key.returnType, found, key.parameters, types, rfl⟩

theorem ProtoKey.of?_eq_ok {pools : Pools} {ref : IdRef .protoId} {key : ProtoKey} :
    of? pools ref = .ok key ↔ ∃ index, ref = .of index ∧ at? pools index = .ok key :=
  IdRef.required_bind_eq_ok

theorem FieldKey.at?_eq_ok {pools : Pools} {index : UInt32} {key : FieldKey} : at? pools index = .ok key ↔
    ∃ field : FieldId, pools.get? .fieldId index = some field ∧ TypeKey.of? pools field.definer = .ok key.definer ∧
      pools.stringOf field.name = .ok key.name ∧ TypeKey.of? pools field.fieldType = .ok key.fieldType := by
  rw [at?, require_bind_eq_ok]
  refine exists_congr fun field => and_congr_right fun _ => ?_
  simp only [Result.bind_eq_ok]
  constructor
  · rintro ⟨definer, found, name, text, fieldType, type, same⟩
    obtain rfl := Except.ok.inj same
    exact ⟨found, text, type⟩
  · rintro ⟨found, text, type⟩
    exact ⟨key.definer, found, key.name, text, key.fieldType, type, rfl⟩

theorem MethodKey.at?_eq_ok {pools : Pools} {index : UInt32} {key : MethodKey} : at? pools index = .ok key ↔
    ∃ method : MethodId, pools.get? .methodId index = some method ∧
    TypeKey.of? pools method.definer = .ok key.definer ∧
      pools.stringOf method.name = .ok key.name ∧ ProtoKey.of? pools method.proto = .ok key.proto := by
  rw [at?, require_bind_eq_ok]
  refine exists_congr fun method => and_congr_right fun _ => ?_
  simp only [Result.bind_eq_ok]
  constructor
  · rintro ⟨definer, found, name, text, proto, type, same⟩
    obtain rfl := Except.ok.inj same
    exact ⟨found, text, type⟩
  · rintro ⟨found, text, type⟩
    exact ⟨key.definer, found, key.name, text, key.proto, type, rfl⟩

theorem FieldKey.at?_of_extends {before after : Pools} (grows : before.Extends after) {index : UInt32} {key : FieldKey}
    (found : at? before index = .ok key) : at? after index = .ok key := by
  obtain ⟨field, there, definer, name, fieldType⟩ := at?_eq_ok.mp found
  exact at?_eq_ok.mpr ⟨field, grows.get? there, TypeKey.of?_of_extends grows definer, grows.stringOf name,
    TypeKey.of?_of_extends grows fieldType⟩

end DexImage
