import DexImage.Proofs.Interning.Unrepeated
/-! # Requests for ids

Whatever is asked for by name, unrepeated pools that have it yield its index and stay as they are
(`Request.intern_eq`). Pools that do not have it grow by it and by what it is made of, and stay unrepeated
(`Request.grown`).
-/

namespace DexImage

open Pools

/-- What is asked for by name. -/
inductive Request where
  | string (text : String)
  | type (descriptor : String)
  | proto (returnType : String) (parameters : List String)
  | field (definer name fieldType : String)
  | method (definer name returnType : String) (parameters : List String)

namespace Request

def kind : Request → PoolKind
  | string .. => .stringId
  | type .. => .typeId
  | proto .. => .protoId
  | field .. => .fieldId
  | method .. => .methodId

def name : Request → Name
  | string text => .inl (.decoded text)
  | type descriptor => .inr (.type ⟨descriptor⟩)
  | proto returnType parameters => .inr (.proto ⟨⟨returnType⟩, parameters.map TypeKey.mk⟩)
  | field definer name fieldType => .inr (.field ⟨⟨definer⟩, name, ⟨fieldType⟩⟩)
  | method definer name returnType parameters =>
    .inr (.method ⟨⟨definer⟩, name, ⟨⟨returnType⟩, parameters.map TypeKey.mk⟩⟩)

def intern : Request → Interning
  | string text => internString text
  | type descriptor => internType descriptor
  | proto returnType parameters => internProto returnType parameters
  | field definer name fieldType => internField definer name fieldType
  | method definer name returnType parameters => internMethod definer name returnType parameters

end Request

theorem Pools.Normal.get?_of_stringAt {pools : Pools} (normal : pools.Normal) {index : UInt32} {text : String}
    (there : pools.stringAt index = .ok text) : pools.get? .stringId index = some (StringData.decoded text) := by
  obtain ⟨string, found, lossy⟩ := stringAt_eq_ok.mp there
  obtain ⟨other, rfl⟩ := normal.items .stringId string (mem_of_get? found)
  rw [found, ← lossy]
  rfl

namespace Pools.Unrepeated

variable {pools : Pools} (unrepeated : pools.Unrepeated) {index : UInt32}
include unrepeated

theorem internString_eq {text : String} (there : pools.stringAt index = .ok text) :
    internString text pools = (index, pools) :=
  unrepeated.internItem_eq rfl (unrepeated.get?_of_stringAt there) (beq_self_eq_true _)

theorem internType_eq {descriptor : String} (there : TypeKey.at? pools index = .ok ⟨descriptor⟩) :
    internType descriptor pools = (index, pools) := by
  obtain ⟨⟨_⟩, found, named⟩ := TypeKey.at?_eq_ok.mp there
  obtain ⟨string, rfl, text⟩ := stringOf_eq_ok.mp named
  simp only [internType, bind, StateT.bind, unrepeated.internString_eq text]
  exact unrepeated.internItem_eq rfl found (beq_self_eq_true _)

theorem internTypes_eq {refs : List (IdRef .typeId)} {descriptors : List String}
    (there : List.Forall₂ (fun ref key => TypeKey.of? pools ref = .ok key) refs (descriptors.map TypeKey.mk)) :
    ∃ indices, refs = indices.map .of ∧ internTypes descriptors pools = (indices, pools) := by
  induction descriptors generalizing refs with
  | nil =>
    obtain rfl := List.forall₂_nil_right_iff.mp there
    exact ⟨[], rfl, rfl⟩
  | cons descriptor descriptors ih =>
    obtain _ | ⟨first, rest⟩ := there
    obtain ⟨index, rfl, named⟩ := TypeKey.of?_eq_ok.mp first
    obtain ⟨indices, rfl, interned⟩ := ih rest
    refine ⟨index :: indices, rfl, ?_⟩
    simp only [internTypes, bind, StateT.bind, unrepeated.internType_eq named, interned]
    rfl

/-- Interning the types of a parameter list that is there yields a reference to it. -/
theorem internParameters_eq {parameters : DataRef .typeList} {indices : List UInt32}
    (types : pools.parameterTypes parameters = indices.map .of)
    (some : parameters.isPresent = true → pools.parameterTypes parameters ≠ []) :
    ∃ ref, internParameters indices pools = (ref, pools) ∧ ref.index = parameters.index := by
  rcases present : parameters.index with _ | list
  · obtain rfl : indices = [] := List.map_eq_nil_iff.mp (types.symm.trans (parameterTypes_of_absent present))
    exact ⟨.absent, rfl, rfl⟩
  · have listed := some (by rw [DataRef.isPresent, present]; rfl)
    rcases found : pools.get? .typeList list with _ | ⟨⟨held⟩⟩
    · rw [parameterTypes, resolve?, present, Option.bind_some, found] at listed
      exact absurd rfl listed
    · have same : pools.parameterTypes parameters = held := parameterTypes_of_get? present found
      obtain rfl := same.symm.trans types
      obtain ⟨first, rest, rfl⟩ := List.exists_cons_of_ne_nil (l := indices) (by rintro rfl; exact listed same)
      have interned := unrepeated.internItem_eq rfl found (beq_self_eq_true (TypeList.ofIndices (first :: rest)))
      refine ⟨.unplaced list, ?_, rfl⟩
      simp only [internParameters, bind, StateT.bind, interned]
      rfl

theorem internProto_eq {returnType : String} {parameters : List String}
    (there : ProtoKey.at? pools index = .ok ⟨⟨returnType⟩, parameters.map TypeKey.mk⟩) :
    internProto returnType parameters pools = (index, pools) := by
  obtain ⟨proto, found, names⟩ := ProtoKey.at?_eq_ok.mp there
  obtain ⟨⟨key, names', shorty⟩, some⟩ := unrepeated.items .protoId proto (mem_of_get? found)
  -- The key whose shorty the proto has is the one that is asked for.
  obtain rfl := names'.unique names
  obtain ⟨shortyIndex, spelled, text⟩ := stringOf_eq_ok.mp shorty
  rw [ProtoKey.shorty_mk] at text
  obtain ⟨returnIndex, returned, type⟩ := TypeKey.of?_eq_ok.mp names.returnType
  obtain ⟨indices, types, interned⟩ := unrepeated.internTypes_eq names.parameters
  obtain ⟨list, listed, same⟩ := unrepeated.internParameters_eq types some
  simp only [internProto, bind, StateT.bind, unrepeated.internString_eq text,
    unrepeated.internType_eq type, interned, listed]
  exact unrepeated.internItem_eq rfl found (ProtoId.beq_iff.mpr ⟨spelled, returned, same.symm⟩)

theorem internField_eq {definer name fieldType : String}
    (there : FieldKey.at? pools index = .ok ⟨⟨definer⟩, name, ⟨fieldType⟩⟩) :
    internField definer name fieldType pools = (index, pools) := by
  obtain ⟨⟨_, _, _⟩, found, definer, name, fieldType⟩ := FieldKey.at?_eq_ok.mp there
  obtain ⟨definerIndex, rfl, definer⟩ := TypeKey.of?_eq_ok.mp definer
  obtain ⟨nameIndex, rfl, name⟩ := stringOf_eq_ok.mp name
  obtain ⟨typeIndex, rfl, fieldType⟩ := TypeKey.of?_eq_ok.mp fieldType
  simp only [internField, bind, StateT.bind, unrepeated.internType_eq definer, unrepeated.internType_eq fieldType,
    unrepeated.internString_eq name]
  exact unrepeated.internItem_eq rfl found (beq_self_eq_true _)

theorem internMethod_eq {definer name returnType : String} {parameters : List String}
    (there : MethodKey.at? pools index = .ok ⟨⟨definer⟩, name, ⟨returnType⟩, parameters.map TypeKey.mk⟩) :
    internMethod definer name returnType parameters pools = (index, pools) := by
  obtain ⟨⟨_, _, _⟩, found, definer, name, proto⟩ := MethodKey.at?_eq_ok.mp there
  obtain ⟨definerIndex, rfl, definer⟩ := TypeKey.of?_eq_ok.mp definer
  obtain ⟨nameIndex, rfl, name⟩ := stringOf_eq_ok.mp name
  obtain ⟨protoIndex, rfl, proto⟩ := ProtoKey.of?_eq_ok.mp proto
  simp only [internMethod, bind, StateT.bind, unrepeated.internType_eq definer, unrepeated.internProto_eq proto,
    unrepeated.internString_eq name]
  exact unrepeated.internItem_eq rfl found (beq_self_eq_true _)

end Pools.Unrepeated

namespace Pools

variable {pools before after : Pools} {kind : PoolKind} {index : UInt32}

theorem nameAt?_eq_inl {string : StringData} :
    pools.nameAt? .stringId index = some (.inl string) ↔ pools.get? .stringId index = some string := by
  rw [nameAt?]
  cases pools.get? .stringId index with
  | none => exact iff_of_false (by rintro ⟨⟩) (by rintro ⟨⟩)
  | some other => exact ⟨fun same => congrArg some (Sum.inl.inj (Option.some.inj same)), congrArg (Option.map Sum.inl)⟩

theorem nameAt?_eq_inr {key : EntryKey} :
    pools.nameAt? kind index = some (.inr key) ↔ EntryKey.at? pools kind.toSection index = .ok key := by
  by_cases strings : kind = .stringId
  · subst strings
    refine iff_of_false (fun named => ?_) (by rintro ⟨⟩)
    obtain ⟨_, -, ⟨⟩⟩ := Option.map_eq_some_iff.mp named
  · rw [nameAt?_of_ne strings]
    cases EntryKey.at? pools kind.toSection index with
    | error => exact iff_of_false (by rintro ⟨⟩) (by rintro ⟨⟩)
    | ok other => exact ⟨fun same => congrArg Except.ok (Sum.inr.inj (Option.some.inj same)), by rintro ⟨⟩; rfl⟩

private theorem named_iff {κ : Type} {make : κ → EntryKey} (injective : Function.Injective make) {result : Result κ}
    {key : κ} (named : EntryKey.at? pools kind.toSection index = result.map make) :
    pools.nameAt? kind index = some (.inr (make key)) ↔ result = .ok key := by
  rw [nameAt?_eq_inr, named]
  cases result with
  | error => exact iff_of_false (by rintro ⟨⟩) (by rintro ⟨⟩)
  | ok other => exact ⟨fun same => congrArg Except.ok (injective (Except.ok.inj same)), by rintro ⟨⟩; rfl⟩

theorem nameAt?_eq_type {key : TypeKey} :
    pools.nameAt? .typeId index = some (.inr (.type key)) ↔ TypeKey.at? pools index = .ok key :=
  named_iff (fun _ _ => EntryKey.type.inj) rfl

theorem nameAt?_eq_proto {key : ProtoKey} :
    pools.nameAt? .protoId index = some (.inr (.proto key)) ↔ ProtoKey.at? pools index = .ok key :=
  named_iff (fun _ _ => EntryKey.proto.inj) rfl

theorem nameAt?_eq_field {key : FieldKey} :
    pools.nameAt? .fieldId index = some (.inr (.field key)) ↔ FieldKey.at? pools index = .ok key :=
  named_iff (fun _ _ => EntryKey.field.inj) rfl

theorem nameAt?_eq_method {key : MethodKey} :
    pools.nameAt? .methodId index = some (.inr (.method key)) ↔ MethodKey.at? pools index = .ok key :=
  named_iff (fun _ _ => EntryKey.method.inj) rfl

/-- Whatever has a name among keyed entries may be asked for. -/
theorem Normal.exists_request (normal : pools.Normal) (keyed : kind.isKeyed = true) {name : Name}
    (there : pools.nameAt? kind index = some name) :
    ∃ request : Request, request.kind = kind ∧ request.name = name := by
  have lift {κ : Type} {make : κ → EntryKey} {result : Result κ} {name : Name}
      (named : (result.map make).toOption.map .inr = some name) : ∃ key, name = .inr (make key) := by
    cases result with
    | error => cases named
    | ok key => exact ⟨key, (Option.some.inj named).symm⟩
  have descriptors (types : List TypeKey) : (types.map TypeKey.descriptor).map TypeKey.mk = types := by
    rw [List.map_map]
    exact List.map_id _
  cases kind with
  | stringId =>
    obtain ⟨string, found, rfl⟩ := Option.map_eq_some_iff.mp there
    obtain ⟨text, rfl⟩ := normal.items .stringId string (mem_of_get? found)
    exact ⟨.string text, rfl, rfl⟩
  | typeId =>
    obtain ⟨key, rfl⟩ := lift there
    exact ⟨.type key.descriptor, rfl, rfl⟩
  | protoId =>
    obtain ⟨⟨returnType, parameters⟩, rfl⟩ := lift there
    refine ⟨.proto returnType.descriptor (parameters.map TypeKey.descriptor), rfl, ?_⟩
    rw [Request.name, descriptors]
  | fieldId =>
    obtain ⟨key, rfl⟩ := lift there
    exact ⟨.field key.definer.descriptor key.name key.fieldType.descriptor, rfl, rfl⟩
  | methodId =>
    obtain ⟨⟨definer, name, ⟨returnType, parameters⟩⟩, rfl⟩ := lift there
    refine ⟨.method definer.descriptor name returnType.descriptor (parameters.map TypeKey.descriptor), rfl, ?_⟩
    rw [Request.name, descriptors]
  | _ => cases keyed

end Pools

/-- Unrepeated pools that have what is asked for yield its index and stay as they are. -/
theorem Request.intern_eq (request : Request) {pools : Pools} (unrepeated : pools.Unrepeated) {index : UInt32}
    (there : pools.nameAt? request.kind index = some request.name) : request.intern pools = (index, pools) := by
  cases request with
  | string text => exact unrepeated.internItem_eq rfl (nameAt?_eq_inl.mp there) (beq_self_eq_true _)
  | type descriptor => exact unrepeated.internType_eq (nameAt?_eq_type.mp there)
  | proto returnType parameters => exact unrepeated.internProto_eq (nameAt?_eq_proto.mp there)
  | field definer name fieldType => exact unrepeated.internField_eq (nameAt?_eq_field.mp there)
  | method definer name returnType parameters => exact unrepeated.internMethod_eq (nameAt?_eq_method.mp there)

/-- Names determine indices in unrepeated pools. -/
theorem Pools.Unrepeated.index_eq {pools : Pools} (unrepeated : pools.Unrepeated) {kind : PoolKind}
    (keyed : kind.isKeyed = true) {one other : UInt32} {name : Name} (first : pools.nameAt? kind one = some name)
    (second : pools.nameAt? kind other = some name) : one = other := by
  obtain ⟨request, rfl, rfl⟩ := unrepeated.exists_request keyed first
  have same := (request.intern_eq unrepeated first).symm.trans (request.intern_eq unrepeated second)
  exact (Prod.mk.inj same).1

namespace Pools.Normal

variable {before after : Pools} (normal : before.Normal) (grows : before.Extends after)
include normal grows

theorem protoKey_of_extends {index : UInt32} {key : ProtoKey} (found : ProtoKey.at? before index = .ok key) :
    ProtoKey.at? after index = .ok key := by
  obtain ⟨proto, there, names⟩ := ProtoKey.at?_eq_ok.mp found
  have spelled : ProtoId.Spelled before proto := normal.items .protoId proto (mem_of_get? there)
  exact ProtoKey.at?_eq_ok.mpr ⟨proto, grows.get? there, names.of_extends grows spelled.parameters⟩

theorem methodKey_of_extends {index : UInt32} {key : MethodKey} (found : MethodKey.at? before index = .ok key) :
    MethodKey.at? after index = .ok key := by
  obtain ⟨method, there, definer, name, proto⟩ := MethodKey.at?_eq_ok.mp found
  obtain ⟨protoIndex, same, proto⟩ := ProtoKey.of?_eq_ok.mp proto
  exact MethodKey.at?_eq_ok.mpr ⟨method, grows.get? there, TypeKey.of?_of_extends grows definer, grows.stringOf name,
    ProtoKey.of?_eq_ok.mpr ⟨protoIndex, same, normal.protoKey_of_extends grows proto⟩⟩

/-- Entries keep their names while pools grow. -/
theorem nameAt?_of_extends {kind : PoolKind} (keyed : kind.isKeyed = true) {index : UInt32} {name : Name}
    (there : before.nameAt? kind index = some name) : after.nameAt? kind index = some name := by
  obtain ⟨request, rfl, rfl⟩ := normal.exists_request keyed there
  cases request with
  | string text => exact nameAt?_eq_inl.mpr (grows.get? (nameAt?_eq_inl.mp there))
  | type descriptor => exact nameAt?_eq_type.mpr (TypeKey.at?_of_extends grows (nameAt?_eq_type.mp there))
  | proto returnType parameters =>
    exact nameAt?_eq_proto.mpr (normal.protoKey_of_extends grows (nameAt?_eq_proto.mp there))
  | field definer name fieldType =>
    exact nameAt?_eq_field.mpr (FieldKey.at?_of_extends grows (nameAt?_eq_field.mp there))
  | method definer name returnType parameters =>
    exact nameAt?_eq_method.mpr (normal.methodKey_of_extends grows (nameAt?_eq_method.mp there))

end Pools.Normal
end DexImage
