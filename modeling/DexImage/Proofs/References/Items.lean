import DexImage.Item.Family
import DexImage.Proofs.References.Instructions
import DexImage.Proofs.References.Values
/-! # References in items

The places for references in the items of every pool. Visiting an item is a pass over its places
(`visit_itemHolding`).
-/

namespace DexImage

variable {σ : Type}

namespace TypeId

def holding : Holding TypeId :=
  (IdRef.holding .idItem).part (fun type => type.descriptor) fun _ descriptor => ⟨descriptor⟩

theorem visit_holding (visitor : Visitor σ) (type : TypeId) :
    holding.visit visitor type = DexImage.visit visitor type := by
  simp only [holding, Holding.visit_part, IdRef.visit_holding]
  rfl

end TypeId

namespace TypeList

def holding : Holding TypeList :=
  (IdRef.holding .typeList).list.part (fun list => list.types) fun _ types => ⟨types⟩

theorem visit_holding (visitor : Visitor σ) (list : TypeList) :
    holding.visit visitor list = DexImage.visit visitor list := by
  simp only [holding, Holding.visit_part, Holding.visit_list, funext (IdRef.visit_holding _ _)]
  rfl

end TypeList

namespace ProtoId

def holding : Holding ProtoId :=
  ((IdRef.holding .idItem).pair ((IdRef.holding .idItem).pair (DataRef.holding .idItem))).part
    (fun proto => (proto.shorty, proto.returnType, proto.parameters))
    fun _ part => ⟨part.1, part.2.1, part.2.2⟩

theorem visit_holding (visitor : Visitor σ) (proto : ProtoId) :
    holding.visit visitor proto = DexImage.visit visitor proto := by
  simp only [holding, Holding.visit_part, Holding.visit_pair, IdRef.visit_holding,
    DataRef.visit_holding, bind_assoc, pure_bind]
  rfl

end ProtoId

namespace FieldId

def holding : Holding FieldId :=
  ((IdRef.holding .idItem).pair ((IdRef.holding .idItem).pair (IdRef.holding .idItem))).part
    (fun field => (field.definer, field.fieldType, field.name))
    fun _ part => ⟨part.1, part.2.1, part.2.2⟩

theorem visit_holding (visitor : Visitor σ) (field : FieldId) :
    holding.visit visitor field = DexImage.visit visitor field := by
  simp only [holding, Holding.visit_part, Holding.visit_pair, IdRef.visit_holding, bind_assoc, pure_bind]
  rfl

end FieldId

namespace MethodId

def holding : Holding MethodId :=
  ((IdRef.holding .idItem).pair ((IdRef.holding .idItem).pair (IdRef.holding .idItem))).part
    (fun method => (method.definer, method.proto, method.name))
    fun _ part => ⟨part.1, part.2.1, part.2.2⟩

theorem visit_holding (visitor : Visitor σ) (method : MethodId) :
    holding.visit visitor method = DexImage.visit visitor method := by
  simp only [holding, Holding.visit_part, Holding.visit_pair, IdRef.visit_holding, bind_assoc, pure_bind]
  rfl

end MethodId

namespace ClassDef

def holding : Holding ClassDef :=
  ((IdRef.holding .definition).pair <| (IdRef.holding .definition).pair <|
    (DataRef.holding .definition).pair <| (IdRef.holding .definition).pair <|
    (DataRef.holding .annotated).pair <| (DataRef.holding .definition).pair <|
    DataRef.holding .staticValue).part
    (fun definition =>
      (definition.type, definition.superclass, definition.interfaces, definition.sourceFile,
        definition.annotations, definition.classData, definition.staticValues))
    fun definition (type, superclass, interfaces, sourceFile, annotations, classData, staticValues) =>
      { type, access := definition.access, superclass, interfaces, sourceFile, annotations,
        classData, staticValues }

theorem visit_holding (visitor : Visitor σ) (definition : ClassDef) :
    holding.visit visitor definition = DexImage.visit visitor definition := by
  simp only [holding, Holding.visit_part, Holding.visit_pair, IdRef.visit_holding,
    DataRef.visit_holding, bind_assoc, pure_bind]
  rfl

end ClassDef

namespace DefinedField

def holding : Holding DefinedField :=
  (IdRef.holding .definition).part (fun entry => entry.field) fun entry field => { entry with field }

theorem visit_holding (visitor : Visitor σ) (entry : DefinedField) :
    holding.visit visitor entry = entry.visit visitor := by
  simp only [holding, Holding.visit_part, IdRef.visit_holding]
  rfl

end DefinedField

namespace DefinedMethod

def holding : Holding DefinedMethod :=
  ((IdRef.holding .definition).pair (DataRef.holding .code)).part
    (fun entry => (entry.method, entry.code))
    fun entry part => { entry with method := part.1, code := part.2 }

theorem visit_holding (visitor : Visitor σ) (entry : DefinedMethod) :
    holding.visit visitor entry = entry.visit visitor := by
  simp only [holding, Holding.visit_part, Holding.visit_pair, IdRef.visit_holding,
    DataRef.visit_holding, bind_assoc, pure_bind]
  rfl

end DefinedMethod

namespace ClassData

def holding : Holding ClassData :=
  (DefinedField.holding.list.pair <| DefinedField.holding.list.pair <|
    DefinedMethod.holding.list.pair DefinedMethod.holding.list).part
    (fun data => (data.staticFields, data.instanceFields, data.directMethods, data.virtualMethods))
    fun _ part => ⟨part.1, part.2.1, part.2.2.1, part.2.2.2⟩

theorem visit_holding (visitor : Visitor σ) (data : ClassData) :
    holding.visit visitor data = DexImage.visit visitor data := by
  simp only [holding, Holding.visit_part, Holding.visit_pair, Holding.visit_list,
    funext (DefinedField.visit_holding _), funext (DefinedMethod.visit_holding _), bind_assoc, pure_bind]
  rfl

end ClassData

namespace ExceptionHandler

def places : Places ExceptionHandler where
  held
    | typed type _ => (IdRef.holding .caught).held type
    | catchAll _ => []
  fill
    | typed type address, new => typed ((IdRef.holding .caught).fill type new) address
    | catchAll address, _ => catchAll address

def holding : Holding ExceptionHandler where
  toPlaces := places
  lawful
    | typed type address => .wrap (typed · address) (fun _ => rfl) (fun _ _ => rfl) ((IdRef.holding _).lawful type)
    | catchAll _ => .bare rfl fun _ => rfl

theorem visit_typed (visitor : Visitor σ) (type : IdRef .typeId) (address : UInt32) :
    holding.visit visitor (typed type address) =
      (do return typed (← type.visit visitor .caught) address) := by
  rw [← IdRef.visit_holding]
  exact Places.visit_wrap (typed · address) (fun _ => rfl) (fun _ _ => rfl) visitor type

end ExceptionHandler

namespace HandlerList

def holding : Holding HandlerList :=
  ExceptionHandler.holding.list.part (fun list => list.handlers) fun _ handlers => ⟨handlers⟩

theorem visit_holding (visitor : Visitor σ) (list : HandlerList) :
    holding.visit visitor list = DexImage.visit visitor list := by
  rw [holding, Holding.visit_part, Holding.visit_list]
  change (do return ⟨← _⟩ : StateM σ HandlerList) = (do return ⟨← _⟩)
  congr 1
  refine visitAll_congr fun handler _ => ?_
  cases handler with
  | typed type address => exact ExceptionHandler.visit_typed visitor type address
  | catchAll address => rfl

end HandlerList

namespace TryTable

/-- A pass over a try table leaves its handler lists marked as edited. -/
def holding : Holding TryTable :=
  HandlerList.holding.list.part (fun table => table.handlers.items)
    fun table items => { table with handlers := ⟨items, true⟩ }

theorem visit_holding (visitor : Visitor σ) (table : TryTable) :
    holding.visit visitor table = DexImage.visit visitor table := by
  simp only [holding, Holding.visit_part, Holding.visit_list, funext (HandlerList.visit_holding _)]
  rfl

end TryTable

namespace CodeItem

def holding : Holding CodeItem :=
  ((DataRef.holding .debug).pair (InstructionList.holding.pair TryTable.holding.option)).part
    (fun code => (code.debugInfo, code.instructions, code.tryTable))
    fun code part =>
      { code with debugInfo := part.1, instructions := part.2.1, tryTable := part.2.2 }

theorem visit_holding (visitor : Visitor σ) (code : CodeItem) :
    holding.visit visitor code = DexImage.visit visitor code := by
  simp only [holding, Holding.visit_part, Holding.visit_pair, DataRef.visit_holding,
    InstructionList.visit_holding, Holding.visit_option, TryTable.visit_holding, bind_assoc, pure_bind]
  obtain ⟨registers, ins, outs, debugInfo, instructions, _ | table⟩ := code <;> rfl

end CodeItem

namespace DebugOp

private abbrev name : Holding (IdRef .stringId) := IdRef.holding .debug

private abbrev nameType : Holding (IdRef .stringId × IdRef .typeId) := name.pair (IdRef.holding .debug)

private abbrev nameTypeSignature : Holding (IdRef .stringId × IdRef .typeId × IdRef .stringId) :=
  name.pair ((IdRef.holding .debug).pair name)

def places : Places DebugOp where
  held
    | startLocal _ name type => nameType.held (name, type)
    | startLocalExtended _ name type signature => nameTypeSignature.held (name, type, signature)
    | setFile file => name.held file
    | _ => []
  fill
    | startLocal register name type, new =>
      let part := nameType.fill (name, type) new
      startLocal register part.1 part.2
    | startLocalExtended register name type signature, new =>
      let part := nameTypeSignature.fill (name, type, signature) new
      startLocalExtended register part.1 part.2.1 part.2.2
    | setFile file, new => setFile (name.fill file new)
    | other, _ => other

def holding : Holding DebugOp where
  toPlaces := places
  lawful
    | startLocal register name type =>
      .wrap (p := nameType.toPlaces) (fun part => startLocal register part.1 part.2) (fun _ => rfl)
        (fun _ _ => rfl) (nameType.lawful (name, type))
    | startLocalExtended register name type signature =>
      .wrap (p := nameTypeSignature.toPlaces)
        (fun part => startLocalExtended register part.1 part.2.1 part.2.2) (fun _ => rfl)
        (fun _ _ => rfl) (nameTypeSignature.lawful (name, type, signature))
    | setFile file => .wrap (p := name.toPlaces) setFile (fun _ => rfl) (fun _ _ => rfl) (name.lawful file)
    | advancePc _ | advanceLine _ | endLocal _ | restartLocal _ | prologueEnd | epilogueBegin
    | special _ => .bare rfl fun _ => rfl

theorem visit_holding (visitor : Visitor σ) (op : DebugOp) :
    holding.visit visitor op = op.visit visitor := by
  cases op with
  | startLocal register name type =>
    refine (Places.visit_wrap (p := nameType.toPlaces)
      (fun part => startLocal register part.1 part.2) (fun _ => rfl) (fun _ _ => rfl) visitor
      (name, type)).trans ?_
    simp only [Holding.visit_pair, IdRef.visit_holding, bind_assoc, pure_bind]
    rfl
  | startLocalExtended register name type signature =>
    refine (Places.visit_wrap (p := nameTypeSignature.toPlaces)
      (fun part => startLocalExtended register part.1 part.2.1 part.2.2) (fun _ => rfl)
      (fun _ _ => rfl) visitor (name, type, signature)).trans ?_
    simp only [Holding.visit_pair, IdRef.visit_holding, bind_assoc, pure_bind]
    rfl
  | setFile file =>
    refine (Places.visit_wrap (p := name.toPlaces) setFile (fun _ => rfl) (fun _ _ => rfl) visitor
      file).trans ?_
    simp only [IdRef.visit_holding]
    rfl
  | _ => exact Places.visit_bare rfl (fun _ => rfl) visitor

end DebugOp

namespace DebugInfo

def holding : Holding DebugInfo :=
  ((IdRef.holding .debug).list.pair DebugOp.holding.list).part
    (fun info => (info.parameterNames, info.ops))
    fun info part => { info with parameterNames := part.1, ops := part.2 }

theorem visit_holding (visitor : Visitor σ) (info : DebugInfo) :
    holding.visit visitor info = DexImage.visit visitor info := by
  simp only [holding, Holding.visit_part, Holding.visit_pair, Holding.visit_list,
    funext (IdRef.visit_holding _ _), funext (DebugOp.visit_holding _), bind_assoc, pure_bind]
  rfl

end DebugInfo

namespace AnnotationSet

def holding : Holding AnnotationSet :=
  (DataRef.holding .annotated).list.part (fun set => set.items) fun _ items => ⟨items⟩

theorem visit_holding (visitor : Visitor σ) (set : AnnotationSet) :
    holding.visit visitor set = DexImage.visit visitor set := by
  simp only [holding, Holding.visit_part, Holding.visit_list, funext (DataRef.visit_holding _ _)]
  rfl

end AnnotationSet

namespace AnnotationSetRefList

def holding : Holding AnnotationSetRefList :=
  (DataRef.holding .annotated).list.part (fun list => list.sets) fun _ sets => ⟨sets⟩

theorem visit_holding (visitor : Visitor σ) (list : AnnotationSetRefList) :
    holding.visit visitor list = DexImage.visit visitor list := by
  simp only [holding, Holding.visit_part, Holding.visit_list, funext (DataRef.visit_holding _ _)]
  rfl

end AnnotationSetRefList

namespace AnnotatedMember

variable {member target : PoolKind}

def holding : Holding (AnnotatedMember member target) :=
  ((IdRef.holding .annotated).pair (DataRef.holding .annotated)).part
    (fun entry => (entry.member, entry.annotations)) fun _ part => ⟨part.1, part.2⟩

theorem visit_holding (visitor : Visitor σ) (entry : AnnotatedMember member target) :
    holding.visit visitor entry = entry.visit visitor := by
  simp only [holding, Holding.visit_part, Holding.visit_pair, IdRef.visit_holding,
    DataRef.visit_holding, bind_assoc, pure_bind]
  rfl

end AnnotatedMember

namespace AnnotationsDirectory

def holding : Holding AnnotationsDirectory :=
  ((DataRef.holding .annotated).pair <| AnnotatedMember.holding.list.pair <|
    AnnotatedMember.holding.list.pair AnnotatedMember.holding.list).part
    (fun directory =>
      (directory.classSet, directory.fields, directory.methods, directory.parameters))
    fun _ part => ⟨part.1, part.2.1, part.2.2.1, part.2.2.2⟩

theorem visit_holding (visitor : Visitor σ) (directory : AnnotationsDirectory) :
    holding.visit visitor directory = DexImage.visit visitor directory := by
  simp only [holding, Holding.visit_part, Holding.visit_pair, Holding.visit_list,
    DataRef.visit_holding, funext (AnnotatedMember.visit_holding _), bind_assoc, pure_bind]
  rfl

end AnnotationsDirectory

/-- The places for references in an item. -/
def itemHolding : (kind : PoolKind) → Holding (Item kind)
  | .stringId => Holding.bare
  | .typeId => TypeId.holding
  | .protoId => ProtoId.holding
  | .fieldId => FieldId.holding
  | .methodId => MethodId.holding
  | .classDef => ClassDef.holding
  | .typeList => TypeList.holding
  | .annotationSetRefList => AnnotationSetRefList.holding
  | .annotationSet => AnnotationSet.holding
  | .classData => ClassData.holding
  | .code => CodeItem.holding
  | .debugInfo => DebugInfo.holding
  | .annotationItem => AnnotationItem.holding
  | .encodedArray => EncodedArray.holding
  | .annotationsDirectory => AnnotationsDirectory.holding

/-- Visiting an item is a pass over its places. -/
theorem visit_itemHolding (visitor : Visitor σ) {kind : PoolKind} (item : Item kind) :
    (itemHolding kind).visit visitor item = visit visitor item := by
  cases kind with
  | stringId => exact Places.visit_bare rfl (fun _ => rfl) visitor
  | typeId => exact TypeId.visit_holding visitor item
  | protoId => exact ProtoId.visit_holding visitor item
  | fieldId => exact FieldId.visit_holding visitor item
  | methodId => exact MethodId.visit_holding visitor item
  | classDef => exact ClassDef.visit_holding visitor item
  | typeList => exact TypeList.visit_holding visitor item
  | annotationSetRefList => exact AnnotationSetRefList.visit_holding visitor item
  | annotationSet => exact AnnotationSet.visit_holding visitor item
  | classData => exact ClassData.visit_holding visitor item
  | code => exact CodeItem.visit_holding visitor item
  | debugInfo => exact DebugInfo.visit_holding visitor item
  | annotationItem => exact AnnotationItem.visit_holding visitor item
  | encodedArray => exact EncodedArray.visit_holding visitor item
  | annotationsDirectory => exact AnnotationsDirectory.visit_holding visitor item

end DexImage
