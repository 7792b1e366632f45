import DexImage.Proofs.Loading.Known
import DexImage.Proofs.Reached.Loading
/-! # Strictness only rejects

A strict reader checks more than a lenient one and does nothing else with what it has checked. Where a strict step
succeeds, the lenient one yields the same value and goes on from a state that differs in its strictness alone
(`Reading.Admits`); hence whatever can be read under some options is read as the same image under weaker ones
(`Image.read_of_le`).
-/

namespace DexImage

namespace Reading

variable {σ α β : Type}

/-- Whether a step yields what another one yields, from related states into related states, wherever the other one
succeeds. -/
def Admits (related : σ → σ → Prop) (strict lenient : Reading σ α) : Prop :=
  ∀ ⦃state state' value after⦄, related state state' → strict state = (.ok value, after) →
    ∃ after', lenient state' = (.ok value, after') ∧ related after after'

namespace Admits

variable {related : σ → σ → Prop} {strict lenient : Reading σ α}

/-- A step admits what it yields itself. -/
protected theorem refl (step : Reading σ α) : Admits Eq step step := by
  rintro state _ value after rfl run
  exact ⟨after, run, rfl⟩

protected theorem pure {value : α} : Admits related (pure value : Reading σ α) (pure value) := by
  intro state state' other after like run
  obtain ⟨rfl, rfl⟩ := pure_eq_ok.mp run
  exact ⟨state', rfl, like⟩

protected theorem bind {next next' : α → Reading σ β} (first : Admits related strict lenient)
    (rest : ∀ value, Admits related (next value) (next' value)) :
    Admits related (strict >>= next) (lenient >>= next') := by
  intro state state' value after like run
  obtain ⟨middle, between, run, last⟩ := bind_eq_ok.mp run
  obtain ⟨between', run', like⟩ := first like run
  obtain ⟨after', last', like⟩ := rest middle like last
  exact ⟨after', bind_eq_ok.mpr ⟨middle, between', run', last'⟩, like⟩

/-- A step that fails admits nothing, so that anything can stand for it. -/
theorem fail_bind {cause : Cause} {next : β → Reading σ α} : Admits related (Reading.fail cause >>= next) lenient := by
  rintro state state' value after like ⟨⟩

protected theorem fail {cause : Cause} : Admits related (Reading.fail cause) lenient := by
  rintro state state' value after like ⟨⟩

protected theorem within (admits : Admits related strict lenient) (site : Site) :
    Admits related (within site strict) (within site lenient) := by
  intro state state' value after like run
  obtain ⟨after', run', like⟩ := admits like (within_eq_ok.mp run)
  exact ⟨after', within_ok run', like⟩

protected theorem ite {condition : Prop} [Decidable condition] {strict' lenient' : Reading σ α}
    (yes : Admits related strict lenient) (no : Admits related strict' lenient') :
    Admits related (if condition then strict else strict') (if condition then lenient else lenient') := by
  split_ifs
  · exact yes
  · exact no

/-- A check that only the strict step makes. -/
theorem check {condition : Prop} [Decidable condition] {cause : Cause} {next : β → Reading σ α}
    (passed : Admits related strict lenient) :
    Admits related (if condition then Reading.fail cause >>= next else strict) lenient := by
  split_ifs
  · exact fail_bind
  · exact passed

protected theorem map (admits : Admits related strict lenient) (edit : α → β) :
    Admits related (edit <$> strict) (edit <$> lenient) := by
  rw [← bind_pure_comp, ← bind_pure_comp]
  exact admits.bind fun _ => .pure

theorem collect {count : Nat} {step step' : Nat → Reading σ α}
    (each : ∀ index, Admits related (step index) (step' index)) :
    Admits related (Reading.collect count step) (Reading.collect count step') := by
  have go (count index : Nat) (found : List α) :
      Admits related (collect.go step count index found) (collect.go step' count index found) := by
    induction count generalizing index found with
    | zero => exact .pure
    | succ count ih => exact (each index).bind fun value => ih (index + 1) (value :: found)
  exact go count 0 []

end Admits
end Reading

open Reading

/-- What a strict read of a header accepts is read without the checks as the same header. -/
theorem Header.admits_decode : Admits Eq (decode true) (decode false) := by
  have surplus (header : Header) : Admits Eq (decodeSurplus true header) (decodeSurplus false header) := by
    rw [decodeSurplus, decodeSurplus, if_neg Bool.false_ne_true]
    exact .ite (.check (.refl _)) (.refl _)
  have fields (version : Nat) (magic : Vector UInt8 8) : Admits Eq (decodeFields magic >>= decodeLater true version)
      (decodeFields magic >>= decodeLater false version) := by
    refine .bind (.refl _) fun header => .ite .fail_bind (.ite ?_ (.bind (.refl _) fun container => surplus _))
    exact .bind (.refl _) fun size => .bind (.refl _) fun headerOffset => .bind (.refl _) fun container => surplus _
  refine .bind (.refl _) fun cursor => .ite .fail_bind (.bind (.refl _) fun magic => ?_)
  split
  · rename_i version spelled
    have unchecked : ¬ (false && (version < leastVersion || greatestVersion < version)) = true := Bool.false_ne_true
    rw [if_neg unchecked]
    refine .check (.ite ?_ (.ite ?_ .fail_bind))
    all_goals exact .bind (.refl _) fun _ => fields version magic
  · exact .fail

/-- Whether a loader differs from another one in its strictness alone, and is not stricter. -/
structure Loader.Relaxed (strict lenient : Loader) : Prop where
  cursor : lenient.cursor = strict.cursor
  strictness : lenient.strict = true → strict.strict = true
  pools : lenient.pools = strict.pools
  loaded : lenient.loaded = strict.loaded

namespace Loading

/-- Whether a step of a strict loader that succeeds does the same in a lenient one. -/
abbrev Lenient {α : Type} (step : Loading α) : Prop := Admits Loader.Relaxed step step

namespace Lenient

variable {α β : Type} {kind : PoolKind} {step : Loading (Item kind)}

theorem reads (step : Decoder α) : Lenient (ofDecoder step) := by
  rintro ⟨cursor, strict, pools, loaded⟩ ⟨_, strict', _, _⟩ value after ⟨rfl, weaker, rfl, rfl⟩ run
  obtain ⟨decoded, rfl⟩ := Prod.mk.inj run
  exact ⟨_, Prod.ext decoded rfl, rfl, weaker, rfl, rfl⟩

/-- A step that looks at what has been loaded, and at nothing else of the loader. -/
theorem loaded_bind {next : Loader → Loading β}
    (same : ∀ one other : Loader, one.loaded = other.loaded → next one = next other)
    (rest : ∀ loader, Lenient (next loader)) : Lenient (get >>= next) := by
  intro strict lenient value after like run
  rw [Reading.bind_ok (get_run strict)] at run
  rw [Reading.bind_ok (get_run lenient), same _ _ like.loaded]
  exact rest strict like run

/-- A check that a lenient loader does not make. -/
theorem strict_bind {condition : Bool} {cause : Cause} {rest : Loading β} (passed : Lenient rest) :
    Lenient (get >>= fun loader : Loader =>
      if (loader.strict && condition) = true then Reading.fail cause >>= fun _ : Unit => rest else rest) := by
  intro strict lenient value after like run
  rw [Reading.bind_ok (get_run strict)] at run
  rw [Reading.bind_ok (get_run lenient)]
  split_ifs at run with refused
  · cases run
  · rw [if_neg fun refused' => refused ?_]
    · exact passed like run
    · rw [Bool.and_eq_true] at refused' ⊢
      exact ⟨like.strictness refused'.1, refused'.2⟩

theorem append (kind : PoolKind) (item : Item kind) : Lenient (append kind item) := by
  rintro ⟨cursor, strict, pools, loaded⟩ ⟨_, strict', _, _⟩ value after ⟨rfl, weaker, rfl, rfl⟩ run
  obtain ⟨same, rfl⟩ := Prod.mk.inj run
  exact ⟨_, Prod.ext same rfl, rfl, weaker, rfl, rfl⟩

protected theorem detour {step : Loading α} (lenient : Lenient step) (site : Site) (offset : Nat) :
    Lenient (detour site offset step) :=
  .bind (reads _) fun _ => .bind (.within (reads _) site) fun _ => .bind lenient fun _ => .bind (reads _) fun _ => .pure

protected theorem load (lenient : Lenient step) (offset : UInt32) : Lenient (load kind step offset) := by
  refine loaded_bind (fun one other same => by simp only [Loader.loaded?, same]) fun loader => ?_
  split
  · exact .pure
  · refine .bind (Lenient.detour (lenient.within _) _ _) fun item => .bind (append kind item) fun index =>
      .bind ?_ fun _ => .pure
    rintro strict lenient value after like run
    obtain rfl := Reading.modify_eq_ok.mp run
    exact ⟨_, Reading.modify_eq_ok.mpr rfl, like.cursor, like.strictness, like.pools,
      congrArg (List.cons _) like.loaded⟩

theorem refAt (lenient : Lenient step) (offset : UInt32) : Lenient (refAt kind step offset) :=
  .ite .pure (.bind (lenient.load offset) fun _ => .pure)

theorem ref (lenient : Lenient step) : Lenient (ref kind step) := .bind (reads _) fun offset => lenient.refAt offset

end Lenient

open Lenient

theorem lenient_protoId : Lenient ProtoId.load :=
  .bind (reads _) fun _ => .bind (reads _) fun _ => .bind (Lenient.ref (reads _)) fun _ => .pure

theorem lenient_code : Lenient CodeItem.load := by
  refine .bind (reads _) fun start => .bind (reads _) fun registers => .bind (reads _) fun ins => ?_
  refine .bind (reads _) fun outs => .bind (reads _) fun triesSize => Lenient.strict_bind ?_
  refine .bind (reads _) fun debugOffset => .bind (reads _) fun unitCount => .bind (reads _) fun units => ?_
  have last (tryTable : Option TryTable) : Lenient (do
      let debugInfo ← Reading.within (.itemAt .code start)
        (Loading.refAt .debugInfo (ofDecoder DebugInfo.decode) debugOffset)
      return CodeItem.mk registers ins outs debugInfo (.ofUnits units) tryTable) :=
    .bind (.within (Lenient.refAt (reads _) debugOffset) _) fun _ => .pure
  have table := Admits.map (Admits.within (reads (TryTable.decode triesSize)) (.tryTable start)) some
  refine .ite (.bind (.map (reads _) _) fun _ => ?_) ?_
  all_goals exact .ite (.bind table last) (.bind .pure last)

theorem lenient_methods (noun : String) (count : UInt32) : Lenient (DefinedMethod.loadList noun count) := by
  refine .bind (.collect fun index => ?_) fun _ => .pure
  refine .bind (reads _) fun _ => .bind (reads _) fun _ => .bind (reads _) fun offset => ?_
  exact .bind (.within (Lenient.refAt lenient_code offset) _) fun _ => .pure

theorem lenient_classData : Lenient ClassData.load := by
  refine .bind (reads _) fun _ => .bind (reads _) fun _ => .bind (reads _) fun _ => .bind (reads _) fun _ => ?_
  refine .bind (reads _) fun _ => .bind (reads _) fun _ => ?_
  exact .bind (lenient_methods _ _) fun _ => .bind (lenient_methods _ _) fun _ => .pure

theorem lenient_loadOffsets {kind : PoolKind} {step : Loading (Item kind)} (lenient : Lenient step) (noun : String) :
    Lenient (loadOffsets kind step noun) :=
  .bind (reads _) fun _ => .collect fun _ => .within (Lenient.ref lenient) _

theorem lenient_annotationSet : Lenient AnnotationSet.load :=
  .bind (lenient_loadOffsets (reads _) _) fun _ => .pure

theorem lenient_annotationSetRefList : Lenient AnnotationSetRefList.load :=
  .bind (lenient_loadOffsets lenient_annotationSet _) fun _ => .pure

theorem lenient_annotatedMembers {member target : PoolKind} {step : Loading (Item target)} (lenient : Lenient step)
    (noun : String) (count : UInt32) : Lenient (@AnnotatedMember.loadList member target step noun count) :=
  .collect fun _ => .bind (reads _) fun _ => .bind (.within (Lenient.ref lenient) _) fun _ => .pure

theorem lenient_annotationsDirectory : Lenient AnnotationsDirectory.load := by
  refine .bind (.within (Lenient.ref lenient_annotationSet) _) fun _ => ?_
  refine .bind (reads _) fun _ => .bind (reads _) fun _ => .bind (reads _) fun _ => ?_
  refine .bind (lenient_annotatedMembers lenient_annotationSet _ _) fun _ => ?_
  refine .bind (lenient_annotatedMembers lenient_annotationSet _ _) fun _ => ?_
  exact .bind (lenient_annotatedMembers lenient_annotationSetRefList _ _) fun _ => .pure

theorem lenient_classDef : Lenient ClassDef.load := by
  refine .bind (reads _) fun _ => .bind (reads _) fun _ => .bind (reads _) fun _ => ?_
  refine .bind (Lenient.ref (reads _)) fun _ => .bind (reads _) fun _ => ?_
  refine .bind (Lenient.ref lenient_annotationsDirectory) fun _ => .bind (Lenient.ref lenient_classData) fun _ => ?_
  exact .bind (Lenient.ref (reads _)) fun _ => .pure

/-- The items of every kind are loaded by a lenient loader as they are by a strict one. -/
theorem lenient_loadItem (kind : PoolKind) : Lenient (loadItem kind) := by
  cases kind with
  | stringId => exact reads StringData.decode
  | typeId => exact reads TypeId.decode
  | protoId => exact lenient_protoId
  | fieldId => exact reads FieldId.decode
  | methodId => exact reads MethodId.decode
  | classDef => exact lenient_classDef
  | typeList => exact reads TypeList.decode
  | annotationSetRefList => exact lenient_annotationSetRefList
  | annotationSet => exact lenient_annotationSet
  | classData => exact lenient_classData
  | code => exact lenient_code
  | debugInfo => exact reads DebugInfo.decode
  | annotationItem => exact reads AnnotationItem.decode
  | encodedArray => exact reads EncodedArray.decode
  | annotationsDirectory => exact lenient_annotationsDirectory

end Loading

namespace Image

open Loading Lenient

theorem lenient_loadStrings (span : Span) : Lenient (loadStrings span) := by
  refine .ite .pure (.bind (.within (reads _) _) fun _ => .map (.collect fun index => ?_) _)
  refine .bind (reads _) fun offset => .bind (Lenient.detour (.within (reads _) _) _ _) fun string => ?_
  exact .map (append _ _) _

theorem lenient_loadTable (kind : PoolKind) (span : Span) : Lenient (loadTable kind span) := by
  refine .ite .pure (.bind (.within (reads _) _) fun _ => .map (.collect fun index => ?_) _)
  exact .bind (.within (lenient_loadItem kind) _) fun item => .map (append _ _) _

theorem lenient_loadTables (header : Header) : Lenient (loadTables header) := by
  refine .bind (reads _) fun _ => .bind (lenient_loadStrings _) fun _ => .bind (lenient_loadTable _ _) fun _ => ?_
  refine .bind (lenient_loadTable _ _) fun _ => .bind (lenient_loadTable _ _) fun _ => ?_
  exact .bind (lenient_loadTable _ _) fun _ => .bind (lenient_loadTable _ _) fun _ => .pure

end Image

/-- Options are ordered by the checks that they ask for. -/
instance : LE ReadOptions where
  le lenient strict := (lenient.verifyChecksum = true → strict.verifyChecksum = true) ∧
    (lenient.strictHeader = true → strict.strictHeader = true) ∧
    (lenient.strictItems = true → strict.strictItems = true)

namespace Image

/-- What is read under some options is read as the same image under weaker ones. -/
theorem read_of_le {bytes : Bytes} {strict lenient : ReadOptions} {image : Image} (weaker : lenient ≤ strict)
    (success : read bytes strict = .ok image) : read bytes lenient = .ok image := by
  obtain ⟨checksum, headers, items⟩ := weaker
  obtain ⟨cursor, after, decoded, verified, run, pools⟩ := read_eq_ok_iff.mp success
  have decoded' : Header.decode lenient.strictHeader (.ofBytes bytes) = (.ok image.header, cursor) := by
    by_cases same : lenient.strictHeader = strict.strictHeader
    · rw [same, decoded]
    · obtain ⟨refused, accepted⟩ : strict.strictHeader = true ∧ lenient.strictHeader = false := by
        revert same headers
        cases strict.strictHeader <;> cases lenient.strictHeader <;> decide
      rw [refused] at decoded
      obtain ⟨_, decoded, rfl⟩ := Header.admits_decode rfl decoded
      rw [accepted, decoded]
  have start : Loader.Relaxed (.ofCursor cursor strict.strictItems) (.ofCursor cursor lenient.strictItems) :=
    ⟨rfl, items, rfl, rfl⟩
  obtain ⟨after', run', like⟩ := lenient_loadTables image.header start run
  exact read_eq_ok_iff.mpr ⟨cursor, after', decoded', fun asked => verified (checksum asked),
    run', like.pools.trans pools⟩

/-- An image of version 35 with one class, whose class data lists one method with code. -/
def methodBytes : Bytes :=
  let definition := [0, 0, 0, 0, 1, 0, 0, 0, 0xff, 0xff, 0xff, 0xff, 0, 0, 0, 0, 0xff, 0xff, 0xff, 0xff, 0, 0, 0, 0,
    0x90, 0, 0, 0, 0, 0, 0, 0]
  let classData := [0, 0, 0, 1, 0, 1, 0x98, 1]
  let code := [2, 0, 1, 0, 0, 0, 0, 0, 0, 0, 0, 0, 1, 0, 0, 0, 0x0e, 0]
  (Header.magicOf 0x30 0x33 0x35).toList ++ [0xd6, 0x0b, 0x85, 0xc3] ++ Bytes.zeros 20 ++ [0xaa, 0, 0, 0, 0x70, 0, 0, 0]
    ++ Bytes.ofUInt32 Header.littleEndianTag ++ Bytes.zeros 52 ++ [1, 0, 0, 0, 0x70, 0, 0, 0] ++ Bytes.zeros 8
    ++ definition ++ classData ++ code

/-- Code that passes every check. -/
theorem read_of_le_methodBytes : ReadOptions.lenient ≤ ⟨true, true, true⟩ ∧
    ∃ image, read methodBytes ⟨true, true, true⟩ = .ok image ∧ image.pools.codes.size = 1 ∧
      read methodBytes .lenient = .ok image := by
  have weaker : ReadOptions.lenient ≤ ⟨true, true, true⟩ := ⟨fun _ => rfl, fun _ => rfl, fun _ => rfl⟩
  have success : (read methodBytes ⟨true, true, true⟩).toOption.isSome = true := by decide +kernel
  have codes : (read methodBytes ⟨true, true, true⟩).toOption.map (·.pools.codes.size) = some 1 := by decide +kernel
  obtain ⟨image, run⟩ := Result.exists_of_toOption success
  rw [run] at codes
  exact ⟨weaker, image, run, Option.some.inj codes, read_of_le weaker run⟩

end Image
end DexImage
