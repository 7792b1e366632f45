import DexImage.Proofs.Copying.Classes
import DexImage.Proofs.Layout.Resolution
import DexImage.Proofs.Loading.Items
import DexImage.Proofs.Loading.Known
/-! # Loading by offset is coherent

Whatever items are loaded one after the other, and whichever of the loads fail, every item that has been appended was
loaded at an offset of its own, and its references lead to items that have been loaded where the references say
(`Loading.load_coherent`). Hence no reference of an image that has been read leads nowhere.
-/

namespace DexImage

open Loading

section Items

variable {kinds : PoolKind → Prop} {depth : Nat}

theorem coheres_ofDecoder {kind : PoolKind} {step : Decoder (Item kind)}
    (dataless : ∀ (item : Item kind) find other, locate find item = locate other item) :
    CoheresItem kinds kind (ofDecoder step) :=
  Coheres.read.weaken fun _ item _ => known_of_dataless dataless item

theorem coheres_typeList : CoheresItem kinds .typeList (loadItem .typeList) :=
  @coheres_ofDecoder kinds .typeList TypeList.decode fun _ _ _ => rfl

theorem coheres_debugInfo : CoheresItem kinds .debugInfo (loadItem .debugInfo) :=
  @coheres_ofDecoder kinds .debugInfo DebugInfo.decode fun _ _ _ => rfl

theorem coheres_annotationItem : CoheresItem kinds .annotationItem (loadItem .annotationItem) :=
  @coheres_ofDecoder kinds .annotationItem AnnotationItem.decode fun _ _ _ => rfl

theorem coheres_encodedArray : CoheresItem kinds .encodedArray (loadItem .encodedArray) :=
  @coheres_ofDecoder kinds .encodedArray EncodedArray.decode fun _ _ _ => rfl

/-- Code whose debug info is known. -/
theorem CodeItem.known {loaded : Loaded} {code : CodeItem} (debugInfo : code.debugInfo.Known loaded) :
    @Known loaded .code code := by
  refine List.forall_mem_append.mpr ⟨debugInfo.each .debug, fun one member => ?_⟩
  cases one with
  | id | operand => trivial
  | data target usage state =>
    cases state with
    | none => exact .inl rfl
    | some state => exact absurd member (code.dataless target usage state)

/-- What is known of the references in the entries of a list is known of the list. -/
theorem known_list_mono {α : Type} {holding : Holding α} {loaded longer : Loaded} {entries : List α}
    (subset : loaded ⊆ longer) (known : holding.list.Each (Held.Known loaded) entries) :
    holding.list.Each (Held.Known longer) entries :=
  fun one member => (known one member).mono subset

variable (data : ∀ kind : PoolKind, kind.toSection.isIdTable = false → kinds kind)
include data

theorem coheres_protoId : CoheresItem kinds .protoId (loadItem .protoId) := by
  apply Coheres.read_bind
  intro shorty
  apply Coheres.read_bind
  intro returnType
  apply (Coheres.ref (data _ rfl) coheres_typeList (by decide)).ref_bind
  intro parameters
  refine .pure fun loaded known => ?_
  exact List.forall_mem_append.mpr ⟨IdRef.known_each _ shorty,
    List.forall_mem_append.mpr ⟨IdRef.known_each _ returnType, known.each .idItem⟩⟩

theorem coheres_code : CoheresItem kinds .code (loadItem .code) := by
  apply Coheres.read_bind
  intro start
  apply Coheres.read_bind
  intro registers
  apply Coheres.read_bind
  intro ins
  apply Coheres.read_bind
  intro outs
  apply Coheres.read_bind
  intro triesSize
  apply Coheres.skip .get
  intro loader
  apply Coheres.ite .fail_bind
  apply Coheres.read_bind
  intro debugOffset
  apply Coheres.read_bind
  intro unitCount
  apply Coheres.read_bind
  intro units
  have last (tryTable : Option TryTable) : CoheresItem kinds .code (do
      let debugInfo ← Reading.within (.itemAt .code start)
        (Loading.refAt .debugInfo (ofDecoder DebugInfo.decode) debugOffset)
      return CodeItem.mk registers ins outs debugInfo (.ofUnits units) tryTable) := by
    apply ((Coheres.refAt (data _ rfl) coheres_debugInfo (by decide) debugOffset).within _).ref_bind
    intro debugInfo
    exact .pure fun loaded known => CodeItem.known known
  have table : Coheres kinds PoolKind.code.depth
      (some <$> Reading.within (.tryTable start) (ofDecoder (TryTable.decode triesSize))) fun _ _ => True :=
    .map (Coheres.read.within _) fun _ => id
  refine .ite (.skip (.map .read fun _ => id) fun _ => ?_) ?_
  all_goals exact .ite (table.skip last) ((Coheres.pure fun _ => trivial).skip last)

theorem coheres_methods (noun : String) (count : UInt32) : Coheres kinds 2 (DefinedMethod.loadList noun count)
    fun loaded entries => DefinedMethod.holding.list.Each (Held.Known loaded) entries := by
  have each (index : Nat) : Coheres kinds 2 (do
      let difference ← ofDecoder Decoder.uleb128
      let access ← ofDecoder Decoder.uleb128
      let offset ← ofDecoder Decoder.uleb128
      let code ← Reading.within (.nth noun index) (Loading.refAt .code CodeItem.load offset)
      return (difference, access, code)) fun loaded triple => triple.2.2.Known loaded := by
    apply Coheres.read_bind
    intro difference
    apply Coheres.read_bind
    intro access
    apply Coheres.read_bind
    intro offset
    apply ((Coheres.refAt (data _ rfl) (coheres_code data) (by decide) offset).within _).ref_bind
    intro code
    exact .pure fun loaded known => known
  apply (Coheres.collect each fun subset known => known.mono subset).bind
    fun subset known triple member => (known triple member).mono subset
  intro triples
  refine .pure fun loaded known => ?_
  refine Places.Each.list fun entry member => ?_
  obtain ⟨triple, listed, same⟩ := DefinedMethod.exists_of_mem member
  have code : entry.code.Known loaded := same ▸ known triple listed
  exact List.forall_mem_append.mpr ⟨IdRef.known_each _ entry.method, code.each .code⟩

theorem coheres_classData : CoheresItem kinds .classData (loadItem .classData) := by
  apply Coheres.read_bind
  intro staticCount
  apply Coheres.read_bind
  intro instanceCount
  apply Coheres.read_bind
  intro directCount
  apply Coheres.read_bind
  intro virtualCount
  apply Coheres.read_bind
  intro staticFields
  apply Coheres.read_bind
  intro instanceFields
  apply (coheres_methods data _ _).bind known_list_mono
  intro directMethods
  apply (coheres_methods data _ _).bind known_list_mono
  intro virtualMethods
  refine .pure fun loaded virtual direct => ?_
  have fields (entries : List DefinedField) : DefinedField.holding.list.Each (Held.Known loaded) entries :=
    .list fun entry _ => IdRef.known_each _ entry.field
  exact List.forall_mem_append.mpr ⟨fields staticFields, List.forall_mem_append.mpr ⟨fields instanceFields,
    List.forall_mem_append.mpr ⟨direct, virtual⟩⟩⟩

omit data in
/-- A counted list of references. -/
theorem coheres_loadOffsets {kind : PoolKind} {step : Loading (Item kind)} (tracked : kinds kind)
    (items : CoheresItem kinds kind step) (deep : kind.depth < depth) (noun : String) (usage : Usage) :
    Coheres kinds depth (loadOffsets kind step noun)
      fun loaded refs => (DataRef.holding usage).list.Each (Held.Known loaded) refs := by
  apply Coheres.read_bind
  intro count
  have each (index : Nat) := (Coheres.ref tracked items deep).within (.nth noun index)
  exact (Coheres.collect each fun subset known => known.mono subset).weaken
    fun loaded refs known => .list fun ref member => (known ref member).each usage

theorem coheres_annotationSet : CoheresItem kinds .annotationSet (loadItem .annotationSet) := by
  apply (coheres_loadOffsets (data _ rfl) coheres_annotationItem (by decide) _ .annotated).bind known_list_mono
  intro items
  exact .pure fun loaded known => known

theorem coheres_annotationSetRefList : CoheresItem kinds .annotationSetRefList (loadItem .annotationSetRefList) := by
  apply (coheres_loadOffsets (data _ rfl) (coheres_annotationSet data) (by decide) _ .annotated).bind known_list_mono
  intro sets
  exact .pure fun loaded known => known

omit data in
theorem coheres_annotatedMembers {member target : PoolKind} {step : Loading (Item target)} (tracked : kinds target)
    (items : CoheresItem kinds target step) (deep : target.depth < depth) (noun : String) (count : UInt32) :
    Coheres kinds depth (@AnnotatedMember.loadList member target step noun count)
      fun loaded entries => AnnotatedMember.holding.list.Each (Held.Known loaded) entries := by
  have each (index : Nat) : Coheres kinds depth (do
      let member ← ofDecoder Decoder.wordIndex
      return AnnotatedMember.mk member (← Reading.within (.nth noun index) (Loading.ref target step)))
      fun loaded (entry : AnnotatedMember member target) => entry.annotations.Known loaded := by
    apply Coheres.read_bind
    intro index
    apply ((Coheres.ref tracked items deep).within _).ref_bind
    intro annotations
    exact .pure fun loaded known => known
  refine (Coheres.collect each fun subset known => known.mono subset).weaken fun loaded entries known => ?_
  exact .list fun entry member => List.forall_mem_append.mpr ⟨IdRef.known_each .annotated entry.member,
    (known entry member).each .annotated⟩

theorem coheres_annotationsDirectory : CoheresItem kinds .annotationsDirectory (loadItem .annotationsDirectory) := by
  have set := data .annotationSet rfl
  apply ((Coheres.ref set (coheres_annotationSet data) (by decide)).within _).ref_bind
  intro classSet
  apply Coheres.read_bind
  intro fieldCount
  apply Coheres.read_bind
  intro methodCount
  apply Coheres.read_bind
  intro parameterCount
  apply (coheres_annotatedMembers set (coheres_annotationSet data) (by decide) _ _).bind known_list_mono
  intro fields
  apply (coheres_annotatedMembers set (coheres_annotationSet data) (by decide) _ _).bind known_list_mono
  intro methods
  apply (coheres_annotatedMembers (data _ rfl) (coheres_annotationSetRefList data) (by decide) _ _).bind known_list_mono
  intro parameters
  refine .pure fun loaded inParameters inMethods inFields inClassSet => ?_
  exact List.forall_mem_append.mpr ⟨inClassSet.each .annotated, List.forall_mem_append.mpr ⟨inFields,
    List.forall_mem_append.mpr ⟨inMethods, inParameters⟩⟩⟩

theorem coheres_classDef : CoheresItem kinds .classDef (loadItem .classDef) := by
  apply Coheres.read_bind
  intro type
  apply Coheres.read_bind
  intro access
  apply Coheres.read_bind
  intro superclass
  apply (Coheres.ref (data _ rfl) coheres_typeList (by decide)).ref_bind
  intro interfaces
  apply Coheres.read_bind
  intro sourceFile
  apply (Coheres.ref (data _ rfl) (coheres_annotationsDirectory data) (by decide)).ref_bind
  intro annotations
  apply (Coheres.ref (data _ rfl) (coheres_classData data) (by decide)).ref_bind
  intro classData
  apply (Coheres.ref (data _ rfl) coheres_encodedArray (by decide)).ref_bind
  intro staticValues
  refine .pure fun loaded inValues inData inAnnotations inInterfaces => ?_
  refine List.forall_mem_append.mpr ⟨IdRef.known_each _ type, ?_⟩
  refine List.forall_mem_append.mpr ⟨IdRef.known_each _ (IdRef.ofRaw superclass), ?_⟩
  refine List.forall_mem_append.mpr ⟨inInterfaces.each .definition, ?_⟩
  refine List.forall_mem_append.mpr ⟨IdRef.known_each _ (IdRef.ofRaw sourceFile), ?_⟩
  refine List.forall_mem_append.mpr ⟨inAnnotations.each .annotated, ?_⟩
  exact List.forall_mem_append.mpr ⟨inData.each .definition, inValues.each .staticValue⟩

/-- The items of every kind are loaded together with what they refer to. -/
theorem coheres_loadItem {kind : PoolKind} : CoheresItem kinds kind (loadItem kind) := by
  cases kind with
  | stringId => exact @coheres_ofDecoder kinds .stringId StringData.decode fun _ _ _ => rfl
  | typeId => exact @coheres_ofDecoder kinds .typeId TypeId.decode fun _ _ _ => rfl
  | protoId => exact coheres_protoId data
  | fieldId => exact @coheres_ofDecoder kinds .fieldId FieldId.decode fun _ _ _ => rfl
  | methodId => exact @coheres_ofDecoder kinds .methodId MethodId.decode fun _ _ _ => rfl
  | classDef => exact coheres_classDef data
  | typeList => exact coheres_typeList
  | annotationSetRefList => exact coheres_annotationSetRefList data
  | annotationSet => exact coheres_annotationSet data
  | classData => exact coheres_classData data
  | code => exact coheres_code data
  | debugInfo => exact coheres_debugInfo
  | annotationItem => exact coheres_annotationItem
  | encodedArray => exact coheres_encodedArray
  | annotationsDirectory => exact coheres_annotationsDirectory data

end Items

namespace Image

/-- The kinds of the items that are loaded by offset when an image is read. -/
abbrev IsData (kind : PoolKind) : Prop := kind.toSection.isIdTable = false

variable {depth : Nat}

/-- Entries that are read and appended one after the other. -/
theorem coheres_entries {kind : PoolKind} (table : kind.toSection.isIdTable = true) {step : Nat → Loading (Item kind)}
    (each : ∀ index, Coheres IsData depth (step index) fun loaded item => Known loaded item) (count : Nat) :
    Coheres IsData depth (discard <| Reading.collect count fun index => do
      let item ← step index
      discard (Loading.append kind item)) fun _ _ => True := by
  have untracked : ¬ IsData kind := by
    rw [IsData, table]
    decide
  have entry (index : Nat) := Coheres.append untracked (each index)
  have all : Coheres IsData depth (Reading.collect count fun index => do
      let item ← step index
      discard (Loading.append kind item)) fun _ _ => True :=
    (Coheres.collect entry fun _ holds => holds).weaken fun _ _ _ => trivial
  exact all.map fun _ holds => holds

theorem coheres_loadStrings (span : Span) : Coheres IsData 5 (loadStrings span) fun _ _ => True := by
  apply Coheres.ite (.pure fun _ => trivial)
  apply Coheres.skip (Coheres.read.within _)
  intro _
  have string : CoheresItem IsData .stringId (ofDecoder StringData.decode) :=
    @coheres_ofDecoder IsData .stringId StringData.decode fun _ _ _ => rfl
  have each (index : Nat) : Coheres IsData 5 (do
      let offset ← ofDecoder Decoder.u4
      detour (.entry .stringId index) offset.toNat
        (Reading.within (.itemAt .stringData offset.toNat) (ofDecoder StringData.decode)))
      fun loaded item => @Known loaded .stringId item := by
    apply Coheres.read_bind
    intro offset
    exact ((string.within _).detour
      (fun subset known one member => (known one member).mono subset) _ _).mono (by decide)
  have entries := @coheres_entries 5 .stringId rfl _ each span.size.toNat
  simp only [bind_assoc] at entries
  exact entries

theorem coheres_loadTable {kind : PoolKind} (table : kind.toSection.isIdTable = true) (span : Span) :
    Coheres IsData 5 (loadTable kind span) fun _ _ => True := by
  apply Coheres.ite (.pure fun _ => trivial)
  apply Coheres.skip (Coheres.read.within _)
  intro _
  have item : CoheresItem IsData kind (loadItem kind) := coheres_loadItem fun _ => id
  exact coheres_entries table (fun index => (item.within _).mono (by cases kind <;> decide)) _

theorem coheres_loadTables (header : Header) : Coheres IsData 5 (loadTables header) fun _ _ => True := by
  apply Coheres.read_bind
  intro map
  apply (coheres_loadStrings _).skip
  intro _
  apply (@coheres_loadTable .typeId rfl _).skip
  intro _
  apply (@coheres_loadTable .protoId rfl _).skip
  intro _
  apply (@coheres_loadTable .fieldId rfl _).skip
  intro _
  apply (@coheres_loadTable .methodId rfl _).skip
  intro _
  apply (@coheres_loadTable .classDef rfl _).skip
  intro _
  exact .pure fun _ => trivial

end Image

/-- Seeking ends at the offset, or fails. -/
theorem Decoder.position_of_seek {cursor : Cursor} {offset : Nat} {value : Unit}
    (success : (Decoder.seek offset cursor).1 = .ok value) : (Decoder.seek offset cursor).2.position = offset := by
  by_cases inside : offset ≤ cursor.bytes.size
  · rw [Decoder.seek_ok inside]
  · change ((if cursor.bytes.size < offset then _ else _ : Decoder Unit) cursor).1 = _ at success
    rw [if_pos (Nat.lt_of_not_le inside)] at success
    cases success

namespace Loading

/-- A detour that succeeds ends where it began. -/
theorem detour_position {α : Type} {site : Site} {offset : Nat} {step : Loading α} {loader after : Loader} {value : α}
    (run : detour site offset step loader = (.ok value, after)) : after.cursor.position = loader.cursor.position := by
  obtain ⟨position, asked, first, run⟩ := Reading.bind_eq_ok.mp run
  obtain ⟨_, start, -, run⟩ := Reading.bind_eq_ok.mp run
  obtain ⟨_, stop, -, run⟩ := Reading.bind_eq_ok.mp run
  obtain ⟨_, back, last, run⟩ := Reading.bind_eq_ok.mp run
  obtain ⟨-, rfl⟩ := Reading.pure_eq_ok.mp run
  obtain ⟨same, -⟩ := Prod.mk.inj first
  obtain rfl : loader.cursor.position = position := Except.ok.inj same
  obtain ⟨success, rfl⟩ := Prod.mk.inj last
  exact Decoder.position_of_seek success

theorem load_position {kind : PoolKind} {step : Loading (Item kind)} {offset index : UInt32} {loader after : Loader}
    (run : load kind step offset loader = (.ok index, after)) : after.cursor.position = loader.cursor.position := by
  rcases load_eq_ok.mp run with ⟨-, rfl⟩ | ⟨-, item, between, detoured, -, rfl⟩
  · rfl
  · have position := detour_position detoured
    exact position

end Loading

namespace Loader

/-- The loaders that loads lead to one after the other, whether they succeed or fail, with other reads between them. -/
inductive Leads (before : Loader) : Loader → Prop
  | refl : Leads before before
  | load {between : Loader} (leads : Leads before between) (kind : PoolKind) (offset : UInt32) :
    Leads before (Loading.load kind (loadItem kind) offset between).2
  | read {between : Loader} {α : Type} (leads : Leads before between) (step : Decoder α) :
    Leads before (ofDecoder step between).2

/-- Whether the items of every kind are those that have been loaded, each at an offset of its own, and every reference
that an item holds leads to the item that has been loaded where the reference says. -/
structure Consistent (loader : Loader) : Prop where
  counted : ∀ kind : PoolKind, ∃ offsets : List UInt32, offsets.Nodup ∧
    (∀ offset, offset ∈ offsets ↔ (loader.loaded? kind.toSection offset).isSome = true) ∧
      (loader.pools.pool kind).size = offsets.length
  apart : ∀ (kind : PoolKind) (first second index : UInt32), loader.loaded? kind.toSection first = some index →
    loader.loaded? kind.toSection second = some index → first = second
  leads : ∀ (target : PoolKind) (ref : DataRef target), loader.pools.Holds ref → ref = .absent ∨
    ∃ index offset, ref = .placed index offset ∧ offset ≠ 0 ∧ loader.loaded? target.toSection offset = some index ∧
      index.toNat < (loader.pools.pool target).size

variable {kinds : PoolKind → Prop} {before after loader : Loader}

/-- The references that items hold are known. -/
theorem Coherent.known_of_holds (coherent : loader.Coherent kinds) {target : PoolKind} {ref : DataRef target}
    (holds : loader.pools.Holds ref) : ref.Known loader.loaded := by
  obtain ⟨kind, item, member, usage, held⟩ := holds
  have known : (DataRef.ofState ref.state : DataRef target).Known loader.loaded :=
    coherent.known kind item member _ held
  rwa [DataRef.ofState_state] at known

/-- If all items are noted where they are loaded, nothing leads anywhere else. -/
theorem Coherent.consistent (coherent : loader.Coherent fun _ => True) : loader.Consistent where
  counted kind := by
    refine ⟨loader.offsets kind, loader.nodup_offsets kind coherent.distinct,
      fun offset => ?_, coherent.size_eq trivial⟩
    rw [mem_offsets, Option.isSome_iff_exists]
    exact exists_congr fun index => (loaded?_eq_some coherent.distinct).symm
  apart kind first second index one other :=
    coherent.offset_eq trivial ((loaded?_eq_some coherent.distinct).mp one)
      ((loaded?_eq_some coherent.distinct).mp other)
  leads target ref holds := by
    rcases coherent.known_of_holds holds with absent | ⟨index, offset, placed, nonzero, noted⟩
    · exact .inl absent
    · have known := (loaded?_eq_some coherent.distinct).mpr noted
      exact .inr ⟨index, offset, placed, nonzero, known, coherent.index_lt trivial noted⟩

/-- A load of a kind, which notes nothing of deeper kinds. -/
theorem coheres_load (kind : PoolKind) (offset : UInt32) : Coheres (fun _ => True) (kind.depth + 1)
    (Loading.load kind (loadItem kind) offset) fun loaded index => ((kind.toSection, offset), index) ∈ loaded :=
  .load trivial (coheres_loadItem fun _ _ => trivial) (Nat.lt_succ_self _) offset

namespace Leads

theorem coherent (leads : before.Leads after) (coherent : before.Coherent fun _ => True) :
    after.Coherent fun _ => True := by
  induction leads with
  | refl => exact coherent
  | load _ kind offset before => exact ((coheres_load kind offset).holds _ _ _ rfl before).1
  | read _ step before => exact before.moved _

/-- What has been noted stays so. -/
theorem suffix (leads : before.Leads after) (coherent : before.Coherent fun _ => True) :
    before.loaded <:+ after.loaded := by
  induction leads with
  | refl => exact List.suffix_refl _
  | load leads kind offset earlier =>
    exact earlier.trans ((coheres_load kind offset).holds _ _ _ rfl (leads.coherent coherent)).2.1.suffix
  | read leads step earlier => exact earlier

end Leads
end Loader

open Loader

/-- Loads in any sequence keep a loader consistent, also where they fail. One that succeeds returns to where it
began; from then on its item keeps the index, and no item at another offset gets it. In an image that has been
read, no reference leads nowhere. -/
theorem Loading.load_coherent :
    (∀ cursor strict loader, (Loader.ofCursor cursor strict).Leads loader → loader.Consistent ∧
      ∀ kind offset index after, load kind (loadItem kind) offset loader = (.ok index, after) →
        after.cursor.position = loader.cursor.position ∧
          ∀ later, after.Leads later → load kind (loadItem kind) offset later = (.ok index, later) ∧
            ∀ other number last, load kind (loadItem kind) other later = (.ok number, last) →
              other ≠ offset → number ≠ index) ∧
    ∀ bytes options image, Image.read bytes options = .ok image → ∀ (target : PoolKind) (ref : DataRef target),
      image.pools.Holds ref → ref = .absent ∨
        ∃ index offset, ref = .placed index offset ∧ offset ≠ 0 ∧ index.toNat < (image.pools.pool target).size := by
  refine ⟨fun cursor strict loader leads => ?_, fun bytes options image success target ref holds => ?_⟩
  · have coherent := leads.coherent (coherent_ofCursor cursor strict)
    refine ⟨coherent.consistent, fun kind offset index after run => ⟨load_position run, fun later following => ?_⟩⟩
    obtain ⟨coherent, -, noted⟩ := (coheres_load kind offset).holds _ _ _ run coherent
    have noted := (following.suffix coherent).subset (noted index rfl)
    have coherent := following.coherent coherent
    refine ⟨load_known ((loaded?_eq_some coherent.distinct).mpr noted), fun other number last run differ same => ?_⟩
    obtain ⟨coherent, notes, found⟩ := (coheres_load kind other).holds _ _ _ run coherent
    exact differ (coherent.offset_eq trivial (found number rfl) (same ▸ notes.suffix.subset noted))
  · obtain ⟨cursor, after, -, run, pools⟩ := Image.read_eq_ok success
    have coherent := ((Image.coheres_loadTables image.header).holds _ _ _ run (coherent_ofCursor _ _)).1
    rw [← pools] at holds ⊢
    refine (coherent.known_of_holds holds).imp_right fun ⟨index, offset, placed, nonzero, noted⟩ => ?_
    exact ⟨index, offset, placed, nonzero, coherent.index_lt holds.isIdTable noted⟩

/-- Two annotations, a set of the first one, a set that also refers beyond the end, and a directory of both sets. -/
def Loading.directoryBytes : Bytes :=
  [0, 1, 0, 0, 0, 7, 0, 1, 0, 0, 0, 1, 0, 0, 0, 2, 0, 0, 0, 4, 0, 0, 0, 99, 0, 0, 0, 7, 0, 0, 0, 1, 0, 0, 0, 0, 0, 0, 0,
    0, 0, 0, 0, 0, 0, 0, 0, 15, 0, 0, 0]

/-- What the loader has read of the directory, which fails to load after its first set. -/
def Loading.afterDirectory : Loader :=
  (load .annotationsDirectory (loadItem .annotationsDirectory) 27 (.ofCursor (.ofBytes directoryBytes) true)).2

/-- A set that was loaded together with a directory that failed, and an image with a list of interfaces. -/
theorem Loading.load_coherent_directory :
    (afterDirectory.pools.annotationsDirectories.size = 0 ∧ afterDirectory.pools.annotationItems.size = 2 ∧
      afterDirectory.Consistent ∧ load .annotationSet (loadItem .annotationSet) 7 afterDirectory =
        (.ok 0, afterDirectory)) ∧
    ∃ bytes image, Image.withListener.write.1 = .ok bytes ∧ Image.read bytes .lenient = .ok image ∧
      ∀ ref : DataRef .typeList, image.pools.Holds ref → ref = .absent ∨
        ∃ index offset, ref = .placed index offset ∧ offset ≠ 0 ∧ index.toNat < image.pools.typeLists.size := by
  have leads : (Loader.ofCursor (.ofBytes directoryBytes) true).Leads afterDirectory :=
    .load .refl .annotationsDirectory 27
  have known : afterDirectory.loaded? .annotationSet 7 = some 0 := by decide +kernel
  have run : load .annotationSet (loadItem .annotationSet) 7 afterDirectory = (.ok 0, afterDirectory) :=
    load_known known
  obtain ⟨consistent, loads⟩ := load_coherent.1 _ _ afterDirectory leads
  refine ⟨⟨by decide +kernel, by decide +kernel, consistent, ((loads _ _ _ _ run).2 _ .refl).1⟩, ?_⟩
  have success : (Image.withListener.write.1 >>= fun bytes => Image.read bytes .lenient).toOption.isSome = true := by
    decide +kernel
  obtain ⟨image, run⟩ := Result.exists_of_toOption success
  obtain ⟨bytes, written, decoded⟩ := Result.bind_eq_ok.mp run
  exact ⟨bytes, image, written, decoded, load_coherent.2 _ _ _ decoded .typeList⟩

end DexImage
