import DexImage.Proofs.Loading.Code
import DexImage.Proofs.Loading.Steps
/-! # Loading the stored items of each kind

What encodes an item loads as an item with the same contents, kind by kind: first the items that refer to no
data items, then those that refer to them.
-/

namespace DexImage

open Loading

/-- Neither instructions nor caught types refer to data items. -/
theorem CodeItem.dataless (code : CodeItem) (target : PoolKind) (usage : Usage) (state : UInt32 × Option UInt32) :
    Held.data target usage (some state) ∉
      (InstructionList.holding.pair TryTable.holding.option).held (code.instructions, code.tryTable) := by
  have absent (find : Finder) : (DataRef.absent : DataRef .debugInfo).located find .debug = .absent := by
    rw [DataRef.located, Finder.edit]
    cases find _ <;> rfl
  have whole := @dataless_of_locate .code { code with debugInfo := .absent }
    (fun find other => by simp only [locate, absent]) target usage state
  exact fun member => whole (List.mem_append_right _ member)

/-- A code item matches one that has just been read, with its debug info loaded anew. -/
theorem CodeItem.matches_reread (code : CodeItem) {placed pools : Pools} {debugInfo : DataRef .debugInfo}
    (matching : (DataRef.holding .debug).Matches (SameContents placed pools) code.debugInfo debugInfo) :
    holding.Matches (SameContents placed pools) code { code.reread with debugInfo } := by
  have dataless := code.dataless
  obtain ⟨registers, ins, outs, debugRef, list, tryTable⟩ := code
  unfold holding
  refine .part (fun _ => rfl) (.pair matching ?_)
  cases tryTable with
  | none => exact .refl dataless
  | some tries =>
    have same : (InstructionList.holding.pair TryTable.holding.option).Matches (SameContents placed pools)
      (list, some tries) (list, some tries) := .refl dataless
    refine ⟨same.form.trans ?_, same.held⟩
    rw [Holding.form_pair, Holding.form_pair]
    refine congrArg (Prod.mk _) (congrArg some ?_)
    change TryTable.holding.form tries = TryTable.holding.form { tries with handlers := .ofList tries.handlers.items }
    unfold TryTable.holding
    rw [Holding.form_part, Holding.form_part]
    rfl

section Items

variable {image : Bytes} {placed : Pools} {layout : Layout}

/-- Items that refer to no data item are decoded. -/
theorem loadsItems_decoder {kind : PoolKind} {step : Decoder (Item kind)}
    (dataless : ∀ (item : Item kind) find other, locate find item = locate other item)
    (reads : ∀ item bytes, item ∈ (placed.pool kind).items → encode item = .ok bytes → bytes.length < UInt32.size →
      Reads step bytes (effective item)) : LoadsItems image placed layout kind (ofDecoder step) := by
  intro item bytes member encoded small
  refine (Loads.ofDecoder (reads item bytes member encoded small)).weaken ?_
  rintro pools _ rfl
  rw [effective_effective]
  exact .refl (dataless_of_locate (dataless _))

theorem loads_typeId : LoadsItems image placed layout .typeId (ofDecoder TypeId.decode) :=
  loadsItems_decoder (fun _ _ _ => rfl) fun _ _ _ encoded _ => TypeId.reads_encode encoded

theorem loads_fieldId : LoadsItems image placed layout .fieldId (ofDecoder FieldId.decode) :=
  loadsItems_decoder (fun _ _ _ => rfl) fun _ _ _ encoded _ => FieldId.reads_encode encoded

theorem loads_methodId : LoadsItems image placed layout .methodId (ofDecoder MethodId.decode) :=
  loadsItems_decoder (fun _ _ _ => rfl) fun _ _ _ encoded _ => MethodId.reads_encode encoded

theorem loads_typeList : LoadsItems image placed layout .typeList (ofDecoder TypeList.decode) :=
  loadsItems_decoder (fun _ _ _ => rfl) fun _ _ _ encoded small =>
    TypeList.reads_encode encoded (TypeList.counted_of_encode encoded small)

theorem loads_encodedArray : LoadsItems image placed layout .encodedArray (ofDecoder EncodedArray.decode) :=
  loadsItems_decoder (fun _ _ _ => rfl) fun _ _ _ encoded small =>
    EncodedArray.reads_encode encoded (EncodedArray.counted_of_encode encoded small)

variable (complete : layout.Complete image placed)
include complete

theorem loads_debugInfo : LoadsItems image placed layout .debugInfo (ofDecoder DebugInfo.decode) :=
  loadsItems_decoder (fun _ _ _ => rfl) fun item _ member encoded small =>
    DebugInfo.reads_encode encoded (complete.readable .debugInfo item member)
      (DebugInfo.counted_of_encode encoded small)

theorem loads_annotationItem : LoadsItems image placed layout .annotationItem (ofDecoder AnnotationItem.decode) :=
  loadsItems_decoder (fun _ _ _ => rfl) fun item _ member encoded small =>
    AnnotationItem.reads_encode encoded (AnnotationItem.counted_of_encode encoded small)
      (complete.readable .annotationItem item member)

/-- A counted list of references. -/
theorem loads_offsets {kind target : PoolKind} {step : Loading (Item target)}
    (noun : String) {usage : Usage} {depth : Nat}
    (tracked : target.toSection.isIdTable = false) (deep : target.depth < depth)
    (loads : LoadsItems image placed layout target step) {item : Item kind} (member : item ∈ (placed.pool kind).items)
    {refs : List (DataRef target)}
    (held : ∀ one ∈ refs, Held.data target usage one.state ∈ (itemHolding kind).held item) {bytes : Bytes}
    (encoded : encodeOffsets refs = .ok bytes) (small : bytes.length < UInt32.size) :
    Loads image placed layout depth (loadOffsets target step noun) bytes fun pools read =>
      (DataRef.holding usage).list.Matches (SameContents placed pools) refs read := by
  have length := length_encodeOffsets encoded
  obtain ⟨parts, parted, rfl⟩ := encodeOffsets_eq_ok encoded
  have each : List.Forall₂ (fun part one => ∀ index, Loads image placed layout depth
      (Reading.within (.nth noun index) (Loading.ref target step)) part fun pools read =>
        (DataRef.holding usage).Matches (SameContents placed pools) one read) parts refs := by
    refine List.Forall₂.of_getElem? parted.length_eq.symm fun position part found => ?_
    obtain ⟨one, there, encoded⟩ := parted.flip.getElem?_left found
    exact ⟨one, there, fun index =>
      (Loads.ref complete tracked deep loads member (held one (List.mem_of_getElem? there)) encoded).within _⟩
  have number : refs.length.toUInt32.toNat = refs.length := toNat_toUInt32_of_lt (by omega)
  refine Loads.read_bind (.u4 _) ?_
  rw [number]
  refine (Loads.collect (fun grows matching => matching.mono fun same => same.mono grows) each).weaken ?_
  exact fun pools values each => .list each

theorem loads_annotationSet : LoadsItems image placed layout .annotationSet AnnotationSet.load := by
  intro set bytes member encoded small
  have refs : ∀ one ∈ (set : AnnotationSet).items,
      Held.data .annotationItem .annotated one.state ∈ (itemHolding .annotationSet).held set :=
    fun one there => List.mem_flatMap.mpr ⟨one, there, List.mem_singleton_self _⟩
  have loads := loads_offsets complete "annotation" rfl (by decide : PoolKind.annotationItem.depth < 1)
    (loads_annotationItem complete) member refs encoded small
  rw [AnnotationSet.load, ← List.append_nil bytes]
  refine (loads.bind (fun grows matching => matching.mono fun same => same.mono grows) fun items =>
    .pure fun _ => rfl).weaken ?_
  rintro pools _ ⟨items, matching, rfl⟩
  change AnnotationSet.holding.Matches _ (set : AnnotationSet) ⟨items⟩
  unfold AnnotationSet.holding
  exact .part (fun _ => rfl) matching

theorem loads_annotationSetRefList :
    LoadsItems image placed layout .annotationSetRefList AnnotationSetRefList.load := by
  intro list bytes member encoded small
  have refs : ∀ one ∈ (list : AnnotationSetRefList).sets,
      Held.data .annotationSet .annotated one.state ∈ (itemHolding .annotationSetRefList).held list :=
    fun one there => List.mem_flatMap.mpr ⟨one, there, List.mem_singleton_self _⟩
  have loads := loads_offsets complete "parameter annotation set" rfl
    (by decide : PoolKind.annotationSet.depth < 2) (loads_annotationSet complete) member refs encoded small
  rw [AnnotationSetRefList.load, ← List.append_nil bytes]
  refine (loads.bind (fun grows matching => matching.mono fun same => same.mono grows) fun sets =>
    .pure fun _ => rfl).weaken ?_
  rintro pools _ ⟨sets, matching, rfl⟩
  change AnnotationSetRefList.holding.Matches _ (list : AnnotationSetRefList) ⟨sets⟩
  unfold AnnotationSetRefList.holding
  exact .part (fun _ => rfl) matching

/-- A list of members and where their annotations are. -/
theorem loads_members {kind member target : PoolKind} {step : Loading (Item target)} (noun : String) {depth : Nat}
    (tracked : target.toSection.isIdTable = false) (deep : target.depth < depth)
    (loads : LoadsItems image placed layout target step) {item : Item kind} (stored : item ∈ (placed.pool kind).items)
    {entries : List (AnnotatedMember member target)}
    (held : ∀ entry ∈ entries, Held.data target .annotated entry.annotations.state ∈ (itemHolding kind).held item)
    {bytes : Bytes} (encoded : encodeAll AnnotatedMember.encode entries = .ok bytes) {count : UInt32}
    (counted : count.toNat = entries.length) :
    Loads image placed layout depth (AnnotatedMember.loadList target step noun count) bytes fun pools read =>
      AnnotatedMember.holding.list.Matches (SameContents placed pools) entries read := by
  obtain ⟨parts, parted, rfl⟩ := encodeAll_eq_ok encoded
  have each : List.Forall₂ (fun part (entry : AnnotatedMember member target) => ∀ index,
      Loads image placed layout depth (do
        let member ← ofDecoder Decoder.wordIndex
        return ⟨member, ← Reading.within (.nth noun index) (Loading.ref target step)⟩) part fun pools read =>
        AnnotatedMember.holding.Matches (SameContents placed pools) entry read) parts entries := by
    refine List.Forall₂.of_getElem? parted.length_eq.symm fun position part found => ?_
    obtain ⟨entry, there, encoded⟩ := parted.flip.getElem?_left found
    refine ⟨entry, there, fun index => ?_⟩
    obtain ⟨first, second, head, tail, rfl⟩ := AnnotatedMember.encode_eq_ok encoded
    refine Loads.read_bind (IdRef.reads_encodeWord head) ?_
    rw [← List.append_nil second]
    have loaded := Loads.ref complete tracked deep loads stored (held entry (List.mem_of_getElem? there)) tail
    refine ((loaded.within _).bind (fun grows matching => matching.mono fun same => same.mono grows) fun annotations =>
      .pure fun _ => rfl).weaken ?_
    rintro pools _ ⟨annotations, matching, rfl⟩
    unfold AnnotatedMember.holding
    refine .part (fun _ => rfl) (.pair (.refl ?_) matching)
    simp [IdRef.holding]
  rw [AnnotatedMember.loadList, counted]
  refine (Loads.collect (fun grows matching => matching.mono fun same => same.mono grows) each).weaken ?_
  exact fun pools values each => .list each

theorem loads_annotationsDirectory :
    LoadsItems image placed layout .annotationsDirectory AnnotationsDirectory.load := by
  intro directory bytes member encoded small
  obtain ⟨classSet, fields, methods, parameters⟩ := (directory : AnnotationsDirectory)
  have counted := AnnotationsDirectory.counted_of_encode encoded small
  obtain ⟨_, _, _, last, classEncoded, fieldsEncoded, methodsEncoded, parametersEncoded, rfl⟩ :=
    AnnotationsDirectory.encode_eq_ok encoded
  have inFields {member target : PoolKind} {entries : List (AnnotatedMember member target)}
      {entry : AnnotatedMember member target} (there : entry ∈ entries) :
      Held.data target .annotated entry.annotations.state ∈ AnnotatedMember.holding.list.held entries :=
    List.mem_flatMap.mpr ⟨entry, there, List.mem_cons_of_mem _ (List.mem_singleton_self _)⟩
  have classLoads := (Loads.ref complete rfl (by decide : PoolKind.annotationSet.depth < 3)
    (loads_annotationSet complete) member (List.mem_append_left _ (List.mem_singleton_self _)) classEncoded).within
    (.named "class annotations")
  have fieldLoads := loads_members complete "field annotation" rfl (by decide : PoolKind.annotationSet.depth < 3)
    (loads_annotationSet complete) member
    (fun entry there => List.mem_append_right _ (List.mem_append_left _ (inFields there)))
    fieldsEncoded (toNat_toUInt32_of_lt counted.fields)
  have methodLoads := loads_members complete "method annotation" rfl (by decide : PoolKind.annotationSet.depth < 3)
    (loads_annotationSet complete) member
    (fun entry there => List.mem_append_right _ (List.mem_append_right _ (List.mem_append_left _ (inFields there))))
    methodsEncoded (toNat_toUInt32_of_lt counted.methods)
  have parameterLoads := loads_members complete "parameter annotation" rfl
    (by decide : PoolKind.annotationSetRefList.depth < 3) (loads_annotationSetRefList complete) member
    (fun entry there => List.mem_append_right _ (List.mem_append_right _ (List.mem_append_right _ (inFields there))))
    parametersEncoded (toNat_toUInt32_of_lt counted.parameters)
  rw [← List.append_nil last]
  refine (classLoads.bind (fun grows matching => matching.mono fun same => same.mono grows) fun classSet' =>
    .read_bind (.u4 _) (.read_bind (.u4 _) (.read_bind (.u4 _) (fieldLoads.bind
      (fun grows matching => matching.mono fun same => same.mono grows) fun fields' => methodLoads.bind
        (fun grows matching => matching.mono fun same => same.mono grows) fun methods' => parameterLoads.bind
          (fun grows matching => matching.mono fun same => same.mono grows) fun parameters' =>
            .pure fun _ => rfl)))).weaken ?_
  rintro pools _ ⟨classSet', classMatching, fields', fieldsMatching, methods', methodsMatching, parameters',
    parametersMatching, rfl⟩
  change AnnotationsDirectory.holding.Matches _ (AnnotationsDirectory.mk _ _ _ _) (AnnotationsDirectory.mk _ _ _ _)
  unfold AnnotationsDirectory.holding
  exact .part (fun _ => rfl) (.pair classMatching (.pair fieldsMatching (.pair methodsMatching parametersMatching)))

theorem loads_code : LoadsItems image placed layout .code CodeItem.load := by
  intro code bytes member encoded small
  have readable : CodeItem.Readable code := complete.readable .code code member
  obtain ⟨-, _, _, _, debugEncoded, -⟩ := CodeItem.encode_eq_ok encoded
  obtain ⟨known, -⟩ := DataRef.encodeWord_eq_ok debugEncoded
  have debugLoads :=
    Loads.refAt complete rfl (by decide : PoolKind.debugInfo.depth < 1) (loads_debugInfo complete) member
    (List.mem_append_left _ (List.mem_singleton_self _)) known
  have last (start : Nat) : Loads image placed layout 1 (do
      let debugInfo ← Reading.within (.itemAt .code start)
        (refAt .debugInfo (ofDecoder DebugInfo.decode) (code : CodeItem).debugInfo.knownOffset)
      return ({ CodeItem.reread code with debugInfo } : CodeItem)) [] fun pools value =>
        (itemHolding .code).Matches (SameContents placed pools) (@effective .code code) (@effective .code value) := by
    refine ((debugLoads.within _).bind (fun grows matching => matching.mono fun same => same.mono grows)
      fun debugInfo => .pure fun _ => rfl).weaken ?_
    rintro pools _ ⟨debugInfo, matching, rfl⟩
    exact CodeItem.matches_reread code matching
  rw [← List.append_nil bytes]
  intro loader sound there
  exact (last _).behind sound there
    (CodeItem.load_passes encoded readable (CodeItem.counted_of_encode encoded small readable) there.left)

end Items
end DexImage
