import DexImage.Proofs.Rereading.Retracing
/-! # Retracing the items of each kind

Every item that has been loaded is loaded again from what is written of it, kind by kind: first the items that are
decoded, then those that refer to data items.
-/

namespace DexImage

open Loading

variable {image : Bytes} {items : Pools} {offsets : OffsetTable}

section Decoders

/-- Items that refer to no data item are decoded again. -/
theorem retraces_decoder (kind : PoolKind) (step : Decoder (Item kind))
    (post : Item kind → Prop) (gives : step.Gives post)
    (stays : ∀ item, post item → moved offsets.finder item = item)
    (reads : ∀ item bytes, post item → encode item = .ok bytes → Reads step bytes item) :
    RetracesItems image items offsets kind (ofDecoder step) := by
  intro one item after bytes run regular final written small
  have holds := gives.ofDecoder.holds _ _ _ run
  rw [stays item holds] at written ⊢
  have passes := Passes.ofDecoder (reads item bytes holds written)
  exact (Retraces.passed passes).beside (.refl one) (Still.ofDecoder _ _ _ _ run)

theorem retraces_typeId : RetracesItems image items offsets .typeId (loadItem .typeId) :=
  retraces_decoder .typeId TypeId.decode _ (.trivial _) (fun _ _ => rfl) fun _ _ _ written =>
    TypeId.reads_encode written

theorem retraces_fieldId : RetracesItems image items offsets .fieldId (loadItem .fieldId) :=
  retraces_decoder .fieldId FieldId.decode _ (.trivial _) (fun _ _ => rfl) fun _ _ _ written =>
    FieldId.reads_encode written

theorem retraces_methodId : RetracesItems image items offsets .methodId (loadItem .methodId) :=
  retraces_decoder .methodId MethodId.decode _ (.trivial _) (fun _ _ => rfl) fun _ _ _ written =>
    MethodId.reads_encode written

theorem retraces_stringData : RetracesItems image items offsets .stringId (loadItem .stringId) :=
  retraces_decoder .stringId StringData.decode _ StringData.gives_decode (fun _ _ => rfl) fun _ _ settled written =>
    StringData.reads_encode written settled

theorem retraces_typeList : RetracesItems image items offsets .typeList (loadItem .typeList) :=
  retraces_decoder .typeList TypeList.decode _ TypeList.gives_counted (fun _ _ => rfl) fun _ _ counted written =>
    TypeList.reads_encode written counted

theorem retraces_debugInfo : RetracesItems image items offsets .debugInfo (loadItem .debugInfo) :=
  retraces_decoder .debugInfo DebugInfo.decode _ (DebugInfo.gives_decode.and DebugInfo.gives_counted)
    (fun _ _ => rfl) fun _ _ holds written =>
    DebugInfo.reads_encode written holds.1 holds.2

theorem retraces_annotationItem : RetracesItems image items offsets .annotationItem (loadItem .annotationItem) := by
  refine retraces_decoder .annotationItem AnnotationItem.decode _
    (AnnotationItem.gives_spelled.and AnnotationItem.gives_decode) (fun _ _ => rfl) ?_
  rintro item bytes ⟨⟨counted, settled⟩, named⟩ written
  have reads := AnnotationItem.reads_encode written counted named
  rwa [settled] at reads

theorem retraces_encodedArray : RetracesItems image items offsets .encodedArray (loadItem .encodedArray) := by
  refine retraces_decoder .encodedArray EncodedArray.decode _ EncodedArray.gives_spelled ?_ ?_
  · rintro ⟨⟨slots, dirty⟩⟩ ⟨-, settled⟩
    obtain rfl : false = dirty := congrArg (fun array => array.slots.dirty) settled
    rfl
  · rintro item bytes ⟨counted, settled⟩ written
    have reads := EncodedArray.reads_encode written counted
    rwa [settled] at reads

end Decoders

section References

variable (holds : Holds image items offsets)
include holds

/-- A counted list of references. -/
theorem retraces_offsets {target : PoolKind} {step : Loading (Item target)}
    (tracked : target.toSection.isIdTable = false)
    (retraces : RetracesItems image items offsets target step)
    (keeps : Keeps step RegularItem) (noun : String) {usage : Usage}
    {one after : Loader} {refs : List (DataRef target)} (run : loadOffsets target step noun one = (.ok refs, after))
    (regular : one.Regular) (final : after.pools.Extends items) {bytes : Bytes}
    (written : encodeOffsets (refs.map (DataRef.located offsets.finder usage)) = .ok bytes)
    (small : bytes.length < UInt32.size) :
    Retraces image offsets (loadOffsets target step noun) one after bytes
      (refs.map (DataRef.located offsets.finder usage)) := by
  have length := length_encodeOffsets written
  obtain ⟨parts, parted, rfl⟩ := encodeOffsets_eq_ok written
  rw [List.forall₂_map_left_iff] at parted
  obtain ⟨count, mid, -, before, run⟩ := (Still.ofDecoder _).bind_eq_ok run
  have collected := Retraces.collect (fun index => (Keeps.ref keeps).within (.nth noun index))
    (fun index one value after part run regular final written =>
      (Retraces.ref holds tracked retraces keeps
        (Reading.within_eq_ok.mp run) regular final written).within (.nth noun index))
    run (before.regular regular) final parted
  refine .read_bind (.u4 _) ?_
  rw [toNat_toUInt32_of_lt (by omega), List.length_map]
  exact collected.beside before (.refl after)

theorem retraces_annotationSet : RetracesItems image items offsets .annotationSet (loadItem .annotationSet) := by
  intro one set after bytes run regular final written small
  obtain ⟨refs, between, run, last⟩ := Reading.bind_eq_ok.mp run
  obtain ⟨rfl, rfl⟩ := Reading.pure_eq_ok.mp last
  exact (retraces_offsets holds rfl retraces_annotationItem keeps_annotationItem
    _ run regular final written small).bind_pure

theorem retraces_annotationSetRefList :
    RetracesItems image items offsets .annotationSetRefList (loadItem .annotationSetRefList) := by
  intro one list after bytes run regular final written small
  obtain ⟨refs, between, run, last⟩ := Reading.bind_eq_ok.mp run
  obtain ⟨rfl, rfl⟩ := Reading.pure_eq_ok.mp last
  exact (retraces_offsets holds rfl (retraces_annotationSet holds)
    keeps_annotationSet _ run regular final written small).bind_pure

/-- A list of members and where their annotations are. -/
theorem retraces_members {member target : PoolKind} {step : Loading (Item target)}
    (tracked : target.toSection.isIdTable = false)
    (retraces : RetracesItems image items offsets target step) (keeps : Keeps step RegularItem) (noun : String)
    {one after : Loader} {count : UInt32} {entries : List (AnnotatedMember member target)}
    (run : AnnotatedMember.loadList target step noun count one = (.ok entries, after)) (regular : one.Regular)
    (final : after.pools.Extends items) {bytes : Bytes}
    (written : encodeAll AnnotatedMember.encode (entries.map (AnnotatedMember.located offsets.finder)) = .ok bytes)
    {count' : UInt32} (counted : count'.toNat = (entries.map (AnnotatedMember.located offsets.finder)).length) :
    Retraces image offsets (AnnotatedMember.loadList target step noun count') one after bytes
      (entries.map (AnnotatedMember.located offsets.finder)) := by
  obtain ⟨parts, parted, rfl⟩ := encodeAll_eq_ok written
  rw [List.forall₂_map_left_iff] at parted
  rw [AnnotatedMember.loadList, counted, List.length_map]
  have keep (index : Nat) : Keeps (do
      let named ← ofDecoder Decoder.wordIndex
      return AnnotatedMember.mk named (← Reading.within (.nth noun index) (Loading.ref target step)))
      fun _ (_ : AnnotatedMember member target) => True := by
    apply Keeps.read_bind
    intro named
    apply ((Keeps.ref keeps).within _).bind fun grows inside => inside.mono grows
    intro annotations
    exact .pure fun _ _ => trivial
  refine Retraces.collect keep (fun index one entry after part run regular final written => ?_) run regular final parted
  obtain ⟨first, second, head, tail, rfl⟩ := AnnotatedMember.encode_eq_ok written
  obtain ⟨named, mid, -, before, run⟩ := (Still.ofDecoder _).bind_eq_ok run
  obtain ⟨annotations, between, run, last⟩ := Reading.bind_eq_ok.mp run
  obtain ⟨rfl, rfl⟩ := Reading.pure_eq_ok.mp last
  have retraced :=
    Retraces.ref holds tracked retraces keeps (Reading.within_eq_ok.mp run) (before.regular regular) final tail
  refine .read_bind (IdRef.reads_encodeWord head) ?_
  exact ((retraced.within _).beside before (.refl _)).bind_pure

theorem retraces_annotationsDirectory :
    RetracesItems image items offsets .annotationsDirectory (loadItem .annotationsDirectory) := by
  intro one directory after bytes run regular final written small
  obtain ⟨classSet, mid, classRun, regular', grows, rest⟩ :=
    ((Keeps.ref keeps_annotationSet).within _).bind_eq_ok run regular
  obtain ⟨fieldCount, first, -, before, rest⟩ := (Still.ofDecoder _).bind_eq_ok rest
  obtain ⟨methodCount, second, -, before', rest⟩ := (Still.ofDecoder _).bind_eq_ok rest
  obtain ⟨parameterCount, third, -, before'', rest⟩ := (Still.ofDecoder _).bind_eq_ok rest
  have beside := (before.trans before').trans before''
  have inFields := beside.regular regular'
  obtain ⟨fields, fourth, fieldRun, inMethods, grows₁, rest⟩ :=
    (keeps_annotatedMembers keeps_annotationSet _ _).bind_eq_ok rest inFields
  obtain ⟨methods, fifth, methodRun, inParameters, grows₂, rest⟩ :=
    (keeps_annotatedMembers keeps_annotationSet _ _).bind_eq_ok rest inMethods
  obtain ⟨parameters, sixth, parameterRun, -, grows₃, rest⟩ :=
    (keeps_annotatedMembers keeps_annotationSetRefList _ _).bind_eq_ok rest inParameters
  obtain ⟨rfl, rfl⟩ := Reading.pure_eq_ok.mp rest
  have counted := AnnotationsDirectory.counted_of_encode written small
  obtain ⟨_, _, _, last, classEncoded, fieldsEncoded, methodsEncoded, parametersEncoded, rfl⟩ :=
    AnnotationsDirectory.encode_eq_ok written
  dsimp only [moved, unmarked, locate] at fieldsEncoded methodsEncoded parametersEncoded ⊢
  rw [beside.pools] at grows₁
  have afterFields := grows₂.trans (grows₃.trans final)
  have head :=
    Retraces.ref holds rfl (retraces_annotationSet holds) keeps_annotationSet (Reading.within_eq_ok.mp classRun) regular
    (grows₁.trans afterFields) classEncoded
  have fields := retraces_members holds rfl (retraces_annotationSet holds) keeps_annotationSet _ fieldRun inFields
    afterFields fieldsEncoded (toNat_toUInt32_of_lt counted.fields)
  have methods := retraces_members holds rfl (retraces_annotationSet holds) keeps_annotationSet _ methodRun inMethods
    (grows₃.trans final) methodsEncoded (toNat_toUInt32_of_lt counted.methods)
  have parameters :=
    retraces_members holds rfl (retraces_annotationSetRefList holds) keeps_annotationSetRefList _ parameterRun
    inParameters final parametersEncoded (toNat_toUInt32_of_lt counted.parameters)
  rw [← List.append_nil last]
  refine (head.within _).bind (Retraces.beside ?_ beside (.refl _))
  refine .read_bind (.u4 _) (.read_bind (.u4 _) (.read_bind (.u4 _) (fields.bind (methods.bind (parameters.bind ?_)))))
  exact .pure _

omit holds in
/-- What a code item refers to is read last. -/
theorem CodeItem.ends_load : Ends load fun mid code after =>
    ∃ old, Loading.refAt .debugInfo (loadItem .debugInfo) old mid = (.ok code.debugInfo, after) := by
  refine .skip (.ofDecoder _) fun start => .skip (.ofDecoder _) fun registers => .skip (.ofDecoder _) fun ins => ?_
  refine .skip (.ofDecoder _) fun outs => .skip (.ofDecoder _) fun triesSize =>
    .skip .get fun loader => .ite .fail_bind ?_
  refine .skip (.ofDecoder _) fun debugOffset => .skip (.ofDecoder _) fun unitCount =>
    .skip (.ofDecoder _) fun units => ?_
  have last (tryTable : Option TryTable) : Ends (do
      let debugInfo ← Reading.within (.itemAt .code start) (refAt .debugInfo (ofDecoder DebugInfo.decode) debugOffset)
      return (⟨registers, ins, outs, debugInfo, .ofUnits units, tryTable⟩ : CodeItem)) fun mid code after =>
        ∃ old, Loading.refAt .debugInfo (loadItem .debugInfo) old mid = (.ok code.debugInfo, after) := by
    intro one code after run
    obtain ⟨debugInfo, stop, run, last⟩ := Reading.bind_eq_ok.mp run
    obtain ⟨rfl, rfl⟩ := Reading.pure_eq_ok.mp last
    exact ⟨one, .refl _, debugOffset, Reading.within_eq_ok.mp run⟩
  refine .ite (.skip ((Still.ofDecoder _).map _) fun _ => ?_) ?_
  all_goals
    exact .ite (.skip (((Still.ofDecoder _).within _).map some) last) (.skip (.pure none) last)

omit holds in
/-- Code that has no edit marks is moved with its debug info. -/
theorem CodeItem.moved_eq {code : CodeItem} (settled : code.reread = code) (find : Finder) :
    @moved find .code code = ({ code with debugInfo := code.debugInfo.located find .debug } : CodeItem) := by
  obtain ⟨registers, ins, outs, debugInfo, instructions, _ | table⟩ := code
  · rfl
  · injection settled with _ _ _ _ _ same
    exact congrArg (CodeItem.mk registers ins outs (debugInfo.located find .debug) instructions) same

theorem retraces_code : RetracesItems image items offsets .code (loadItem .code) := by
  intro one code after bytes run regular final written small
  obtain ⟨readable, counted, settled⟩ := CodeItem.gives_load.holds _ _ _ run
  obtain ⟨mid, before, old, run⟩ := CodeItem.ends_load one code after run
  have same := CodeItem.moved_eq settled offsets.finder
  rw [same] at written ⊢
  obtain ⟨-, _, _, _, debugEncoded, -⟩ := CodeItem.encode_eq_ok written
  obtain ⟨known, -⟩ := DataRef.encodeWord_eq_ok debugEncoded
  have debugInfo := Retraces.refAt holds rfl retraces_debugInfo keeps_debugInfo run (before.regular regular) final known
  have again (start : Nat) : Retraces image offsets (do
      let debugInfo ← Reading.within (.itemAt .code start)
        (Loading.refAt .debugInfo (loadItem .debugInfo) (code.debugInfo.located offsets.finder .debug).knownOffset)
      return ({ code with debugInfo } : CodeItem)) one after []
        ({ code with debugInfo := code.debugInfo.located offsets.finder .debug } : CodeItem) :=
    ((debugInfo.beside before (.refl _)).within _).bind_pure
  intro loader mirrors there
  rw [← List.append_nil bytes] at there ⊢
  have passes := CodeItem.load_passes written readable ⟨counted.units, counted.table⟩ there.left
  have settled' : (CodeItem.reread { code with debugInfo := code.debugInfo.located offsets.finder .debug }) =
      { code with debugInfo := code.debugInfo.located offsets.finder .debug } :=
    congrArg (fun code : CodeItem => { code with debugInfo := code.debugInfo.located offsets.finder .debug }) settled
  rw [settled'] at passes
  exact (again _).behind mirrors there passes

namespace DefinedMethod

omit holds in
/-- Methods have the same differences wherever their code lies. -/
theorem ofDifferences_located (find : Finder) (previous : UInt32) (triples : List (UInt32 × UInt32 × DataRef .code)) :
    (ofDifferences previous triples).map (located find) =
      ofDifferences previous (triples.map fun triple => (triple.1, triple.2.1, triple.2.2.located find .code)) := by
  induction triples generalizing previous with
  | nil => rfl
  | cons triple rest ih =>
    obtain ⟨difference, access, code⟩ := triple
    simp only [ofDifferences, List.map_cons, ih]
    rfl

omit holds in
theorem ofDifferences_injective {previous : UInt32} {triples others : List (UInt32 × UInt32 × DataRef .code)}
    (same : ofDifferences previous triples = ofDifferences previous others) : triples = others := by
  induction triples generalizing previous others with
  | nil =>
    cases others with
    | nil => rfl
    | cons => cases same
  | cons triple rest ih =>
    cases others with
    | nil => cases same
    | cons other more =>
      obtain ⟨difference, access, code⟩ := triple
      obtain ⟨difference', access', code'⟩ := other
      simp only [ofDifferences] at same
      injection same with head tail
      injection head with method access code
      injection method with method
      injection method with sum
      obtain rfl := (UInt32.add_right_inj previous).mp sum
      rw [access, code, ih tail]

end DefinedMethod

omit holds in
/-- How a method of a list is read. -/
def DefinedMethod.loadTriple (noun : String) (index : Nat) : Loading (UInt32 × UInt32 × DataRef .code) := do
  let difference ← ofDecoder Decoder.uleb128
  let access ← ofDecoder Decoder.uleb128
  let offset ← ofDecoder Decoder.uleb128
  let code ← Reading.within (.nth noun index) (Loading.refAt .code CodeItem.load offset)
  return (difference, access, code)

omit holds in
theorem DefinedMethod.keeps_triple (noun : String) (index : Nat) : Keeps (loadTriple noun index) fun _ _ => True := by
  apply Keeps.read_bind
  intro difference
  apply Keeps.read_bind
  intro access
  apply Keeps.read_bind
  intro offset
  apply ((Keeps.refAt keeps_code offset).within _).bind fun grows inside => inside.mono grows
  intro code
  exact .pure fun _ _ => trivial

theorem retraces_triple (noun : String) (index : Nat) {one after : Loader} {triple : UInt32 × UInt32 × DataRef .code}
    (run : DefinedMethod.loadTriple noun index one = (.ok triple, after)) (regular : one.Regular)
    (final : after.pools.Extends items) (known : (triple.2.2.located offsets.finder .code).offset =
      .ok (triple.2.2.located offsets.finder .code).knownOffset) :
    Retraces image offsets (DefinedMethod.loadTriple noun index) one after
      (DefinedMethod.tripleBytes (triple.1, triple.2.1, triple.2.2.located offsets.finder .code))
      (triple.1, triple.2.1, triple.2.2.located offsets.finder .code) := by
  obtain ⟨difference, first, -, before, run⟩ := (Still.ofDecoder _).bind_eq_ok run
  obtain ⟨access, second, -, before', run⟩ := (Still.ofDecoder _).bind_eq_ok run
  obtain ⟨offset, third, -, before'', run⟩ := (Still.ofDecoder _).bind_eq_ok run
  have beside := (before.trans before').trans before''
  obtain ⟨code, stop, run, last⟩ := Reading.bind_eq_ok.mp run
  obtain ⟨rfl, rfl⟩ := Reading.pure_eq_ok.mp last
  have code := (Retraces.refAt holds rfl (retraces_code holds) keeps_code (Reading.within_eq_ok.mp run)
    (beside.regular regular) final known).within (.nth noun index)
  rw [DefinedMethod.tripleBytes, List.append_assoc, ← List.append_nil (Leb128.encodeUInt32 (DataRef.knownOffset _))]
  refine .read_bind (.uleb128 _) (.read_bind (.uleb128 _) (.read_bind (.uleb128 _) ?_))
  exact (code.beside beside (.refl _)).bind_pure

theorem retraces_methods (noun : String) {one after : Loader} {count : UInt32} {entries : List DefinedMethod}
    (run : DefinedMethod.loadList noun count one = (.ok entries, after)) (regular : one.Regular)
    (final : after.pools.Extends items) {bytes : Bytes}
    (written : DefinedMethod.encodeList 0 (entries.map (DefinedMethod.located offsets.finder)) = .ok bytes)
    {count' : UInt32} (counted : count'.toNat = (entries.map (DefinedMethod.located offsets.finder)).length) :
    Retraces image offsets (DefinedMethod.loadList noun count') one after bytes
      (entries.map (DefinedMethod.located offsets.finder)) := by
  obtain ⟨triples, mid, run, last⟩ := Reading.bind_eq_ok.mp run
  obtain ⟨rfl, rfl⟩ := Reading.pure_eq_ok.mp last
  obtain ⟨others, rfl, same, length, -, known⟩ := DefinedMethod.encodeList_eq_ok written
  rw [DefinedMethod.ofDifferences_located] at same
  obtain rfl := DefinedMethod.ofDifferences_injective same
  rw [DefinedMethod.loadList, counted, ← length, DefinedMethod.ofDifferences_located, List.length_map]
  have parted : List.Forall₂ (fun (triple : UInt32 × UInt32 × DataRef .code) part =>
      part = DefinedMethod.tripleBytes (triple.1, triple.2.1, triple.2.2.located offsets.finder .code) ∧
        (triple.2.2.located offsets.finder .code).offset = .ok (triple.2.2.located offsets.finder .code).knownOffset)
      triples ((triples.map fun triple => (triple.1, triple.2.1, triple.2.2.located offsets.finder .code)).map
        DefinedMethod.tripleBytes) := by
    rw [List.map_map]
    exact .of_map_right fun triple present => ⟨rfl, known _ (List.mem_map_of_mem present)⟩
  refine (Retraces.collect (DefinedMethod.keeps_triple noun) ?_ run regular final parted).bind_pure
  rintro index one triple after _ run regular final ⟨rfl, known⟩
  exact retraces_triple holds noun index run regular final known

theorem retraces_classData : RetracesItems image items offsets .classData (loadItem .classData) := by
  intro one data after bytes run regular final written small
  obtain ⟨staticCount, first, -, beside, rest⟩ := (Still.ofDecoder _).bind_eq_ok run
  obtain ⟨instanceCount, second, -, before, rest⟩ := (Still.ofDecoder _).bind_eq_ok rest
  replace beside := beside.trans before
  obtain ⟨directCount, third, -, before, rest⟩ := (Still.ofDecoder _).bind_eq_ok rest
  replace beside := beside.trans before
  obtain ⟨virtualCount, fourth, -, before, rest⟩ := (Still.ofDecoder _).bind_eq_ok rest
  replace beside := beside.trans before
  obtain ⟨staticFields, fifth, -, before, rest⟩ := (Still.ofDecoder _).bind_eq_ok rest
  replace beside := beside.trans before
  obtain ⟨instanceFields, sixth, -, before, rest⟩ := (Still.ofDecoder _).bind_eq_ok rest
  replace beside := beside.trans before
  have inDirect := beside.regular regular
  obtain ⟨directMethods, between, directRun, inVirtual, -, rest⟩ := (keeps_methods _ _).bind_eq_ok rest inDirect
  obtain ⟨virtualMethods, last, virtualRun, -, grows, rest⟩ := (keeps_methods _ _).bind_eq_ok rest inVirtual
  obtain ⟨rfl, rfl⟩ := Reading.pure_eq_ok.mp rest
  have counted := ClassData.counted_of_encode written small
  obtain ⟨statics, instances, direct, virtual, staticsEncoded, instancesEncoded, directEncoded, virtualEncoded, rfl⟩ :=
    ClassData.encode_eq_ok.mp written
  dsimp only [moved, unmarked, locate] at staticsEncoded instancesEncoded directEncoded virtualEncoded ⊢
  have directReread := retraces_methods holds _ directRun inDirect (grows.trans final) directEncoded
    (toNat_toUInt32_of_lt counted.directMethods)
  have virtualReread := retraces_methods holds _ virtualRun inVirtual final virtualEncoded
    (toNat_toUInt32_of_lt counted.virtualMethods)
  rw [← List.append_nil virtual]
  refine Retraces.beside ?_ beside (.refl _)
  refine .read_bind (.uleb128 _) (.read_bind (.uleb128 _) (.read_bind (.uleb128 _) (.read_bind (.uleb128 _) ?_)))
  refine .read_bind (DefinedField.reads_encodeList staticsEncoded (toNat_toUInt32_of_lt counted.staticFields)) ?_
  refine .read_bind (DefinedField.reads_encodeList instancesEncoded (toNat_toUInt32_of_lt counted.instanceFields)) ?_
  refine directReread.bind (virtualReread.bind ?_)
  exact .pure _

theorem retraces_protoId : RetracesItems image items offsets .protoId (loadItem .protoId) := by
  intro one proto after bytes run regular final written small
  obtain ⟨shorty, first, -, beside, rest⟩ := (Still.ofDecoder _).bind_eq_ok run
  obtain ⟨returnType, second, -, before, rest⟩ := (Still.ofDecoder _).bind_eq_ok rest
  replace beside := beside.trans before
  obtain ⟨parameters, last, refRun, rest⟩ := Reading.bind_eq_ok.mp rest
  obtain ⟨rfl, rfl⟩ := Reading.pure_eq_ok.mp rest
  obtain ⟨_, _, tail, shortyEncoded, returnEncoded, parametersEncoded, rfl⟩ := ProtoId.encode_eq_ok written
  have parameters :=
    Retraces.ref holds rfl retraces_typeList keeps_typeList refRun (beside.regular regular) final parametersEncoded
  rw [← List.append_nil tail]
  refine Retraces.beside ?_ beside (.refl _)
  refine .read_bind (IdRef.reads_encodeWord shortyEncoded) (.read_bind (IdRef.reads_encodeWord returnEncoded) ?_)
  refine parameters.bind ?_
  exact .pure _

theorem retraces_classDef : RetracesItems image items offsets .classDef (loadItem .classDef) := by
  intro one definition after bytes run regular final written small
  obtain ⟨type, first, -, beside, rest⟩ := (Still.ofDecoder _).bind_eq_ok run
  obtain ⟨access, second, -, before, rest⟩ := (Still.ofDecoder _).bind_eq_ok rest
  replace beside := beside.trans before
  obtain ⟨superclass, third, -, before, rest⟩ := (Still.ofDecoder _).bind_eq_ok rest
  replace beside := beside.trans before
  have inInterfaces := beside.regular regular
  obtain ⟨interfaces, fourth, interfacesRun, later, -, rest⟩ := (Keeps.ref keeps_typeList).bind_eq_ok rest inInterfaces
  obtain ⟨sourceFile, fifth, -, beside', rest⟩ := (Still.ofDecoder _).bind_eq_ok rest
  have inAnnotations := beside'.regular later
  obtain ⟨annotations, sixth, annotationsRun, inData, grows₁, rest⟩ :=
    (Keeps.ref keeps_annotationsDirectory).bind_eq_ok rest inAnnotations
  obtain ⟨classData, seventh, dataRun, inValues, grows₂, rest⟩ := (Keeps.ref keeps_classData).bind_eq_ok rest inData
  obtain ⟨staticValues, eighth, valuesRun, -, grows₃, rest⟩ := (Keeps.ref keeps_encodedArray).bind_eq_ok rest inValues
  obtain ⟨rfl, rfl⟩ := Reading.pure_eq_ok.mp rest
  obtain ⟨_, _, _, _, tail, typeEncoded, interfacesEncoded, annotationsEncoded, dataEncoded, valuesEncoded, rfl⟩ :=
    ClassDef.encode_eq_ok written
  dsimp only [moved, unmarked, locate] at interfacesEncoded annotationsEncoded dataEncoded valuesEncoded ⊢
  have reread {target : PoolKind} (raw : UInt32) :
      (IdRef.ofRaw (IdRef.ofRaw raw : IdRef target).raw : IdRef target) = IdRef.ofRaw raw :=
    IdRef.ofRaw_raw fun same => Nat.lt_irrefl _ (IdRef.ofRaw_lt same)
  rw [beside'.pools] at grows₁
  have afterAnnotations := grows₂.trans (grows₃.trans final)
  have interfaces :=
    Retraces.ref holds rfl retraces_typeList keeps_typeList interfacesRun inInterfaces (grows₁.trans afterAnnotations)
    interfacesEncoded
  have annotations :=
    Retraces.ref holds rfl (retraces_annotationsDirectory holds) keeps_annotationsDirectory annotationsRun
    inAnnotations afterAnnotations annotationsEncoded
  have classData :=
    Retraces.ref holds rfl (retraces_classData holds) keeps_classData dataRun inData (grows₃.trans final) dataEncoded
  have staticValues :=
    Retraces.ref holds rfl retraces_encodedArray keeps_encodedArray valuesRun inValues final valuesEncoded
  rw [← List.append_nil tail]
  refine Retraces.beside ?_ beside (.refl _)
  refine .read_bind (IdRef.reads_encodeWord typeEncoded) (.read_bind (.u4 _) (.read_bind (.u4 _) (interfaces.bind ?_)))
  refine .read_bind (.u4 _)
    (Retraces.beside (annotations.bind (classData.bind (staticValues.bind ?_))) beside' (.refl _))
  rw [reread, reread]
  exact .pure _

/-- What is written of an item of any kind is read as the item that it was. -/
theorem retraces_loadItem (kind : PoolKind) : RetracesItems image items offsets kind (loadItem kind) := by
  cases kind with
  | stringId => exact retraces_stringData
  | typeId => exact retraces_typeId
  | protoId => exact retraces_protoId holds
  | fieldId => exact retraces_fieldId
  | methodId => exact retraces_methodId
  | classDef => exact retraces_classDef holds
  | typeList => exact retraces_typeList
  | annotationSetRefList => exact retraces_annotationSetRefList holds
  | annotationSet => exact retraces_annotationSet holds
  | classData => exact retraces_classData holds
  | code => exact retraces_code holds
  | debugInfo => exact retraces_debugInfo
  | annotationItem => exact retraces_annotationItem
  | encodedArray => exact retraces_encodedArray
  | annotationsDirectory => exact retraces_annotationsDirectory holds

end References

end DexImage
