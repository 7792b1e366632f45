import DexImage.Proofs.Loading.Items
/-! # Loading class data and the entries that refer to data items

Class data refers to code, and protos and class definitions refer to data items of all other kinds. Each loads as
an item with the same contents.
-/

namespace DexImage

open Loading

variable {image : Bytes} {placed : Pools} {layout : Layout}

/-- An id reference matches itself. -/
theorem IdRef.matches_self {target : PoolKind} (usage : Usage) (related : Relation) (ref : IdRef target) :
    (IdRef.holding usage).Matches related ref ref :=
  .refl (by simp [IdRef.holding])

namespace DefinedMethod

/-- Methods whose differences and access flags are the same match if their code does. -/
theorem matches_ofDifferences {related : Relation} {triples others : List (UInt32 × UInt32 × DataRef .code)}
    (each : List.Forall₂ (fun one other => other.1 = one.1 ∧ other.2.1 = one.2.1 ∧
      (DataRef.holding .code).Matches related one.2.2 other.2.2) triples others) (previous : UInt32) :
    holding.list.Matches related (ofDifferences previous triples) (ofDifferences previous others) := by
  refine .list ?_
  induction each generalizing previous with
  | nil => exact .nil
  | @cons one other _ _ head _ ih =>
    obtain ⟨difference, access, code⟩ := one
    obtain ⟨_, _, code'⟩ := other
    obtain ⟨rfl, rfl, code⟩ := head
    refine .cons ?_ (ih _)
    unfold holding
    exact .part (fun _ => rfl) (.pair (IdRef.matches_self _ _ _) code)

end DefinedMethod

section Definitions

variable (complete : layout.Complete image placed)
include complete

/-- A list of methods and where their code is. -/
theorem loads_methods (noun : String) {data : Item .classData} (member : data ∈ (placed.pool .classData).items)
    {entries : List DefinedMethod}
    (held : ∀ entry ∈ entries, Held.data .code .code entry.code.state ∈ (itemHolding .classData).held data)
    {bytes : Bytes} (encoded : DefinedMethod.encodeList 0 entries = .ok bytes) {count : UInt32}
    (counted : count.toNat = entries.length) :
    Loads image placed layout 2 (DefinedMethod.loadList noun count) bytes fun pools read =>
      DefinedMethod.holding.list.Matches (SameContents placed pools) entries read := by
  obtain ⟨triples, rfl, rfl, length, -, known⟩ := DefinedMethod.encodeList_eq_ok encoded
  have each : List.Forall₂ (fun part (triple : UInt32 × UInt32 × DataRef .code) => ∀ index,
      Loads image placed layout 2 (do
        let difference ← ofDecoder Decoder.uleb128
        let access ← ofDecoder Decoder.uleb128
        let offset ← ofDecoder Decoder.uleb128
        let code ← Reading.within (.nth noun index) (refAt .code CodeItem.load offset)
        return (difference, access, code)) part fun pools read => read.1 = triple.1 ∧ read.2.1 = triple.2.1 ∧
          (DataRef.holding .code).Matches (SameContents placed pools) triple.2.2 read.2.2)
      (triples.map DefinedMethod.tripleBytes) triples := by
    refine .of_map_left fun triple present index => ?_
    obtain ⟨entry, listed, same⟩ := DefinedMethod.code_of_mem present
    have code := (Loads.refAt complete rfl (by decide : PoolKind.code.depth < 2) (loads_code complete) member
      (same ▸ held entry listed) (known triple present)).within (.nth noun index)
    rw [DefinedMethod.tripleBytes, List.append_assoc, ← List.append_nil (Leb128.encodeUInt32 triple.2.2.knownOffset)]
    refine .read_bind (.uleb128 _) (.read_bind (.uleb128 _) (.read_bind (.uleb128 _) ?_))
    refine (code.bind (fun grows matching => matching.mono fun same => same.mono grows) fun read =>
      .pure fun _ => rfl).weaken ?_
    rintro pools _ ⟨read, matching, rfl⟩
    exact ⟨rfl, rfl, matching⟩
  rw [DefinedMethod.loadList, counted, ← length, ← List.append_nil (List.flatten _)]
  refine ((Loads.collect (fun grows matching => ⟨matching.1, matching.2.1,
    matching.2.2.mono fun same => same.mono grows⟩) each).bind (fun grows each => each.imp fun _ _ matching =>
      ⟨matching.1, matching.2.1, matching.2.2.mono fun same => same.mono grows⟩) fun read =>
        .pure fun _ => rfl).weaken ?_
  rintro pools _ ⟨read, each, rfl⟩
  exact DefinedMethod.matches_ofDifferences each 0

theorem loads_classData : LoadsItems image placed layout .classData ClassData.load := by
  intro data bytes member encoded small
  obtain ⟨staticFields, instanceFields, directMethods, virtualMethods⟩ := (data : ClassData)
  have counted := ClassData.counted_of_encode encoded small
  obtain ⟨statics, instances, direct, virtual, staticsEncoded, instancesEncoded, directEncoded, virtualEncoded, rfl⟩ :=
    ClassData.encode_eq_ok.mp encoded
  dsimp only at staticsEncoded instancesEncoded directEncoded virtualEncoded ⊢
  have inMethods {entries : List DefinedMethod} {entry : DefinedMethod} (there : entry ∈ entries) :
      Held.data .code .code entry.code.state ∈ DefinedMethod.holding.list.held entries :=
    List.mem_flatMap.mpr ⟨entry, there, List.mem_cons_of_mem _ (List.mem_singleton_self _)⟩
  have directLoads := loads_methods complete "direct method" member
    (fun entry there => List.mem_append_right _ (List.mem_append_right _ (List.mem_append_left _ (inMethods there))))
    directEncoded (toNat_toUInt32_of_lt counted.directMethods)
  have virtualLoads := loads_methods complete "virtual method" member
    (fun entry there => List.mem_append_right _ (List.mem_append_right _ (List.mem_append_right _ (inMethods there))))
    virtualEncoded (toNat_toUInt32_of_lt counted.virtualMethods)
  rw [← List.append_nil virtual]
  refine (Loads.read_bind (.uleb128 _) (.read_bind (.uleb128 _) (.read_bind (.uleb128 _) (.read_bind (.uleb128 _)
    (.read_bind (DefinedField.reads_encodeList staticsEncoded (toNat_toUInt32_of_lt counted.staticFields))
      (.read_bind (DefinedField.reads_encodeList instancesEncoded (toNat_toUInt32_of_lt counted.instanceFields))
        (directLoads.bind (fun grows matching => matching.mono fun same => same.mono grows) fun direct' =>
          virtualLoads.bind (fun grows matching => matching.mono fun same => same.mono grows) fun virtual' =>
            .pure fun _ => rfl))))))).weaken ?_
  rintro pools _ ⟨direct', directMatching, virtual', virtualMatching, rfl⟩
  have fields (entries : List DefinedField) :
      DefinedField.holding.list.Matches (SameContents placed pools) entries entries := by
    refine .list (List.forall₂_same.mpr fun entry _ => .refl ?_)
    simp [DefinedField.holding, IdRef.holding, Holding.part]
  change ClassData.holding.Matches _ (ClassData.mk _ _ _ _) (ClassData.mk _ _ _ _)
  unfold ClassData.holding
  exact .part (fun _ => rfl) (.pair (fields _) (.pair (fields _) (.pair directMatching virtualMatching)))

theorem loads_protoId : LoadsItems image placed layout .protoId ProtoId.load := by
  intro proto bytes member encoded small
  obtain ⟨shorty, returnType, parameters⟩ := (proto : ProtoId)
  obtain ⟨_, _, last, shortyEncoded, returnEncoded, parametersEncoded, rfl⟩ := ProtoId.encode_eq_ok encoded
  have parametersLoad := Loads.ref complete rfl (by decide : PoolKind.typeList.depth < 4) loads_typeList member
    (List.mem_append_right _ (List.mem_append_right _ (List.mem_singleton_self _))) parametersEncoded
  rw [← List.append_nil last]
  refine (Loads.read_bind (IdRef.reads_encodeWord shortyEncoded) (.read_bind (IdRef.reads_encodeWord returnEncoded)
    (parametersLoad.bind (fun grows matching => matching.mono fun same => same.mono grows) fun parameters' =>
      .pure fun _ => rfl))).weaken ?_
  rintro pools _ ⟨parameters', matching, rfl⟩
  change ProtoId.holding.Matches _ (ProtoId.mk _ _ _) (ProtoId.mk _ _ _)
  unfold ProtoId.holding
  exact .part (fun _ => rfl) (.pair (IdRef.matches_self _ _ _) (.pair (IdRef.matches_self _ _ _) matching))

theorem loads_classDef : LoadsItems image placed layout .classDef ClassDef.load := by
  intro definition bytes member encoded small
  have readable := complete.readable .classDef definition member
  obtain ⟨type, access, superclass, interfaces, sourceFile, annotations, classData, staticValues⟩ :=
    (definition : ClassDef)
  obtain ⟨_, _, _, _, last, typeEncoded, interfacesEncoded, annotationsEncoded, dataEncoded, valuesEncoded, rfl⟩ :=
    ClassDef.encode_eq_ok encoded
  have grown {target : PoolKind} {usage : Usage} {one read : DataRef target} {pools longer : Pools}
      (grows : pools.Extends longer) (matching : (DataRef.holding usage).Matches (SameContents placed pools) one read) :
      (DataRef.holding usage).Matches (SameContents placed longer) one read :=
    matching.mono fun same => same.mono grows
  have interfacesLoad := Loads.ref complete rfl (by decide : PoolKind.typeList.depth < 4) loads_typeList member
    (List.mem_append_right _ (List.mem_append_right _ (List.mem_append_left _ (List.mem_singleton_self _))))
    interfacesEncoded
  have annotationsLoad := Loads.ref complete rfl (by decide : PoolKind.annotationsDirectory.depth < 4)
    (loads_annotationsDirectory complete) member
    (List.mem_append_right _ (List.mem_append_right _ (List.mem_append_right _ (List.mem_append_right _
      (List.mem_append_left _ (List.mem_singleton_self _)))))) annotationsEncoded
  have dataLoad := Loads.ref complete rfl (by decide : PoolKind.classData.depth < 4) (loads_classData complete) member
    (List.mem_append_right _ (List.mem_append_right _ (List.mem_append_right _ (List.mem_append_right _
      (List.mem_append_right _ (List.mem_append_left _ (List.mem_singleton_self _))))))) dataEncoded
  have valuesLoad := Loads.ref complete rfl (by decide : PoolKind.encodedArray.depth < 4) loads_encodedArray member
    (List.mem_append_right _ (List.mem_append_right _ (List.mem_append_right _ (List.mem_append_right _
      (List.mem_append_right _ (List.mem_append_right _ (List.mem_singleton_self _))))))) valuesEncoded
  rw [← List.append_nil last]
  refine (Loads.read_bind (IdRef.reads_encodeWord typeEncoded) (.read_bind (.u4 _) (.read_bind (.u4 _)
    (interfacesLoad.bind grown fun interfaces' => .read_bind (.u4 _) (annotationsLoad.bind grown fun annotations' =>
      dataLoad.bind grown fun data' => valuesLoad.bind grown fun values' => .pure fun _ => rfl))))).weaken ?_
  rintro pools _ ⟨interfaces', interfacesMatching, annotations', annotationsMatching, data', dataMatching, values',
    valuesMatching, rfl⟩
  rw [IdRef.ofRaw_raw readable.1, IdRef.ofRaw_raw readable.2]
  change ClassDef.holding.Matches _ (ClassDef.mk ..) (ClassDef.mk ..)
  unfold ClassDef.holding
  exact .part (fun _ => rfl) (.pair (IdRef.matches_self _ _ _) (.pair (IdRef.matches_self _ _ _)
    (.pair interfacesMatching (.pair (IdRef.matches_self _ _ _) (.pair annotationsMatching
      (.pair dataMatching valuesMatching))))))

end Definitions
end DexImage
