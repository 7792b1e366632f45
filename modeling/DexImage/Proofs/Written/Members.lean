import DexImage.Proofs.Codec.Members
import DexImage.Proofs.Codec.Writing
import DexImage.Proofs.Loading.Repeated
import DexImage.Proofs.Rereading.Tidy
import Mathlib.Data.List.Pairwise
/-! # Members that are written and read back

Members are written as differences from the member before, so that a list can be written if its indices ascend,
and bringing class data up to date makes them ascend. Reading adds the differences up again. It follows the
references to code on its way, and gets one wherever the image holds code (`Loading.Gets`). Hence class data
that can be written is read back wherever it lies among the code that it refers to, in either byte order
(`ClassData.load_written_members`).
-/

namespace DexImage

open Reading

theorem inOrder_cons_cons {first second : UInt32} {rest : List UInt32} :
    InOrder (first :: second :: rest) ↔ first ≤ second ∧ InOrder (second :: rest) := by
  have transitive : IsTrans UInt32 (· ≤ ·) := ⟨fun _ _ _ => UInt32.le_trans⟩
  exact List.pairwise_cons_cons_iff_of_trans

/-- No index is less than what the first difference is taken from. -/
theorem inOrder_zero_cons {keys : List UInt32} : InOrder (0 :: keys) ↔ InOrder keys :=
  List.pairwise_cons.trans (and_iff_right fun _ _ => UInt32.zero_le)

/-- Fields can be written if their indices ascend, and then only. -/
theorem DefinedField.exists_encodeList {previous : UInt32} {entries : List DefinedField}
    (present : ∀ entry ∈ entries, entry.field.isPresent = true) :
    (∃ bytes, encodeList previous entries = .ok bytes) ↔ InOrder (previous :: entries.map (·.field.raw)) := by
  induction entries generalizing previous with
  | nil => exact iff_of_true ⟨[], rfl⟩ (List.pairwise_singleton _ _)
  | cons entry rest ih =>
    obtain ⟨head, others⟩ := List.forall_mem_cons.mp present
    obtain ⟨⟨_ | index⟩, access⟩ := entry
    · cases head
    rw [List.map_cons, inOrder_cons_cons, ← ih others, show IdRef.mk (some index) = .of index from rfl, encodeList_cons]
    change _ ↔ previous ≤ index ∧ _
    split_ifs with less
    · exact iff_of_false (by rintro ⟨_, ⟨⟩⟩) fun ordered => UInt32.not_le.mpr less ordered.1
    · rw [and_iff_right (UInt32.not_lt.mp less)]
      exact Result.exists_map_eq_ok

/-- Methods whose code has been laid out can be written if their indices ascend, and then only. -/
theorem DefinedMethod.exists_encodeList {previous : UInt32} {entries : List DefinedMethod}
    (present : ∀ entry ∈ entries, entry.method.isPresent = true)
    (placed : ∀ entry ∈ entries, ∃ offset, entry.code.offset = .ok offset) :
    (∃ bytes, encodeList previous entries = .ok bytes) ↔ InOrder (previous :: entries.map (·.method.raw)) := by
  induction entries generalizing previous with
  | nil => exact iff_of_true ⟨[], rfl⟩ (List.pairwise_singleton _ _)
  | cons entry rest ih =>
    obtain ⟨head, others⟩ := List.forall_mem_cons.mp present
    obtain ⟨⟨offset, known⟩, otherCodes⟩ := List.forall_mem_cons.mp placed
    obtain ⟨⟨_ | index⟩, access, code⟩ := entry
    · cases head
    rw [List.map_cons, inOrder_cons_cons, ← ih others otherCodes, show IdRef.mk (some index) = .of index from rfl,
      encodeList_cons]
    change _ ↔ previous ≤ index ∧ _
    split_ifs with less
    · exact iff_of_false (by rintro ⟨_, ⟨⟩⟩) fun ordered => UInt32.not_le.mpr less ordered.1
    · rw [and_iff_right (UInt32.not_lt.mp less), show code.offset = .ok offset from known]
      exact Result.exists_map_eq_ok

/-- Whether methods agree in all that is written of them. -/
structure DefinedMethod.Alike (first second : DefinedMethod) : Prop where
  method : second.method = first.method
  access : second.access = first.access
  code : second.code.offset = first.code.offset

/-- The same differences, access flags and offsets make up methods alike. -/
theorem DefinedMethod.alike_ofDifferences {triples others : List (UInt32 × UInt32 × DataRef .code)}
    (same : List.Forall₂ (fun one other => other.1 = one.1 ∧ other.2.1 = one.2.1 ∧ other.2.2.offset = one.2.2.offset)
      triples others) (previous : UInt32) :
    List.Forall₂ Alike (ofDifferences previous triples) (ofDifferences previous others) := by
  induction same generalizing previous with
  | nil => exact .nil
  | @cons one other _ _ head _ ih =>
    obtain ⟨difference, access, code⟩ := one
    obtain ⟨_, _, code'⟩ := other
    obtain ⟨rfl, rfl, code⟩ := head
    exact .cons ⟨rfl, rfl, code⟩ (ih _)

namespace Loading

variable {image : Cursor} {strict : Bool} {α β : Type} {bytes first second : Bytes} {post : α → Prop}

/-- Whether the loaders of an image, wherever they stand in it, read some bytes ahead as a value of which `post`
holds. -/
def Gets (image : Cursor) (strict : Bool) (step : Loading α) (bytes : Bytes) (post : α → Prop) : Prop :=
  ∀ loader : Loader, loader.Over image strict → loader.cursor.Reaches bytes →
    ∃ value after, step loader = (.ok value, after) ∧ after.cursor = loader.cursor.advance bytes.length ∧
      after.strict = strict ∧ post value

namespace Gets

variable {step : Loading α} {next : α → Loading β} {post' : β → Prop}

protected theorem bind (gets : Gets image strict step first post)
    (then' : ∀ value, post value → Gets image strict (next value) second post') :
    Gets image strict (step >>= next) (first ++ second) post' := by
  intro loader stands reaches
  obtain ⟨value, between, run, moved, strictness, holds⟩ := gets loader stands reaches.left
  have inside : between.Over image strict := by
    obtain ⟨position, inside⟩ := stands.inside
    exact ⟨⟨position + first.length, by rw [moved, inside, Cursor.advance]⟩, strictness⟩
  obtain ⟨value', after, run', moved', strictness, holds⟩ := then' value holds between inside (moved ▸ reaches.right)
  refine ⟨value', after, (bind_ok run).trans run', ?_, strictness, holds⟩
  rw [moved', moved, Cursor.advance_advance, List.length_append]

protected theorem pure {value : α} (holds : post value) : Gets image strict (pure value) [] post :=
  fun loader stands _ => ⟨value, loader, rfl, rfl, stands.strictness, holds⟩

/-- A last step that reads nothing. -/
theorem bind_pure {edit : α → β} (gets : Gets image strict step bytes post)
    (then' : ∀ value, post value → post' (edit value)) :
    Gets image strict (step >>= fun value => pure (edit value)) bytes post' := by
  have whole : Gets image strict (step >>= fun value => pure (edit value)) (bytes ++ []) post' :=
    gets.bind fun value holds => .pure (then' value holds)
  rwa [List.append_nil] at whole

protected theorem within (gets : Gets image strict step bytes post) (site : Site) :
    Gets image strict (Reading.within site step) bytes post := by
  intro loader stands reaches
  obtain ⟨value, after, run, rest⟩ := gets loader stands reaches
  exact ⟨value, after, within_ok run, rest⟩

/-- A step that follows what a decoder reads in either byte order. -/
theorem read_bind {step : Decoder α} {value : α} (reads : Reads step first value) (unordered : step.Unordered)
    (then' : Gets image strict (next value) second post') :
    Gets image strict (ofDecoder step >>= next) (first ++ second) post' := by
  refine Gets.bind (fun loader stands reaches =>
    ⟨value, { loader with cursor := loader.cursor.advance first.length }, ?_, rfl, stands.strictness, rfl⟩)
    (fun _ same => same.symm ▸ then')
  rw [ofDecoder]
  simp only [unordered.run reads reaches]

/-- Steps in a row read parts in a row. -/
theorem collect {step : Nat → Loading α} {parts : List Bytes} {items : List β} {related : β → α → Prop}
    (each : List.Forall₂ (fun part item => ∀ index, Gets image strict (step index) part (related item)) parts items) :
    Gets image strict (Reading.collect items.length step) parts.flatten (List.Forall₂ related items) := by
  have go (index : Nat) (found : List α) : Gets image strict (Reading.collect.go step items.length index found)
      parts.flatten fun values => ∃ rest, values = found.reverse ++ rest ∧ List.Forall₂ related items rest := by
    induction each generalizing index found with
    | nil => exact .pure ⟨[], (List.append_nil _).symm, .nil⟩
    | @cons part item parts items head _ ih =>
      refine (head index).bind fun value holds => ?_
      intro loader stands reaches
      obtain ⟨values, after, run, moved, strictness, rest, rfl, each⟩ :=
        ih (index + 1) (value :: found) loader stands reaches
      exact ⟨_, after, run, moved, strictness, value :: rest, by simp, .cons holds each⟩
  intro loader stands reaches
  obtain ⟨_, after, run, moved, strictness, rest, rfl, each⟩ := go 0 [] loader stands reaches
  exact ⟨_, after, run, moved, strictness, each⟩

/-- A reference to code that the image holds, or to none. -/
theorem code {offset : UInt32} (held : offset = 0 ∨ image.HoldsCode strict offset) :
    Gets image strict (refAt .code CodeItem.load offset) [] fun code => code.offset = .ok offset := by
  intro loader stands reaches
  by_cases zero : offset = 0
  · subst zero
    exact ⟨.absent, loader, rfl, rfl, stands.strictness, rfl⟩
  · obtain ⟨index, after, run, same, stands⟩ := (held.resolve_left zero).refAt zero stands reaches.inside
    exact ⟨.placed index offset, after, run, same, stands.strictness, rfl⟩

end Gets
end Loading

open Loading

/-- Whether an image holds code at the offsets of methods that have one. -/
def Cursor.HoldsCodeOf (image : Cursor) (strict : Bool) (entries : List DefinedMethod) : Prop :=
  ∀ entry ∈ entries, ∀ offset, entry.code.offset = .ok offset → offset = 0 ∨ image.HoldsCode strict offset

theorem DefinedField.unordered_decodeList (noun : String) (count : UInt32) : (decodeList noun count).Unordered :=
  .bind (.collect fun _ => .bind .uleb128 fun _ => .bind (.within .uleb128 _) fun _ => .pure _) fun _ => .pure _

/-- Methods that can be written are read back, with the same code offsets. -/
theorem DefinedMethod.gets_loadList {image : Cursor} {strict : Bool} {entries : List DefinedMethod} {bytes : Bytes}
    (noun : String) (written : encodeList 0 entries = .ok bytes) (few : entries.length < UInt32.size)
    (held : image.HoldsCodeOf strict entries) :
    Gets image strict (loadList noun entries.length.toUInt32) bytes (List.Forall₂ Alike entries) := by
  obtain ⟨triples, rfl, rfl, length, -, known⟩ := encodeList_eq_ok written
  have each : List.Forall₂ (fun part (triple : UInt32 × UInt32 × DataRef .code) => ∀ index, Gets image strict (do
      let difference ← ofDecoder Decoder.uleb128
      let access ← ofDecoder Decoder.uleb128
      let offset ← ofDecoder Decoder.uleb128
      let code ← Reading.within (.nth noun index) (refAt .code CodeItem.load offset)
      return (difference, access, code)) part fun other => other.1 = triple.1 ∧ other.2.1 = triple.2.1 ∧
        other.2.2.offset = triple.2.2.offset) (triples.map tripleBytes) triples := by
    refine .of_map_left fun triple member index => ?_
    obtain ⟨entry, listed, same⟩ := code_of_mem member
    have code : Gets image strict (refAt .code CodeItem.load triple.2.2.knownOffset) [] fun code =>
        code.offset = .ok triple.2.2.knownOffset :=
      .code (held entry listed _ (same ▸ known triple member))
    rw [tripleBytes, List.append_assoc, ← List.append_nil (Leb128.encodeUInt32 triple.2.2.knownOffset)]
    refine .read_bind (.uleb128 _) .uleb128 (.read_bind (.uleb128 _) .uleb128 (.read_bind (.uleb128 _) .uleb128 ?_))
    exact (code.within _).bind_pure fun _ same => ⟨rfl, rfl, same.trans (known triple member).symm⟩
  rw [loadList, toNat_toUInt32_of_lt few, ← length]
  exact (Gets.collect each).bind_pure fun _ same => alike_ofDifferences same 0

namespace ClassData

/-- Whether every member has an index, and the code of every method has been laid out. -/
structure Resolved (data : ClassData) : Prop where
  fields : ∀ entry ∈ data.fields, entry.field.isPresent = true
  methods : ∀ entry ∈ data.methods, entry.method.isPresent = true
  code : ∀ entry ∈ data.methods, ∃ offset, entry.code.offset = .ok offset

/-- Whether the indices of each list ascend; they may repeat. -/
structure Ascending (data : ClassData) : Prop where
  staticFields : InOrder (data.staticFields.map (·.field.raw))
  instanceFields : InOrder (data.instanceFields.map (·.field.raw))
  directMethods : InOrder (data.directMethods.map (·.method.raw))
  virtualMethods : InOrder (data.virtualMethods.map (·.method.raw))

/-- Whether class data has the members of other class data in the order of their indices, and those of one index in the
order in which they stood. -/
structure StablyOrdered (data ordered : ClassData) : Prop where
  staticFields : StablySorted (·.field.raw) data.staticFields ordered.staticFields
  instanceFields : StablySorted (·.field.raw) data.instanceFields ordered.instanceFields
  directMethods : StablySorted (·.method.raw) data.directMethods ordered.directMethods
  virtualMethods : StablySorted (·.method.raw) data.virtualMethods ordered.virtualMethods

/-- Whether class data has the members of other class data in their order, with their access flags and the offsets of
their code. -/
structure Alike (data copy : ClassData) : Prop where
  staticFields : copy.staticFields = data.staticFields
  instanceFields : copy.instanceFields = data.instanceFields
  directMethods : List.Forall₂ DefinedMethod.Alike data.directMethods copy.directMethods
  virtualMethods : List.Forall₂ DefinedMethod.Alike data.virtualMethods copy.virtualMethods

theorem stablyOrdered_refresh (data : ClassData) : data.StablyOrdered (refresh data) where
  staticFields := stablySorted_mergeSort _ _
  instanceFields := stablySorted_mergeSort _ _
  directMethods := stablySorted_mergeSort _ _
  virtualMethods := stablySorted_mergeSort _ _

theorem StablyOrdered.ascending {data ordered : ClassData} (stably : data.StablyOrdered ordered) : ordered.Ascending :=
  ⟨stably.staticFields.ordered, stably.instanceFields.ordered,
    stably.directMethods.ordered, stably.virtualMethods.ordered⟩

theorem Resolved.stablyOrdered {data ordered : ClassData} (resolved : data.Resolved)
    (stably : data.StablyOrdered ordered) :
    ordered.Resolved := by
  have fields := stably.staticFields.perm.append stably.instanceFields.perm
  have methods := stably.directMethods.perm.append stably.virtualMethods.perm
  exact ⟨fun entry member => resolved.fields entry (fields.mem_iff.mp member),
    fun entry member => resolved.methods entry (methods.mem_iff.mp member),
    fun entry member => resolved.code entry (methods.mem_iff.mp member)⟩

/-- Class data whose references are known can be written if its indices ascend, and then only. -/
theorem exists_encode {data : ClassData} (resolved : data.Resolved) :
    (∃ bytes, encode data = .ok bytes) ↔ data.Ascending := by
  have statics := (DefinedField.exists_encodeList fun entry member =>
    resolved.fields entry (List.mem_append_left _ member)).trans inOrder_zero_cons
  have instances := (DefinedField.exists_encodeList fun entry member =>
    resolved.fields entry (List.mem_append_right _ member)).trans inOrder_zero_cons
  have direct := (DefinedMethod.exists_encodeList (fun entry member =>
    resolved.methods entry (List.mem_append_left _ member)) fun entry member =>
      resolved.code entry (List.mem_append_left _ member)).trans inOrder_zero_cons
  have virtual := (DefinedMethod.exists_encodeList (fun entry member =>
    resolved.methods entry (List.mem_append_right _ member)) fun entry member =>
      resolved.code entry (List.mem_append_right _ member)).trans inOrder_zero_cons
  constructor
  · rintro ⟨bytes, success⟩
    obtain ⟨_, _, _, _, first, second, third, fourth, -⟩ := encode_eq_ok.mp success
    exact ⟨statics.mp ⟨_, first⟩, instances.mp ⟨_, second⟩, direct.mp ⟨_, third⟩, virtual.mp ⟨_, fourth⟩⟩
  · intro ascending
    obtain ⟨_, first⟩ := statics.mpr ascending.staticFields
    obtain ⟨_, second⟩ := instances.mpr ascending.instanceFields
    obtain ⟨_, third⟩ := direct.mpr ascending.directMethods
    obtain ⟨_, fourth⟩ := virtual.mpr ascending.virtualMethods
    exact ⟨_, encode_eq_ok.mpr ⟨_, _, _, _, first, second, third, fourth, rfl⟩⟩

/-- Class data that can be written is read back wherever its image holds the code that it refers to. -/
theorem gets_load {image : Cursor} {strict : Bool} {data : ClassData}
    {bytes : Bytes} (written : encode data = .ok bytes)
    (counted : data.Counted) (held : image.HoldsCodeOf strict data.methods) :
    Gets image strict load bytes data.Alike := by
  obtain ⟨statics, instances, direct, virtual, first, second, third, fourth, rfl⟩ := encode_eq_ok.mp written
  have directMethods := DefinedMethod.gets_loadList "direct method" third counted.directMethods fun entry member =>
    held entry (List.mem_append_left _ member)
  have virtualMethods := DefinedMethod.gets_loadList "virtual method" fourth counted.virtualMethods fun entry member =>
    held entry (List.mem_append_right _ member)
  refine .read_bind (.uleb128 _) .uleb128 (.read_bind (.uleb128 _) .uleb128 ?_)
  refine .read_bind (.uleb128 _) .uleb128 (.read_bind (.uleb128 _) .uleb128 ?_)
  refine .read_bind (DefinedField.reads_encodeList first (toNat_toUInt32_of_lt counted.staticFields))
    (DefinedField.unordered_decodeList _ _) ?_
  refine .read_bind (DefinedField.reads_encodeList second (toNat_toUInt32_of_lt counted.instanceFields))
    (DefinedField.unordered_decodeList _ _) ?_
  exact directMethods.bind fun _ direct => virtualMethods.bind_pure fun _ virtual => ⟨rfl, rfl, direct, virtual⟩

/-- Class data whose members all have indices, with code that has been laid out, can be written if the indices
of each list ascend, and then only. Bringing it up to date makes them ascend and moves no two members of one
index past each other. What has been written is read back as the same members with the same access flags and
code offsets, in either byte order, by any loader that it lies ahead of in an image that holds the code,
whatever the loader has read before. -/
theorem load_written_members (data : ClassData) (resolved : data.Resolved) (counted : data.Counted) :
    (∀ out, (∃ count after, data.write out = (.ok count, after)) ↔ data.Ascending) ∧
      (data.StablyOrdered (refresh data) ∧ ∀ out, ∃ count after, (refresh data).write out = (.ok count, after)) ∧
      ∀ out count after, data.write out = (.ok count, after) →
        ∃ bytes, after = out ++ bytes ∧ count = bytes.length ∧
        ∀ loader : Loader, loader.cursor.Reaches bytes → loader.cursor.HoldsCodeOf loader.strict data.methods →
          ∃ copy last, load loader = (.ok copy, last) ∧
          last.cursor = loader.cursor.advance bytes.length ∧ data.Alike copy := by
  have stably := data.stablyOrdered_refresh
  refine ⟨fun out => data.writes.exists_run_ok.trans (exists_encode resolved), ⟨stably, fun out => ?_⟩,
    fun out count after run => ?_⟩
  · exact (refresh data).writes.exists_run_ok.mpr ((exists_encode (resolved.stablyOrdered stably)).mpr stably.ascending)
  · obtain ⟨bytes, encoded⟩ := data.writes.exists_run_ok.mp ⟨count, after, run⟩
    obtain ⟨same, rfl⟩ := Prod.mk.inj ((data.writes.run_ok encoded out).symm.trans run)
    refine ⟨bytes, rfl, (Except.ok.inj same).symm, fun loader reaches held => ?_⟩
    have inside : loader.Over loader.cursor loader.strict := ⟨⟨loader.cursor.position, rfl⟩, rfl⟩
    obtain ⟨copy, last, run, moved, -, alike⟩ := gets_load encoded counted held loader inside reaches
    exact ⟨copy, last, run, moved, alike⟩

/-- A field that is listed twice, one with the largest index, and a method whose code lies behind the class data. -/
def withCode : ClassData where
  staticFields := [⟨.of 0, 1⟩, ⟨.of 0, 8⟩, ⟨.of 0xffffffff, 0xffffffff⟩]
  instanceFields := []
  directMethods := [⟨.of 7, 1, .placed 3 24⟩]
  virtualMethods := [⟨.of 2, 0, .absent⟩]

/-- The class data, and a code item in big-endian order. -/
def withCodeBytes : Bytes :=
  [3, 0, 1, 1, 0, 1, 0, 8, 255, 255, 255, 255, 15, 255, 255, 255, 255, 15, 7, 1, 24, 2, 0, 0] ++
    [0, 1, 0, 0, 0, 0, 0, 0, 0, 0, 0, 0, 0, 0, 0, 1, 0, 14]

/-- Written class data is read back ahead of a big-endian loader, with its code behind it. -/
theorem load_withCode : withCode.Ascending ∧ (∃ count after, (refresh withCode).write [] = (.ok count, after)) ∧
    withCode.write [] = (.ok 24, withCodeBytes.take 24) ∧
      ∃ copy last, load (.ofCursor ⟨withCodeBytes.toArray, 0, true⟩ true) = (.ok copy, last) ∧
        last.cursor.position = 24 ∧ withCode.Alike copy := by
  have resolved : withCode.Resolved := ⟨by decide, by decide, fun entry member => by
    rcases List.mem_pair.mp member with rfl | rfl
    · exact ⟨24, rfl⟩
    · exact ⟨0, rfl⟩⟩
  have counted : withCode.Counted := ⟨by decide, by decide, by decide, by decide⟩
  obtain ⟨writable, ⟨-, refreshed⟩, reread⟩ := load_written_members withCode resolved counted
  have encoded : encode withCode = .ok (withCodeBytes.take 24) := Result.toOption_eq_some.mp (by decide +kernel)
  have run : withCode.write [] = (.ok 24, withCodeBytes.take 24) := withCode.writes.run_ok encoded []
  refine ⟨(writable []).mp ⟨_, _, run⟩, refreshed [], run, ?_⟩
  obtain ⟨bytes, same, -, reread⟩ := reread _ _ _ run
  obtain rfl : withCodeBytes.take 24 = bytes := same
  have code : (⟨withCodeBytes.toArray, 0, true⟩ : Cursor).HoldsCode true 24 := by decide +kernel
  obtain ⟨copy, last, read, moved, alike⟩ := reread (.ofCursor ⟨withCodeBytes.toArray, 0, true⟩ true)
    ⟨Nat.zero_le _, List.take_prefix 24 withCodeBytes⟩ fun entry member offset known => by
      rcases List.mem_pair.mp member with rfl | rfl
      · exact .inr (Except.ok.inj known ▸ code)
      · exact .inl (Except.ok.inj known).symm
  exact ⟨copy, last, read, congrArg Cursor.position moved, alike⟩

end ClassData
end DexImage
