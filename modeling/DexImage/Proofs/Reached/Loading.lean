import DexImage.Image.Basic
import DexImage.Proofs.Rereading.Decoding
/-! # What loading keeps

Whatever bytes are loaded, pools stay regular: an item is appended once what it refers to has been, so that its
references lead to items. Hence what is read from an image is regular (`Image.regular_read`).
-/

namespace DexImage

open Loading Pools

/-- Whether an item has neither edit marks nor values of another width than they are written with. -/
def AsRead : {kind : PoolKind} → Item kind → Prop
  | .code, code => CodeItem.reread code = code
  | .annotationItem, item => AnnotationItem.effective item = item
  | .encodedArray, array => EncodedArray.effective array = array
  | _, _ => True

/-- Whether what a loader has read is regular, and the data items are those that it knows by their offsets. -/
structure Loader.Regular (loader : Loader) : Prop where
  pools : loader.pools.Regular
  inside : ∀ (kind : PoolKind) offset index, ((kind.toSection, offset), index) ∈ loader.loaded →
    loader.pools.contains (kind, index)
  known : ∀ kind : PoolKind, kind.toSection.isIdTable = false → ∀ index, loader.pools.contains (kind, index) →
    ∃ offset, ((kind.toSection, offset), index) ∈ loader.loaded
  asRead : ∀ kind, ∀ item ∈ (loader.pools.pool kind).items, AsRead item

/-- Whether an item is as it is read back and refers to items of the pools. -/
def RegularItem {kind : PoolKind} (pools : Pools) (item : Item kind) : Prop :=
  Formed item ∧ Anchored pools item ∧ AsRead item

namespace Loader

theorem Regular.asRead_push {loader : Loader} (regular : loader.Regular) {kind : PoolKind} {item : Item kind}
    (asRead : AsRead item) (other : PoolKind) :
    ∀ one ∈ ((loader.pools.push kind item).pool other).items, AsRead one := by
  intro one member
  rcases Pools.mem_push member with old | ⟨rfl, rfl⟩
  · exact regular.asRead other one old
  · exact asRead

/-- An entry of an id table is appended. -/
theorem Regular.push {loader : Loader} (regular : loader.Regular)
    {kind : PoolKind} (table : kind.toSection.isIdTable = true)
    {item : Item kind} (good : RegularItem loader.pools item) :
    Regular { loader with pools := loader.pools.push kind item } where
  pools := regular.pools.push good.1 good.2.1
  inside other offset index known := contains_of_extends (extends_push _ _ _) (regular.inside other offset index known)
  known other plain index inside := by
    rcases contains_push inside with earlier | ⟨rfl, -⟩
    · exact regular.known other plain index earlier
    · rw [table] at plain
      cases plain
  asRead := regular.asRead_push good.2.2

/-- A data item is appended and known from then on. -/
theorem Regular.remember {loader : Loader} (regular : loader.Regular) {kind : PoolKind} {item : Item kind}
    (good : RegularItem loader.pools item) (offset : UInt32) :
    Regular { loader with
      pools := loader.pools.push kind item
      loaded := ((kind.toSection, offset), (loader.pools.pool kind).nextIndex) :: loader.loaded } where
  pools := regular.pools.push good.1 good.2.1
  inside other place index known := by
    rcases List.mem_cons.mp known with same | known
    · obtain ⟨place, rfl⟩ := Prod.mk.inj same
      obtain rfl := PoolKind.toSection_injective (Prod.mk.inj place).1
      exact contains_nextIndex _ _ _
    · exact contains_of_extends (extends_push _ _ _) (regular.inside other place index known)
  known other plain index inside := by
    rcases contains_push inside with earlier | ⟨rfl, rfl⟩
    · obtain ⟨place, known⟩ := regular.known other plain index earlier
      exact ⟨place, List.mem_cons_of_mem _ known⟩
    · exact ⟨offset, List.mem_cons_self⟩
  asRead := regular.asRead_push good.2.2

end Loader

namespace Loading

variable {α β : Type} {step : Loading α} {mid post : Pools → α → Prop} {last : Pools → β → Prop}

/-- Whether a step that succeeds keeps a loader regular, only appends to its pools, and yields a value of which
`post` holds. -/
structure Keeps (step : Loading α) (post : Pools → α → Prop) : Prop where
  holds : ∀ loader value after, step loader = (.ok value, after) → loader.Regular →
    after.Regular ∧ loader.pools.Extends after.pools ∧ post after.pools value

namespace Keeps

protected theorem pure {value : α} (holds : ∀ pools, post pools value) : Keeps (pure value) post := by
  constructor
  intro loader other after run regular
  obtain ⟨rfl, rfl⟩ := Reading.pure_eq_ok.mp run
  exact ⟨regular, .refl _, holds _⟩

/-- What a first step yields has its property until the last one is done. -/
protected theorem bind {next : α → Loading β} (first : Keeps step mid)
    (mono : ∀ {before after value}, before.Extends after → mid before value → mid after value)
    (rest : ∀ value, Keeps (next value) fun pools result => mid pools value → last pools result) :
    Keeps (step >>= next) last := by
  constructor
  intro loader result after run regular
  obtain ⟨value, between, run, run'⟩ := Reading.bind_eq_ok.mp run
  obtain ⟨regular, grows, holds⟩ := first.holds _ _ _ run regular
  obtain ⟨regular, grows', follows⟩ := (rest value).holds _ _ _ run' regular
  exact ⟨regular, grows.trans grows', follows (mono grows' holds)⟩

/-- A step whose value does not matter. -/
theorem skip {next : α → Loading β} (first : Keeps step fun _ _ => True) (rest : ∀ value, Keeps (next value) last) :
    Keeps (step >>= next) last := by
  apply first.bind fun _ => id
  intro value
  exact ⟨fun loader result after run regular =>
    ((rest value).holds loader result after run regular).imp_right fun both => ⟨both.1, fun _ => both.2⟩⟩

protected theorem ofDecoder {step : Decoder α} {post : α → Prop} (gives : step.Gives post) :
    Keeps (ofDecoder step) fun _ => post := by
  constructor
  intro loader value after run regular
  obtain ⟨same, rfl⟩ := Prod.mk.inj run
  exact ⟨⟨regular.pools, regular.inside, regular.known, regular.asRead⟩,
    .refl _, gives.holds _ _ _ (Prod.ext same rfl)⟩

theorem read {step : Decoder α} : Keeps (ofDecoder step) fun _ _ => True :=
  .ofDecoder ⟨fun _ _ _ _ => trivial⟩

theorem read_bind {step : Decoder α} {next : α → Loading β} (rest : ∀ value, Keeps (next value) last) :
    Keeps (ofDecoder step >>= next) last :=
  .skip .read rest

protected theorem get : Keeps (get : Loading Loader) fun _ _ => True := by
  constructor
  intro loader value after run regular
  obtain ⟨-, rfl⟩ := Prod.mk.inj run
  exact ⟨regular, .refl _, trivial⟩

protected theorem within (keeps : Keeps step post) (site : Site) : Keeps (Reading.within site step) post :=
  ⟨fun loader value after run => keeps.holds loader value after (Reading.within_eq_ok.mp run)⟩

protected theorem map {edit : α → β} (keeps : Keeps step fun pools value => last pools (edit value)) :
    Keeps (edit <$> step) last := by
  rw [← bind_pure_comp]
  constructor
  intro loader result after run regular
  obtain ⟨value, between, run, same⟩ := Reading.bind_eq_ok.mp run
  obtain ⟨rfl, rfl⟩ := Reading.pure_eq_ok.mp same
  exact keeps.holds loader value _ run regular

theorem fail_bind {cause : Cause} {next : β → Loading α} : Keeps (Reading.fail cause >>= next) post := by
  constructor
  rintro loader value after ⟨⟩

protected theorem ite {condition : Prop} [Decidable condition] {yes no : Loading α} (first : Keeps yes post)
    (second : Keeps no post) : Keeps (if condition then yes else no) post := by
  split_ifs
  · exact first
  · exact second

theorem collect {count : Nat} {step : Nat → Loading α} (each : ∀ index, Keeps (step index) post)
    (mono : ∀ {before after value}, before.Extends after → post before value → post after value) :
    Keeps (Reading.collect count step) fun pools values => ∀ value ∈ values, post pools value := by
  have go (count index : Nat) (found : List α) : Keeps (Reading.collect.go step count index found) fun pools values =>
      (∀ value ∈ found, post pools value) → ∀ value ∈ values, post pools value := by
    induction count generalizing index found with
    | zero => exact .pure fun pools good value member => good value (List.mem_reverse.mp member)
    | succ count ih =>
      apply (each index).bind mono
      intro value
      refine ⟨fun loader values after run regular => ?_⟩
      obtain ⟨regular, grows, others⟩ := (ih (index + 1) (value :: found)).holds loader values after run regular
      exact ⟨regular, grows, fun holds good => others (List.forall_mem_cons.mpr ⟨holds, good⟩)⟩
  constructor
  intro loader values after run regular
  obtain ⟨regular, grows, good⟩ := (go count 0 []).holds loader values after run regular
  exact ⟨regular, grows, good fun _ member => absurd member List.not_mem_nil⟩

protected theorem detour (keeps : Keeps step post) (site : Site) (offset : Nat) :
    Keeps (detour site offset step) post := by
  apply read_bind
  intro position
  apply Keeps.skip (Keeps.read.within site)
  intro _
  constructor
  intro loader result after run regular
  obtain ⟨value, between, run, run'⟩ := Reading.bind_eq_ok.mp run
  obtain ⟨regular, grows, holds⟩ := keeps.holds _ _ _ run regular
  obtain ⟨_, back, sought, last⟩ := Reading.bind_eq_ok.mp run'
  obtain ⟨rfl, rfl⟩ := Reading.pure_eq_ok.mp last
  obtain ⟨-, rfl⟩ := Prod.mk.inj sought
  exact ⟨⟨regular.pools, regular.inside, regular.known, regular.asRead⟩, grows, holds⟩

variable {kind : PoolKind} {step : Loading (Item kind)}

/-- An entry of an id table is appended. -/
protected theorem append (table : kind.toSection.isIdTable = true) (keeps : Keeps step RegularItem) :
    Keeps (step >>= append kind) fun pools index => pools.contains (kind, index) := by
  constructor
  intro loader index after run regular
  obtain ⟨item, between, run, appended⟩ := Reading.bind_eq_ok.mp run
  obtain ⟨regular, grows, good⟩ := keeps.holds _ _ _ run regular
  obtain ⟨same, rfl⟩ := Prod.mk.inj appended
  obtain rfl := Except.ok.inj same
  exact ⟨regular.push table good, grows.trans (extends_push _ _ _), contains_nextIndex _ _ _⟩

/-- An item is known by its index once it has been loaded. -/
protected theorem load (keeps : Keeps step RegularItem) (offset : UInt32) :
    Keeps (load kind step offset) fun pools index => pools.contains (kind, index) := by
  constructor
  intro loader index after run regular
  rcases load_eq_ok.mp run with ⟨known, rfl⟩ | ⟨-, item, between, first, rfl, rfl⟩
  · exact ⟨regular, .refl _, regular.inside kind offset index (Loader.mem_loaded known)⟩
  · obtain ⟨regular, grows, good⟩ := ((keeps.within _).detour _ _).holds _ _ _ first regular
    exact ⟨regular.remember good offset, grows.trans (extends_push _ _ _), contains_nextIndex _ _ _⟩

theorem refAt (keeps : Keeps step RegularItem) (offset : UInt32) :
    Keeps (refAt kind step offset) fun pools ref => ref.Inside pools := by
  apply Keeps.ite
  · exact .pure fun pools index present => by cases present
  · apply (Keeps.load keeps offset).bind fun grows inside => contains_of_extends grows inside
    intro index
    apply Keeps.pure
    intro pools inside other present
    obtain rfl := Option.some.inj present
    exact inside

theorem ref (keeps : Keeps step RegularItem) : Keeps (ref kind step) fun pools ref => ref.Inside pools :=
  .read_bind fun offset => .refAt keeps offset

end Keeps
end Loading
section Items

theorem inside_mono {α : Type} {places : Places α} {before after : Pools} {x : α} (grows : before.Extends after)
    (inside : places.Each (Held.Inside before) x) : places.Each (Held.Inside after) x := by
  intro one member
  have leads := inside one member
  cases one with
  | data => exact fun index present => contains_of_extends grows (leads index present)
  | id | operand => trivial

/-- What is loaded as an item whose references to data items lead to items. -/
theorem regularItem_of_inside {kind : PoolKind} {pools : Pools} {item : Item kind} (notDebug : kind ≠ .debugInfo)
    (notClass : kind ≠ .classDef) (formed : Formed item) (asRead : AsRead item)
    (inside : (itemHolding kind).Each (Held.Inside pools) item) : RegularItem pools item :=
  ⟨formed, anchored_of_inside notDebug notClass inside, asRead⟩

/-- Items that refer to no data item are decoded in a form that is read back. -/
theorem keeps_ofDecoder {kind : PoolKind} {step : Decoder (Item kind)} (notDebug : kind ≠ .debugInfo)
    (notClass : kind ≠ .classDef) (dataless : ∀ (item : Item kind) find other, locate find item = locate other item)
    (gives : step.Gives fun item => Formed item ∧ AsRead item) : Keeps (ofDecoder step) RegularItem := by
  constructor
  intro loader item after run regular
  obtain ⟨regular, grows, formed, asRead⟩ := (Keeps.ofDecoder gives).holds loader item after run regular
  exact ⟨regular, grows, formed, anchored_of_ids _ notDebug notClass dataless, asRead⟩

/-- Indices in debug info have 31 bits. -/
theorem DebugInfo.regular_of_readable {info : DebugInfo} (readable : info.Readable) (pools : Pools) :
    @Formed .debugInfo info ∧ @Anchored pools .debugInfo info := by
  let law (one : Held) : Prop := one.kind.toSection.isIdTable = true ∧ ∀ index, one.index = some index →
    index.toNat < 2 ^ 31
  have id {target : PoolKind} (table : target.toSection.isIdTable = true) {ref : IdRef target} (narrow : ref.Narrow) :
      (IdRef.holding .debug).Each law ref := List.forall_mem_singleton.mpr ⟨table, narrow⟩
  have op (op : DebugOp) (readable : op.Readable) : DebugOp.holding.Each law op := by
    cases op with
    | startLocal =>
      exact List.forall_mem_append.mpr ⟨id rfl readable.1, id rfl readable.2⟩
    | startLocalExtended =>
      exact List.forall_mem_append.mpr ⟨id rfl readable.1,
        List.forall_mem_append.mpr ⟨id rfl readable.2.1, id rfl readable.2.2⟩⟩
    | setFile => exact id rfl readable
    | _ => exact fun _ member => absurd member List.not_mem_nil
  have each : DebugInfo.holding.Each law info := List.forall_mem_append.mpr
    ⟨Places.Each.list fun name member => id rfl (readable.names name member),
      Places.Each.list fun one member => op one (readable.ops one member)⟩
  constructor
  · intro op member
    have readable := readable.ops op member
    cases op <;> trivial
  · intro position slot there index present
    have there := (congrArg (·[position]?) (@slots_eq .debugInfo info)).symm.trans there
    obtain ⟨one, member, rfl⟩ := List.mem_map.mp (List.mem_of_getElem? there)
    obtain ⟨table, narrow⟩ := each one member
    left
    have bound : slack .debugInfo position one.slot.kind = 2 ^ 31 := if_pos table
    exact bound ▸ narrow index present

theorem keeps_debugInfo : Keeps (loadItem .debugInfo) RegularItem := by
  constructor
  intro loader info after run regular
  obtain ⟨regular, grows, readable⟩ := (Keeps.ofDecoder DebugInfo.gives_decode).holds loader info after run regular
  obtain ⟨formed, anchored⟩ := DebugInfo.regular_of_readable readable after.pools
  exact ⟨regular, grows, formed, anchored, trivial⟩

theorem keeps_typeList : Keeps (loadItem .typeList) RegularItem :=
  @keeps_ofDecoder .typeList TypeList.decode (by decide) (by decide)
    (fun _ _ _ => rfl) ⟨fun _ _ _ _ => ⟨trivial, trivial⟩⟩

theorem keeps_annotationItem : Keeps (loadItem .annotationItem) RegularItem :=
  @keeps_ofDecoder .annotationItem AnnotationItem.decode (by decide) (by decide) (fun _ _ _ => rfl)
    (AnnotationItem.gives_decode.and (AnnotationItem.gives_spelled.weaken fun _ spelled => spelled.2))

theorem keeps_encodedArray : Keeps (loadItem .encodedArray) RegularItem :=
  @keeps_ofDecoder .encodedArray EncodedArray.decode (by decide) (by decide) (fun _ _ _ => rfl)
    (EncodedArray.gives_spelled.weaken fun _ spelled => ⟨trivial, spelled.2⟩)

theorem keeps_protoId : Keeps (loadItem .protoId) RegularItem := by
  apply Keeps.read_bind
  intro shorty
  apply Keeps.read_bind
  intro returnType
  apply (Keeps.ref keeps_typeList).bind fun grows inside => inside.mono grows
  intro parameters
  exact .pure fun pools inside => ⟨trivial, anchored_protoId inside, trivial⟩

/-- The places of the instructions of a code item hold no reference to a data item. -/
theorem InstructionList.inside (pools : Pools) (list : InstructionList) :
    InstructionList.holding.Each (Held.Inside pools) list := by
  refine Places.Each.list fun instruction _ one member => ?_
  obtain ⟨ref, listed, rfl⟩ := List.mem_map.mp member
  trivial

theorem TryTable.inside (pools : Pools) (table : TryTable) : TryTable.holding.Each (Held.Inside pools) table := by
  refine Holding.each_list (fun list => Holding.each_list (fun handler => ?_) list.handlers) table.handlers.items
  cases handler with
  | typed type _ => exact IdRef.inside_each pools _ type
  | catchAll _ => exact fun one member => absurd member List.not_mem_nil

/-- Code with debug info that is there. -/
theorem CodeItem.anchored {code : CodeItem} {pools : Pools} (debugInfo : code.debugInfo.Inside pools) :
    @Anchored pools .code code :=
  anchored_of_inside (by decide) (by decide) <| List.forall_mem_append.mpr ⟨debugInfo.each .debug,
    List.forall_mem_append.mpr ⟨code.instructions.inside pools,
      Holding.each_option (TryTable.inside pools) code.tryTable⟩⟩

theorem keeps_tryTable {count : UInt16} (some : 0 < count) (start : Nat) :
    Keeps (Option.some <$> Reading.within (.tryTable start) (ofDecoder (TryTable.decode count))) fun _ found =>
      ∀ table, found = Option.some table → table.Formed := by
  apply Keeps.map
  constructor
  intro loader table after run regular
  obtain ⟨regular, grows, formed⟩ :=
    ((Keeps.ofDecoder (TryTable.gives_decode some)).within _).holds loader table after run regular
  refine ⟨regular, grows, fun other same => ?_⟩
  obtain rfl := Option.some.inj same
  exact formed

theorem CodeItem.keeps_load : Keeps load fun pools code => @Anchored pools .code code ∧ @Formed .code code := by
  apply Keeps.read_bind
  intro start
  apply Keeps.read_bind
  intro registers
  apply Keeps.read_bind
  intro ins
  apply Keeps.read_bind
  intro outs
  apply Keeps.read_bind
  intro triesSize
  apply Keeps.skip .get
  intro loader
  apply Keeps.ite .fail_bind
  apply Keeps.read_bind
  intro debugOffset
  apply Keeps.read_bind
  intro unitCount
  apply Keeps.read_bind
  intro units
  have none : Keeps (pure none : Loading (Option TryTable)) fun _ found =>
      ∀ table, found = Option.some table → table.Formed := .pure fun _ table same => by cases same
  refine .ite (.skip (.map .read) fun _ => ?_) ?_
  all_goals
    split_ifs with some
    · apply (keeps_tryTable some start).bind fun _ => id
      intro tryTable
      apply ((Keeps.refAt keeps_debugInfo debugOffset).within _).bind fun grows inside => inside.mono grows
      intro debugInfo
      exact .pure fun pools inside formed => ⟨CodeItem.anchored inside, formed⟩
    · apply none.bind fun _ => id
      intro tryTable
      apply ((Keeps.refAt keeps_debugInfo debugOffset).within _).bind fun grows inside => inside.mono grows
      intro debugInfo
      exact .pure fun pools inside formed => ⟨CodeItem.anchored inside, formed⟩

theorem keeps_code : Keeps (loadItem .code) RegularItem := by
  constructor
  intro loader code after run regular
  obtain ⟨regular, grows, anchored, formed⟩ := CodeItem.keeps_load.holds loader code after run regular
  exact ⟨regular, grows, formed, anchored, (CodeItem.gives_load.holds _ _ _ run).2.2⟩

/-- The code of a method is that of the entry that it was listed by. -/
theorem DefinedMethod.exists_of_mem {previous : UInt32} {triples : List (UInt32 × UInt32 × DataRef .code)}
    {entry : DefinedMethod} (member : entry ∈ ofDifferences previous triples) :
    ∃ triple ∈ triples, triple.2.2 = entry.code := by
  induction triples generalizing previous with
  | nil => cases member
  | cons first rest ih =>
    rw [ofDifferences] at member
    rcases List.mem_cons.mp member with rfl | member
    · exact ⟨first, List.mem_cons_self, rfl⟩
    · obtain ⟨triple, listed, same⟩ := ih member
      exact ⟨triple, List.mem_cons_of_mem _ listed, same⟩

theorem keeps_methods (noun : String) (count : UInt32) : Keeps (DefinedMethod.loadList noun count) fun pools entries =>
    DefinedMethod.holding.list.Each (Held.Inside pools) entries := by
  have each (index : Nat) : Keeps (do
      let difference ← ofDecoder Decoder.uleb128
      let access ← ofDecoder Decoder.uleb128
      let offset ← ofDecoder Decoder.uleb128
      let code ← Reading.within (.nth noun index) (refAt .code CodeItem.load offset)
      return (difference, access, code)) fun pools triple => triple.2.2.Inside pools := by
    apply Keeps.read_bind
    intro difference
    apply Keeps.read_bind
    intro access
    apply Keeps.read_bind
    intro offset
    apply ((Keeps.refAt keeps_code offset).within _).bind fun grows inside => inside.mono grows
    intro code
    exact .pure fun pools inside => inside
  apply (Keeps.collect each fun grows inside => inside.mono grows).bind
    fun grows inside triple member => (inside triple member).mono grows
  intro triples
  apply Keeps.pure
  intro pools inside
  refine Places.Each.list fun entry member => ?_
  obtain ⟨triple, listed, same⟩ := DefinedMethod.exists_of_mem member
  have code : entry.code.Inside pools := same ▸ inside triple listed
  exact List.forall_mem_append.mpr ⟨IdRef.inside_each pools _ entry.method, code.each .code⟩

theorem keeps_classData : Keeps (loadItem .classData) RegularItem := by
  apply Keeps.read_bind
  intro staticCount
  apply Keeps.read_bind
  intro instanceCount
  apply Keeps.read_bind
  intro directCount
  apply Keeps.read_bind
  intro virtualCount
  apply Keeps.read_bind
  intro staticFields
  apply Keeps.read_bind
  intro instanceFields
  apply (keeps_methods _ _).bind inside_mono
  intro directMethods
  apply (keeps_methods _ _).bind inside_mono
  intro virtualMethods
  apply Keeps.pure
  intro pools virtual direct
  have fields (entries : List DefinedField) : DefinedField.holding.list.Each (Held.Inside pools) entries :=
    .list fun entry _ => IdRef.inside_each pools _ entry.field
  exact regularItem_of_inside (by decide) (by decide) trivial trivial <| List.forall_mem_append.mpr
    ⟨fields staticFields,
    List.forall_mem_append.mpr ⟨fields instanceFields, List.forall_mem_append.mpr ⟨direct, virtual⟩⟩⟩

/-- A counted list of references. -/
theorem keeps_loadOffsets {kind : PoolKind} {step : Loading (Item kind)} (keeps : Keeps step RegularItem)
    (noun : String) (usage : Usage) :
    Keeps (loadOffsets kind step noun) fun pools refs =>
      (DataRef.holding usage).list.Each (Held.Inside pools) refs := by
  apply Keeps.read_bind
  intro count
  constructor
  intro loader refs after run regular
  obtain ⟨regular, grows, inside⟩ := (Keeps.collect (fun index => (Keeps.ref keeps).within (.nth noun index))
    fun grows inside => inside.mono grows).holds loader refs after run regular
  exact ⟨regular, grows, .list fun ref member => (inside ref member).each usage⟩

theorem keeps_annotationSet : Keeps (loadItem .annotationSet) RegularItem := by
  apply (keeps_loadOffsets keeps_annotationItem _ .annotated).bind inside_mono
  intro items
  exact .pure fun pools inside => regularItem_of_inside (by decide) (by decide) trivial trivial inside

theorem keeps_annotationSetRefList : Keeps (loadItem .annotationSetRefList) RegularItem := by
  apply (keeps_loadOffsets keeps_annotationSet _ .annotated).bind inside_mono
  intro sets
  exact .pure fun pools inside => regularItem_of_inside (by decide) (by decide) trivial trivial inside

theorem keeps_annotatedMembers {member target : PoolKind} {step : Loading (Item target)}
    (keeps : Keeps step RegularItem)
    (noun : String) (count : UInt32) : Keeps (@AnnotatedMember.loadList member target step noun count)
      fun pools entries => AnnotatedMember.holding.list.Each (Held.Inside pools) entries := by
  have each (index : Nat) : Keeps (do
      let member ← ofDecoder Decoder.wordIndex
      return AnnotatedMember.mk member (← Reading.within (.nth noun index) (ref target step)))
      fun pools (entry : AnnotatedMember member target) => entry.annotations.Inside pools := by
    apply Keeps.read_bind
    intro index
    apply ((Keeps.ref keeps).within _).bind fun grows inside => inside.mono grows
    intro annotations
    exact .pure fun pools inside => inside
  constructor
  intro loader entries after run regular
  obtain ⟨regular, grows, inside⟩ :=
    (Keeps.collect each fun grows inside => inside.mono grows).holds loader entries after run regular
  refine ⟨regular, grows, .list fun entry member => ?_⟩
  exact List.forall_mem_append.mpr ⟨IdRef.inside_each after.pools .annotated entry.member,
    (inside entry member).each .annotated⟩

theorem keeps_annotationsDirectory : Keeps (loadItem .annotationsDirectory) RegularItem := by
  apply ((Keeps.ref keeps_annotationSet).within _).bind fun grows inside => inside.mono grows
  intro classSet
  apply Keeps.read_bind
  intro fieldCount
  apply Keeps.read_bind
  intro methodCount
  apply Keeps.read_bind
  intro parameterCount
  apply (keeps_annotatedMembers keeps_annotationSet _ _).bind inside_mono
  intro fields
  apply (keeps_annotatedMembers keeps_annotationSet _ _).bind inside_mono
  intro methods
  apply (keeps_annotatedMembers keeps_annotationSetRefList _ _).bind inside_mono
  intro parameters
  apply Keeps.pure
  intro pools inParameters inMethods inFields inClassSet
  exact regularItem_of_inside (by decide) (by decide) trivial trivial <| List.forall_mem_append.mpr
    ⟨inClassSet.each .annotated,
    List.forall_mem_append.mpr ⟨inFields, List.forall_mem_append.mpr ⟨inMethods, inParameters⟩⟩⟩

/-- An index that is read as `noIndex` is absent. -/
theorem IdRef.ofRaw_lt {target : PoolKind} {raw index : UInt32}
    (present : (ofRaw raw : IdRef target).index = some index) :
    index.toNat < noIndex.toNat := by
  rw [ofRaw] at present
  split_ifs at present with absent
  · cases present
  · obtain rfl := Option.some.inj present
    have differ : raw.toNat ≠ noIndex.toNat := fun same => absent (UInt32.toNat_inj.mp same)
    have bound := raw.toNat_lt
    have last : noIndex.toNat = 4294967295 := rfl
    omega

theorem keeps_classDef : Keeps (loadItem .classDef) RegularItem := by
  apply Keeps.read_bind
  intro type
  apply Keeps.read_bind
  intro access
  apply Keeps.read_bind
  intro superclass
  apply (Keeps.ref keeps_typeList).bind fun grows inside => inside.mono grows
  intro interfaces
  apply Keeps.read_bind
  intro sourceFile
  apply (Keeps.ref keeps_annotationsDirectory).bind fun grows inside => inside.mono grows
  intro annotations
  apply (Keeps.ref keeps_classData).bind fun grows inside => inside.mono grows
  intro classData
  apply (Keeps.ref keeps_encodedArray).bind fun grows inside => inside.mono grows
  intro staticValues
  apply Keeps.pure
  intro pools inValues inData inAnnotations inInterfaces
  exact ⟨trivial, anchored_classDef (fun index => IdRef.ofRaw_lt)
    (fun index => IdRef.ofRaw_lt) inInterfaces inAnnotations
    inData inValues, trivial⟩

theorem keeps_stringId {step : Loading StringData} (settled : Keeps step fun _ string => string.Settled) :
    @Keeps StringData step (@RegularItem .stringId) := by
  constructor
  intro loader string after run regular
  obtain ⟨regular, grows, settled⟩ := settled.holds loader string after run regular
  exact ⟨regular, grows, settled, @anchored_of_ids .stringId string _ (by decide) (by decide) fun _ _ _ => rfl, trivial⟩

/-- The entries of id tables, like data items, are loaded in a form that is read back. -/
theorem keeps_loadItem {kind : PoolKind} : Keeps (loadItem kind) RegularItem := by
  cases kind with
  | stringId => exact keeps_stringId (.ofDecoder StringData.gives_decode)
  | typeId =>
    exact @keeps_ofDecoder .typeId TypeId.decode (by decide) (by decide)
      (fun _ _ _ => rfl) ⟨fun _ _ _ _ => ⟨trivial, trivial⟩⟩
  | protoId => exact keeps_protoId
  | fieldId =>
    exact @keeps_ofDecoder .fieldId FieldId.decode (by decide) (by decide)
      (fun _ _ _ => rfl) ⟨fun _ _ _ _ => ⟨trivial, trivial⟩⟩
  | methodId =>
    exact @keeps_ofDecoder .methodId MethodId.decode (by decide)
      (by decide) (fun _ _ _ => rfl) ⟨fun _ _ _ _ => ⟨trivial, trivial⟩⟩
  | classDef => exact keeps_classDef
  | typeList => exact keeps_typeList
  | annotationSetRefList => exact keeps_annotationSetRefList
  | annotationSet => exact keeps_annotationSet
  | classData => exact keeps_classData
  | code => exact keeps_code
  | debugInfo => exact keeps_debugInfo
  | annotationItem => exact keeps_annotationItem
  | encodedArray => exact keeps_encodedArray
  | annotationsDirectory => exact keeps_annotationsDirectory

end Items

namespace Image

/-- Entries that are read and appended one after the other. -/
theorem keeps_entries {kind : PoolKind} (table : kind.toSection.isIdTable = true) {step : Nat → Loading (Item kind)}
    (each : ∀ index, Keeps (step index) RegularItem) (count : Nat) :
    Keeps (discard <| Reading.collect count fun index => do
      let item ← step index
      discard (Loading.append kind item)) fun _ _ => True := by
  apply Keeps.map
  have entry (index : Nat) : Keeps (do
      let item ← step index
      discard (Loading.append kind item)) fun _ _ => True := by
    constructor
    intro loader value after run regular
    obtain ⟨item, between, first, run⟩ := Reading.bind_eq_ok.mp run
    change ((fun _ => ()) <$> Loading.append kind item : Loading Unit) between = (.ok value, after) at run
    rw [← bind_pure_comp] at run
    obtain ⟨index, pushed, second, last⟩ := Reading.bind_eq_ok.mp run
    obtain ⟨-, rfl⟩ := Reading.pure_eq_ok.mp last
    obtain ⟨regular, grows, -⟩ :=
      (Keeps.append table (each _)).holds loader index _ (Reading.bind_eq_ok.mpr ⟨item, between, first, second⟩) regular
    exact ⟨regular, grows, trivial⟩
  have collected := @Keeps.collect _ _ count _ entry fun _ => id
  exact ⟨fun loader value after run regular =>
    (collected.holds loader value after run regular).imp_right fun both => ⟨both.1, trivial⟩⟩

theorem keeps_loadStrings (span : Span) : Keeps (loadStrings span) fun _ _ => True := by
  apply Keeps.ite (.pure fun _ => trivial)
  apply Keeps.skip (Keeps.read.within _)
  intro _
  have entries := @keeps_entries .stringId rfl (fun index => do
    let offset ← ofDecoder Decoder.u4
    detour (.entry .stringId index) offset.toNat
      (Reading.within (.itemAt .stringData offset.toNat) (ofDecoder StringData.decode))) (fun index =>
        .read_bind fun offset => keeps_stringId
          (((Keeps.ofDecoder StringData.gives_decode).within _).detour _ _)) span.size.toNat
  simp only [bind_assoc] at entries
  exact entries

theorem keeps_loadTable {kind : PoolKind} (table : kind.toSection.isIdTable = true) (span : Span) :
    Keeps (loadTable kind span) fun _ _ => True := by
  apply Keeps.ite (.pure fun _ => trivial)
  apply Keeps.skip (Keeps.read.within _)
  intro _
  exact keeps_entries table (fun index => keeps_loadItem.within _) _

theorem keeps_loadTables (header : Header) : Keeps (loadTables header) fun _ _ => True := by
  apply Keeps.read_bind
  intro map
  apply (keeps_loadStrings _).skip
  intro _
  apply (@keeps_loadTable .typeId rfl _).skip
  intro _
  apply (@keeps_loadTable .protoId rfl _).skip
  intro _
  apply (@keeps_loadTable .fieldId rfl _).skip
  intro _
  apply (@keeps_loadTable .methodId rfl _).skip
  intro _
  apply (@keeps_loadTable .classDef rfl _).skip
  intro _
  exact .pure fun _ => trivial

/-- Behind the header an image is read by loading its tables, if its checksum is the one in the header or does not
matter. -/
theorem read_of_decode {bytes : Bytes} {options : ReadOptions} {header : Header} {cursor : Cursor}
    (decoded : Header.decode options.strictHeader (.ofBytes bytes) = (.ok header, cursor)) :
    read bytes options =
      if options.verifyChecksum && !header.verifiesChecksum bytes then
        .error (Fault.of (.checksumMismatch header.checksum))
      else
        let (map, loader) := loadTables header (.ofCursor cursor options.strictItems)
        map >>= fun map => pure { header, pools := loader.pools, map } := by
  rw [read, decoded]
  rfl

/-- An image is read if its header is, its checksum is the one in the header if this matters, and its tables can be
loaded. -/
theorem read_eq_ok_iff {bytes : Bytes} {options : ReadOptions} {image : Image} : read bytes options = .ok image ↔
    ∃ cursor after, Header.decode options.strictHeader (.ofBytes bytes) = (.ok image.header, cursor) ∧
      (options.verifyChecksum = true → image.header.verifiesChecksum bytes = true) ∧
      loadTables image.header (.ofCursor cursor options.strictItems) = (.ok image.map, after) ∧
      after.pools = image.pools := by
  rcases decoded : Header.decode options.strictHeader (.ofBytes bytes) with ⟨fault | header, cursor⟩
  · rw [read, decoded]
    exact iff_of_false (by rintro ⟨⟩) (by rintro ⟨_, _, ⟨⟩, _⟩)
  rw [read_of_decode decoded]
  split_ifs with refused
  · rw [Bool.and_eq_true, Bool.not_eq_true'] at refused
    refine iff_of_false (by rintro ⟨⟩) ?_
    rintro ⟨_, _, ⟨⟩, verified, -⟩
    exact Bool.false_ne_true (refused.2.symm.trans (verified refused.1))
  rcases run : loadTables header (.ofCursor cursor options.strictItems) with ⟨fault | map, loader⟩
  · refine iff_of_false (by rintro ⟨⟩) ?_
    rintro ⟨_, _, ⟨⟩, -, run', -⟩
    cases run.symm.trans run'
  constructor
  · intro success
    obtain rfl := Except.ok.inj success
    refine ⟨cursor, loader, rfl, fun asked => ?_, run, rfl⟩
    rw [asked, Bool.true_and, Bool.not_eq_true', Bool.not_eq_false] at refused
    exact refused
  · rintro ⟨_, _, ⟨⟩, -, run', pools⟩
    obtain ⟨same, rfl⟩ := Prod.mk.inj (run.symm.trans run')
    obtain rfl := Except.ok.inj same
    exact congrArg (fun pools => Except.ok (Image.mk image.header pools image.map)) pools

/-- An image is read from its header on. -/
theorem read_eq_ok {bytes : Bytes} {options : ReadOptions} {image : Image} (success : read bytes options = .ok image) :
    ∃ cursor after, Header.decode options.strictHeader (.ofBytes bytes) = (.ok image.header, cursor) ∧
      loadTables image.header (.ofCursor cursor options.strictItems) = (.ok image.map, after) ∧
      after.pools = image.pools := by
  obtain ⟨cursor, after, decoded, -, loaded⟩ := read_eq_ok_iff.mp success
  exact ⟨cursor, after, decoded, loaded⟩

/-- A loader that has read nothing. -/
theorem regular_ofCursor (cursor : Cursor) (strict : Bool) : (Loader.ofCursor cursor strict).Regular where
  pools := .empty
  inside _ _ _ known := absurd known List.not_mem_nil
  known kind _ _ inside := by cases kind <;> exact absurd inside (Nat.not_lt_zero _)
  asRead kind _ member := by cases kind <;> cases member

/-- What is read from an image is regular and has a version. -/
theorem regular_read {bytes : Bytes} {options : ReadOptions}
    {image : Image} (success : read bytes options = .ok image) :
    image.pools.Regular ∧ image.header.version?.isSome := by
  obtain ⟨cursor, after, decoded, run, pools⟩ := read_eq_ok success
  have regular := ((keeps_loadTables image.header).holds _ _ _ run (regular_ofCursor _ _)).1
  exact ⟨pools ▸ regular.pools, ((Header.gives_decode _).holds _ _ _ decoded).version?⟩

end Image
end DexImage
