import DexImage.Proofs.Loading.Steps
import DexImage.Proofs.Reached.Regular
import DexImage.Proofs.Layout.Stored
/-! # Regular pools are written completely

Bringing regular pools up to date and planning them leaves them regular. Where they are written, everything in them
can be read back (`Image.Written.complete`): the image bounds the sizes of the pools, so that no index is too large.
-/

namespace DexImage

/-- Whether the handler lists of a code item are in order. -/
def Normalized : {kind : PoolKind} → Item kind → Prop
  | .code, code => ∀ table, (code : CodeItem).tryTable = some table →
    ∀ list ∈ table.handlers.items, list.normalized = list
  | _, _ => True

namespace TryTable

/-- Refreshing a table keeps the number of its ranges. -/
theorem length_tries_refresh (table : TryTable) : (refresh table).tries.length = table.tries.length := by
  change (table.pruned.tries.mergeSort fun a b => a.start ≤ b.start).length = _
  rw [List.length_mergeSort, pruned]
  split_ifs
  · rfl
  · exact List.length_map _

/-- The handler lists of a refreshed table are those of the table, in order. -/
theorem exists_of_mem_refresh {table : TryTable} {list : HandlerList} (member : list ∈ (refresh table).handlers.items) :
    ∃ origin ∈ table.handlers.items, origin.normalized = list := by
  obtain ⟨origin, kept, rfl⟩ := List.mem_map.mp (show list ∈ table.pruned.handlers.items.map refresh from member)
  refine ⟨origin, ?_, rfl⟩
  rw [pruned] at kept
  split_ifs at kept
  · exact kept
  · obtain ⟨pair, present, rfl⟩ := List.mem_map.mp kept
    exact (List.of_mem_zip (List.mem_filter.mp present).1).1

theorem Formed.refresh {table : TryTable} (formed : table.Formed) : (refresh table).Formed where
  some := table.length_tries_refresh ▸ formed.some
  few := table.length_tries_refresh ▸ formed.few
  lists := by
    intro list member
    obtain ⟨origin, present, rfl⟩ := exists_of_mem_refresh member
    exact HandlerList.normalized_ne_nil (formed.lists origin present)

theorem held_refresh_subset (table : TryTable) : holding.held (refresh table) ⊆ holding.held table := by
  intro one member
  obtain ⟨list, listed, inList⟩ := List.mem_flatMap.mp member
  obtain ⟨handler, present, inHandler⟩ := List.mem_flatMap.mp inList
  obtain ⟨origin, there, rfl⟩ := exists_of_mem_refresh listed
  exact List.mem_flatMap.mpr
    ⟨origin, there, List.mem_flatMap.mpr ⟨handler, HandlerList.mem_normalized present, inHandler⟩⟩

end TryTable

/-- What bringing an item up to date makes of it. -/
structure Refreshes {kind : PoolKind} (item other : Item kind) : Prop where
  formed : Formed item → Formed other
  held : (itemHolding kind).held other ⊆ (itemHolding kind).held item
  ordered : Normalized other
  definition : kind = .classDef → other = item

theorem Refreshes.refl {kind : PoolKind} (item : Item kind) (plain : kind ≠ .code) : Refreshes item item where
  formed := fun formed => formed
  held _ member := member
  ordered := by cases kind <;> first | contradiction | trivial
  definition _ := rfl

/-- The places of sorted members are those of the members. -/
theorem Places.held_list_subset {α : Type} (places : Places α) {items others : List α} (subset : others ⊆ items) :
    places.list.held others ⊆ places.list.held items := by
  intro one member
  obtain ⟨item, present, member⟩ := List.mem_flatMap.mp member
  exact List.mem_flatMap.mpr ⟨item, subset present, member⟩

theorem append_subset_append {α : Type} {first second third fourth : List α} (left : first ⊆ third)
    (right : second ⊆ fourth) : first ++ second ⊆ third ++ fourth :=
  List.append_subset.mpr ⟨List.Subset.trans left (List.subset_append_left _ _),
    List.Subset.trans right (List.subset_append_right _ _)⟩

/-- The places of named values are those of each name and its value. -/
theorem EncodedValue.heldElements_eq (elements : List (IdRef .stringId × EncodedValue)) :
    elementPlaces.held elements = elements.flatMap fun element =>
      (IdRef.holding .unmarked).held element.1 ++ element.2.held := by
  induction elements with
  | nil => rfl
  | cons element rest ih =>
    rw [List.flatMap_cons, ← ih, List.append_assoc]
    rfl

/-- Bringing an item up to date leaves out or reorders some of its references. -/
theorem refreshes_refresh {kind : PoolKind} (item : Item kind) : Refreshes item (refresh item) := by
  have sorted {α : Type} (places : Places α) (before : α → α → Bool) (items : List α) :
      places.list.held (items.mergeSort before) ⊆ places.list.held items :=
    places.held_list_subset (List.mergeSort_perm items before).subset
  cases kind with
  | classData =>
    refine ⟨fun formed => formed, ?_, trivial, by rintro ⟨⟩⟩
    exact append_subset_append (sorted _ _ _) (append_subset_append (sorted _ _ _)
      (append_subset_append (sorted _ _ _) (sorted _ _ _)))
  | code =>
    obtain ⟨registers, ins, outs, debugInfo, instructions, tryTable⟩ := (item : CodeItem)
    cases tryTable with
    | none =>
      refine ⟨fun formed => formed, fun _ member => member, ?_, by rintro ⟨⟩⟩
      rintro table ⟨⟩
    | some table =>
      refine ⟨fun formed other same => ?_, ?_, fun other same list member => ?_, by rintro ⟨⟩⟩
      · obtain rfl := Option.some.inj same
        exact (formed table rfl).refresh
      · exact append_subset_append (fun _ member => member)
          (append_subset_append (fun _ member => member) table.held_refresh_subset)
      · obtain rfl := Option.some.inj same
        obtain ⟨origin, -, rfl⟩ := TryTable.exists_of_mem_refresh member
        exact origin.normalized_normalized
  | annotationItem =>
    refine ⟨fun formed => formed, ?_, trivial, by rintro ⟨⟩⟩
    obtain ⟨visibility, type, elements⟩ := (item : AnnotationItem)
    refine append_subset_append (fun _ member => member) ?_
    change EncodedValue.elementPlaces.held _ ⊆ EncodedValue.elementPlaces.held _
    rw [EncodedValue.heldElements_eq, EncodedValue.heldElements_eq]
    intro one member
    obtain ⟨element, present, member⟩ := List.mem_flatMap.mp member
    exact List.mem_flatMap.mpr ⟨element, (List.mergeSort_perm _ _).subset present, member⟩
  | encodedArray =>
    refine ⟨fun formed => formed, ?_, trivial, by rintro ⟨⟩⟩
    obtain ⟨⟨slots, dirty⟩⟩ := (item : EncodedArray)
    refine Places.held_list_subset _ fun slot member => ?_
    obtain ⟨origin, present, rfl⟩ := List.mem_map.mp (show slot ∈ slots.map refresh from member)
    exact present
  | annotationsDirectory =>
    refine ⟨fun formed => formed, ?_, trivial, by rintro ⟨⟩⟩
    exact append_subset_append (fun _ member => member) (append_subset_append (sorted _ _ _)
      (append_subset_append (sorted _ _ _) (sorted _ _ _)))
  | _ => exact .refl item (by decide)

namespace Pools

variable {pools : Pools} {kind : PoolKind}

/-- Every item is brought up to date where it stands. -/
theorem exists_refreshAll (pools : Pools) (kind : PoolKind) : ∃ edit : Item kind → Item kind,
    pools.refreshAll.pool kind = (pools.pool kind).map edit ∧ ∀ item, Refreshes item (edit item) := by
  by_cases sets : kind = .annotationSet
  · subst sets
    let sort (set : AnnotationSet) : AnnotationSet :=
      ⟨set.items.mergeSort fun a b => annotationRank (pools.pool .annotationItem |>.map refresh) a ≤
        annotationRank (pools.pool .annotationItem |>.map refresh) b⟩
    refine ⟨sort, ?_, fun set => ⟨fun formed => formed, ?_, trivial, by rintro ⟨⟩⟩⟩
    · have items := pool_foldl_refresh pools .annotationItem
      rw [refreshAll, sortAnnotationSets, pool_modify_self, pool_foldl_refresh]
      have same : (pools.pool .annotationSet).map refresh = pools.pool .annotationSet := by
        have id : (refresh : Item .annotationSet → Item .annotationSet) = fun set => set := rfl
        simp [id, Pool.map]
      rw [same]
      exact congrArg (fun annotations => (pools.pool .annotationSet).map fun (set : AnnotationSet) =>
        (⟨set.items.mergeSort fun a b =>
          annotationRank annotations a ≤ annotationRank annotations b⟩ : AnnotationSet)) items
    · exact Places.held_list_subset _ (List.mergeSort_perm _ _).subset
  · exact ⟨refresh, pool_refreshAll sets pools, refreshes_refresh⟩

theorem exists_of_mem_refreshAll {other : Item kind} (member : other ∈ (pools.refreshAll.pool kind).items) :
    ∃ item ∈ (pools.pool kind).items, Refreshes item other := by
  obtain ⟨edit, same, each⟩ := exists_refreshAll pools kind
  rw [same, Pool.items_map] at member
  obtain ⟨item, present, rfl⟩ := List.mem_map.mp member
  exact ⟨item, present, each item⟩

theorem size_refreshAll (pools : Pools) (kind : PoolKind) :
    (pools.refreshAll.pool kind).size = (pools.pool kind).size := by
  obtain ⟨edit, same, -⟩ := exists_refreshAll pools kind
  rw [same, Pool.size_map]

/-- Regular pools stay regular when they are brought up to date. -/
theorem Regular.refreshAll (regular : pools.Regular) : pools.refreshAll.Regular where
  formed kind other member := by
    obtain ⟨item, present, refreshes⟩ := exists_of_mem_refreshAll member
    exact refreshes.formed (regular.formed kind item present)
  anchored kind other member := by
    obtain ⟨item, present, refreshes⟩ := exists_of_mem_refreshAll member
    have anchored : Anchored pools other := by
      by_cases definition : kind = .classDef
      · rw [refreshes.definition definition]
        exact regular.anchored kind item present
      · refine (regular.anchored kind item present).of_subset definition ?_
        rw [slots_eq, slots_eq]
        exact List.map_subset _ refreshes.held
    refine anchored.mono fun place inside => ?_
    rw [contains, size_refreshAll]
    exact inside

/-- References to data items lead to items, whatever they are held by. -/
theorem Regular.closed (regular : pools.Regular) : pools.Closed := by
  intro kind item member target usage index known held
  obtain ⟨position, there⟩ := List.getElem?_of_mem held
  have data : target.toSection.isIdTable = false := proper_of_held item _ held
  have none : slack kind position target = 0 := if_neg (by rw [data]; exact Bool.false_ne_true)
  refine ((regular.anchored kind item member).held there index rfl).resolve_left fun below => ?_
  exact absurd (none ▸ below) (Nat.not_lt_zero _)

end Pools

/-- Debug info whose indices have 31 bits can be told from what is written of it. -/
theorem DebugInfo.readable_of_narrow {info : DebugInfo} (formed : ∀ op ∈ info.ops, op.Formed)
    (narrow : ∀ one ∈ (itemHolding .debugInfo).held info, ∀ index, one.index = some index → index.toNat < 2 ^ 31) :
    info.Readable := by
  have id {target : PoolKind} {name : IdRef target}
      (held : Held.id target .debug name.index ∈ (itemHolding .debugInfo).held info) : name.Narrow := narrow _ held
  refine
    ⟨fun name present => id (List.mem_append_left _ (List.mem_flatMap.mpr ⟨name, present, List.mem_singleton_self _⟩)),
    fun op present => ?_⟩
  have inOp {one : Held} (held : one ∈ DebugOp.holding.held op) : one ∈ (itemHolding .debugInfo).held info :=
    List.mem_append_right _ (List.mem_flatMap.mpr ⟨op, present, held⟩)
  cases op with
  | startLocal register name type =>
    exact ⟨id (inOp List.mem_cons_self), id (inOp (List.mem_cons_of_mem _ List.mem_cons_self))⟩
  | startLocalExtended register name type signature =>
    exact ⟨id (inOp List.mem_cons_self), id (inOp (List.mem_cons_of_mem _ List.mem_cons_self)),
      id (inOp (List.mem_cons_of_mem _ (List.mem_cons_of_mem _ List.mem_cons_self)))⟩
  | setFile name => exact id (inOp List.mem_cons_self)
  | special code => exact formed _ present
  | _ => trivial

namespace Layout

variable {header header' : Header} {kinds : List PoolKind} {refreshed placed : Pools} {layout : Layout} {image : Bytes}

theorem RelocatedPools.exists_of_mem (relocated : RelocatedPools kinds refreshed placed) {kind : PoolKind}
    {other : Item kind} (member : other ∈ (placed.pool kind).items) :
    ∃ item ∈ (refreshed.pool kind).items, Relocated kinds item other := by
  obtain ⟨edit, same, each⟩ := relocated kind
  rw [same, Pool.items_map] at member
  obtain ⟨item, present, rfl⟩ := List.mem_map.mp member
  exact ⟨item, present, each item⟩

/-- Planning tells references where their targets are, and leaves all else as it is. -/
theorem RelocatedPools.regular (relocated : RelocatedPools kinds refreshed placed) (regular : refreshed.Regular) :
    placed.Regular where
  formed kind other member := by
    obtain ⟨item, present, step⟩ := relocated.exists_of_mem member
    exact formed_of_content (content_of_form step.alike.form) (regular.formed kind item present)
  anchored kind other member := by
    obtain ⟨item, present, step⟩ := relocated.exists_of_mem member
    have anchored : Anchored placed item := by
      refine (regular.anchored kind item present).mono fun place inside => ?_
      obtain ⟨edit, same, -⟩ := relocated place.1
      rw [Pools.contains, same, Pool.size_map]
      exact inside
    intro position slot there
    have slots : DexImage.slots other = DexImage.slots item := by
      rw [slots_eq, slots_eq]
      exact step.alike.slots
    exact anchored position slot (slots ▸ there)

theorem Relocated.normalized {kind : PoolKind} {item other : Item kind} (relocated : Relocated kinds item other)
    (normalized : Normalized item) : Normalized other := by
  induction relocated with
  | refl => exact normalized
  | @told between offsets target _ _ ih =>
    cases kind with
    | code =>
      intro table same list member
      obtain ⟨origin, there, rfl⟩ := Option.map_eq_some_iff.mp same
      exact ih origin there list member
    | _ => trivial

/-- An id table takes four bytes at least for each of its entries. -/
theorem Stored.size_table (stored : Stored image placed layout)
    {kind : PoolKind} (table : kind.toSection.isIdTable = true) :
    4 * (placed.pool kind).size ≤ image.length := by
  by_cases none : (placed.pool kind).items = []
  · rw [← Pool.length_items, none]
    exact Nat.zero_le _
  rw [← Pool.length_items]
  by_cases strings : kind = .stringId
  · subst strings
    obtain ⟨row, has, each⟩ := stored.strings.entries none
    have length := has.length_le
    have words : (row.flatMap Bytes.ofUInt32).length = 4 * row.length := by
      simp [List.length_flatMap, Bytes.ofUInt32, Nat.mul_comm]
    rw [words, each.length_eq] at length
    exact Nat.le_trans (Nat.le_add_left _ _) length
  · obtain ⟨parts, encoded, has⟩ := (stored.tables kind table strings).entries none
    have length := has.length_le
    have least : ∀ part ∈ parts, 4 ≤ part.length := by
      intro part member
      obtain ⟨item, -, encodes⟩ := encoded.exists_of_mem_right member
      rw [length_encode encodes]
      cases kind with
      | stringId => exact absurd rfl strings
      | typeId => exact Nat.le_refl 4
      | protoId => exact (by decide : 4 ≤ 12)
      | fieldId | methodId => exact (by decide : 4 ≤ 8)
      | classDef => exact (by decide : 4 ≤ 32)
      | _ => cases table
    have whole := mul_length_le_flatten least
    rw [encoded.length_eq]
    omega

/-- What an index of an id table leads to has an index of 31 bits, as an entry takes more than two bytes. -/
theorem Stored.lt_of_contains (stored : Stored image placed layout) {kind : PoolKind}
    (table : kind.toSection.isIdTable = true) {index : UInt32} (inside : placed.contains (kind, index)) :
    index.toNat < 2 ^ 31 := by
  have size := stored.size_table table
  have small := stored.small
  have whole : UInt32.size = 2 ^ 32 := rfl
  have inside : index.toNat < (placed.pool kind).size := inside
  omega

theorem Stored.not_contains_noIndex (stored : Stored image placed layout) (kind : PoolKind) :
    ¬ placed.contains (kind, noIndex) := by
  intro inside
  have size := stored.sizes kind
  have last : noIndex.toNat + 1 = UInt32.size := rfl
  have inside : noIndex.toNat < (placed.pool kind).size := inside
  omega

/-- A superclass or a source file that is there is not written as an absent one. -/
theorem Stored.readable_classDef (stored : Stored image placed layout) {definition : ClassDef}
    (anchored : @Anchored placed .classDef definition) : @Readable .classDef definition := by
  have apart {position : Nat} {one : Held} (there : ((itemHolding .classDef).held definition)[position]? = some one)
      (least : slack .classDef position one.slot.kind = noIndex.toNat) : one.slot.index ≠ some noIndex := by
    intro same
    rcases anchored.held there noIndex same with below | inside
    · exact absurd (least ▸ below) (Nat.lt_irrefl _)
    · exact stored.not_contains_noIndex _ inside
  exact ⟨@apart 1 _ rfl rfl, @apart 3 _ rfl rfl⟩

/-- The indices of debug info have 31 bits. -/
theorem Stored.narrow_debugInfo (stored : Stored image placed layout) {info : DebugInfo}
    (anchored : @Anchored placed .debugInfo info) {one : Held} (held : one ∈ (itemHolding .debugInfo).held info)
    {index : UInt32} (present : one.index = some index) : index.toNat < 2 ^ 31 := by
  obtain ⟨position, there⟩ := List.getElem?_of_mem held
  have table : one.slot.kind.toSection.isIdTable = true := by
    have proper := @proper_of_held .debugInfo info one held
    cases one with
    | id => exact proper.1
    | operand => exact proper.2.1
    | data target usage state =>
      rcases state with _ | state
      · cases present
      · exact absurd held (@dataless_of_locate .debugInfo info (fun _ _ => rfl) target usage state)
  rcases anchored.held there index present with below | inside
  · rwa [show slack .debugInfo position one.slot.kind = 2 ^ 31 from if_pos table] at below
  · exact stored.lt_of_contains table inside

theorem Stored.complete (stored : Stored image placed layout) (regular : placed.Regular)
    (normalized : ∀ kind, ∀ item ∈ (placed.pool kind).items, Normalized item) : Complete image placed layout where
  toStored := stored
  closed := regular.closed
  readable := by
    intro kind item member
    have formed := regular.formed kind item member
    have anchored := regular.anchored kind item member
    cases kind with
    | stringId | annotationItem => exact formed
    | classDef => exact stored.readable_classDef anchored
    | code =>
      intro table same
      have formed := formed table same
      exact ⟨formed.some, formed.few, fun list present =>
        ⟨normalized .code item member table same list present, formed.lists list present⟩⟩
    | debugInfo => exact DebugInfo.readable_of_narrow formed fun one held index => stored.narrow_debugInfo anchored held
    | _ => trivial

end Layout

/-- What is written of regular pools is complete. -/
theorem Image.Written.complete {image after : Image} {layout : Layout} {bytes : Bytes}
    (written : image.Written layout bytes after) (regular : image.pools.Regular) :
    layout.Complete bytes after.pools := by
  have planned := written.planned
  refine (Layout.stored_of_planned planned written.emitted.1).complete (planned.pools.regular regular.refreshAll) ?_
  intro kind item member
  obtain ⟨origin, present, relocated⟩ := planned.pools.exists_of_mem member
  obtain ⟨_, -, refreshes⟩ := Pools.exists_of_mem_refreshAll present
  exact relocated.normalized refreshes.ordered

end DexImage
