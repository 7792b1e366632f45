import DexImage.Proofs.Reached.Writing
import DexImage.Proofs.Reached.Loading
import DexImage.Proofs.Rereading.Moved
/-! # Items that are up to date

An item is tidy when its members are in order and its handler lists are all named (`Tidy`). Bringing an item up to
date makes it tidy, nothing that references know matters to it, and a tidy item without edit marks stays as it is when
it is brought up to date.
-/

namespace DexImage

/-- Whether keys ascend. -/
def InOrder (keys : List UInt32) : Prop := keys.Pairwise (· ≤ ·)

section Sorting

variable {α : Type} {key : α → UInt32} {items : List α}

private theorem transitive (a b c : α) (first : decide (key a ≤ key b) = true)
    (second : decide (key b ≤ key c) = true) :
    decide (key a ≤ key c) = true :=
  decide_eq_true (UInt32.le_trans (of_decide_eq_true first) (of_decide_eq_true second))

private theorem total_le (a b : α) : (decide (key a ≤ key b) || decide (key b ≤ key a)) = true := by
  rw [Bool.or_eq_true, decide_eq_true_eq, decide_eq_true_eq]
  exact UInt32.le_total _ _

theorem inOrder_mergeSort (key : α → UInt32) (items : List α) :
    InOrder ((items.mergeSort fun a b => key a ≤ key b).map key) := by
  rw [InOrder, List.pairwise_map]
  exact (List.pairwise_mergeSort transitive total_le items).imp fun ordered => of_decide_eq_true ordered

/-- Whether a list has the members of another in the order of their keys, and those of one key in the order in which
they stood. -/
structure StablySorted (key : α → UInt32) (items sorted : List α) : Prop where
  perm : sorted.Perm items
  ordered : InOrder (sorted.map key)
  stable : ∀ wanted, (sorted.filter fun item => key item = wanted) = items.filter fun item => key item = wanted

theorem stablySorted_mergeSort (key : α → UInt32) (items : List α) :
    StablySorted key items (items.mergeSort fun a b => key a ≤ key b) where
  perm := List.mergeSort_perm _ _
  ordered := inOrder_mergeSort key items
  stable wanted := by
    -- Members of one key are in order as they stand, so that sorting keeps them as a sublist.
    have alike : (items.filter fun item => key item = wanted).Pairwise fun a b => decide (key a ≤ key b) = true := by
      refine List.Pairwise.imp_of_mem (fun first second _ => ?_) (List.pairwise_of_forall fun _ _ => True.intro)
      have first := of_decide_eq_true (List.mem_filter.mp first).2
      have second := of_decide_eq_true (List.mem_filter.mp second).2
      exact decide_eq_true (first.trans second.symm ▸ UInt32.le_refl _)
    have kept :=
      (List.sublist_mergeSort transitive total_le alike List.filter_sublist).filter fun item => key item = wanted
    rw [List.filter_filter] at kept
    simp only [Bool.and_self] at kept
    exact (kept.eq_of_length ((List.mergeSort_perm items _).symm.filter _).length_eq).symm

theorem mergeSort_of_inOrder (ordered : InOrder (items.map key)) :
    (items.mergeSort fun a b => key a ≤ key b) = items := by
  rw [InOrder, List.pairwise_map] at ordered
  exact List.mergeSort_of_pairwise (ordered.imp fun le => decide_eq_true le)

end Sorting

namespace TryTable

/-- Whether every handler list is named, the ranges ascend, and catch-alls come last. -/
structure Tidy (table : TryTable) : Prop where
  named : ∀ slot < table.handlers.length, table.names slot = true
  starts : InOrder (table.tries.map TryItem.start)
  normalized : ∀ list ∈ table.handlers.items, list.normalized = list

/-- The slots that are used are numbered without gaps. -/
theorem exists_of_renumbering {used : List Bool} {next number : Nat} (above : next ≤ number)
    (below : number < next + (used.filter id).length) :
    ∃ slot : Nat, used[slot]? = some true ∧ (renumbering next used)[slot]? = some number := by
  induction used generalizing next with
  | nil => exact absurd below (by simpa using above)
  | cons first rest ih =>
    cases first with
    | false =>
      obtain ⟨slot, there, numbered⟩ := ih above (by simpa using below)
      exact ⟨slot + 1, there, numbered⟩
    | true =>
      rcases Nat.eq_or_lt_of_le above with rfl | later
      · exact ⟨0, rfl, rfl⟩
      · obtain ⟨slot, there, numbered⟩ := ih later (by
          simp only [List.filter_cons, id, if_true, List.length_cons] at below
          omega)
        exact ⟨slot + 1, there, numbered⟩

theorem names_eq_true {table : TryTable} {slot : Nat} :
    table.names slot = true ↔ ∃ item ∈ table.tries, item.handler = slot := by
  simp [names]

/-- Every handler list that is kept is named. -/
theorem names_pruned (table : TryTable) {slot : Nat} (inside : slot < table.pruned.handlers.length) :
    table.pruned.names slot = true := by
  rw [pruned] at inside ⊢
  split_ifs at inside ⊢ with all
  · rw [List.all_eq_true] at all
    exact all _ (List.mem_map.mpr ⟨slot, List.mem_range.mpr inside, rfl⟩)
  · have kept (items : List HandlerList) (used : List Bool) (same : items.length = used.length) :
        (((items.zip used).filter Prod.snd).map Prod.fst).length = (used.filter id).length := by
      rw [List.length_map]
      induction items generalizing used with
      | nil =>
        obtain rfl := List.length_eq_zero_iff.mp same.symm
        rfl
      | cons item items ih =>
        cases used with
        | nil => cases same
        | cons first rest =>
          have others := ih rest (Nat.succ.inj same)
          cases first
          · simpa using others
          · simpa using others
    rw [TrackedList.length, kept _ _ (by simp [TrackedList.length])] at inside
    obtain ⟨old, used, numbered⟩ := exists_of_renumbering (Nat.zero_le slot) (by rwa [Nat.zero_add])
    rw [List.getElem?_map] at used
    obtain ⟨position, found, named⟩ := Option.map_eq_some_iff.mp used
    obtain rfl : old = position := by
      obtain ⟨inside, same⟩ := List.getElem?_eq_some_iff.mp found
      rw [List.getElem_range] at same
      exact same
    obtain ⟨item, member, rfl⟩ := names_eq_true.mp named
    refine names_eq_true.mpr ⟨_, List.mem_map_of_mem member, ?_⟩
    change List.getD _ _ _ = slot
    rw [List.getD_eq_getElem?_getD, numbered]
    rfl

theorem tidy_refresh (table : TryTable) : (refresh table).Tidy where
  named slot inside := by
    have inside : slot < table.pruned.handlers.length := by
      have length : (refresh table).handlers.length = table.pruned.handlers.length := List.length_map _
      omega
    obtain ⟨item, member, same⟩ := names_eq_true.mp (names_pruned table inside)
    exact names_eq_true.mpr ⟨item, (List.mergeSort_perm _ _).mem_iff.mpr member, same⟩
  starts := inOrder_mergeSort TryItem.start table.pruned.tries
  normalized list member := by
    obtain ⟨origin, -, rfl⟩ := exists_of_mem_refresh member
    exact origin.normalized_normalized

/-- Edit marks do not matter. -/
theorem Tidy.congr {first second : TryTable} (tidy : first.Tidy) (tries : second.tries = first.tries)
    (handlers : second.handlers.items = first.handlers.items) : second.Tidy where
  named slot inside := by
    rw [names, tries]
    exact tidy.named slot (by rwa [TrackedList.length, ← handlers])
  starts := tries ▸ tidy.starts
  normalized list member := tidy.normalized list (handlers ▸ member)

theorem refresh_of_tidy {table : TryTable} (tidy : table.Tidy) :
    refresh table = { table with handlers := .ofList table.handlers.items } := by
  have whole : table.pruned = table := by
    rw [pruned, if_pos]
    rw [List.all_eq_true]
    rintro _ member
    obtain ⟨slot, inside, rfl⟩ := List.mem_map.mp member
    exact tidy.named slot (List.mem_range.mp inside)
  have lists : table.handlers.items.map refresh = table.handlers.items :=
    (List.map_congr_left tidy.normalized).trans (List.map_id _)
  change TryTable.mk (table.pruned.tries.mergeSort fun a b => a.start ≤ b.start) (refresh table.pruned.handlers) = _
  rw [whole, mergeSort_of_inOrder tidy.starts]
  exact congrArg (fun items => TryTable.mk table.tries ⟨items, false⟩) lists

end TryTable

/-- Whether the members of an item are in order, and its handler lists are named. -/
def Tidy : {kind : PoolKind} → Item kind → Prop
  | .classData, data =>
    InOrder ((data : ClassData).staticFields.map (·.field.raw)) ∧
      InOrder ((data : ClassData).instanceFields.map (·.field.raw)) ∧
      InOrder ((data : ClassData).directMethods.map (·.method.raw)) ∧
        InOrder ((data : ClassData).virtualMethods.map (·.method.raw))
  | .code, code => ∀ table, (code : CodeItem).tryTable = some table → table.Tidy
  | .annotationItem, item => InOrder ((item : AnnotationItem).body.elements.map (·.1.raw))
  | .annotationsDirectory, directory =>
    InOrder ((directory : AnnotationsDirectory).fields.map (·.member.raw)) ∧
      InOrder ((directory : AnnotationsDirectory).methods.map (·.member.raw)) ∧
        InOrder ((directory : AnnotationsDirectory).parameters.map (·.member.raw))
  | _, _ => True

variable {kind : PoolKind}

theorem tidy_refresh (item : Item kind) : Tidy (refresh item) := by
  cases kind with
  | classData => exact ⟨inOrder_mergeSort _ _, inOrder_mergeSort _ _, inOrder_mergeSort _ _, inOrder_mergeSort _ _⟩
  | code =>
    intro table present
    obtain ⟨origin, -, rfl⟩ := Option.map_eq_some_iff.mp present
    exact origin.tidy_refresh
  | annotationItem => exact inOrder_mergeSort _ _
  | annotationsDirectory => exact ⟨inOrder_mergeSort _ _, inOrder_mergeSort _ _, inOrder_mergeSort _ _⟩
  | _ => trivial

theorem tidy_locate {item : Item kind} (tidy : Tidy item) (find : Finder) : Tidy (locate find item) := by
  have methods {entries : List DefinedMethod} (ordered : InOrder (entries.map (·.method.raw))) :
      InOrder ((entries.map (DefinedMethod.located find)).map (·.method.raw)) := by
    rw [List.map_map]
    exact ordered
  have members {member target : PoolKind} {entries : List (AnnotatedMember member target)}
      (ordered : InOrder (entries.map (·.member.raw))) :
      InOrder ((entries.map (AnnotatedMember.located find)).map (·.member.raw)) := by
    rw [List.map_map]
    exact ordered
  cases kind with
  | classData => exact ⟨tidy.1, tidy.2.1, methods tidy.2.2.1, methods tidy.2.2.2⟩
  | code =>
    intro table present
    obtain ⟨origin, there, rfl⟩ := Option.map_eq_some_iff.mp present
    exact (tidy origin there).congr rfl rfl
  | annotationItem => exact tidy
  | annotationsDirectory => exact ⟨members tidy.1, members tidy.2.1, members tidy.2.2⟩
  | _ => trivial

/-- Tidy items lose their edit marks when they are brought up to date, and nothing else. -/
theorem refresh_eq_unmarked {item : Item kind} (tidy : Tidy item) : refresh item = unmarked item := by
  cases kind with
  | classData =>
    obtain ⟨statics, instances, direct, virtual⟩ := tidy
    change ClassData.mk (DefinedField.sort _) (DefinedField.sort _) (DefinedMethod.sort _) (DefinedMethod.sort _) = _
    rw [DefinedField.sort, DefinedField.sort, DefinedMethod.sort, DefinedMethod.sort, mergeSort_of_inOrder statics,
      mergeSort_of_inOrder instances, mergeSort_of_inOrder direct, mergeSort_of_inOrder virtual]
    rfl
  | code =>
    obtain ⟨registers, ins, outs, debugInfo, instructions, _ | table⟩ := (item : CodeItem)
    · rfl
    · exact congrArg (fun table => CodeItem.mk registers ins outs debugInfo instructions (some table))
        (TryTable.refresh_of_tidy (tidy table rfl))
  | annotationItem =>
    change AnnotationItem.mk _ (AnnotationBody.mk _ (List.mergeSort _ _)) = _
    rw [mergeSort_of_inOrder tidy]
    rfl
  | encodedArray =>
    exact congrArg (fun items => EncodedArray.mk ⟨items, false⟩) (List.map_id (EncodedArray.slots item).items)
  | annotationsDirectory =>
    obtain ⟨fields, methods, parameters⟩ := tidy
    change AnnotationsDirectory.mk _ (AnnotatedMember.sort _) (AnnotatedMember.sort _) (AnnotatedMember.sort _) = _
    rw [AnnotatedMember.sort, AnnotatedMember.sort, AnnotatedMember.sort, mergeSort_of_inOrder fields,
      mergeSort_of_inOrder methods, mergeSort_of_inOrder parameters]
    rfl
  | _ => rfl

/-- What has been read has no edit marks. -/
theorem AsRead.unmarked_eq {item : Item kind} (asRead : AsRead item) : unmarked item = item := by
  cases kind with
  | code => exact asRead
  | encodedArray =>
    obtain ⟨⟨slots, dirty⟩⟩ := (item : EncodedArray)
    obtain rfl : false = dirty := congrArg (fun array : EncodedArray => array.slots.dirty) asRead
    rfl
  | _ => rfl

/-- Tidy items that are as they were read stay so. -/
theorem refresh_of_tidy {item : Item kind} (tidy : Tidy item) (asRead : AsRead item) : refresh item = item :=
  (refresh_eq_unmarked tidy).trans asRead.unmarked_eq

/-- An item without edit marks is what its places hold. -/
theorem fill_held (item : Item kind) : (itemHolding kind).fill item
    ((itemHolding kind).held item) = untouched item := by
  have same := fill_finder (fun _ => none) item
  rwa [List.map_congr_left (g := id) fun one _ => one.edited_keep, List.map_id] at same

section Matching

variable {related : Relation}

theorem TryTable.eq_of_matches {table other : TryTable} (matching : holding.Matches related table other) :
    other.tries = table.tries ∧ other.handlers.items = table.handlers.items := by
  have tries := congrArg TryTable.tries matching.form
  unfold holding at matching tries
  rw [Holding.form_part, Holding.form_part] at tries
  refine ⟨tries.symm, (matching.of_part.of_list.eq_of fun {list other} same => ?_).symm⟩
  unfold HandlerList.holding at same
  refine congrArg HandlerList.mk (same.of_part.of_list.eq_of fun {handler other} same => ?_)
  refine same.eq (fun handler => by cases handler <;> rfl) fun target usage state held => ?_
  cases handler with
  | typed type address => cases List.mem_singleton.mp held
  | catchAll address => cases held

/-- A try table of a code item with the same contents is told by the one that the other code item has. -/
theorem CodeItem.table_of_matches {item other : CodeItem}
    (matching : holding.Matches related item other) {table : TryTable}
    (present : other.tryTable = some table) :
    ∃ origin, item.tryTable = some origin ∧ table.tries = origin.tries ∧
    table.handlers.items = origin.handlers.items := by
  unfold holding at matching
  have tables := matching.of_part.of_pair.2.of_pair.2
  dsimp only at tables
  rw [present] at tables
  have form := tables.form
  rw [Holding.form_option, Holding.form_option] at form
  obtain ⟨origin, there, -⟩ := Option.map_eq_some_iff.mp form
  rw [there] at tables
  exact ⟨origin, there, TryTable.eq_of_matches ⟨Option.some.inj tables.form, tables.held⟩⟩

theorem DefinedField.raw_of_matches {first second : List DefinedField}
    (same : holding.list.Matches related first second) :
    first.map (·.field.raw) = second.map (·.field.raw) := by
  refine same.of_list.map_eq fun same => ?_
  unfold holding at same
  exact congrArg IdRef.raw (IdRef.eq_of_matches same.of_part)

theorem DefinedMethod.raw_of_matches {first second : List DefinedMethod}
    (same : holding.list.Matches related first second) :
    first.map (·.method.raw) = second.map (·.method.raw) := by
  refine same.of_list.map_eq fun same => ?_
  unfold holding at same
  exact congrArg IdRef.raw (IdRef.eq_of_matches same.of_part.of_pair.1)

theorem AnnotatedMember.raw_of_matches {member target : PoolKind} {first second : List (AnnotatedMember member target)}
    (same : holding.list.Matches related first second) : first.map (·.member.raw) = second.map (·.member.raw) := by
  refine same.of_list.map_eq fun same => ?_
  unfold holding at same
  exact congrArg IdRef.raw (IdRef.eq_of_matches same.of_part.of_pair.1)

/-- The widths of values do not change the names of the elements. -/
theorem AnnotationItem.names_effective (item : AnnotationItem) :
    item.effective.body.elements.map (·.1.raw) = item.body.elements.map (·.1.raw) := by
  change (EncodedValue.effectiveElements _).map _ = _
  rw [EncodedValue.effectiveElements_eq, List.map_map]
  rfl

/-- Items with the same contents are tidy together. -/
theorem Tidy.of_matches {item other : Item kind} (tidy : Tidy item)
    (matching : (itemHolding kind).Matches related (effective item) (effective other)) : Tidy other := by
  cases kind with
  | classData =>
    change ClassData.holding.Matches related item other at matching
    unfold ClassData.holding at matching
    obtain ⟨first, rest⟩ := matching.of_part.of_pair
    obtain ⟨second, rest⟩ := rest.of_pair
    obtain ⟨third, fourth⟩ := rest.of_pair
    obtain ⟨statics, instances, direct, virtual⟩ := tidy
    exact ⟨DefinedField.raw_of_matches first ▸ statics, DefinedField.raw_of_matches second ▸ instances,
      DefinedMethod.raw_of_matches third ▸ direct, DefinedMethod.raw_of_matches fourth ▸ virtual⟩
  | code =>
    intro table present
    obtain ⟨origin, there, tries, handlers⟩ := CodeItem.table_of_matches matching present
    exact (tidy origin there).congr tries handlers
  | annotationItem =>
    have same : effective item = effective other :=
      matching.eq (fun item => fill_held item) (dataless_of_locate fun _ _ => rfl)
    have names := congrArg (fun item : AnnotationItem => item.body.elements.map (·.1.raw)) same
    change InOrder ((other : AnnotationItem).body.elements.map (·.1.raw))
    rw [← AnnotationItem.names_effective]
    refine names ▸ ?_
    change InOrder ((AnnotationItem.effective item).body.elements.map (·.1.raw))
    rw [AnnotationItem.names_effective]
    exact tidy
  | annotationsDirectory =>
    change AnnotationsDirectory.holding.Matches related item other at matching
    unfold AnnotationsDirectory.holding at matching
    obtain ⟨-, rest⟩ := matching.of_part.of_pair
    obtain ⟨first, rest⟩ := rest.of_pair
    obtain ⟨second, third⟩ := rest.of_pair
    obtain ⟨inFields, inMethods, inParameters⟩ := tidy
    exact ⟨AnnotatedMember.raw_of_matches first ▸ inFields, AnnotatedMember.raw_of_matches second ▸ inMethods,
      AnnotatedMember.raw_of_matches third ▸ inParameters⟩
  | _ => trivial

end Matching

end DexImage
