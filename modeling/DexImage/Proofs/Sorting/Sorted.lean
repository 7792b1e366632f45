import DexImage.Proofs.Sorting.Order
/-! # Sorting the id tables

The id tables are put in order one after the other. What holds so far is that the tables done are in order and
that nothing has happened to the image but a renumbering of them (`Sorted`); each further table keeps that
(`Sorted.step`). In the end all five are in order (`Canonical`), and to sort them again changes nothing.
-/

namespace DexImage

namespace Image

/-- The kinds of the id tables, in the order in which they are sorted. -/
def sortedKinds : List PoolKind := [.stringId, .typeId, .protoId, .fieldId, .methodId]

/-- Puts one table in order. -/
def sortTable (image : Image) (kind : PoolKind) : Result Image :=
  image.reorder kind.toSection (sortOrder image.pools kind)

theorem sortIds_eq (image : Image) : image.sortIds = sortedKinds.foldlM sortTable image := by
  simp only [sortedKinds, List.foldlM_cons, List.foldlM_nil, bind_pure]
  rfl

/-- Whether the entries of the id tables can be counted by a word. -/
def Countable (pools : Pools) : Prop := ∀ kind ∈ sortedKinds, (pools.pool kind).size < UInt32.size

instance (pools : Pools) : Decidable (Countable pools) := inferInstanceAs (Decidable (∀ kind ∈ sortedKinds, _))

/-- What every rearranging of a table keeps is kept when they are sorted. -/
theorem sortIds_induct {motive : Image → Prop} {image after : Image} (start : motive image)
    (step : ∀ {before next : Image} {kind : PoolKind} {order : List UInt32},
      before.reorder kind.toSection order = .ok next → motive before → motive next)
    (success : image.sortIds = .ok after) : motive after := by
  rw [sortIds_eq] at success
  generalize sortedKinds = kinds at success
  induction kinds generalizing image with
  | nil => exact Except.ok.inj success ▸ start
  | cons kind kinds ih =>
    rw [List.foldlM_cons] at success
    obtain ⟨next, first, rest⟩ := Result.bind_eq_ok.mp success
    exact ih (step first start) rest

/-- The order of the id tables that the format requires. -/
structure Canonical (pools : Pools) : Prop where
  strings : pools.strings.items.Pairwise fun a b => (a.order b).isLE
  types : pools.types.items.Pairwise fun a b => a.descriptor.raw ≤ b.descriptor.raw
  protos : pools.protos.items.Pairwise fun a b =>
    a.returnType.raw :: parameterIndices pools a ≤ b.returnType.raw :: parameterIndices pools b
  fields : pools.fields.items.Pairwise fun a b =>
    [a.definer.raw, a.name.raw, a.fieldType.raw] ≤ [b.definer.raw, b.name.raw, b.fieldType.raw]
  methods : pools.methods.items.Pairwise fun a b =>
    [a.definer.raw, a.name.raw, a.proto.raw] ≤ [b.definer.raw, b.name.raw, b.proto.raw]

theorem canonical_of_ordered {pools : Pools} (ordered : ∀ kind ∈ sortedKinds, Ordered pools kind) :
    Canonical pools where
  strings := ordered .stringId (by decide)
  types := (ordered .typeId (by decide)).imp fun {a b} before => by
    have keys : [(TypeId.descriptor a).raw] ≤ [(TypeId.descriptor b).raw] := numbersBefore_iff.mp before
    simpa [List.cons_le_cons_iff, UInt32.le_iff_lt_or_eq] using keys
  protos := (ordered .protoId (by decide)).imp numbersBefore_iff.mp
  fields := (ordered .fieldId (by decide)).imp numbersBefore_iff.mp
  methods := (ordered .methodId (by decide)).imp numbersBefore_iff.mp

/-- What holds of an image some of whose tables have been put in order. -/
structure Sorted (done : List PoolKind) (before after : Image) : Prop where
  header : after.header = before.header
  map : after.map = before.map
  moved : ∃ moves, Renumbering done moves before.pools after.pools
  ordered : Preordered before.pools .stringId → ∀ kind ∈ done, Ordered after.pools kind

namespace Sorted

variable {before mid after : Image} {done todo : List PoolKind} {kind : PoolKind}

theorem start (image : Image) : Sorted [] image image where
  header := rfl
  map := rfl
  moved := by
    refine ⟨fun _ position => position, fun _ => rfl, fun _ _ _ => rfl, fun _ _ => id, fun _ _ _ _ _ => id, ?_⟩
    exact fun kind position item found => ⟨item, found, .refl item fun _ _ _ => rfl⟩
  ordered := by simp

/-- To put a further table in order leaves those in order that are. -/
theorem step (sorted : Sorted done before mid) (few : (before.pools.pool kind).size < UInt32.size)
    (preordered : Preordered before.pools .stringId → Preordered mid.pools kind)
    (success : mid.sortTable kind = .ok after) (fresh : kind ∉ done) (apart : kind ∉ keyKinds kind)
    (free : ∀ one ∈ done, kind ∉ keyKinds one) : Sorted (done ++ [kind]) before after := by
  obtain ⟨moves, renumbering⟩ := sorted.moved
  rw [← renumbering.size] at few
  obtain ⟨reordered, header, map⟩ := reordered_of_reorder (sortOrder_perm_of_lt few) success
  refine ⟨header.trans sorted.header, map.trans sorted.map, ?_, fun transitive one member => ?_⟩
  · have disjoint : done.Disjoint [kind] := by
      intro one member same
      exact fresh (List.mem_singleton.mp same ▸ member)
    exact ⟨_, renumbering.trans reordered.renumbering disjoint⟩
  · rcases List.mem_append.mp member with earlier | same
    · have differ : one ≠ kind := by
        rintro rfl
        exact fresh earlier
      exact (sorted.ordered transitive one earlier).kept differ (free one earlier) reordered
    · obtain rfl := List.mem_singleton.mp same
      exact (preordered transitive).ordered apart reordered

/-- To put tables in order one after the other, none of which is ordered by what comes later. -/
theorem run (sorted : Sorted done before mid) (few : ∀ kind ∈ todo, (before.pools.pool kind).size < UInt32.size)
    (success : todo.foldlM sortTable mid = .ok after)
    (preordered : ∀ kind ∈ todo, ∀ pools, Preordered pools kind) (distinct : (done ++ todo).Nodup)
    (apart : ∀ kind ∈ todo, kind ∉ keyKinds kind)
    (free : (done ++ todo).Pairwise fun earlier later => later ∉ keyKinds earlier) :
    Sorted (done ++ todo) before after := by
  induction todo generalizing done mid with
  | nil =>
    obtain rfl := Except.ok.inj success
    rwa [List.append_nil]
  | cons kind todo ih =>
    rw [List.foldlM_cons] at success
    obtain ⟨next, first, success⟩ := Result.bind_eq_ok.mp success
    have rest : done ++ kind :: todo = done ++ [kind] ++ todo := by simp
    rw [rest] at distinct free ⊢
    have fresh : kind ∉ done := by
      intro member
      exact (List.nodup_append.mp (List.nodup_append.mp distinct).1).2.2 kind member kind (by simp) rfl
    have earlier : ∀ one ∈ done, kind ∉ keyKinds one := by
      intro one member
      exact (List.pairwise_append.mp (List.pairwise_append.mp free).1).2.2 one member kind (by simp)
    obtain ⟨here, few⟩ := List.forall_mem_cons.mp few
    refine ih ?_ few success (fun one member => preordered one (List.mem_cons_of_mem _ member)) distinct
      (fun one member => apart one (List.mem_cons_of_mem _ member)) free
    exact sorted.step here (fun _ => preordered kind List.mem_cons_self mid.pools) first fresh
      (apart kind List.mem_cons_self) earlier

end Sorted

/-- Tables can be put in order. -/
theorem sortTables_ok {kinds : List PoolKind} {image : Image} : ∃ after, kinds.foldlM sortTable image = .ok after := by
  induction kinds generalizing image with
  | nil => exact ⟨image, rfl⟩
  | cons kind kinds ih =>
    obtain ⟨next, first⟩ : ∃ next, image.sortTable kind = .ok next := reorder_ok sortOrder_orders
    obtain ⟨after, rest⟩ := @ih next
    exact ⟨after, by rw [List.foldlM_cons]; exact Result.bind_eq_ok.mpr ⟨next, first, rest⟩⟩

/-- Tables in order stay as they are. -/
theorem sortTables_self {kinds : List PoolKind} {image : Image} (ordered : ∀ kind ∈ kinds, Ordered image.pools kind)
    (few : ∀ kind ∈ kinds, (image.pools.pool kind).size < UInt32.size) : kinds.foldlM sortTable image = .ok image := by
  induction kinds with
  | nil => rfl
  | cons kind kinds ih =>
    obtain ⟨here, others⟩ := List.forall_mem_cons.mp ordered
    obtain ⟨small, rest⟩ := List.forall_mem_cons.mp few
    have first : image.sortTable kind = .ok image := by
      rw [sortTable, here.sortOrder_eq, toNat_toUInt32 small (Nat.le_refl _)]
      exact reorder_indices (Nat.le_of_lt small)
    rw [List.foldlM_cons, first]
    exact ih others rest

theorem sorted_of_sortIds {image after : Image} (countable : Countable image.pools)
    (success : image.sortIds = .ok after) : Sorted sortedKinds image after := by
  rw [sortIds_eq, sortedKinds, List.foldlM_cons] at success
  obtain ⟨first, strings, success⟩ := Result.bind_eq_ok.mp success
  obtain ⟨few, others⟩ := List.forall_mem_cons.mp countable
  have started := (Sorted.start image).step few id strings (by simp) (by decide) (by simp)
  refine started.run others success (fun kind member pools => preordered_of_ne ?_) (by decide) (by decide) (by decide)
  rintro rfl
  exact absurd member (by decide)

/-- Whether strings and entries of the other id tables have the same text and key where they have moved. -/
def SameNames (moves : PoolKind → Nat → Nat) (before after : Pools) : Prop :=
  ∀ kind (old new : UInt32), old.toNat < (before.pool kind).size → new.toNat = moves kind old.toNat →
    (EntryKey.at? after kind.toSection new).toOption = (EntryKey.at? before kind.toSection old).toOption ∧
      (kind = .stringId → after.get? .stringId new = before.get? .stringId old)

theorem sameNames_of_renumbering {kinds : List PoolKind} {moves : PoolKind → Nat → Nat} {before after : Pools}
    (renumbering : Renumbering kinds moves before after) : SameNames moves before after := by
  intro kind old new below number
  have follows : Renumbering.Follows before moves kind old new := .inl ⟨below, number⟩
  refine ⟨(renumbering.counterparts.key_eq follows).symm, ?_⟩
  rintro rfl
  exact (renumbering.counterparts.string_eq follows).symm

/-- Sorting succeeds. Where the order of the strings is transitive (it is total anyhow), and a word can count
the entries of each table, it puts the five id tables in canonical order, by a renumbering of them: each table
comes out with its entries moved to other places, references follow their targets, which keep their names, and
nothing else changes. An operand that cannot hold its target's new index makes its code unwritable. To sort
again changes nothing. -/
theorem sortIds_renumbers (image : Image)
    (transitive : ∀ a ∈ image.pools.strings.items, ∀ b ∈ image.pools.strings.items,
      ∀ c ∈ image.pools.strings.items,
      (a.order b).isLE → (b.order c).isLE → (a.order c).isLE) :
    (∃ after, image.sortIds = .ok after) ∧
      (Countable image.pools → ∀ after, image.sortIds = .ok after →
        Canonical after.pools ∧
        (∃ moves, Renumbering sortedKinds moves image.pools after.pools ∧ SameNames moves image.pools after.pools) ∧
        after.header = image.header ∧ after.map = image.map ∧ after.sortIds = .ok after) := by
  refine ⟨?_, fun countable after success => ?_⟩
  · rw [sortIds_eq]
    exact sortTables_ok
  · have sorted := sorted_of_sortIds countable success
    have ordered := sorted.ordered transitive
    obtain ⟨moves, renumbering⟩ := sorted.moved
    refine ⟨canonical_of_ordered ordered, ⟨moves, renumbering, sameNames_of_renumbering renumbering⟩,
      sorted.header, sorted.map, ?_⟩
    rw [sortIds_eq]
    refine sortTables_self ordered fun kind member => ?_
    rw [renumbering.size]
    exact countable kind member

/-- An image with two types, the strings of which are out of order. -/
def twoTypes : Image :=
  { header := .ofVersion 35
    pools := { Pools.empty with
      strings := .ofList [.decoded "LB;", .decoded "LA;"]
      types := .ofList [⟨.of 0⟩, ⟨.of 1⟩] }
    map := .empty }

theorem sortIds_renumbers_twoTypes :
    ∃ after, twoTypes.sortIds = .ok after ∧ after ≠ twoTypes ∧
    Canonical after.pools ∧ after.sortIds = .ok after := by
  have strings : twoTypes.pools.strings.items = [.decoded "LB;", .decoded "LA;"] := rfl
  obtain ⟨⟨after, success⟩, each⟩ := sortIds_renumbers twoTypes (by rw [strings]; decide +kernel)
  obtain ⟨canonical, -, -, -, again⟩ := each (by decide +kernel) after success
  refine ⟨after, success, ?_, canonical, again⟩
  rintro rfl
  have unordered := canonical.strings
  rw [strings] at unordered
  exact absurd unordered (by decide +kernel)

end Image
end DexImage
