import DexImage.Proofs.Sorting.Keys
import DexImage.Proofs.Sorting.Moving
/-! # The order of the id tables

An entry is compared by numbers that it refers to (`sortKey`), which stay as they are while items of other kinds
move. So a table that has been put in order stays in order while later ones are (`Ordered.kept`), as no table
is ordered by the indices of a later one.
-/

namespace DexImage

namespace Image

/-- Lexicographic order is that of lists. -/
theorem numbersBefore_iff {a b : List UInt32} : numbersBefore a b = true ↔ a ≤ b := by
  induction a generalizing b with
  | nil => simp [numbersBefore]
  | cons first rest ih =>
    cases b with
    | nil => simp [numbersBefore]
    | cons other others => simp [numbersBefore, ih, List.cons_le_cons_iff]

/-- The numbers that the entries of an id table are ordered by. -/
def sortKey (pools : Pools) : (kind : PoolKind) → Item kind → List UInt32
  | .typeId, type => [(TypeId.descriptor type).raw]
  | .protoId, proto => (ProtoId.returnType proto).raw :: parameterIndices pools proto
  | .fieldId, field => [(FieldId.definer field).raw, (FieldId.name field).raw, (FieldId.fieldType field).raw]
  | .methodId, method => [(MethodId.definer method).raw, (MethodId.name method).raw, (MethodId.proto method).raw]
  | _, _ => []

/-- The kinds of the items whose indices a table is ordered by, and of the lists that these stand in. -/
def keyKinds : PoolKind → List PoolKind
  | .typeId => [.stringId]
  | .protoId => [.typeId, .typeList]
  | .fieldId => [.typeId, .stringId]
  | .methodId => [.typeId, .stringId, .protoId]
  | _ => []

/-- Whether an entry may stand before another. -/
def precedes (pools : Pools) : (kind : PoolKind) → Item kind → Item kind → Bool
  | .stringId, a, b => (StringData.order a b).isLE
  | kind, a, b => numbersBefore (sortKey pools kind a) (sortKey pools kind b)

/-- The indices of an id table in order. -/
def sortOrder (pools : Pools) : PoolKind → List UInt32
  | .stringId => sortedIndices pools.strings id fun a b => (a.order b).isLE
  | kind => sortedIndices (pools.pool kind) (sortKey pools kind) numbersBefore

/-- Whether the entries of a table stand in order. -/
def Ordered (pools : Pools) (kind : PoolKind) : Prop :=
  (pools.pool kind).items.Pairwise fun a b => precedes pools kind a b = true

/-- Whether the order of the entries of a table is transitive. -/
def Preordered (pools : Pools) (kind : PoolKind) : Prop :=
  ∀ a ∈ (pools.pool kind).items, ∀ b ∈ (pools.pool kind).items, ∀ c ∈ (pools.pool kind).items,
    precedes pools kind a b = true → precedes pools kind b c = true → precedes pools kind a c = true

variable {pools : Pools} {kind : PoolKind}

theorem sortOrder_of_ne (other : kind ≠ .stringId) :
    sortOrder pools kind = sortedIndices (pools.pool kind) (sortKey pools kind) numbersBefore := by
  cases kind <;> first | contradiction | rfl

theorem precedes_of_ne (other : kind ≠ .stringId) (a b : Item kind) :
    precedes pools kind a b = numbersBefore (sortKey pools kind a) (sortKey pools kind b) := by
  cases kind <;> first | contradiction | rfl

/-- Numbers are compared in a total preorder. -/
theorem preordered_of_ne (other : kind ≠ .stringId) : Preordered pools kind := by
  intro a _ b _ c _ first second
  rw [precedes_of_ne other, numbersBefore_iff] at first second ⊢
  exact List.le_trans first second

theorem precedes_total (a b : Item kind) : (precedes pools kind a b || precedes pools kind b a) = true := by
  rw [Bool.or_eq_true]
  by_cases strings : kind = .stringId
  · subst strings
    have total {α : Type} [Ord α] [Std.OrientedOrd α] (a b : α) :
        (compare a b).isLE = true ∨ (compare b a).isLE = true := by
      rw [@Std.OrientedCmp.eq_swap _ compare _ b a]
      cases compare a b <;> simp
    cases a <;> cases b <;> exact total _ _
  · rw [precedes_of_ne strings, precedes_of_ne strings, numbersBefore_iff, numbersBefore_iff]
    exact List.le_total _ _

/-- The order of a table names every entry once that is counted by a word. -/
theorem sortOrder_perm : (sortOrder pools kind).Perm (indices (pools.pool kind).size.toUInt32.toNat) := by
  by_cases strings : kind = .stringId
  · subst strings
    exact @sortedIndices_perm _ _ pools.strings id fun a b => (a.order b).isLE
  · rw [sortOrder_of_ne strings]
    exact sortedIndices_perm

theorem sortOrder_perm_of_lt (few : (pools.pool kind).size < UInt32.size) :
    (sortOrder pools kind).Perm (indices (pools.pool kind).size) := by
  have perm := @sortOrder_perm pools kind
  rwa [toNat_toUInt32 few (Nat.le_refl _)] at perm

/-- The order of a table can always be carried out. -/
theorem sortOrder_orders : Pool.Orders (sortOrder pools kind) (pools.pool kind) := by
  have fits : (pools.pool kind).size.toUInt32.toNat ≤ UInt32.size := Nat.le_of_lt (UInt32.toNat_lt _)
  refine ⟨sortOrder_perm.nodup_iff.mpr (nodup_indices fits), fun old member => ?_⟩
  exact Nat.lt_of_lt_of_le ((mem_indices fits).mp (sortOrder_perm.mem_iff.mp member)) (toUInt32_le _)

/-- A table in order needs no rearranging. -/
theorem Ordered.sortOrder_eq (ordered : Ordered pools kind) :
    sortOrder pools kind = indices (pools.pool kind).size.toUInt32.toNat := by
  by_cases strings : kind = .stringId
  · subst strings
    exact sortedIndices_of_pairwise ordered
  · rw [sortOrder_of_ne strings]
    exact sortedIndices_of_pairwise (ordered.imp fun before => by rwa [← precedes_of_ne strings])

/-- Entries come out in order. -/
theorem Preordered.pairwise_arranged (preordered : Preordered pools kind)
    {remap : IndexRemap} {arranged : Pool (Item kind)}
    (spec : (pools.pool kind).Arranged (sortOrder pools kind) remap arranged) :
    arranged.items.Pairwise fun a b => precedes pools kind a b = true := by
  by_cases strings : kind = .stringId
  · subst strings
    exact pairwise_of_arranged spec preordered fun a _ b _ => precedes_total a b
  · rw [sortOrder_of_ne strings] at spec
    simp only [Preordered, precedes_of_ne strings] at preordered
    simp only [precedes_of_ne strings]
    refine pairwise_of_arranged spec preordered fun a _ b _ => ?_
    rw [← precedes_of_ne strings, ← precedes_of_ne strings]
    exact precedes_total a b

section Moving

variable {kinds : List PoolKind} {moves : PoolKind → Nat → Nat} {before after : Pools}

/-- References to items that have not moved are kept. -/
theorem slots_kept {item other : Item kind}
    (change : Renumbers kinds (fun kind => (before.pool kind).size) moves item other) :
    List.Forall₂ (fun one other : Slot => one.kind ∉ kinds → other.index = one.index) (slots item) (slots other) := by
  rw [slots_eq, slots_eq, List.forall₂_map_left_iff, List.forall₂_map_right_iff]
  exact change.held.imp fun _ _ step => step.kept

private theorem raw_eq {target : PoolKind} {one other : IdRef target} {usage : Usage} (free : target ∉ kinds)
    (kept : (one.slot usage).kind ∉ kinds → (other.slot usage).index = (one.slot usage).index) : other.raw = one.raw :=
  congrArg (fun index : Option UInt32 => index.getD noIndex) (kept free)

private theorem raws_eq {ones others : List (IdRef .typeId)} (free : .typeId ∉ kinds)
    (kept : List.Forall₂ (fun one other : Slot => one.kind ∉ kinds → other.index = one.index)
      (ones.map (·.slot .typeList)) (others.map (·.slot .typeList))) : others.map IdRef.raw = ones.map IdRef.raw := by
  rw [List.forall₂_map_left_iff, List.forall₂_map_right_iff] at kept
  induction kept with
  | nil => rfl
  | cons head _ ih => rw [List.map_cons, List.map_cons, raw_eq free head, ih]

private theorem parameterIndices_eq (renumbering : Renumbering kinds moves before after) {one other : ProtoId}
    (types : .typeId ∉ kinds) (lists : .typeList ∉ kinds) (same : other.parameters.index = one.parameters.index) :
    parameterIndices after other = parameterIndices before one := by
  rw [parameterIndices, parameterIndices, Pools.resolve?, Pools.resolve?, same]
  rcases one.parameters.index with _ | index
  · rfl
  have follows : Renumbering.Follows before moves .typeList index index := by
    by_cases below : index.toNat < (before.pool .typeList).size
    · exact .inl ⟨below, (renumbering.fixed .typeList lists _).symm⟩
    · exact .inr ⟨Nat.le_of_not_lt below, rfl⟩
  rw [Option.bind_some, Option.bind_some]
  rcases renumbering.get?_cases follows with ⟨missing, missing'⟩ | ⟨list, copy, found, copied, change⟩
  · rw [missing, missing']
  · have kept := slots_kept change
    rw [slots_typeList, slots_typeList] at kept
    rw [found, copied]
    exact raws_eq types kept

/-- An entry is compared by the same numbers while none of them changes. -/
theorem sortKey_eq (renumbering : Renumbering kinds moves before after) (free : ∀ one ∈ keyKinds kind, one ∉ kinds)
    {item other : Item kind} (change : Renumbers kinds (fun kind => (before.pool kind).size) moves item other) :
    sortKey after kind other = sortKey before kind item := by
  have kept := slots_kept change
  cases kind with
  | typeId =>
    obtain _ | ⟨descriptor, -⟩ := kept
    simp only [sortKey, raw_eq (free .stringId (by decide)) descriptor]
  | protoId =>
    obtain _ | ⟨_, _ | ⟨returnType, _ | ⟨parameters, -⟩⟩⟩ := kept
    have types := free .typeId (by decide)
    have lists := free .typeList (by decide)
    simp only [sortKey, raw_eq types returnType, parameterIndices_eq renumbering types lists (parameters lists)]
  | fieldId =>
    obtain _ | ⟨definer, _ | ⟨fieldType, _ | ⟨name, -⟩⟩⟩ := kept
    have types := free .typeId (by decide)
    simp only [sortKey, raw_eq types definer, raw_eq types fieldType, raw_eq (free .stringId (by decide)) name]
  | methodId =>
    obtain _ | ⟨definer, _ | ⟨proto, _ | ⟨name, -⟩⟩⟩ := kept
    simp only [sortKey, raw_eq (free .typeId (by decide)) definer, raw_eq (free .protoId (by decide)) proto,
      raw_eq (free .stringId (by decide)) name]
  | _ => rfl

theorem precedes_eq (renumbering : Renumbering kinds moves before after) (free : ∀ one ∈ keyKinds kind, one ∉ kinds)
    {a b c d : Item kind} (first : Renumbers kinds (fun kind => (before.pool kind).size) moves a b)
    (second : Renumbers kinds (fun kind => (before.pool kind).size) moves c d) :
    precedes after kind b d = precedes before kind a c := by
  by_cases strings : kind = .stringId
  · subst strings
    exact congrArg₂ (fun a b => (StringData.order a b).isLE) first.content second.content
  · rw [precedes_of_ne strings, precedes_of_ne strings, sortKey_eq renumbering free first,
      sortKey_eq renumbering free second]

variable {order : List UInt32}

/-- A table that is rearranged by its order is in order. -/
theorem Preordered.ordered (preordered : Preordered before kind) (free : kind ∉ keyKinds kind)
    (reordered : Reordered kind (sortOrder before kind) before after) : Ordered after kind := by
  have free : ∀ one ∈ keyKinds kind, one ∉ [kind] := by
    intro one member same
    exact free (List.mem_singleton.mp same ▸ member)
  obtain ⟨_, _, spec, each⟩ := reordered.arranged
  refine each.pairwise (fun first second before => ?_) (preordered.pairwise_arranged spec)
  rwa [precedes_eq reordered.renumbering free first second]

/-- A table in order stays so while another is rearranged, if that is not what its order goes by. -/
theorem Ordered.kept {other : PoolKind} (ordered : Ordered before other) (differ : other ≠ kind)
    (free : kind ∉ keyKinds other) (reordered : Reordered kind order before after) : Ordered after other := by
  have free : ∀ one ∈ keyKinds other, one ∉ [kind] := by
    intro one member same
    exact free (List.mem_singleton.mp same ▸ member)
  refine (reordered.others other differ).pairwise (fun first second before => ?_) ordered
  rwa [precedes_eq reordered.renumbering free first second]

end Moving

end Image
end DexImage
