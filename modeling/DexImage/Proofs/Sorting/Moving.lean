import DexImage.Proofs.Sorting.Renumbering
/-! # Rearranging one pool

When a pool of an image is rearranged, every reference into it follows its target, and the other pools keep
their items in place (`Reordered`). That is a renumbering of one kind (`Reordered.renumbering`).
-/

namespace DexImage

/-- Where items move when the pool of one kind is rearranged. -/
def moveIn (kind : PoolKind) (order : List UInt32) (other : PoolKind) (position : Nat) : Nat :=
  if other = kind then placeOf order position else position

namespace Held

variable {kinds : List PoolKind} {sizes : PoolKind → Nat} {moves : PoolKind → Nat → Nat} {refuses refuses' : Prop}
  {one other : Held}

theorem Renumbered.refl (fits : one.Fits one)
    (still : ∀ position, position < sizes one.kind → moves one.kind position = position) :
    one.Renumbered kinds sizes moves refuses one where
  fits := fits
  kept _ := rfl
  absent none := none
  inside old present below := .inl ⟨old, present, (still _ below).symm⟩
  outside _ present _ := .inr present

theorem Renumbered.mono (renumbered : one.Renumbered kinds sizes moves refuses other) (weaker : refuses → refuses') :
    one.Renumbered kinds sizes moves refuses' other where
  fits := renumbered.fits
  kept := renumbered.kept
  absent := renumbered.absent
  inside := by
    intro old present below
    rcases renumbered.inside old present below with arrived | ⟨narrow, moved, large, lost⟩
    · exact .inl arrived
    · exact .inr ⟨narrow, moved, large, weaker lost⟩
  outside := renumbered.outside

/-- A reference that is taken away is gone, unless it is an operand: that is lost and keeps its index. -/
theorem edited_retarget_none {old : UInt32} (present : one.index = some old) :
    (one.edited (.retarget none)).index = none ∧ (one.edited (.retarget none)).isLost = false ∨
      one.isOperand = true ∧ (one.edited (.retarget none)).index = some old := by
  cases one with
  | operand => exact .inr ⟨rfl, present⟩
  | _ => exact .inl ⟨rfl, rfl⟩

/-- A present reference that is given another index takes it, unless it is an operand of one unit and the index
needs two: that is lost and keeps its index. -/
theorem edited_retarget_some {old : UInt32} (present : one.index = some old) (kept : one.isLost = false)
    (fits : one.Fits one) (new : UInt32) :
    (one.edited (.retarget (some new))).index = some new ∧ (one.edited (.retarget (some new))).isLost = false ∨
      one.isOperand = true ∧ one.isNarrow = true ∧ 0xffff < new.toNat ∧ new ≠ old ∧
        (one.edited (.retarget (some new))).index = some old ∧ (one.edited (.retarget (some new))).isLost = true := by
  by_cases able : ∀ target wide lost, one = operand target wide lost old → operandFits wide new = true
  · obtain ⟨arrived, kept⟩ := edited_retarget present kept able
    exact .inl ⟨congrArg Slot.index arrived, kept⟩
  · push Not at able
    obtain ⟨target, wide, lost, rfl, large⟩ := able
    have small : operandFits wide old = true := fits.2.2
    have differ : new ≠ old := by
      rintro rfl
      exact large small
    cases wide with
    | true => exact absurd rfl large
    | false =>
      have edited : (operand target false lost old).edited (.retarget (some new)) = operand target false true old := by
        rw [Held.edited, if_neg differ, if_neg large]
      have high : 0xffff < new.toNat := by
        simpa [operandFits, UInt32.lt_iff_toNat_lt] using large
      rw [edited]
      exact .inr ⟨rfl, rfl, high, differ, rfl, rfl⟩

section Remapping

variable {α : Type} {pool arranged : Pool α} {order : List UInt32} {remap : IndexRemap}

/-- A reference into a pool that is rearranged. -/
theorem renumbered_remap (spec : pool.Arranged order remap arranged) (size : sizes one.kind = pool.size)
    (moved : ∀ position, moves one.kind position = placeOf order position) (member : one.kind ∈ kinds)
    (kept : one.isLost = false) (fits : one.Fits one) :
    one.Renumbered kinds sizes moves ((one.edited (one.slot.remap remap)).isLost = true)
      (one.edited (one.slot.remap remap)).settled := by
  have settledFits := (fits.edited (one.slot.remap remap)).settled_right
  rcases present : one.index with _ | old
  · have keep : one.slot.remap remap = .keep := by simp [Slot.remap, Held.slot, present]
    rw [keep, edited_keep, settled_eq_self kept] at settledFits ⊢
    refine ⟨fits, fun _ => rfl, fun none => none, ?_, ?_⟩ <;> simp [present]
  have answer : one.slot.remap remap = .retarget (remap.get? old) := by simp [Slot.remap, Held.slot, present]
  rw [answer] at settledFits ⊢
  refine ⟨settledFits, fun fresh => absurd member fresh, fun none => ?_, fun index present' below => ?_,
    fun index present' beyond => ?_⟩
  · rw [none] at present
    cases present
  · obtain rfl := Option.some.inj (present.symm.trans present')
    obtain ⟨new, found, number⟩ := spec.get?_eq (size ▸ below)
    rw [found, index_settled, moved]
    rcases edited_retarget_some present kept fits new with ⟨arrived, -⟩ | ⟨-, narrow, large, differ, -, lost⟩
    · exact .inl ⟨new, arrived, number⟩
    · rw [number] at large
      refine .inr ⟨narrow, fun same => differ ?_, large, lost⟩
      rwa [← number, UInt32.toNat_inj] at same
  · obtain rfl := Option.some.inj (present.symm.trans present')
    rw [spec.get?_of_le (size ▸ beyond), index_settled]
    rcases edited_retarget_none present with ⟨gone, -⟩ | ⟨-, kept⟩
    · exact .inl gone
    · exact .inr kept

/-- What is lost when a pool is rearranged are operands that cannot follow. -/
theorem strays_of_remap (spec : pool.Arranged order remap arranged) (size : sizes one.kind = pool.size)
    (moved : ∀ position, moves one.kind position = placeOf order position) (kept : one.isLost = false)
    (fits : one.Fits one) (lost : (one.edited (one.slot.remap remap)).isLost = true) : one.Strays sizes moves := by
  rcases present : one.index with _ | old
  · have keep : one.slot.remap remap = .keep := by simp [Slot.remap, Held.slot, present]
    rw [keep, edited_keep, kept] at lost
    cases lost
  have answer : one.slot.remap remap = .retarget (remap.get? old) := by simp [Slot.remap, Held.slot, present]
  rw [answer] at lost
  by_cases below : old.toNat < pool.size
  · obtain ⟨new, found, number⟩ := spec.get?_eq below
    rw [found] at lost
    rcases edited_retarget_some present kept fits new with ⟨-, kept⟩ | ⟨operand, narrow, large, -⟩
    · rw [kept] at lost
      cases lost
    · exact ⟨operand, old, present, .inr ⟨narrow, by rwa [moved, ← number]⟩⟩
  · rw [spec.get?_of_le (Nat.le_of_not_lt below)] at lost
    rcases edited_retarget_none present with ⟨-, kept⟩ | ⟨operand, -⟩
    · rw [kept] at lost
      cases lost
    · exact ⟨operand, old, present, .inl (size ▸ Nat.le_of_not_lt below)⟩

end Remapping

end Held

section Items

variable {kinds : List PoolKind} {sizes : PoolKind → Nat} {moves : PoolKind → Nat → Nat} {kind : PoolKind}

theorem Renumbers.refl (item : Item kind)
    (still : ∀ kind position, position < sizes kind → moves kind position = position) :
    Renumbers kinds sizes moves item item where
  content := rfl
  held := List.forall₂_same.mpr fun one member =>
    .refl (((itemHolding kind).lawful item).kept one member).2 (still one.kind)
  refuses := id
  writable := .inl

/-- An item changes as its places do. -/
theorem Renumbers.of_fill (item : Item kind) (edit : Held → Edit)
    (follows : ∀ one ∈ (itemHolding kind).held item,
      one.Renumbered kinds sizes moves ((one.edited (edit one)).isLost = true) (one.edited (edit one)).settled)
    (strays : ∀ one ∈ (itemHolding kind).held item, (one.edited (edit one)).isLost = true → one.Strays sizes moves) :
    Renumbers kinds sizes moves item
      ((itemHolding kind).fill item (((itemHolding kind).held item).map fun one => one.edited (edit one))) := by
  have fits := (itemHolding kind).fits_edited item edit
  refine ⟨content_fill fits, ?_, fun refuses => (refuses_fill fits).mpr (.inl refuses), fun refuses => ?_⟩
  · rw [((itemHolding kind).lawful item).held_fill fits, List.map_map]
    refine .of_map_right fun one member => (follows one member).mono fun lost => ?_
    exact (refuses_fill fits).mpr (.inr ⟨_, List.mem_map_of_mem member, lost⟩)
  · rcases (refuses_fill fits).mp refuses with refuses | ⟨_, member, lost⟩
    · exact .inl refuses
    · obtain ⟨one, present, rfl⟩ := List.mem_map.mp member
      exact .inr ⟨one, present, strays one present lost⟩

/-- An item of which the references into one pool are renumbered. -/
theorem movedItem_singleton {remap : IndexRemap} {other : PoolKind} (item : Item other) :
    Pools.movedItem [(kind.toSection, remap)] item = (itemHolding other).fill item (((itemHolding other).held item).map
      fun one => one.edited (if one.kind = kind then one.slot.remap remap else .keep)) := by
  rw [Pools.movedItem, if_neg (by simp)]
  congr 1
  refine List.map_congr_left fun one _ => congrArg one.edited ?_
  by_cases same : one.kind = kind
  · simp [same]
  · have differ : (one.kind.toSection == kind.toSection) = false :=
      beq_eq_false_iff_ne.mpr fun sections => same (PoolKind.toSection_injective sections)
    simp [same, List.lookup_cons, differ]

/-- An item whose references into one pool follow their targets. -/
theorem renumbers_movedItem {pools : Pools} {arranged : Pool (Item kind)} {order : List UInt32} {remap : IndexRemap}
    (spec : (pools.pool kind).Arranged order remap arranged) {other : PoolKind} (item : Item other) :
    Renumbers [kind] (fun kind => (pools.pool kind).size) (moveIn kind order) item
      (Pools.movedItem [(kind.toSection, remap)] item) := by
  let edit (one : Held) : Edit :=
    if one.kind = kind then one.slot.remap remap else .keep
  rw [movedItem_singleton]
  refine .of_fill item edit (fun one member => ?_) (fun one member lost => ?_)
  · obtain ⟨kept, fits⟩ := ((itemHolding other).lawful item).kept one member
    by_cases same : one.kind = kind
    · rw [show edit one = one.slot.remap remap from if_pos same]
      exact Held.renumbered_remap spec (by rw [same]) (fun _ => by rw [moveIn, if_pos same]) (by simp [same]) kept fits
    · rw [show edit one = .keep from if_neg same, Held.edited_keep, Held.settled_eq_self kept]
      exact .refl fits fun _ _ => by rw [moveIn, if_neg same]
  · obtain ⟨kept, fits⟩ := ((itemHolding other).lawful item).kept one member
    by_cases same : one.kind = kind
    · rw [show edit one = one.slot.remap remap from if_pos same] at lost
      exact Held.strays_of_remap spec (by rw [same]) (fun _ => by rw [moveIn, if_pos same]) kept fits lost
    · rw [show edit one = .keep from if_neg same, Held.edited_keep, kept] at lost
      cases lost

end Items

/-- What rearranging the pool of one kind does to pools. -/
structure Reordered (kind : PoolKind) (order : List UInt32) (before after : Pools) : Prop where
  arranged : ∃ remap arranged, (before.pool kind).Arranged order remap arranged ∧
    List.Forall₂ (Renumbers [kind] (fun kind => (before.pool kind).size) (moveIn kind order)) arranged.items
      (after.pool kind).items
  others : ∀ other, other ≠ kind →
    List.Forall₂ (Renumbers [kind] (fun kind => (before.pool kind).size) (moveIn kind order)) (before.pool other).items
      (after.pool other).items

namespace Reordered

variable {kind : PoolKind} {order : List UInt32} {before after : Pools}

theorem size (reordered : Reordered kind order before after) (other : PoolKind) :
    (after.pool other).size = (before.pool other).size := by
  by_cases same : other = kind
  · subst same
    obtain ⟨_, arranged, spec, each⟩ := reordered.arranged
    rw [← Pool.length_items, ← each.length_eq, Pool.length_items, spec.size]
  · rw [← Pool.length_items, ← (reordered.others other same).length_eq, Pool.length_items]

/-- To rearrange a pool is to renumber the references into it. -/
theorem renumbering (reordered : Reordered kind order before after) :
    Renumbering [kind] (moveIn kind order) before after where
  size := reordered.size
  fixed other fresh position := by
    rw [moveIn, if_neg fun same => fresh (by simp [same])]
  inside other position below := by
    by_cases same : other = kind
    · subst same
      obtain ⟨_, _, spec, -⟩ := reordered.arranged
      rw [moveIn, if_pos rfl]
      exact spec.placeOf_lt below
    · rwa [moveIn, if_neg same]
  injective other first second here there := by
    by_cases same : other = kind
    · subst same
      obtain ⟨_, _, spec, -⟩ := reordered.arranged
      simp only [moveIn, if_true]
      exact spec.placeOf_injective here there
    · simp only [moveIn, if_neg same]
      exact id
  items other position item found := by
    by_cases same : other = kind
    · subst same
      obtain ⟨_, arranged, spec, each⟩ := reordered.arranged
      have below : position < (before.pool other).size := by
        rw [← Pool.length_items]
        exact (List.getElem?_eq_some_iff.mp found).1
      rw [← spec.items_placeOf below] at found
      rw [moveIn, if_pos rfl]
      exact each.getElem?_left found
    · rw [moveIn, if_neg same]
      exact (reordered.others other same).getElem?_left found

end Reordered

namespace Image

variable {image after : Image} {kind : PoolKind} {order : List UInt32}

/-- A pool is rearranged, and the references to it are renumbered unless nothing has moved. -/
theorem reorder_eq_ok : image.reorder kind.toSection order = .ok after ↔ ∃ remap arranged,
    (image.pools.pool kind).reorder order = .ok (remap, arranged) ∧
      (if remap.isIdentity then { image with pools := image.pools.setPool kind arranged }
        else
          { image with
            pools := (image.pools.setPool kind arranged).applyRemaps [(kind.toSection, remap)] }) = after := by
  rw [reorder, Pools.reorder, PoolKind.pool?_toSection]
  constructor
  · intro success
    obtain ⟨⟨remap, pools⟩, rearranged, same⟩ := Result.bind_eq_ok.mp success
    obtain ⟨⟨table, arranged⟩, success, pair⟩ := Result.bind_eq_ok.mp rearranged
    obtain ⟨rfl, rfl⟩ := Prod.mk.inj (Except.ok.inj pair)
    exact ⟨table, arranged, success, Except.ok.inj same⟩
  · rintro ⟨remap, arranged, success, rfl⟩
    exact Result.bind_eq_ok.mpr ⟨_, Result.bind_eq_ok.mpr ⟨_, success, rfl⟩, rfl⟩

theorem reordered_of_reorder (perm : order.Perm (indices (image.pools.pool kind).size))
    (success : image.reorder kind.toSection order = .ok after) :
    Reordered kind order image.pools after.pools ∧ after.header = image.header ∧ after.map = image.map := by
  obtain ⟨table, arranged, rearranged, rfl⟩ := reorder_eq_ok.mp success
  have spec := Pool.arranged_of_reorder perm rearranged
  split_ifs with identity
  · have still : ∀ one position, position < (image.pools.pool one).size →
        moveIn kind order one position = position := by
      intro one position below
      rw [moveIn]
      split_ifs with same
      · subst same
        have number := toNat_toUInt32 below spec.fits
        obtain ⟨new, found, place⟩ := spec.get?_eq (by rwa [number] : position.toUInt32.toNat < _)
        rw [number] at place
        rw [← place, IndexRemap.get?_of_isIdentity identity found, number]
      · rfl
    refine ⟨⟨⟨table, arranged, spec, ?_⟩, fun other differ => ?_⟩, rfl, rfl⟩
    · rw [Pools.pool_setPool_self]
      exact List.forall₂_same.mpr fun item _ => .refl item still
    · rw [Pools.pool_setPool_of_ne _ differ]
      exact List.forall₂_same.mpr fun item _ => .refl item still
  · refine ⟨⟨⟨table, arranged, spec, ?_⟩, fun other differ => ?_⟩, rfl, rfl⟩
    · rw [Pools.pool_applyRemaps, Pool.items_map, Pools.pool_setPool_self]
      exact .of_map_right fun item _ => renumbers_movedItem spec item
    · rw [Pools.pool_applyRemaps, Pool.items_map, Pools.pool_setPool_of_ne _ differ]
      exact .of_map_right fun item _ => renumbers_movedItem spec item

/-- A pool is rearranged by any order of its indices. -/
theorem reorder_ok (orders : Pool.Orders order (image.pools.pool kind)) :
    ∃ after, image.reorder kind.toSection order = .ok after := by
  obtain ⟨remap, arranged, success⟩ := Pool.reorder_eq_ok_iff.mpr orders
  exact ⟨_, reorder_eq_ok.mpr ⟨remap, arranged, success, rfl⟩⟩

/-- The indices in order leave an image as it is. -/
theorem reorder_indices (fits : (image.pools.pool kind).size ≤ UInt32.size) :
    image.reorder kind.toSection (indices (image.pools.pool kind).size) = .ok image := by
  obtain ⟨remap, success, identity⟩ := Pool.reorder_indices fits
  have self : image.pools.setPool kind (image.pools.pool kind) = image.pools := by
    refine Pools.ext_pool fun other => ?_
    by_cases same : other = kind
    · subst same
      exact Pools.pool_setPool_self _ _ _
    · exact Pools.pool_setPool_of_ne _ same _
  refine reorder_eq_ok.mpr ⟨remap, _, success, ?_⟩
  rw [if_pos identity, self]

end Image
end DexImage
