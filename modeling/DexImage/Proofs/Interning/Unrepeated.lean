import DexImage.Image.Interning
import DexImage.Proofs.Interning.Keys
import DexImage.Proofs.Traversals
/-! # Unrepeated pools

Interning compares entries by the indices of what they refer to, not by their keys. In pools where nothing that keys
are made of occurs twice and everything is spelled as interning spells it (`Pools.Unrepeated`) the two come to the same:
the name at an index determines the index, and interning what has the name yields it and adds nothing.
-/

namespace DexImage

namespace Pools

/-- Whether an item is spelled as interning spells it, where there is another way to. -/
def Spells (pools : Pools) : {kind : PoolKind} → Item kind → Prop
  | .stringId, string => ∃ text, string = StringData.decoded text
  | .protoId, proto => ProtoId.Spelled pools proto
  | _, _ => True

/-- Whether every string is text, and every proto has a key, the shorty of this key and no parameter list that is
empty. -/
structure Normal (pools : Pools) : Prop where
  items : ∀ kind, ∀ item ∈ (pools.pool kind).items, pools.Spells item

/-- Whether moreover nothing that keys are made of is there twice. -/
structure Unrepeated (pools : Pools) : Prop extends pools.Normal where
  distinct : ∀ kind : PoolKind, kind.isNamed = true →
    (pools.pool kind).items.Pairwise fun one other => (one == other) = false

end Pools

/-- What is spelled right stays so while pools grow. -/
theorem Pools.Spells.of_extends {before after : Pools} {kind : PoolKind}
    {item : Item kind} (spells : before.Spells item)
    (grows : before.Extends after) : after.Spells item := by
  cases kind with
  | protoId => exact ProtoId.Spelled.of_extends spells grows
  | _ => exact spells

/-- What equals the same part of a name is equal. -/
theorem beq_of_beq {kind : PoolKind} (named : kind.isNamed = true) {one other item : Item kind}
    (first : (one == item) = true) (second : (other == item) = true) : (one == other) = true := by
  have lawful {α : Type} [BEq α] [LawfulBEq α] {one other item : α} (first : (one == item) = true)
      (second : (other == item) = true) : (one == other) = true := by
    rw [eq_of_beq first, eq_of_beq second, beq_self_eq_true]
  cases kind with
  | stringId => exact lawful (α := StringData) first second
  | typeId => exact lawful (α := TypeId) first second
  | fieldId => exact lawful (α := FieldId) first second
  | methodId => exact lawful (α := MethodId) first second
  | typeList => exact lawful (α := TypeList) first second
  | protoId =>
    rw [ProtoId.beq_iff] at first second ⊢
    exact ⟨first.1.trans second.1.symm, first.2.1.trans second.2.1.symm, first.2.2.trans second.2.2.symm⟩
  | _ => cases named

namespace Pools

variable {pools : Pools} {kind : PoolKind} {index : UInt32}

namespace Unrepeated

/-- What is there is found where it is, and interning it adds nothing. -/
theorem internItem_eq (unrepeated : pools.Unrepeated) (named : kind.isNamed = true) {item sought : Item kind}
    (there : pools.get? kind index = some item) (same : (item == sought) = true) :
    internItem kind sought pools = (index, pools) := by
  have found : (pools.pool kind).find? sought = some index := by
    refine Pool.find?_eq_some there same fun earlier other before present => ?_
    obtain ⟨inside, rfl⟩ := List.getElem?_eq_some_iff.mp present
    obtain ⟨inside', rfl⟩ := List.getElem?_eq_some_iff.mp (Pool.get?_eq_some.mp there)
    have differ := List.pairwise_iff_getElem.mp (unrepeated.distinct kind named) _ _ inside inside' before
    -- An earlier item that equals the one looked for would equal the one that is there.
    rw [← Bool.not_eq_true]
    exact fun equal => Bool.false_ne_true (differ.symm.trans (beq_of_beq named equal same))
  rw [internItem, Pools.intern, found]

/-- An item that is not there yet may be added if it is spelled right among what it is made of. -/
theorem push (unrepeated : pools.Unrepeated) {item : Item kind}
    (fresh : kind.isNamed = true → (pools.pool kind).find? item = none)
    (spells : (pools.push kind item).Spells item) : (pools.push kind item).Unrepeated where
  items one other member := by
    rcases mem_push member with old | ⟨rfl, rfl⟩
    · exact (unrepeated.items one other old).of_extends (extends_push pools kind item)
    · exact spells
  distinct one named := by
    by_cases same : one = kind
    · subst same
      rw [pool_push_self, Pool.items_push, List.pairwise_append]
      refine ⟨unrepeated.distinct _ named, List.pairwise_singleton _ _, fun other member last added => ?_⟩
      rw [List.mem_singleton.mp added]
      exact Pool.ne_of_find?_eq_none (fresh named) other member
    · rw [pool_push_of_ne _ same]
      exact unrepeated.distinct one named

/-- What no name is made of may be added. -/
theorem push_unnamed (unrepeated : pools.Unrepeated) (kind : PoolKind)
    (unnamed : kind.isNamed = false) (item : Item kind) :
    (pools.push kind item).Unrepeated := by
  refine unrepeated.push (fun named => absurd (named.symm.trans unnamed) (by decide)) ?_
  cases kind <;> trivial

end Unrepeated

theorem extends_internItem (item : Item kind) : pools.Extends (internItem kind item pools).2 := by
  rw [internItem]
  rcases intern_cases pools kind item with ⟨index, -, run⟩ | ⟨-, run⟩
  · rw [run]
    exact .refl _
  · rw [run]
    exact extends_push pools kind item

/-- An interned item, or one that equals it, is at the index that interning yields. -/
theorem get?_internItem {item : Item kind} (indexed : (internItem kind item pools).2.Indexed) :
    ∃ other, (internItem kind item pools).2.get? kind (internItem kind item pools).1 = some other ∧
      (other == item) = true := by
  rw [internItem] at indexed ⊢
  rcases intern_cases pools kind item with ⟨index, found, run⟩ | ⟨-, run⟩
  · rw [run] at indexed ⊢
    exact Pool.get?_of_find? (indexed kind) found
  · rw [run] at indexed ⊢
    exact ⟨item, get?_push indexed, beq_self_eq_true item⟩

/-- Interning an item that is spelled right keeps pools unrepeated. -/
theorem unrepeated_internItem (unrepeated : pools.Unrepeated) {item : Item kind} (spells : pools.Spells item) :
    (internItem kind item pools).2.Unrepeated := by
  rw [internItem]
  rcases intern_cases pools kind item with ⟨index, -, run⟩ | ⟨fresh, run⟩
  · rw [run]
    exact unrepeated
  · rw [run]
    exact unrepeated.push (fun _ => fresh) (spells.of_extends (extends_push pools kind item))

end Pools
end DexImage
