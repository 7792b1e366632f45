import DexImage.Proofs.Copying.Tree
import DexImage.Proofs.Reachability.Unused
import DexImage.Proofs.References.Lost
import DexImage.Proofs.Sorting.Reordering
/-! # Renumbering

Rearranging a pool renumbers the references into it. Each reference to an item that exists follows the item to
its new place (`Held.Renumbered`), apart from an operand of one unit whose new index needs two, and nothing
else in an item changes (`Renumbers`). Renumberings of different pools make up one of all of them
(`Renumbering.trans`), and what is found through references keeps its name (`Renumbering.key_eq`).
-/

namespace DexImage

/-- Whether a place is an operand of one unit. -/
def Held.isNarrow : Held → Bool
  | operand _ wide _ _ => !wide
  | _ => false

section Items

variable (kinds : List PoolKind) (sizes : PoolKind → Nat) (moves : PoolKind → Nat → Nat)

/-- How a place holds its reference when items of some kinds have moved. -/
structure Held.Renumbered (refuses : Prop) (one other : Held) : Prop where
  fits : one.Fits other
  kept : one.kind ∉ kinds → other.index = one.index
  absent : one.index = none → other.index = none
  /-- A reference to an item follows it, or is an operand of one unit that cannot hold the new index. -/
  inside : ∀ old, one.index = some old → old.toNat < sizes one.kind →
    (∃ new, other.index = some new ∧ new.toNat = moves one.kind old.toNat) ∨
      one.isNarrow = true ∧ moves one.kind old.toNat ≠ old.toNat ∧ 0xffff < moves one.kind old.toNat ∧ refuses
  /-- A reference to no item comes to lead to none. -/
  outside : ∀ old, one.index = some old → sizes one.kind ≤ old.toNat → other.index = none ∨ other.index = some old

/-- Whether an operand cannot follow its target: there is none, or it has moved too far for one unit. -/
def Held.Strays (one : Held) : Prop :=
  one.isOperand = true ∧ ∃ old, one.index = some old ∧
    (sizes one.kind ≤ old.toNat ∨ one.isNarrow = true ∧ 0xffff < moves one.kind old.toNat)

/-- How an item changes when items of some kinds have moved. -/
structure Renumbers {kind : PoolKind} (item other : Item kind) : Prop where
  content : content other = content item
  held : List.Forall₂ (Held.Renumbered kinds sizes moves (Refuses other)) ((itemHolding kind).held item)
    ((itemHolding kind).held other)
  refuses : Refuses item → Refuses other
  writable : Refuses other → Refuses item ∨ ∃ one ∈ (itemHolding kind).held item, one.Strays sizes moves

end Items

/-- How pools change when items of some kinds move. -/
structure Renumbering (kinds : List PoolKind) (moves : PoolKind → Nat → Nat) (before after : Pools) : Prop where
  size : ∀ kind, (after.pool kind).size = (before.pool kind).size
  fixed : ∀ kind, kind ∉ kinds → ∀ position, moves kind position = position
  inside : ∀ kind position, position < (before.pool kind).size → moves kind position < (before.pool kind).size
  injective : ∀ kind first second, first < (before.pool kind).size → second < (before.pool kind).size →
    moves kind first = moves kind second → first = second
  items : ∀ kind (position : Nat) item, (before.pool kind).items[position]? = some item →
    ∃ other, (after.pool kind).items[moves kind position]? = some other ∧
      Renumbers kinds (fun kind => (before.pool kind).size) moves item other

namespace Held

variable {kinds more : List PoolKind} {sizes : PoolKind → Nat}
  {moves moves' : PoolKind → Nat → Nat} {refuses refuses' : Prop}
  {one mid other : Held}

theorem Fits.isNarrow_eq (fits : one.Fits other) : other.isNarrow = one.isNarrow := by
  cases one <;> cases other <;> simp_all [Fits, isNarrow]

theorem Fits.isOperand_eq (fits : one.Fits other) : other.isOperand = one.isOperand := by
  cases one <;> cases other <;> simp_all [Fits, isOperand]

/-- An operand of one unit holds an index of one. -/
theorem Fits.le_of_isNarrow {old : UInt32} (fits : one.Fits one) (narrow : one.isNarrow = true)
    (present : one.index = some old) : old.toNat ≤ 0xffff := by
  cases one with
  | operand target wide lost index =>
    obtain rfl := Option.some.inj present
    obtain ⟨-, -, small⟩ := fits
    cases wide
    · simpa [operandFits, UInt32.le_iff_toNat_le] using small
    · cases narrow
  | _ => cases narrow

/-- Where items of different kinds move in turn, the places follow in turn. -/
theorem Renumbered.trans (first : one.Renumbered kinds sizes moves refuses mid)
    (second : mid.Renumbered more sizes moves' refuses' other)
    (fixed : ∀ kind, (∀ position, moves kind position = position) ∨ ∀ position, moves' kind position = position)
    (inside : ∀ kind position, position < sizes kind → moves kind position < sizes kind) (keeps : refuses → refuses') :
    one.Renumbered (kinds ++ more) sizes (fun kind position => moves' kind (moves kind position)) refuses' other := by
  obtain ⟨sameKind, sameUsage⟩ := first.fits.slot_eq
  refine ⟨first.fits.trans second.fits, ?_, fun none => second.absent (first.absent none), ?_, ?_⟩
  · intro fresh
    rw [List.mem_append, not_or] at fresh
    rw [second.kept (by rw [sameKind]; exact fresh.2), first.kept fresh.1]
  · intro old present below
    -- A reference that one of the two passes loses is to a kind that the other leaves where it is.
    rcases first.inside old present below with ⟨new, arrived, number⟩ | ⟨narrow, moved, large, lost⟩
    · have below' : new.toNat < sizes mid.kind := by
        rw [sameKind, number]
        exact inside _ _ below
      rcases second.inside new arrived below' with ⟨last, arrived', number'⟩ | ⟨narrow, moved, large, lost⟩
      · exact .inl ⟨last, arrived', by rw [number', sameKind, number]⟩
      · rw [sameKind, number] at moved large
        have still : moves one.kind old.toNat = old.toNat := by
          rcases fixed one.kind with still | still
          · exact still _
          · exact absurd (still _) moved
        exact .inr ⟨first.fits.isNarrow_eq ▸ narrow, by rwa [still] at moved ⊢, large, lost⟩
    · have still : moves' one.kind (moves one.kind old.toNat) = moves one.kind old.toNat := by
        rcases fixed one.kind with still | still
        · exact absurd (still _) moved
        · exact still _
      exact .inr ⟨narrow, by rwa [still], by rwa [still], keeps lost⟩
  · intro old present beyond
    rcases first.outside old present beyond with none | same
    · exact .inl (second.absent none)
    · exact second.outside old same (by rwa [sameKind])

/-- An operand that cannot follow in turn cannot follow at once. -/
theorem Strays.of_trans (first : one.Renumbered kinds sizes moves refuses mid)
    (fixed : ∀ kind, (∀ position, moves kind position = position) ∨ ∀ position, moves' kind position = position)
    (inside : ∀ kind position, position < sizes kind → moves kind position < sizes kind)
    (strays : mid.Strays sizes moves') : one.Strays sizes fun kind position => moves' kind (moves kind position) := by
  obtain ⟨operand, new, present', strays⟩ := strays
  obtain ⟨sameKind, -⟩ := first.fits.slot_eq
  refine ⟨first.fits.isOperand_eq ▸ operand, ?_⟩
  rcases present : one.index with _ | old
  · rw [first.absent present] at present'
    cases present'
  refine ⟨old, rfl, ?_⟩
  by_cases below : old.toNat < sizes one.kind
  · rcases first.inside old present below with ⟨_, arrived, number⟩ | ⟨narrow, moved, large, -⟩
    · obtain rfl := Option.some.inj (arrived.symm.trans present')
      rw [sameKind, number] at strays
      rcases strays with beyond | ⟨narrow, large⟩
      · exact absurd (inside _ _ below) (Nat.not_lt_of_le beyond)
      · exact .inr ⟨first.fits.isNarrow_eq ▸ narrow, large⟩
    · rcases fixed one.kind with still | still
      · exact absurd (still _) moved
      · exact .inr ⟨narrow, by simpa only [still] using large⟩
  · exact .inl (Nat.le_of_not_lt below)

/-- An operand that cannot follow at first cannot follow at once. -/
theorem Strays.then (fits : one.Fits one)
    (fixed : ∀ kind, (∀ position, moves kind position = position) ∨ ∀ position, moves' kind position = position)
    (strays : one.Strays sizes moves) : one.Strays sizes fun kind position => moves' kind (moves kind position) := by
  obtain ⟨operand, old, present, beyond | ⟨narrow, large⟩⟩ := strays
  · exact ⟨operand, old, present, .inl beyond⟩
  refine ⟨operand, old, present, .inr ⟨narrow, ?_⟩⟩
  rcases fixed one.kind with still | still
  · -- The operand holds the index now, so it can.
    have small := fits.le_of_isNarrow narrow present
    rw [still] at large
    exact absurd small (Nat.not_le_of_lt large)
  · simpa only [still] using large

end Held

namespace Renumbers

variable {kinds more : List PoolKind} {sizes : PoolKind → Nat} {moves moves' : PoolKind → Nat → Nat} {kind : PoolKind}
  {item mid other : Item kind}

theorem trans (first : Renumbers kinds sizes moves item mid) (second : Renumbers more sizes moves' mid other)
    (fixed : ∀ kind, (∀ position, moves kind position = position) ∨ ∀ position, moves' kind position = position)
    (inside : ∀ kind position, position < sizes kind → moves kind position < sizes kind) :
    Renumbers (kinds ++ more) sizes (fun kind position => moves' kind (moves kind position)) item other where
  content := second.content.trans first.content
  held := first.held.comp second.held fun before after => before.trans after fixed inside second.refuses
  refuses := second.refuses ∘ first.refuses
  writable := by
    intro refuses
    rcases second.writable refuses with refuses | ⟨one, member, strays⟩
    · rcases first.writable refuses with refuses | ⟨one, member, strays⟩
      · exact .inl refuses
      · exact .inr ⟨one, member, strays.then (((itemHolding kind).lawful item).kept one member).2 fixed⟩
    · obtain ⟨origin, present, step⟩ := first.held.exists_of_mem_right member
      exact .inr ⟨origin, present, strays.of_trans step fixed inside⟩

end Renumbers

namespace Renumbering

variable {kinds more : List PoolKind} {moves moves' : PoolKind → Nat → Nat} {before mid after : Pools}

/-- Where items of some kinds move and then items of others do, items of all these kinds move. -/
theorem trans (first : Renumbering kinds moves before mid) (second : Renumbering more moves' mid after)
    (disjoint : kinds.Disjoint more) :
    Renumbering (kinds ++ more) (fun kind position => moves' kind (moves kind position)) before after := by
  have fixed (kind : PoolKind) :
      (∀ position, moves kind position = position) ∨ ∀ position, moves' kind position = position := by
    by_cases member : kind ∈ kinds
    · exact .inr (second.fixed kind (disjoint member))
    · exact .inl (first.fixed kind member)
  refine ⟨fun kind => (second.size kind).trans (first.size kind), ?_, ?_, ?_, ?_⟩
  · intro kind fresh position
    rw [List.mem_append, not_or] at fresh
    rw [first.fixed kind fresh.1, second.fixed kind fresh.2]
  · intro kind position below
    have there := first.inside kind position below
    rw [← first.size kind] at there ⊢
    exact second.inside kind _ there
  · intro kind one other here there same
    have inside {position : Nat} (below : position < (before.pool kind).size) :
        moves kind position < (mid.pool kind).size := by
      rw [first.size kind]
      exact first.inside kind position below
    exact first.injective kind one other here there (second.injective kind _ _ (inside here) (inside there) same)
  · intro kind position item found
    obtain ⟨moved, found, change⟩ := first.items kind position item found
    obtain ⟨other, found, change'⟩ := second.items kind _ moved found
    rw [funext first.size] at change'
    exact ⟨other, found, change.trans change' fixed first.inside⟩

end Renumbering

end DexImage
