import DexImage.Proofs.Lists
import DexImage.Proofs.References.Names
/-! # Handler lists of different images

Two handler lists are compared by the names of the types that they catch, each in the pools of its own image.
Where both names are found the comparison tells whether they are the same (`ExceptionHandler.Matches`). Where
neither is found the two handlers count as alike too, so that the comparison is to be relied on for lists whose
types all have names.
-/

namespace DexImage

/-- Whether a reference leads to a type, whose descriptor leads to a string, whose text is the key. -/
def TypeKey.Names (pools : Pools) (type : IdRef .typeId) (key : TypeKey) : Prop :=
  ∃ index entry descriptor string, type.index = some index ∧ pools.get? .typeId index = some entry ∧
    (TypeId.descriptor entry).index = some descriptor ∧ pools.get? .stringId descriptor = some string ∧
    key.descriptor = StringData.textLossy string

namespace ExceptionHandler

/-- Whether two handlers have one address and catch everything, or types of one name. -/
inductive Matches (pools others : Pools) : ExceptionHandler → ExceptionHandler → Prop
  | typed {type other : IdRef .typeId} {key : TypeKey} (named : TypeKey.Names pools type key)
      (namedOther : TypeKey.Names others other key) (address : UInt32) :
      Matches pools others (typed type address) (typed other address)
  | catchAll (address : UInt32) : Matches pools others (catchAll address) (catchAll address)

/-- Whether two handlers have one address and catch types of which neither has a name. -/
inductive BothNameless (pools others : Pools) : ExceptionHandler → ExceptionHandler → Prop
  | typed {type other : IdRef .typeId} (nameless : ∀ key, ¬TypeKey.Names pools type key)
      (namelessOther : ∀ key, ¬TypeKey.Names others other key) (address : UInt32) :
      BothNameless pools others (typed type address) (typed other address)

/-- Whether the type that a handler catches has a name, if it catches one. -/
def Named (pools : Pools) : ExceptionHandler → Prop
  | typed type _ => ∃ key, TypeKey.Names pools type key
  | catchAll _ => True

variable {pools others : Pools}

theorem typeKey?_eq_some_iff {type : IdRef .typeId} {address : UInt32} {key : TypeKey} :
    (typed type address).typeKey? pools = some key ↔ TypeKey.Names pools type key := by
  have made (text : String) : (pure (TypeKey.mk text) : Result TypeKey).toOption = some ⟨text⟩ := rfl
  have given (text : String) : (pure text : Result String).toOption = some text := rfl
  simp only [typeKey?, TypeKey.at?, Pools.stringOf, Pools.stringAt, Result.toOption_bind, IdRef.toOption_required, made,
    given, Option.bind_eq_some_iff, Option.some.injEq]
  constructor
  · rintro ⟨index, present, entry, found, _, ⟨descriptor, leads, string, there, rfl⟩, rfl⟩
    exact ⟨index, entry, descriptor, string, present, (pools.toOption_require .typeId index).symm.trans found, leads,
      (pools.toOption_require .stringId descriptor).symm.trans there, rfl⟩
  · rintro ⟨index, entry, descriptor, string, present, found, leads, there, same⟩
    exact ⟨index, present, entry, (pools.toOption_require .typeId index).trans found, key.descriptor,
      ⟨descriptor, leads, string, (pools.toOption_require .stringId descriptor).trans there, same.symm⟩, rfl⟩

theorem typeKey?_eq_none_iff {type : IdRef .typeId} {address : UInt32} :
    (typed type address).typeKey? pools = none ↔ ∀ key, ¬TypeKey.Names pools type key := by
  simp only [← @typeKey?_eq_some_iff pools type address, Option.eq_none_iff_forall_ne_some, ne_eq]

/-- Handlers that are alike match each other, unless neither has a name. -/
theorem sameType_iff (one other : ExceptionHandler) :
    (one.address == other.address && one.sameType pools others other) = true ↔
      Matches pools others one other ∨ BothNameless pools others one other := by
  rw [Bool.and_eq_true, beq_iff_eq]
  cases one with
  | catchAll address =>
    cases other with
    | catchAll other =>
      constructor
      · rintro ⟨same, -⟩
        obtain rfl : address = other := same
        exact .inl (.catchAll address)
      · rintro (same | both)
        · cases same
          exact ⟨rfl, rfl⟩
        · cases both
    | typed =>
      exact iff_of_false (fun ⟨_, alike⟩ => Bool.false_ne_true alike) (by rintro (same | both) <;> contradiction)
  | typed type address =>
    cases other with
    | catchAll =>
      exact iff_of_false (fun ⟨_, alike⟩ => Bool.false_ne_true alike) (by rintro (same | both) <;> contradiction)
    | typed type' other =>
      rw [sameType, beq_iff_eq]
      constructor
      · rintro ⟨same, alike⟩
        obtain rfl : address = other := same
        rcases found : (typed type address).typeKey? pools with _ | key
        · exact .inr (.typed (typeKey?_eq_none_iff.mp found) (typeKey?_eq_none_iff.mp (alike.symm.trans found)) address)
        · exact .inl (.typed (typeKey?_eq_some_iff.mp found) (typeKey?_eq_some_iff.mp (alike.symm.trans found)) address)
      · rintro (⟨named, namedOther⟩ | ⟨nameless, namelessOther⟩)
        · exact ⟨rfl, (typeKey?_eq_some_iff.mpr named).trans (typeKey?_eq_some_iff.mpr namedOther).symm⟩
        · exact ⟨rfl, (typeKey?_eq_none_iff.mpr nameless).trans (typeKey?_eq_none_iff.mpr namelessOther).symm⟩

theorem Matches.named {one other : ExceptionHandler} (same : Matches pools others one other) : one.Named pools := by
  cases same with
  | typed named => exact ⟨_, named⟩
  | catchAll => trivial

theorem BothNameless.not_named {one other : ExceptionHandler} (both : BothNameless pools others one other) :
    ¬one.Named pools := by
  cases both with
  | typed nameless => exact fun ⟨key, named⟩ => nameless key named

end ExceptionHandler

namespace HandlerList

open ExceptionHandler

variable {pools others : Pools}

/-- Lists are equivalent just if they have the same length, and at each position the handlers match each other
or neither of them has a name. They match each other at each position just if they are equivalent and all types
that the one list catches have names. -/
theorem equivalent_iff (list other : HandlerList) :
    (list.equivalent pools others other = true ↔
        List.Forall₂ (fun a b => Matches pools others a b ∨
          BothNameless pools others a b) list.handlers other.handlers) ∧
      (List.Forall₂ (Matches pools others) list.handlers other.handlers ↔
        list.equivalent pools others other = true ∧ ∀ handler ∈ list.handlers, handler.Named pools) := by
  have equivalent : list.equivalent pools others other = true ↔
      List.Forall₂ (fun a b => Matches pools others a b ∨
        BothNameless pools others a b) list.handlers other.handlers := by
    rw [HandlerList.equivalent, Bool.and_eq_true, beq_iff_eq, List.all_eq_true, List.forall₂_iff_zip]
    refine and_congr_right fun _ => ⟨fun all a b member => ?_, fun all pair member => ?_⟩
    · exact (sameType_iff a b).mp (all (a, b) member)
    · exact (sameType_iff pair.1 pair.2).mpr (all member)
  refine ⟨equivalent, fun matching => ⟨equivalent.mpr (matching.imp fun _ _ same => .inl same), ?_⟩, ?_⟩
  · intro handler member
    obtain ⟨_, -, same⟩ := matching.exists_of_mem_left member
    exact same.named
  · rintro ⟨alike, named⟩
    refine List.forall₂_iff_zip.mpr ⟨(equivalent.mp alike).length_eq, fun member => ?_⟩
    rcases (List.forall₂_iff_zip.mp (equivalent.mp alike)).2 member with same | both
    · exact same
    · exact absurd (named _ (List.of_mem_zip member).1) both.not_named

/-- Handlers of types that are in neither image count as alike, whatever their indices. -/
theorem equivalent_nameless :
    (HandlerList.mk [.typed (.of 0) 4]).equivalent .empty .empty ⟨[.typed (.of 7) 4]⟩ = true ∧
    (∀ index key, ¬TypeKey.Names .empty (.of index) key) ∧
      ¬List.Forall₂ (Matches .empty .empty) [.typed (.of 0) 4] [.typed (.of 7) 4] := by
  have nameless (index : UInt32) (key : TypeKey) : ¬TypeKey.Names .empty (.of index) key := by
    rintro ⟨_, _, _, _, _, found, _⟩
    cases found
  refine ⟨by decide, nameless, fun matching => ?_⟩
  cases (List.forall₂_cons.mp matching).1 with
  | typed named => exact nameless _ _ named

end HandlerList
end DexImage
