import Mathlib.Data.List.Forall2
import Mathlib.Data.List.Sort
/-! # Related lists

Members of lists that are related one by one have a partner on the other side, at the same position.
-/

namespace List.Forall₂

variable {α β : Type} {R : α → β → Prop} {first : List α} {second : List β}

theorem exists_of_mem_left (related : Forall₂ R first second) {item : α} (member : item ∈ first) :
    ∃ other ∈ second, R item other := by
  induction related with
  | nil => cases member
  | cons head _ ih =>
    rcases List.mem_cons.mp member with rfl | member
    · exact ⟨_, List.mem_cons_self, head⟩
    · obtain ⟨other, present, holds⟩ := ih member
      exact ⟨other, List.mem_cons_of_mem _ present, holds⟩

theorem exists_of_mem_right (related : Forall₂ R first second) {item : β} (member : item ∈ second) :
    ∃ other ∈ first, R other item :=
  related.flip.exists_of_mem_left member

/-- Lists of one length are related when their members at each position are. -/
theorem of_getElem? (length : first.length = second.length)
    (related : ∀ (position : Nat) item, first[position]? = some item →
      ∃ other, second[position]? = some other ∧ R item other) : Forall₂ R first second := by
  induction first generalizing second with
  | nil =>
    obtain rfl := List.length_eq_zero_iff.mp length.symm
    exact .nil
  | cons item rest ih =>
    cases second with
    | nil => cases length
    | cons other others =>
      obtain ⟨_, found, head⟩ := related 0 item rfl
      obtain rfl := Option.some.inj found
      exact .cons head (ih (Nat.succ.inj length) fun position member found => related (position + 1) member found)

/-- What is made of the same members. -/
theorem of_map {γ : Type} {make : γ → α} {make' : γ → β} {items : List γ}
    (related : ∀ item ∈ items, R (make item) (make' item)) : Forall₂ R (items.map make) (items.map make') :=
  forall₂_map_left_iff.mpr (forall₂_map_right_iff.mpr (forall₂_same.mpr related))

theorem of_map_left {make : β → α} {items : List β} (related : ∀ item ∈ items, R (make item) item) :
    Forall₂ R (items.map make) items :=
  forall₂_map_left_iff.mpr (forall₂_same.mpr related)

theorem of_map_right {make : α → β} {items : List α} (related : ∀ item ∈ items, R item (make item)) :
    Forall₂ R items (items.map make) :=
  forall₂_map_right_iff.mpr (forall₂_same.mpr related)

theorem getElem?_left (related : Forall₂ R first second) {position : Nat} {item : α}
    (found : first[position]? = some item) : ∃ other, second[position]? = some other ∧ R item other := by
  induction related generalizing position with
  | nil => cases found
  | cons head _ ih =>
    cases position with
    | zero =>
      obtain rfl := Option.some.inj found
      exact ⟨_, rfl, head⟩
    | succ position => exact ih found

/-- What tells the same of related members tells the same of the lists. -/
theorem map_eq {γ : Type} {look : α → γ} {look' : β → γ} (related : Forall₂ R first second)
    (same : ∀ {item other}, R item other → look item = look' other) : first.map look = second.map look' := by
  induction related with
  | nil => rfl
  | cons head _ ih => rw [List.map_cons, List.map_cons, same head, ih]

/-- Lists whose members are equal one by one are equal. -/
theorem eq_of {R : α → α → Prop} {first second : List α} (related : Forall₂ R first second)
    (same : ∀ {item other}, R item other → item = other) : first = second :=
  forall₂_eq_eq_eq ▸ related.imp fun _ _ => same

/-- Lists that are related through a third. -/
theorem comp {γ : Type} {S : β → γ → Prop} {T : α → γ → Prop}
    {third : List γ} (related : Forall₂ R first second)
    (next : Forall₂ S second third) (chain : ∀ {a b c}, R a b → S b c → T a c) : Forall₂ T first third := by
  induction related generalizing third with
  | nil =>
    cases next
    exact .nil
  | cons head _ ih =>
    obtain _ | ⟨head', next⟩ := next
    exact .cons (chain head head') (ih next)

/-- Related lists are in order together. -/
theorem pairwise {P : α → α → Prop} {Q : β → β → Prop} (related : Forall₂ R first second)
    (transfer : ∀ {a b c d}, R a b → R c d → P a c → Q b d) (ordered : first.Pairwise P) : second.Pairwise Q := by
  induction related with
  | nil => exact .nil
  | cons head rest ih =>
    obtain ⟨before, ordered⟩ := List.pairwise_cons.mp ordered
    refine List.pairwise_cons.mpr ⟨fun other member => ?_, ih ordered⟩
    obtain ⟨item, present, pair⟩ := rest.exists_of_mem_right member
    exact transfer head pair (before item present)

end List.Forall₂

/-- Where nothing is left out, what is made of the members stands where they stand. -/
theorem List.getElem?_filterMap_of_isSome {α β : Type} {make : α → Option β} {items : List α}
    (each : ∀ item ∈ items, (make item).isSome) (position : Nat) :
    (items.filterMap make)[position]? = items[position]?.bind make := by
  induction items generalizing position with
  | nil => rfl
  | cons item rest ih =>
    obtain ⟨here, others⟩ := List.forall_mem_cons.mp each
    obtain ⟨made, same⟩ := Option.isSome_iff_exists.mp here
    rw [List.filterMap_cons_some same]
    cases position with
    | zero => exact same.symm
    | succ position => exact ih others position

/-- Sorting by a comparison that orders the members at hand. -/
theorem List.pairwise_mergeSort_of_mem {α : Type} {le : α → α → Bool} {items : List α}
    (trans : ∀ a ∈ items, ∀ b ∈ items, ∀ c ∈ items, le a b → le b c → le a c)
    (total : ∀ a ∈ items, ∀ b ∈ items, le a b || le b a) : (items.mergeSort le).Pairwise fun a b => le a b := by
  have attached : (items.attach.mergeSort fun a b => le a.1 b.1).map Subtype.val = items.mergeSort le := by
    have mapped := @List.map_mergeSort _ _ (fun a b => le a.1 b.1) le Subtype.val items.attach fun _ _ _ _ => rfl
    rwa [List.attach_map_subtype_val] at mapped
  rw [← attached, List.pairwise_map]
  exact List.pairwise_mergeSort (fun a b c => trans a.1 a.2 b.1 b.2 c.1 c.2) (fun a b => total a.1 a.2 b.1 b.2) _

/-- An edit that leaves every member equal leaves the list equal. -/
theorem List.map_beq {α : Type} [BEq α] {edit : α → α} (same : ∀ item, (edit item == item) = true)
    (items : List α) :
    (items.map edit == items) = true := by
  induction items with
  | nil => rfl
  | cons item rest ih => exact Bool.and_eq_true_iff.mpr ⟨same item, ih⟩

theorem List.mem_of_lookup_eq_some {α β : Type} [BEq α] [LawfulBEq α] {entries : List (α × β)} {key : α} {value : β}
    (found : entries.lookup key = some value) : (key, value) ∈ entries := by
  obtain ⟨front, back, rfl, -⟩ := List.lookup_eq_some_iff.mp found
  exact List.mem_append_right _ List.mem_cons_self

/-- What passes a test stands behind the members before it that do. -/
theorem List.getElem?_filter_countP {α : Type} {p : α → Bool} {items : List α} {position : Nat} {item : α}
    (found : items[position]? = some item) (holds : p item) :
    (items.filter p)[(items.take position).countP p]? = some item := by
  induction items generalizing position with
  | nil => cases found
  | cons first rest ih =>
    cases position with
    | zero =>
      obtain rfl : first = item := by simpa using found
      simp [holds]
    | succ position =>
      have rest := ih (by simpa using found)
      by_cases first : p first <;> simpa [first] using rest
