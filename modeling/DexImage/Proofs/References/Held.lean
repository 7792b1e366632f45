import DexImage.Referring
import DexImage.Proofs.Lists
/-! # What an item holds

An item is seen as a form with places for references. `Holding` lists what stands in the places, in
visiting order, and fills them anew; its laws say that the two undo each other and that a filling
forgets the one before it. A pass over the references of an item is then a pass over that list
(`Holding.visit`), whatever the item looks like.

The holdings of composed forms are composed. That the passes of the items are passes over a holding
is shown where the items' holdings are.
-/

namespace DexImage

/-- What stands in a place for a reference. -/
inductive Held where
  | id (target : PoolKind) (usage : Usage) (index : Option UInt32)
  /-- The index of a data item with the offset known for it, unless absent. -/
  | data (target : PoolKind) (usage : Usage) (state : Option (UInt32 × Option UInt32))
  /-- An operand of one unit, or of two. It is lost when it was to get an index it cannot hold. -/
  | operand (target : PoolKind) (wide lost : Bool) (index : UInt32)
deriving DecidableEq, Repr

namespace Held

def kind : Held → PoolKind
  | id target .. | data target .. | operand target .. => target

def index : Held → Option UInt32
  | id _ _ index => index
  | data _ _ state => state.map Prod.fst
  | operand _ _ _ index => some index

def usage : Held → Usage
  | id _ usage _ | data _ usage _ => usage
  | operand .. => .instruction

def slot (held : Held) : Slot := ⟨held.kind, held.index, held.usage⟩

def isLost : Held → Bool
  | operand _ _ lost _ => lost
  | _ => false

/-- A lost operand keeps the index it had. -/
def settled : Held → Held
  | operand target wide _ index => operand target wide false index
  | other => other

/-- Whether an index can be written into an operand. -/
def operandFits (wide : Bool) (index : UInt32) : Bool := wide || index ≤ 0xffff

/-- What an edit makes of it. -/
def edited : Held → Edit → Held
  | id target usage _, .retarget index => id target usage index
  | data target usage _, .retarget none => data target usage none
  | data target usage state, .retarget (some index) =>
    data target usage (if state.map Prod.fst = some index then state else some (index, none))
  | data target usage state, .place offset =>
    data target usage (state.map fun (index, _) => (index, some offset))
  | operand target wide _ index, .retarget none => operand target wide true index
  | operand target wide lost index, .retarget (some new) =>
    if new = index then operand target wide lost index
    else if operandFits wide new then operand target wide lost new
    else operand target wide true index
  | held, _ => held

def visit {σ : Type} (visitor : Visitor σ) (held : Held) : StateM σ Held := do
  return held.edited (← visitor held.slot)

/-- Whether the second can stand in the place of the first. -/
def Fits : Held → Held → Prop
  | id target usage _, id target' usage' _ => target' = target ∧ usage' = usage
  | data target usage _, data target' usage' _ => target' = target ∧ usage' = usage
  | operand target wide _ _, operand target' wide' _ index =>
    target' = target ∧ wide' = wide ∧ operandFits wide index
  | _, _ => False

@[simp] theorem settled_settled (held : Held) : held.settled.settled = held.settled := by
  cases held <;> rfl

@[simp] theorem isLost_settled (held : Held) : held.settled.isLost = false := by
  cases held <;> rfl

@[simp] theorem slot_settled (held : Held) : held.settled.slot = held.slot := by
  cases held <;> rfl

theorem settled_eq_self {held : Held} (kept : held.isLost = false) : held.settled = held := by
  cases held <;> simp_all [settled, isLost]

theorem Fits.slot_eq {old new : Held} (fits : Fits old new) :
    new.kind = old.kind ∧ new.usage = old.usage := by
  cases old <;> cases new <;> simp_all [Fits, kind, usage]

theorem Fits.trans {first second third : Held} (fits : Fits first second)
    (next : Fits second third) : Fits first third := by
  cases first <;> cases second <;> cases third <;> simp_all [Fits]

theorem Fits.settled_right {old new : Held} (fits : Fits old new) : Fits old new.settled := by
  cases old <;> cases new <;> simp_all [Fits, settled]

/-- An edit leaves in a place what can stand there. -/
theorem Fits.edited {old new : Held} (fits : Fits old new) (edit : Edit) :
    Fits old (new.edited edit) := by
  cases old <;> cases new <;> cases edit with
  | keep => exact fits
  | place _ => exact fits
  | retarget index =>
    cases index <;> simp only [Held.edited] <;> (try split_ifs) <;> simp_all [Fits]

/-- A place with nothing in it, or with index zero where there has to be one. -/
def blank : Held → Held
  | id target usage _ => id target usage none
  | data target usage _ => data target usage none
  | operand target wide _ _ => operand target wide false 0

@[simp] theorem isLost_blank (held : Held) : held.blank.isLost = false := by
  cases held <;> rfl

theorem Fits.blank {old new : Held} (fits : Fits old new) : Fits old new.blank := by
  cases old <;> cases new <;> simp_all [Fits, Held.blank, operandFits]

theorem Fits.blank_eq {old new : Held} (fits : Fits old new) : new.blank = old.blank := by
  cases old <;> cases new <;> simp_all [Fits, Held.blank]

theorem map_blank_eq {old new : List Held} (fits : List.Forall₂ Fits old new) :
    new.map blank = old.map blank := by
  induction fits with
  | nil => rfl
  | cons fit _ ih => rw [List.map_cons, List.map_cons, fit.blank_eq, ih]

/-- An operand can take any index not above the one it has. -/
theorem operandFits_mono {wide : Bool} {small large : UInt32} (le : small ≤ large)
    (fits : operandFits wide large = true) : operandFits wide small = true := by
  cases wide
  · simp only [operandFits, Bool.false_or, decide_eq_true_eq] at fits ⊢
    exact UInt32.le_trans le fits
  · rfl

/-- A present reference that is given an index it can take has that index afterwards. -/
theorem edited_retarget {one : Held} {old new : UInt32} (present : one.index = some old)
    (kept : one.isLost = false) (fits : ∀ target wide lost, one = operand target wide lost old →
      operandFits wide new = true) :
    (one.edited (.retarget (some new))).slot = ⟨one.kind, some new, one.usage⟩ ∧
      (one.edited (.retarget (some new))).isLost = false := by
  cases one with
  | id => exact ⟨rfl, rfl⟩
  | data target usage state =>
    refine ⟨?_, rfl⟩
    simp only [edited, slot, kind, index, Held.usage]
    split_ifs with same
    · rw [same]
    · rfl
  | operand target wide lost index =>
    obtain rfl : index = old := Option.some.inj present
    simp only [edited, slot, kind, Held.index, usage]
    split_ifs with same fit
    · exact ⟨by rw [same], kept⟩
    · exact ⟨rfl, kept⟩
    · exact absurd (fits target wide lost rfl) fit

@[simp] theorem edited_keep (held : Held) : held.edited .keep = held := by
  cases held <;> rfl

end Held

section Visits

variable {σ α β : Type}

@[simp] theorem visitAll_nil (visitOne : α → StateM σ α) : visitAll visitOne [] = pure [] := rfl

theorem visitAll_cons (visitOne : α → StateM σ α) (item : α) (rest : List α) :
    visitAll visitOne (item :: rest) =
      (do let item ← visitOne item
          return item :: (← visitAll visitOne rest)) := rfl

theorem visitAll_append (visitOne : α → StateM σ α) (first second : List α) :
    visitAll visitOne (first ++ second) =
      (do let first ← visitAll visitOne first
          return first ++ (← visitAll visitOne second)) := by
  induction first with
  | nil => simp
  | cons item rest ih => simp [visitAll_cons, ih]

theorem visitAll_congr {f g : α → StateM σ α} {items : List α}
    (same : ∀ item ∈ items, f item = g item) : visitAll f items = visitAll g items := by
  induction items with
  | nil => rfl
  | cons item rest ih =>
    rw [visitAll_cons, visitAll_cons, same item List.mem_cons_self,
      ih fun other member => same other (List.mem_cons_of_mem _ member)]

/-- A step that keeps a relation on each member keeps it on the whole list. -/
theorem visitAll_forall₂ {visitOne : α → StateM σ α} {R : α → α → Prop} {items : List α}
    (step : ∀ item ∈ items, ∀ state, R item (visitOne item state).1) (state : σ) :
    List.Forall₂ R items (visitAll visitOne items state).1 := by
  induction items generalizing state with
  | nil => exact .nil
  | cons item rest ih =>
    exact .cons (step item List.mem_cons_self state)
      (ih (fun other member => step other (List.mem_cons_of_mem _ member)) _)

theorem length_visitAll (visitOne : α → StateM σ α) (items : List α) (state : σ) :
    (visitAll visitOne items state).1.length = items.length :=
  (visitAll_forall₂ (R := fun _ _ => True) (fun _ _ _ => trivial) state).length_eq.symm

end Visits

/-- The places for references in a form. -/
structure Places (α : Type) where
  /-- What stands in the places, in visiting order. -/
  held : α → List Held
  /-- The form with other references in its places. -/
  fill : α → List Held → α

namespace Places

variable {σ α β γ : Type} {p : Places α} {q : Places β} {r : Places γ}

/-- The laws that listing and filling the places of one form obey. -/
structure LawfulAt (p : Places α) (x : α) : Prop where
  kept : ∀ one ∈ p.held x, one.isLost = false ∧ one.Fits one
  held_fill : ∀ {new}, List.Forall₂ Held.Fits (p.held x) new →
    p.held (p.fill x new) = new.map Held.settled
  fill_fill : ∀ {new other}, List.Forall₂ Held.Fits (p.held x) new →
    (∀ one ∈ new, one.isLost = false) → List.Forall₂ Held.Fits (p.held x) other →
      p.fill (p.fill x new) other = p.fill x other

/-- A pass over the places of a form. -/
def visit (p : Places α) (visitor : Visitor σ) (x : α) : StateM σ α := do
  return p.fill x (← visitAll (Held.visit visitor) (p.held x))

/-- A form without places. -/
theorem LawfulAt.bare {x : α} (held_nil : p.held x = []) (fill_self : ∀ new, p.fill x new = x) :
    p.LawfulAt x where
  kept := by simp [held_nil]
  held_fill := by
    intro new fits
    rw [held_nil] at fits
    cases fits
    rw [fill_self, held_nil]
    rfl
  fill_fill := by simp [fill_self]

theorem visit_bare {x : α} (held_nil : p.held x = []) (fill_self : ∀ new, p.fill x new = x)
    (visitor : Visitor σ) : p.visit visitor x = pure x := by
  simp [visit, held_nil, fill_self]

/-- A form with the places of one part. -/
theorem LawfulAt.wrap (wrap : α → β) (held_wrap : ∀ x, q.held (wrap x) = p.held x)
    (fill_wrap : ∀ x new, q.fill (wrap x) new = wrap (p.fill x new)) {x : α}
    (lawful : p.LawfulAt x) : q.LawfulAt (wrap x) where
  kept := by simpa only [held_wrap] using lawful.kept
  held_fill := by
    intro new fits
    rw [held_wrap] at fits
    rw [fill_wrap, held_wrap, lawful.held_fill fits]
  fill_fill := by
    intro new other fits kept otherFits
    rw [held_wrap] at fits otherFits
    rw [fill_wrap, fill_wrap, fill_wrap, lawful.fill_fill fits kept otherFits]

theorem visit_wrap (wrap : α → β) (held_wrap : ∀ x, q.held (wrap x) = p.held x)
    (fill_wrap : ∀ x new, q.fill (wrap x) new = wrap (p.fill x new)) (visitor : Visitor σ) (x : α) :
    q.visit visitor (wrap x) = (do return wrap (← p.visit visitor x)) := by
  simp [visit, held_wrap, fill_wrap]

/-- A form with the places of two parts, one after the other. -/
theorem LawfulAt.join (join : α → β → γ) (held_join : ∀ x y, r.held (join x y) = p.held x ++ q.held y)
    (fill_join : ∀ x y new, r.fill (join x y) new =
      join (p.fill x (new.take (p.held x).length)) (q.fill y (new.drop (p.held x).length)))
    {x : α} {y : β} (first : p.LawfulAt x) (second : q.LawfulAt y) : r.LawfulAt (join x y) := by
  have split {new : List Held} (fits : List.Forall₂ Held.Fits (p.held x ++ q.held y) new) :
      List.Forall₂ Held.Fits (p.held x) (new.take (p.held x).length) ∧
        List.Forall₂ Held.Fits (q.held y) (new.drop (p.held x).length) := by
    have left := List.forall₂_take (p.held x).length fits
    have right := List.forall₂_drop (p.held x).length fits
    rw [List.take_left] at left
    rw [List.drop_left] at right
    exact ⟨left, right⟩
  refine ⟨?_, ?_, ?_⟩
  · intro one member
    rw [held_join] at member
    rcases List.mem_append.mp member with member | member
    · exact first.kept one member
    · exact second.kept one member
  · intro new fits
    rw [held_join] at fits
    obtain ⟨left, right⟩ := split fits
    rw [fill_join, held_join, first.held_fill left, second.held_fill right, ← List.map_append,
      List.take_append_drop]
  · intro new other fits kept otherFits
    rw [held_join] at fits otherFits
    obtain ⟨left, right⟩ := split fits
    obtain ⟨otherLeft, otherRight⟩ := split otherFits
    have length : (p.held (p.fill x (new.take (p.held x).length))).length = (p.held x).length := by
      rw [first.held_fill left, List.length_map]
      exact left.length_eq.symm
    rw [fill_join, fill_join, fill_join, length,
      first.fill_fill left (fun one member => kept one (List.mem_of_mem_take member)) otherLeft,
      second.fill_fill right (fun one member => kept one (List.mem_of_mem_drop member)) otherRight]

theorem visit_join (join : α → β → γ) (held_join : ∀ x y, r.held (join x y) = p.held x ++ q.held y)
    (fill_join : ∀ x y new, r.fill (join x y) new =
      join (p.fill x (new.take (p.held x).length)) (q.fill y (new.drop (p.held x).length)))
    (visitor : Visitor σ) (x : α) (y : β) :
    r.visit visitor (join x y) =
      (do let left ← p.visit visitor x
          return join left (← q.visit visitor y)) := by
  funext state
  have length := length_visitAll (Held.visit visitor) (p.held x) state
  simp only [visit, held_join, fill_join, visitAll_append, bind_assoc, pure_bind]
  simp only [bind, StateT.bind]
  generalize visitAll (Held.visit visitor) (p.held x) state = run at length ⊢
  rcases run with ⟨left, state⟩
  simp only [← length, List.take_left, List.drop_left]

/-- The members of a list with other references in their places. -/
def fillMembers (p : Places α) : List α → List Held → List α
  | [], _ => []
  | x :: rest, new =>
    p.fill x (new.take (p.held x).length) :: fillMembers p rest (new.drop (p.held x).length)

/-- The members of a list, one after the other. -/
def list (p : Places α) : Places (List α) where
  held items := items.flatMap p.held
  fill := p.fillMembers

theorem LawfulAt.list {items : List α} (lawful : ∀ item ∈ items, p.LawfulAt item) :
    p.list.LawfulAt items := by
  induction items with
  | nil => exact .bare rfl fun _ => rfl
  | cons x rest ih =>
    exact .join List.cons (fun _ _ => rfl) (fun _ _ _ => rfl) (lawful x List.mem_cons_self)
      (ih fun item member => lawful item (List.mem_cons_of_mem _ member))

theorem visit_list (visitor : Visitor σ) (items : List α) :
    p.list.visit visitor items = visitAll (p.visit visitor) items := by
  induction items with
  | nil => rfl
  | cons x rest ih =>
    rw [visitAll_cons, ← ih]
    exact visit_join List.cons (fun _ _ => rfl) (fun _ _ _ => rfl) visitor x rest

end Places

/-- Places for references that obey the laws in every form. -/
structure Holding (α : Type) extends Places α where
  lawful : ∀ x, toPlaces.LawfulAt x

namespace Holding

variable {σ α β : Type}

theorem fits_refl (holding : Holding α) (x : α) :
    List.Forall₂ Held.Fits (holding.held x) (holding.held x) :=
  List.forall₂_same.mpr fun one member => ((holding.lawful x).kept one member).2

theorem fits_blank (holding : Holding α) (x : α) :
    List.Forall₂ Held.Fits (holding.held x) ((holding.held x).map Held.blank) :=
  .of_map_right fun one member => ((holding.lawful x).kept one member).2.blank

/-- What edits leave in the places can stand there. -/
theorem fits_edited (holding : Holding α) (x : α) (edit : Held → Edit) :
    List.Forall₂ Held.Fits (holding.held x) ((holding.held x).map fun one => one.edited (edit one)) :=
  .of_map_right fun one member => ((holding.lawful x).kept one member).2.edited _

/-- What a pass leaves in the places can stand there. -/
theorem fits_visitAll (holding : Holding α) (visitor : Visitor σ) (x : α) (state : σ) :
    List.Forall₂ Held.Fits (holding.held x)
      (visitAll (Held.visit visitor) (holding.held x) state).1 :=
  visitAll_forall₂ (fun one member _ => ((holding.lawful x).kept one member).2.edited _) state

/-- What stands in the places of a form that has been filled, unless an operand was lost. -/
theorem held_fill_kept (holding : Holding α) {x : α} {new : List Held}
    (fits : List.Forall₂ Held.Fits (holding.held x) new) (kept : ∀ one ∈ new, one.isLost = false) :
    holding.held (holding.fill x new) = new := by
  rw [(holding.lawful x).held_fill fits]
  exact (List.map_congr_left (g := id) fun one member =>
    Held.settled_eq_self (kept one member)).trans (List.map_id new)

/-- The form with nothing in its places: what two forms share that differ in their references
alone. -/
def form (holding : Holding α) (x : α) : α := holding.fill x ((holding.held x).map Held.blank)

theorem form_fill (holding : Holding α) {x : α} {new : List Held}
    (fits : List.Forall₂ Held.Fits (holding.held x) new) (kept : ∀ one ∈ new, one.isLost = false) :
    holding.form (holding.fill x new) = holding.form x := by
  have blanks : new.map Held.blank = (holding.held x).map Held.blank := Held.map_blank_eq fits
  rw [form, form, holding.held_fill_kept fits kept, blanks,
    (holding.lawful x).fill_fill fits kept (holding.fits_blank x)]

private theorem kept_blank (held : List Held) : ∀ one ∈ held.map Held.blank, one.isLost = false := by
  intro one member
  obtain ⟨old, -, rfl⟩ := List.mem_map.mp member
  exact old.isLost_blank

theorem held_form (holding : Holding α) (x : α) : holding.held (holding.form x) = (holding.held x).map Held.blank :=
  holding.held_fill_kept (holding.fits_blank x) (kept_blank _)

/-- What stood in the places of a form does not matter to what it is filled with. -/
theorem fill_form (holding : Holding α) {x : α} {new : List Held} (fits : List.Forall₂ Held.Fits (holding.held x) new) :
    holding.fill (holding.form x) new = holding.fill x new :=
  (holding.lawful x).fill_fill (holding.fits_blank x) (kept_blank _) fits

/-- Equal forms have places for the same number of references. -/
theorem length_held_of_form {holding : Holding α} {x y : α} (same : holding.form x = holding.form y) :
    (holding.held x).length = (holding.held y).length := by
  have lengths := congrArg (fun form => (holding.held form).length) same
  simpa only [held_form, List.length_map] using lengths

/-- A form filled with what stood in another one is that one, if nothing but references tells them apart. -/
theorem eq_of_form {holding : Holding α} {x y : α} (whole : ∀ x, holding.fill x (holding.held x) = x)
    (form : holding.form x = holding.form y) (held : holding.held x = holding.held y) : x = y := by
  have filled (x : α) : holding.fill (holding.form x) (holding.held x) = x := by
    rw [holding.fill_form (holding.fits_refl x), whole]
  rw [← filled x, form, held, filled]

/-- A pass with an edit for every slot that depends on the slot alone. -/
theorem visit_pure (holding : Holding α) (edit : Slot → Edit) (x : α) :
    holding.visit (σ := σ) (fun slot => pure (edit slot)) x =
      pure (holding.fill x ((holding.held x).map fun one => one.edited (edit one.slot))) := by
  have pass : ∀ held : List Held, visitAll (Held.visit (σ := σ) fun slot => pure (edit slot)) held =
      pure (held.map fun one => one.edited (edit one.slot)) := by
    intro held
    induction held with
    | nil => rfl
    | cons one rest ih => rw [visitAll_cons, ih]; rfl
  rw [Places.visit, pass]
  rfl

/-- A form without references. -/
def bare : Holding α where
  held _ := []
  fill x _ := x
  lawful _ := .bare rfl fun _ => rfl

/-- Two forms, one after the other. -/
def pair (first : Holding α) (second : Holding β) : Holding (α × β) where
  held x := first.held x.1 ++ second.held x.2
  fill x new :=
    (first.fill x.1 (new.take (first.held x.1).length),
      second.fill x.2 (new.drop (first.held x.1).length))
  lawful x := .join Prod.mk (fun _ _ => rfl) (fun _ _ _ => rfl) (first.lawful x.1) (second.lawful x.2)

theorem visit_pair (first : Holding α) (second : Holding β) (visitor : Visitor σ) (x : α × β) :
    (first.pair second).visit visitor x =
      (do let left ← first.visit visitor x.1
          return (left, ← second.visit visitor x.2)) :=
  Places.visit_join Prod.mk (fun _ _ => rfl) (fun _ _ _ => rfl) visitor x.1 x.2

/-- The members of a list, one after the other. -/
def list (holding : Holding α) : Holding (List α) where
  toPlaces := holding.toPlaces.list
  lawful _ := .list fun item _ => holding.lawful item

theorem visit_list (holding : Holding α) (visitor : Visitor σ) (items : List α) :
    holding.list.visit visitor items = visitAll (holding.visit visitor) items :=
  Places.visit_list visitor items

/-- A part of a form. -/
def part (holding : Holding β) (get : α → β) (put : α → β → α)
    (get_put : ∀ x part, get (put x part) = part := by intros; rfl)
    (put_put : ∀ x part other, put (put x part) other = put x other := by intros; rfl) :
    Holding α where
  held x := holding.held (get x)
  fill x new := put x (holding.fill (get x) new)
  lawful x :=
    { kept := (holding.lawful (get x)).kept
      held_fill := by
        intro new fits
        simp only [get_put, (holding.lawful (get x)).held_fill fits]
      fill_fill := by
        intro new other fits kept otherFits
        simp only [put_put, get_put, (holding.lawful (get x)).fill_fill fits kept otherFits] }

theorem visit_part (holding : Holding β) {get : α → β} {put : α → β → α} (get_put put_put)
    (visitor : Visitor σ) (x : α) :
    (holding.part get put get_put put_put).visit visitor x =
      (do return put x (← holding.visit visitor (get x))) := by
  simp [Places.visit, part]

/-- A form that may be missing. -/
def option (holding : Holding α) : Holding (Option α) where
  held x := (x.map holding.held).getD []
  fill x new := x.map fun x => holding.fill x new
  lawful x := by
    cases x with
    | none => exact .bare rfl fun _ => rfl
    | some x => exact .wrap some (fun _ => rfl) (fun _ _ => rfl) (holding.lawful x)

theorem visit_option (holding : Holding α) (visitor : Visitor σ) (x : Option α) :
    holding.option.visit visitor x =
      (match x with
        | some x => some <$> holding.visit visitor x
        | none => pure none) := by
  cases x <;> simp [Places.visit, option]

end Holding

namespace IdRef

variable {σ : Type} {target : PoolKind}

/-- An id reference is a place of its own. -/
def holding (usage : Usage) : Holding (IdRef target) where
  held ref := [.id target usage ref.index]
  fill ref new :=
    match new with
    | [.id _ _ index] => ⟨index⟩
    | _ => ref
  lawful ref :=
    { kept := by simp [Held.isLost, Held.Fits]
      held_fill := by
        intro new fits
        cases fits with
        | cons fits rest =>
          cases rest
          cases ‹Held› <;> simp_all [Held.Fits, Held.settled]
      fill_fill := by
        intro new other fits _ otherFits
        cases otherFits with
        | cons fits rest =>
          cases rest
          cases ‹Held› <;> simp_all [Held.Fits] }

theorem visit_holding (visitor : Visitor σ) (usage : Usage) (ref : IdRef target) :
    (holding usage).visit visitor ref = ref.visit visitor usage := by
  funext state
  have slot : (Held.id target usage ref.index).slot = ref.slot usage := rfl
  simp only [Places.visit, holding, visitAll_cons, visitAll_nil, Held.visit, IdRef.visit, bind_assoc,
    pure_bind]
  simp only [bind, StateT.bind, slot]
  rcases visitor (ref.slot usage) state with ⟨edit, state⟩
  cases edit <;> rfl

end IdRef

namespace DataRef

variable {σ : Type} {target : PoolKind}

def state : DataRef target → Option (UInt32 × Option UInt32)
  | absent => none
  | unplaced index => some (index, none)
  | placed index offset => some (index, some offset)

def ofState : Option (UInt32 × Option UInt32) → DataRef target
  | none => absent
  | some (index, none) => unplaced index
  | some (index, some offset) => placed index offset

@[simp] theorem ofState_state (ref : DataRef target) : ofState ref.state = ref := by
  cases ref <;> rfl

@[simp] theorem state_ofState (state : Option (UInt32 × Option UInt32)) :
    (ofState state : DataRef target).state = state := by
  rcases state with _ | ⟨index, _ | offset⟩ <;> rfl

theorem index_eq (ref : DataRef target) : ref.index = ref.state.map Prod.fst := by
  cases ref <;> rfl

theorem edited_state (ref : DataRef target) (usage : Usage) (edit : Edit) :
    (Held.data target usage ref.state).edited edit = .data target usage (ref.edited edit).state := by
  rcases edit with _ | ⟨_ | index⟩ | offset
  · rfl
  · rfl
  · simp only [Held.edited, DataRef.edited, setTarget, index_eq]
    split_ifs <;> rfl
  · cases ref <;> rfl

/-- A data reference is a place of its own. -/
def holding (usage : Usage) : Holding (DataRef target) where
  held ref := [.data target usage ref.state]
  fill ref new :=
    match new with
    | [.data _ _ state] => ofState state
    | _ => ref
  lawful ref :=
    { kept := by simp [Held.isLost, Held.Fits]
      held_fill := by
        intro new fits
        cases fits with
        | cons fits rest =>
          cases rest
          cases ‹Held› <;> simp_all [Held.Fits, Held.settled]
      fill_fill := by
        intro new other fits _ otherFits
        cases otherFits with
        | cons fits rest =>
          cases rest
          cases ‹Held› <;> simp_all [Held.Fits] }

theorem visit_holding (visitor : Visitor σ) (usage : Usage) (ref : DataRef target) :
    (holding usage).visit visitor ref = ref.visit visitor usage := by
  have slot : (Held.data target usage ref.state).slot = ref.slot usage := by
    simp [Held.slot, Held.kind, Held.index, Held.usage, DataRef.slot, index_eq]
  simp only [Places.visit, holding, visitAll_cons, visitAll_nil, Held.visit, DataRef.visit, bind_assoc,
    pure_bind, slot]
  simp only [edited_state, ofState_state]

end DataRef
end DexImage
