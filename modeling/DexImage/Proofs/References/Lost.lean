import DexImage.Proofs.References.Alike
/-! # Lost operands

An operand that was to take an index that it cannot hold is lost: it keeps the index that it had, and its
code refuses to be written (`Refuses`). Nothing else in the code is lost (`content_fill`).
-/

namespace DexImage

namespace Held

theorem Fits.isLost_eq_false {old new : Held} (fits : Fits old new) (plain : old.isOperand = false) :
    new.isLost = false := by
  cases old <;> cases new <;> simp_all [Fits, isOperand, isLost]

theorem index_settled (held : Held) : held.settled.index = held.index := by
  cases held <;> rfl

end Held

/-- Nothing is lost where no operand stands. -/
theorem kept_of_plain {held places : List Held} (fits : List.Forall₂ Held.Fits held places)
    (plain : ∀ one ∈ held, one.isOperand = false) {one : Held} (member : one ∈ places) :
    one.isLost = false := by
  obtain ⟨old, present, fit⟩ := fits.exists_of_mem_right member
  exact fit.isLost_eq_false (plain old present)

namespace Instruction

private theorem fillRefs_settled {refs : List OperandRef} {units : List UInt16} {new : List Held} :
    fillRefs refs units (new.map Held.settled) = fillRefs refs units new := by
  induction refs generalizing units new with
  | nil => rfl
  | cons ref refs ih =>
    cases new with
    | nil => rfl
    | cons one new => rw [List.map_cons, fillRefs, fillRefs, Held.index_settled, ih]

end Instruction

namespace InstructionList

/-- Code is unwritable once an operand has been lost. -/
theorem encode_eq_error {list : InstructionList} :
    encode list = .error (Fault.of .operandTooWide) ↔ list.overflow = true := by
  change (if list.overflow then _ else _) = _ ↔ _
  cases list.overflow
  · exact iff_of_false (by rintro ⟨⟩) (by rintro ⟨⟩)
  · exact iff_of_true rfl rfl

/-- A lost operand changes nothing but that the code is unwritable. -/
theorem fill_settled (list : InstructionList) (new : List Held) :
    list.fill (new.map Held.settled) = { list.fill new with overflow := list.overflow } := by
  have units (instructions : List Instruction) (new : List Held) :
      Instruction.places.list.fill instructions (new.map Held.settled) =
        Instruction.places.list.fill instructions new := by
    induction instructions generalizing new with
    | nil => rfl
    | cons instruction rest ih =>
      have others := ih (new.drop (Instruction.places.held instruction).length)
      rw [List.map_drop] at others
      change Instruction.places.fill instruction _ :: _ = Instruction.places.fill instruction _ :: _
      refine congrArg₂ List.cons ?_ others
      rw [← List.map_take]
      exact congrArg (fun units => { instruction with units }) Instruction.fillRefs_settled
  have kept : (new.map Held.settled).any Held.isLost = false := by simp
  rw [fill, fill, units, kept, Bool.or_false]

end InstructionList

namespace CodeItem

variable {code : CodeItem} {places : List Held}

/-- Only operands are lost. -/
private theorem kept_around (fits : List.Forall₂ Held.Fits (holding.held code) places) :
    (∀ one ∈ places.take 1, one.isLost = false) ∧
      ∀ one ∈ (places.drop 1).drop code.instructions.held.length, one.isLost = false := by
  have first := List.forall₂_take 1 fits
  have last := List.forall₂_drop code.instructions.held.length (List.forall₂_drop 1 fits)
  have tries : ∀ one ∈ TryTable.holding.option.held code.tryTable, one.isOperand = false := by
    intro one member
    have proper : one.Proper .stringId := Holding.each_option TryTable.proper code.tryTable one member
    exact proper.plain (by decide)
  have same : (((holding.held code).drop 1).drop code.instructions.held.length) =
      TryTable.holding.option.held code.tryTable := List.drop_left
  rw [same] at last
  exact ⟨fun one => kept_of_plain first (List.forall_mem_singleton.mpr rfl), fun one => kept_of_plain last tries⟩

/-- Code becomes unwritable where something is lost. -/
theorem overflow_fill (fits : List.Forall₂ Held.Fits (holding.held code) places) :
    (holding.fill code places).instructions.overflow = (code.instructions.overflow || places.any Held.isLost) := by
  obtain ⟨first, last⟩ := kept_around fits
  have split : places = places.take 1 ++ ((places.drop 1).take code.instructions.held.length ++
      (places.drop 1).drop code.instructions.held.length) := by
    rw [List.take_append_drop, List.take_append_drop]
  have any : places.any Held.isLost = ((places.drop 1).take code.instructions.held.length).any Held.isLost := by
    have none {part : List Held} (kept : ∀ one ∈ part, one.isLost = false) : part.any Held.isLost = false :=
      List.any_eq_false.mpr fun one member => by simp [kept one member]
    conv_lhs => rw [split]
    rw [List.any_append, List.any_append, none first, none last, Bool.false_or, Bool.or_false]
  rw [any]
  rfl

/-- A lost operand changes nothing but that the code is unwritable. -/
theorem fill_settled (fits : List.Forall₂ Held.Fits (holding.held code) places) :
    holding.fill code (places.map Held.settled) =
      { holding.fill code places with
        instructions := { (holding.fill code places).instructions with overflow := code.instructions.overflow } } := by
  obtain ⟨first, last⟩ := kept_around fits
  have settled {part : List Held} (kept : ∀ one ∈ part, one.isLost = false) : part.map Held.settled = part :=
    (List.map_congr_left fun one member => Held.settled_eq_self (kept one member)).trans (List.map_id _)
  have debugInfo : (places.map Held.settled).take 1 = places.take 1 := by rw [← List.map_take, settled first]
  have tries : ((places.map Held.settled).drop 1).drop code.instructions.held.length =
      (places.drop 1).drop code.instructions.held.length := by
    rw [← List.map_drop, ← List.map_drop, settled last]
  have operands : code.instructions.fill (((places.map Held.settled).drop 1).take code.instructions.held.length) =
      { code.instructions.fill ((places.drop 1).take code.instructions.held.length) with
        overflow := code.instructions.overflow } := by
    rw [← List.map_drop, ← List.map_take, InstructionList.fill_settled]
  change CodeItem.mk code.registers code.ins code.outs
    ((DataRef.holding .debug).fill code.debugInfo ((places.map Held.settled).take 1))
    (code.instructions.fill (((places.map Held.settled).drop 1).take code.instructions.held.length))
    (TryTable.holding.option.fill code.tryTable
      (((places.map Held.settled).drop 1).drop code.instructions.held.length)) = _
  rw [debugInfo, tries, operands]
  rfl

end CodeItem

/-- What is left of an item without its references, and without the note that an operand was lost. -/
def content : {kind : PoolKind} → Item kind → Item kind
  | .code, code =>
    let form : CodeItem := CodeItem.holding.form code
    ({ form with instructions := { form.instructions with overflow := false } } : CodeItem)
  | kind, item => (itemHolding kind).form item

/-- Whether an item is code that refuses to be written since an operand was lost. -/
def Refuses : {kind : PoolKind} → Item kind → Prop
  | .code, code => encode (code : CodeItem).instructions = .error (Fault.of .operandTooWide)
  | _, _ => False

section Refusing

variable {kind : PoolKind} {item : Item kind} {places : List Held}

theorem refuses_code {code : CodeItem} : @Refuses .code code ↔ code.instructions.overflow = true :=
  InstructionList.encode_eq_error

theorem content_of_ne (plain : kind ≠ .code) : content item = (itemHolding kind).form item := by
  cases kind <;> first | contradiction | rfl

/-- An item whose places are filled refuses to be written if it did before or something is lost. -/
theorem refuses_fill (fits : List.Forall₂ Held.Fits ((itemHolding kind).held item) places) :
    Refuses ((itemHolding kind).fill item places) ↔ Refuses item ∨ ∃ one ∈ places, one.isLost = true := by
  by_cases code : kind = .code
  · subst code
    rw [refuses_code, refuses_code]
    change (CodeItem.holding.fill item places).instructions.overflow = true ↔ _
    rw [CodeItem.overflow_fill fits, Bool.or_eq_true, List.any_eq_true]
  · have kept := fun one => @kept_of_plain _ _ fits (plain_of_ne_code code item) one
    have never (item : Item kind) : ¬ Refuses item := by
      cases kind <;> first | contradiction | exact id
    refine iff_of_false (never _) ?_
    rintro (refuses | ⟨one, member, lost⟩)
    · exact never _ refuses
    · rw [kept one member] at lost
      cases lost

/-- Whatever its places are filled with, the rest of an item stays. -/
theorem content_fill (fits : List.Forall₂ Held.Fits ((itemHolding kind).held item) places) :
    content ((itemHolding kind).fill item places) = content item := by
  by_cases code : kind = .code
  · subst code
    have settled : List.Forall₂ Held.Fits (CodeItem.holding.held item) (places.map Held.settled) :=
      List.forall₂_map_right_iff.mpr (fits.imp fun _ _ fit => fit.settled_right)
    have form := CodeItem.holding.form_fill settled fun one member => by
      obtain ⟨before, -, rfl⟩ := List.mem_map.mp member
      exact before.isLost_settled
    have held : CodeItem.holding.held (CodeItem.holding.fill item places) =
        CodeItem.holding.held (CodeItem.holding.fill item (places.map Held.settled)) := by
      rw [(CodeItem.holding.lawful item).held_fill fits, (CodeItem.holding.lawful item).held_fill settled, List.map_map]
      exact List.map_congr_left fun one _ => one.settled_settled.symm
    rw [Holding.form, ← held, CodeItem.fill_settled fits] at form
    change _ = ({ CodeItem.holding.form item with
      instructions := { (CodeItem.holding.form item).instructions with overflow := false } } : CodeItem)
    rw [← form]
    rfl
  · rw [content_of_ne code, content_of_ne code]
    exact (itemHolding kind).form_fill fits fun one => kept_of_plain fits (plain_of_ne_code code item)

end Refusing

end DexImage
