import DexImage.Proofs.Copying.Translating
import DexImage.Proofs.Copying.Tree
import DexImage.Proofs.References.Lost
/-! # Copies are faithful

Whatever a translation by copying does, the target pools only grow at their ends, and the indices it
remembers lead to copies with the same tree (`Step`). A translator that keeps this up through a
number of items that refer to each other does so through one more (`copies_translatorWithin`).
-/

namespace DexImage

open Pools

namespace Held

/-- A present reference that is given an index has it afterwards, or is an operand of one unit that
cannot hold it. -/
theorem carried_edited {one : Held} {old new : UInt32} (present : one.index = some old)
    (kept : one.isLost = false) :
    one.Carried ((one.edited (.retarget (some new))).isLost = true) new (one.edited (.retarget (some new))) := by
  by_cases fits : ∀ target wide lost, one = operand target wide lost old → operandFits wide new = true
  · obtain ⟨arrives, kept⟩ := edited_retarget present kept fits
    exact .arrived present arrives kept
  · push Not at fits
    obtain ⟨target, wide, lost, rfl, tooWide⟩ := fits
    obtain rfl : lost = false := kept
    obtain rfl : wide = false := by cases wide <;> simp_all [operandFits]
    have large : 0xffff < new := by simpa [operandFits] using tooWide
    by_cases same : new = old
    · subst same
      exact .arrived rfl (by simp [edited, slot, kind, index, usage]) (by simp [edited, isLost])
    · have edited : (operand target false false old).edited (.retarget (some new)) =
          operand target false true old := by simp [edited, same, tooWide]
      rw [edited]
      exact .lost large rfl

theorem Carried.imp {first second : Prop} {one other : Held} {new : UInt32}
    (carried : one.Carried first new other) (weaker : other.isLost = true → first → second) :
    one.Carried second new other := by
  cases carried with
  | absent missing => exact .absent missing
  | arrived present arrives kept => exact .arrived present arrives kept
  | lost large fails => exact .lost large (weaker rfl fails)

end Held

/-- Code whose instructions hold no encoding cannot be written. -/
private theorem unwritable_of_overflow {code : CodeItem} (overflow : code.instructions.overflow = true) :
    @Unwritable .code code := by
  intro debugInfo tryTable
  dsimp only [encode]
  rw [if_pos overflow]
  by_cases few : code.registers < code.ins
  · rw [if_pos few]
    exact ⟨_, rfl⟩
  · rw [if_neg few]
    cases debugInfo.encodeWord with
    | error fault => exact ⟨fault, rfl⟩
    | ok => exact ⟨_, rfl⟩

/-- Only code loses operands, and it cannot be written then. -/
theorem unwritable_of_lost {kind : PoolKind} {item : Item kind} {places : List Held}
    (fits : List.Forall₂ Held.Fits ((itemHolding kind).held item) places) {one : Held}
    (member : one ∈ places) (lost : one.isLost = true) :
    kind = .code ∧ Unwritable ((itemHolding kind).fill item places) := by
  by_cases code : kind = .code
  · subst code
    have overflow : (CodeItem.holding.fill item places).instructions.overflow = true := by
      rw [CodeItem.overflow_fill fits, List.any_eq_true.mpr ⟨one, member, lost⟩, Bool.or_true]
    exact ⟨rfl, unwritable_of_overflow overflow⟩
  · have kept := kept_of_plain fits (plain_of_ne_code code item) member
    exact absurd lost (by simp [kept])

namespace Copying

/-- Whether the indices that are remembered lead to copies with the same tree. -/
def Faithful (source : Pools) (copying : Copying) : Prop :=
  ∀ kind index new, ((kind, index), new) ∈ copying.copied →
    ∃ pool, targetPool? kind = some pool ∧ SameTree source copying.target pool index new

/-- What is kept by everything that is done while an item is copied. -/
structure Step (source : Pools) (before after : Copying) : Prop where
  grows : before.target.Extends after.target
  classes : after.target.classDefs = before.target.classDefs
  faithful : before.Faithful source → after.target.Indexed → after.Faithful source

theorem Step.refl (source : Pools) (copying : Copying) : Step source copying copying :=
  ⟨.refl _, rfl, fun faithful _ => faithful⟩

theorem Step.trans {source : Pools} {first second third : Copying} (before : Step source first second)
    (after : Step source second third) : Step source first third where
  grows := before.grows.trans after.grows
  classes := after.classes.trans before.classes
  faithful faithful indexed :=
    after.faithful (before.faithful faithful (after.grows.indexed indexed)) indexed

/-- Whether a translator makes copies with the same tree, and does nothing else. -/
structure Copies (source : Pools) (translator : Translator Copying) : Prop where
  step {kind : SectionKind} {index : UInt32} {before after : Copying} {result : Result UInt32} :
    translator kind index before = (result, after) → Step source before after
  arrives {kind : PoolKind} {index new : UInt32} {before after : Copying} :
    translator kind.toSection index before = (.ok new, after) → before.Faithful source →
      after.target.Indexed → SameTree source after.target kind index new

section Items

variable {source : Pools} {translator : Translator Copying}

theorem step_translated (copies : Copies source translator) {held places : List Held}
    {before after : Copying} {fault? : Option Fault}
    (run : Translated translator held before places after fault?) : Step source before after := by
  induction run with
  | done => exact .refl _ _
  | absent _ _ ih => exact ih
  | moved _ finds _ ih => exact (copies.step finds).trans ih
  | failed _ fails => exact copies.step fails

/-- How the places of an item hold its references after a translation. -/
theorem carried_translated (copies : Copies source translator) {held places : List Held}
    {before after : Copying} (run : Translated translator held before places after none)
    (kept : ∀ one ∈ held, one.isLost = false) (faithful : before.Faithful source)
    (indexed : after.target.Indexed) :
    ∃ reached : Nat → UInt32, ∀ (position : Nat) one, held[position]? = some one →
      (∃ other, places[position]? = some other ∧
        one.Carried (other.isLost = true) (reached position) other) ∧
      ∀ index, one.index = some index →
        SameTree source after.target one.kind index (reached position) := by
  generalize none : (Option.none : Option Fault) = fault? at run
  -- A copy that one place leads to stays one while the later places let the pools grow.
  induction run with
  | done => exact ⟨fun _ => 0, fun _ _ missing => by simp at missing⟩
  | failed => cases none
  | @absent one rest places before after _ missing run ih =>
    obtain ⟨_, kept⟩ := List.forall_mem_cons.mp kept
    obtain ⟨reached, copied⟩ := ih kept faithful indexed none
    refine ⟨fun position => reached (position - 1), fun position held present => ?_⟩
    cases position with
    | zero =>
      obtain rfl := Option.some.inj present
      exact ⟨⟨_, rfl, .absent missing⟩, by simp [missing]⟩
    | succ position => exact copied position held present
  | @moved one rest places old new before next after _ present finds run ih =>
    obtain ⟨first, kept⟩ := List.forall_mem_cons.mp kept
    have step := step_translated copies run
    have faithfulNext := (copies.step finds).faithful faithful (step.grows.indexed indexed)
    obtain ⟨reached, copied⟩ := ih kept faithfulNext indexed none
    have tree := copies.arrives finds faithful (step.grows.indexed indexed)
    refine ⟨fun position => position.casesOn new reached, fun position held found => ?_⟩
    cases position with
    | zero =>
      obtain rfl := Option.some.inj found
      refine ⟨⟨_, rfl, Held.carried_edited present first⟩, fun index same => ?_⟩
      obtain rfl := Option.some.inj (present.symm.trans same)
      exact tree.mono step.grows
    | succ position => exact copied position held found

/-- An item whose translation is in the target has its tree there. -/
theorem tree_of_stored (copies : Copies source translator) {kind : PoolKind} {index new : UInt32}
    {item copy : Item kind} {outcome : Outcome (Item kind)} {before after : Copying} {target : Pools}
    (found : source.get? kind index = some item)
    (run : translate translator item before = (outcome, after)) (success : outcome.fault? = none)
    (faithful : before.Faithful source) (grows : after.target.Extends target) (indexed : target.Indexed)
    (stored : target.get? kind new = some copy) (alike : Alike copy outcome.value)
    (same : kind = .code → copy = outcome.value) : SameTree source target kind index new := by
  obtain ⟨places, value, pass⟩ := translate_spec translator item before
  rw [run] at value pass
  rw [success] at pass
  have kept := ((itemHolding kind).lawful item).kept
  have fits := pass.fits fun one member => (kept one member).2
  obtain ⟨reached, copied⟩ :=
    carried_translated copies pass (fun one member => (kept one member).1) faithful (grows.indexed indexed)
  refine .intro places reached found stored (value ▸ alike) fits ?_ ?_
  · intro position one present
    obtain ⟨⟨other, arrived, carried⟩, -⟩ := copied position one present
    refine ⟨other, arrived, carried.imp fun lost _ => ?_⟩
    obtain ⟨code, unwritable⟩ := unwritable_of_lost fits (List.mem_of_getElem? arrived) lost
    rw [same code, value]
    exact unwritable
  · intro position one old present index
    exact ((copied position one present).2 old index).mono grows

end Items

variable {source : Pools}

/-- What only grows the target keeps what is remembered. -/
theorem step_of_grows {before : Copying} {target : Pools} (grows : before.target.Extends target)
    (classes : target.classDefs = before.target.classDefs) :
    Step source before { before with target } where
  grows := grows
  classes := classes
  faithful faithful _ kind index new remembered := by
    obtain ⟨pool, targets, tree⟩ := faithful kind index new remembered
    exact ⟨pool, targets, tree.mono grows⟩

private theorem classDefs_push {pools : Pools} {kind : PoolKind} (copyable : kind ≠ .classDef)
    (item : Item kind) : (pools.push kind item).classDefs = pools.classDefs :=
  pool_modify_of_ne pools copyable.symm _

/-- A copy is one that the target has already, or it is appended. -/
theorem store_cases (kind : PoolKind) (item : Item kind) (before : Copying) :
    (∃ index, isShared kind = true ∧ (before.target.pool kind).find? item = some index ∧
      store kind item before = (index, before)) ∨
    (isShared kind = true → (before.target.pool kind).find? item = none) ∧
      store kind item before =
        ((before.target.pool kind).nextIndex, { before with target := before.target.push kind item }) := by
  by_cases shared : isShared kind = true
  · rcases intern_cases before.target kind item with ⟨index, found, interned⟩ | ⟨fresh, interned⟩
    · exact .inl ⟨index, shared, found, by simp [store, shared, interned]⟩
    · exact .inr ⟨fun _ => fresh, by simp [store, shared, interned]⟩
  · exact .inr ⟨fun is => absurd is shared, by simp [store, shared]⟩

/-- Storing a copy adds at most that copy, and the index leads to an item that is alike. -/
theorem store_spec (source : Pools) {kind : PoolKind} (copyable : kind ≠ .classDef) {item : Item kind} {new : UInt32}
    {before after : Copying} (run : store kind item before = (new, after)) :
    Step source before after ∧
      (after.target.Indexed → ∃ copy, after.target.get? kind new = some copy ∧ Alike copy item ∧
        (kind = .code → copy = item)) := by
  rcases store_cases kind item before with ⟨index, shared, found, stored⟩ | ⟨-, stored⟩
  · obtain ⟨rfl, rfl⟩ := Prod.mk.inj (run.symm.trans stored)
    refine ⟨.refl _ _, fun indexed => ?_⟩
    obtain ⟨copy, present, equal⟩ := Pool.get?_of_find? (indexed kind) found
    exact ⟨copy, present, alike_of_beq shared equal, fun code => absurd shared (by simp [code, isShared])⟩
  · obtain ⟨rfl, rfl⟩ := Prod.mk.inj (run.symm.trans stored)
    exact ⟨step_of_grows (extends_push _ _ _) (classDefs_push copyable item), fun indexed =>
      ⟨item, get?_push indexed, .refl _ _, fun _ => rfl⟩⟩

/-- Copying an item fails if there is none or its references are not translated; else the translated item is stored. -/
theorem copyItem_cases {translator : Translator Copying} {kind : PoolKind} {index : UInt32} {result : Result UInt32}
    {before after : Copying} (run : copyItem source translator kind index before = (result, after)) :
    (∃ fault, result = .error fault ∧ after = before) ∨
      ∃ item outcome next, source.get? kind index = some item ∧ translate translator item before = (outcome, next) ∧
        ((∃ fault, result = .error fault ∧ outcome.fault? = some fault ∧ after = next) ∨
          ∃ new, result = .ok new ∧ outcome.fault? = none ∧ store kind outcome.value next = (new, after)) := by
  rcases required : source.require kind index with fault | item
  · have stopped : copyItem source translator kind index before = (.error fault, before) := by
      rw [copyItem, required]
      rfl
    obtain ⟨rfl, rfl⟩ := Prod.mk.inj (run.symm.trans stopped)
    exact .inl ⟨fault, rfl, rfl⟩
  · right
    rcases translated : translate translator item before with ⟨outcome, next⟩
    refine ⟨item, outcome, next, require_eq.mp required, translated, ?_⟩
    rw [copyItem, required] at run
    change (translate translator item >>= fun outcome => _) before = _ at run
    simp only [bind, StateT.bind, translated] at run
    rcases success : outcome.fault? with _ | fault
    · simp only [success] at run
      obtain ⟨rfl, rfl⟩ := Prod.mk.inj run
      exact .inr ⟨_, rfl, rfl, rfl⟩
    · simp only [success] at run
      obtain ⟨rfl, rfl⟩ := Prod.mk.inj run
      exact .inl ⟨fault, rfl, rfl, rfl⟩

/-- Copying an item by a translator that makes copies makes one more. -/
theorem copyItem_spec {translator : Translator Copying} (copies : Copies source translator)
    {kind : PoolKind} (copyable : kind ≠ .classDef) {index : UInt32} {result : Result UInt32}
    {before after : Copying} (run : copyItem source translator kind index before = (result, after)) :
    Step source before after ∧ ∀ new, result = .ok new → before.Faithful source → after.target.Indexed →
      SameTree source after.target kind index new := by
  rcases copyItem_cases run with ⟨fault, rfl, rfl⟩ | ⟨item, outcome, next, found, translated, stored⟩
  · exact ⟨.refl _ _, fun _ success => by cases success⟩
  obtain ⟨places, -, pass⟩ := translate_spec translator item before
  rw [translated] at pass
  have step := step_translated copies pass
  rcases stored with ⟨fault, rfl, -, rfl⟩ | ⟨new, rfl, success, stored⟩
  · exact ⟨step, fun _ success => by cases success⟩
  · obtain ⟨stepStored, arrived⟩ := store_spec source copyable stored
    refine ⟨step.trans stepStored, fun other same faithful indexed => ?_⟩
    obtain rfl := Except.ok.inj same
    obtain ⟨copy, present, alike, same⟩ := arrived indexed
    exact tree_of_stored copies found translated success faithful stepStored.grows indexed present alike same

/-- Class definitions are not copied as the targets of references. -/
theorem ne_classDef_of_targetPool? {kind : SectionKind} {pool : PoolKind}
    (targets : targetPool? kind = some pool) : pool ≠ .classDef := by
  revert targets
  cases kind <;> cases pool <;> decide

theorem eq_of_targetPool? {kind pool : PoolKind}
    (targets : targetPool? kind.toSection = some pool) : pool = kind := by
  revert targets
  cases kind <;> cases pool <;> decide

theorem translatorWithin_succ (source : Pools) (depth : Nat) (kind : SectionKind) (index : UInt32)
    (before : Copying) :
    translatorWithin source (depth + 1) kind index before =
      match before.copied.lookup (kind, index), targetPool? kind with
      | some done, _ => (.ok done, before)
      | none, none => (.error (Fault.of (.notATarget kind)), before)
      | none, some pool =>
        match copyItem source (translatorWithin source depth) pool index before with
        | (.error fault, after) => (.error fault, after)
        | (.ok new, after) => (.ok new, { after with copied := ((kind, index), new) :: after.copied }) := by
  change ((get : StateM Copying Copying) >>= fun copying => _) before = _
  simp only [bind, StateT.bind, get, getThe, MonadStateOf.get, StateT.get, pure]
  cases before.copied.lookup (kind, index) with
  | some done => rfl
  | none =>
    cases targetPool? kind with
    | none => rfl
    | some pool =>
      rcases copied : copyItem source (translatorWithin source depth) pool index before with ⟨_ | new, after⟩ <;>
        simp only [StateT.bind, bind, copied] <;> rfl

/-- A reference is translated to what is remembered for it, or its target is copied and then remembered. -/
theorem translatorWithin_cases {depth : Nat} {kind : SectionKind} {index : UInt32} {result : Result UInt32}
    {before after : Copying} (run : translatorWithin source (depth + 1) kind index before = (result, after)) :
    (∃ fault, result = .error fault ∧ after = before) ∨
      (∃ done, result = .ok done ∧ ((kind, index), done) ∈ before.copied ∧ after = before) ∨
        ∃ pool next, targetPool? kind = some pool ∧
          copyItem source (translatorWithin source depth) pool index before = (result, next) ∧
            ((∃ fault, result = .error fault ∧ after = next) ∨
              ∃ new, result = .ok new ∧ after = { next with copied := ((kind, index), new) :: next.copied }) := by
  rw [translatorWithin_succ] at run
  rcases known : before.copied.lookup (kind, index) with _ | done
  · rcases targets : targetPool? kind with _ | pool
    · simp only [known, targets] at run
      obtain ⟨rfl, rfl⟩ := Prod.mk.inj run
      exact .inl ⟨_, rfl, rfl⟩
    · rcases copied : copyItem source (translatorWithin source depth) pool index before with ⟨fault | new, next⟩
      all_goals
        simp only [known, targets, copied] at run
        obtain ⟨rfl, rfl⟩ := Prod.mk.inj run
      · exact .inr (.inr ⟨pool, next, rfl, copied, .inl ⟨fault, rfl, rfl⟩⟩)
      · exact .inr (.inr ⟨pool, next, rfl, copied, .inr ⟨new, rfl, rfl⟩⟩)
  · simp only [known] at run
    obtain ⟨rfl, rfl⟩ := Prod.mk.inj run
    exact .inr (.inl ⟨done, rfl, List.mem_of_lookup_eq_some known, rfl⟩)

/-- What one translation by copying does, whatever the section. -/
private theorem translatorWithin_spec {depth : Nat} {kind : SectionKind} {index : UInt32}
    {result : Result UInt32} {before after : Copying}
    (inner : Copies source (translatorWithin source depth))
    (run : translatorWithin source (depth + 1) kind index before = (result, after)) :
    Step source before after ∧ ∀ new, result = .ok new → before.Faithful source → after.target.Indexed →
      ∃ pool, targetPool? kind = some pool ∧ SameTree source after.target pool index new := by
  rcases translatorWithin_cases run with
    ⟨fault, rfl, rfl⟩ | ⟨done, rfl, remembered, rfl⟩
      | ⟨pool, next, targets, copied, ⟨fault, rfl, rfl⟩ | ⟨new, rfl, rfl⟩⟩
  · exact ⟨.refl _ _, fun _ success => by cases success⟩
  · refine ⟨.refl _ _, fun new same faithful _ => ?_⟩
    obtain rfl := Except.ok.inj same
    exact faithful kind index done remembered
  · exact ⟨(copyItem_spec inner (ne_classDef_of_targetPool? targets) copied).1, fun _ success => by cases success⟩
  · obtain ⟨step, tree⟩ := copyItem_spec inner (ne_classDef_of_targetPool? targets) copied
    refine ⟨⟨step.grows, step.classes, fun faithful indexed => ?_⟩, fun other same faithful indexed => ?_⟩
    · intro _ _ _ remembered
      rcases List.mem_cons.mp remembered with same | remembered
      · cases same
        exact ⟨pool, targets, tree new rfl faithful indexed⟩
      · exact step.faithful faithful indexed _ _ _ remembered
    · obtain rfl := Except.ok.inj same
      exact ⟨pool, targets, tree new rfl faithful indexed⟩

/-- Translation by copying makes copies, through any number of items. -/
theorem copies_translatorWithin (source : Pools) (depth : Nat) :
    Copies source (translatorWithin source depth) := by
  induction depth with
  | zero =>
    refine ⟨fun run => ?_, fun run => ?_⟩
    · obtain ⟨-, rfl⟩ := Prod.mk.inj run
      exact .refl _ _
    · cases (Prod.mk.inj run).1
  | succ depth inner =>
    refine ⟨fun run => (translatorWithin_spec inner run).1, fun run faithful indexed => ?_⟩
    obtain ⟨pool, targets, tree⟩ := (translatorWithin_spec inner run).2 _ rfl faithful indexed
    exact eq_of_targetPool? targets ▸ tree

end Copying
end DexImage
