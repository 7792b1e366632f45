import DexImage.Proofs.Copying.Stopped
import DexImage.Proofs.Values.Rewritten
import Mathlib.Data.List.DropRight
import Mathlib.Order.Bounds.Defs
/-! # Encoded arrays are sparse arrays

An array is populated by operations that put a value somewhere, give it a length, or cut off the placeholders at
its end (`EncodedArray.Operation`). After any of them, an index has the value that was put there last, unless
the slot has been cut off since (`EncodedArray.get?_run`). An array whose references are all set is written, and
read back slot by slot, with nulls for the placeholders (`EncodedArray.sparse`).
-/

namespace DexImage.EncodedArray

variable {array start : EncodedArray} {index : Nat} {value : EncodedValue}

/-! ## Slots -/

theorem get?_eq (array : EncodedArray) (index : Nat) : array.get? index = (array.slots.items[index]?).join := rfl

theorem get?_of_le (beyond : array.length ≤ index) : array.get? index = none := by
  rw [get?_eq, List.getElem?_eq_none beyond]
  rfl

theorem slot?_eq (array : EncodedArray) (index : Nat) :
    array.slot? index = if index < array.length then some (array.get? index) else none := by
  split_ifs with inside
  · have there : array.slot? index = some array.slots.items[index] := List.getElem?_eq_getElem inside
    rw [get?, there]
    rfl
  · exact List.getElem?_eq_none (Nat.not_lt.mp inside)

theorem items_ensureLength (array : EncodedArray) (length : Nat) : (array.ensureLength length).slots.items =
    array.slots.items ++ List.replicate (length - array.length) none := by
  rw [ensureLength]
  split_ifs with short
  · have grown : array.slots.resize length none = ⟨array.slots.items.take length ++ _, true⟩ :=
      if_neg (Nat.ne_of_gt short)
    rw [grown, List.take_of_length_le (Nat.le_of_lt short)]
    rfl
  · rw [Nat.sub_eq_zero_of_le (Nat.not_lt.mp short), List.replicate_zero, List.append_nil]

theorem length_ensureLength (array : EncodedArray) (length : Nat) :
    (array.ensureLength length).length = max array.length length := by
  change List.length _ = _
  rw [items_ensureLength, List.length_append, List.length_replicate]
  change array.length + _ = _
  omega

/-- New slots are placeholders. -/
theorem get?_ensureLength (array : EncodedArray) (length index : Nat) :
    (array.ensureLength length).get? index = array.get? index := by
  rw [get?_eq, items_ensureLength, List.getElem?_append]
  split_ifs with inside
  · rfl
  · rw [get?_of_le (Nat.not_lt.mp inside), List.getElem?_replicate]
    split_ifs <;> rfl

theorem length_putSlot (array : EncodedArray) (index : Nat) (slot : ValueSlot) :
    (array.putSlot index slot).length = array.length :=
  List.length_modify _ _ _

theorem get?_putSlot (inside : index < array.length) (slot : ValueSlot) (other : Nat) :
    (array.putSlot index slot).get? other = if other = index then slot else array.get? other := by
  have put : (array.putSlot index slot).slots.items = array.slots.items.modify index fun _ => slot := rfl
  rw [get?_eq, put, List.getElem?_modify]
  by_cases same : other = index
  · subst same
    have there : array.slots.items[other]? = some array.slots.items[other] := List.getElem?_eq_getElem inside
    simp [there]
  · simp [same, Ne.symm same, get?_eq]

theorem get?_push (array : EncodedArray) (value : EncodedValue) (other : Nat) :
    (array.push value).get? other = if other = array.length then some value else array.get? other := by
  have pushed : (array.push value).slots.items = array.slots.items ++ [some value] := rfl
  rw [get?_eq, pushed, List.getElem?_append]
  split_ifs with inside same same
  · exact absurd same (Nat.ne_of_lt inside)
  · rfl
  · rw [same]
    change ([some value][array.length - array.length]?).join = _
    rw [Nat.sub_self]
    rfl
  · have beyond : array.slots.items.length < other := Nat.lt_of_le_of_ne (Nat.not_lt.mp inside) (Ne.symm same)
    rw [get?_of_le (Nat.le_of_lt beyond), List.getElem?_eq_none (by simp only [List.length_singleton]; omega)]
    rfl

theorem get?_setLength (array : EncodedArray) (length other : Nat) :
    (array.setLength length).get? other = if other < length then array.get? other else none := by
  rw [setLength]
  split_ifs with short inside inside
  · have cut : array.slots.truncate length = ⟨array.slots.items.take length, true⟩ := if_pos short
    rw [get?_eq, cut, List.getElem?_take_of_lt inside]
    rfl
  · have cut : array.slots.truncate length = ⟨array.slots.items.take length, true⟩ := if_pos short
    rw [get?_eq, cut, List.getElem?_take_eq_none (Nat.not_lt.mp inside)]
    rfl
  · exact get?_ensureLength array length other
  · rw [get?_ensureLength, get?_of_le (Nat.le_trans (Nat.not_lt.mp short) (Nat.not_lt.mp inside))]

/-! ## Values that are got or created -/

/-- What getting or creating a value of a kind at an index yields, and what it makes of the array. -/
structure Created (array : EncodedArray) (kind : ValueKind) (index : Nat)
    (value : EncodedValue) (created : EncodedArray) :
    Prop where
  kept : ∀ found, array.get? index = some found → found.kind = kind → value = found
  fresh : (∀ found, array.get? index = some found → found.kind ≠ kind) → value = .ofKind kind
  kind : value.kind = kind
  length : created.length = max array.length (index + 1)
  placed : ∀ other, created.get? other = if other = index then some value else array.get? other
  others : ∀ other < array.length, other ≠ index → created.slot? other = array.slot? other

theorem length_grown (array : EncodedArray) (index : Nat) : index < (array.ensureLength (index + 1)).length := by
  rw [length_ensureLength]
  exact Nat.lt_of_lt_of_le (Nat.lt_succ_self index) (Nat.le_max_right _ _)

theorem created (array : EncodedArray) (kind : ValueKind) (index : Nat) :
    array.Created kind index (array.getOrCreate kind index).1 (array.getOrCreate kind index).2 := by
  have value : (array.getOrCreate kind index).1 = filled kind (array.get? index) := by
    rw [getOrCreate, get?_ensureLength]
  have length : (array.getOrCreate kind index).2.length = max array.length (index + 1) :=
    (length_putSlot _ _ _).trans (length_ensureLength _ _)
  have placed (other : Nat) : (array.getOrCreate kind index).2.get? other =
      if other = index then some (array.getOrCreate kind index).1 else array.get? other := by
    rw [value, ← get?_ensureLength array (index + 1) other]
    exact (get?_putSlot (array.length_grown index) _ other).trans (by rw [get?_ensureLength])
  refine ⟨fun found there same => ?_, fun other => ?_, ?_, length, placed, fun other inside differ => ?_⟩
  · rw [value, there]
    exact if_pos same
  · rw [value]
    cases there : array.get? index with
    | none => rfl
    | some found => exact if_neg (other found there)
  · rw [value]
    cases array.get? index with
    | none => exact kind_ofKind kind
    | some found =>
      by_cases same : found.kind = kind
      · exact (congrArg EncodedValue.kind (if_pos same)).trans same
      · exact (congrArg EncodedValue.kind (if_neg same)).trans (kind_ofKind kind)
  · rw [slot?_eq, slot?_eq, length, if_pos inside, if_pos (Nat.lt_of_lt_of_le inside (Nat.le_max_left _ _)), placed,
      if_neg differ]

/-! ## Placeholders at the end -/

theorem items_trimmed (array : EncodedArray) :
    array.trimmed.slots.items = array.slots.items.rdropWhile Option.isNone := by
  have kept := List.prefix_iff_eq_take.mp (List.rdropWhile_prefix Option.isNone (l := array.slots.items))
  have count : (array.slots.items.rdropWhile Option.isNone).length =
      (array.slots.items.reverse.dropWhile Option.isNone).length := List.length_reverse
  rw [kept, count, trimmed, TrackedList.truncate]
  split_ifs with short
  · rfl
  · exact (List.take_of_length_le (Nat.not_lt.mp short)).symm

theorem get?_trimmed (array : EncodedArray) (index : Nat) : array.trimmed.get? index = array.get? index := by
  have whole := @List.rdropWhile_append_rtakeWhile _ Option.isNone array.slots.items
  rw [get?_eq, get?_eq, items_trimmed]
  conv_rhs => rw [← whole, List.getElem?_append]
  split_ifs with inside
  · rfl
  · rw [List.getElem?_eq_none (Nat.not_lt.mp inside)]
    cases there :
      (array.slots.items.rtakeWhile Option.isNone)[index - (array.slots.items.rdropWhile Option.isNone).length]? with
    | none => rfl
    | some slot => exact (Option.isNone_iff_eq_none.mp (List.mem_rtakeWhile_imp (List.mem_of_getElem? there))).symm

/-- What is cut off ends one past the last value. -/
theorem isLeast_length_trimmed (array : EncodedArray) :
    IsLeast {length | ∀ index, length ≤ index → array.get? index = none} array.trimmed.length := by
  refine ⟨fun index beyond => by rw [← get?_trimmed, get?_of_le beyond], fun length none => ?_⟩
  by_contra shorter
  have some : 0 < array.trimmed.slots.items.length := Nat.lt_of_le_of_lt (Nat.zero_le _) (Nat.lt_of_not_le shorter)
  have gap := none (array.trimmed.slots.items.length - 1) (Nat.le_sub_one_of_lt (Nat.lt_of_not_le shorter))
  rw [items_trimmed] at some
  have last := List.rdropWhile_last_not Option.isNone array.slots.items (List.ne_nil_of_length_pos some)
  rw [← get?_trimmed, get?_eq, items_trimmed, ← List.getLast?_eq_getElem?,
    List.getLast?_eq_getLast_of_ne_nil (List.ne_nil_of_length_pos some), Option.join_some] at gap
  exact last (Option.isNone_iff_eq_none.mpr gap)

theorem trimmed_trimmed (array : EncodedArray) : array.trimmed.trimmed = array.trimmed := by
  have same : array.trimmed.slots.items.rdropWhile Option.isNone = array.trimmed.slots.items := by
    rw [items_trimmed, List.rdropWhile_idempotent]
  have count := congrArg List.length same
  rw [List.rdropWhile, List.length_reverse] at count
  conv_lhs => rw [trimmed, count, TrackedList.truncate]
  exact congrArg mk (if_neg (Nat.lt_irrefl _))

/-! ## Operations -/

/-- What is done to an array while it is populated. -/
inductive Operation where
  | push (value : EncodedValue)
  | set (index : Nat) (value : EncodedValue)
  | setLength (length : Nat)
  /-- Gets or creates the value of a kind at an index, and changes it where it is. -/
  | getOrCreate (kind : ValueKind) (index : Nat) (edit : EncodedValue → EncodedValue)
  | trim

def apply (array : EncodedArray) : Operation → EncodedArray
  | .push value => array.push value
  | .set index value => array.set index value
  | .setLength length => array.setLength length
  | .getOrCreate kind index edit =>
    let (value, created) := array.getOrCreate kind index
    created.putSlot index (some (edit value))
  | .trim => array.trimmed

def run (start : EncodedArray) (history : List Operation) : EncodedArray := history.foldl apply start

/-- The value that an operation puts somewhere in an array, and where. -/
def puts (array : EncodedArray) : Operation → Option (Nat × EncodedValue)
  | .push value => some (array.length, value)
  | .set index value => some (index, value)
  | .getOrCreate kind index edit => some (index, edit (array.getOrCreate kind index).1)
  | .setLength _ | .trim => none

/-- The length that an operation leaves an array with. -/
def Leaves (array : EncodedArray) : Operation → Nat → Prop
  | .push _, length => length = array.length + 1
  | .set index _, length => length = max array.length (index + 1)
  | .setLength asked, length => length = asked
  | .getOrCreate _ index _, length => length = max array.length (index + 1)
  | .trim, length => IsLeast {length | ∀ index, length ≤ index → array.get? index = none} length

theorem leaves_apply (array : EncodedArray) (operation : Operation) :
    array.Leaves operation (array.apply operation).length := by
  cases operation with
  | push value => exact List.length_append
  | set index value => exact (length_putSlot _ _ _).trans (length_ensureLength _ _)
  | setLength length => exact length_setLength array length
  | getOrCreate kind index edit => exact (length_putSlot _ _ _).trans (array.created kind index).length
  | trim => exact array.isLeast_length_trimmed

/-- An operation that puts a value somewhere does it whatever the array holds, and cuts off nothing. -/
theorem get?_apply_of_puts {operation : Operation} {place : Nat} {put : EncodedValue}
    (puts : array.puts operation = some (place, put)) :
    array.length ≤ (array.apply operation).length ∧ ∀ other, (array.apply operation).get? other =
      if other = place then some put else array.get? other := by
  have leaves := array.leaves_apply operation
  cases operation with
  | push value =>
    obtain ⟨rfl, rfl⟩ := Prod.mk.inj (Option.some.inj puts)
    exact ⟨Nat.le_of_lt (Nat.lt_of_lt_of_eq (Nat.lt_succ_self _) leaves.symm), array.get?_push value⟩
  | set index value =>
    obtain ⟨rfl, rfl⟩ := Prod.mk.inj (Option.some.inj puts)
    refine ⟨leaves ▸ Nat.le_max_left _ _, fun other => ?_⟩
    rw [apply, EncodedArray.set, get?_putSlot (array.length_grown index), get?_ensureLength]
  | getOrCreate kind index edit =>
    obtain ⟨rfl, rfl⟩ := Prod.mk.inj (Option.some.inj puts)
    refine ⟨leaves ▸ Nat.le_max_left _ _, fun other => ?_⟩
    have created := array.created kind index
    have inside : index < (array.getOrCreate kind index).2.length := by
      rw [created.length]
      exact Nat.lt_of_lt_of_le (Nat.lt_succ_self index) (Nat.le_max_right _ _)
    refine (get?_putSlot inside _ other).trans ?_
    rw [created.placed]
    split_ifs <;> rfl
  | setLength | trim => cases puts

/-- What an operation that puts no value anywhere does not cut off stays. -/
theorem get?_apply_of_not_puts {operation : Operation} (puts : array.puts operation = none) (other : Nat) :
    (array.apply operation).get? other = if other < (array.apply operation).length then array.get? other else none := by
  cases operation with
  | setLength length =>
    rw [show (array.apply (.setLength length)).length = length from length_setLength array length]
    exact array.get?_setLength length other
  | trim =>
    rw [apply, get?_trimmed]
    split_ifs with inside
    · rfl
    · exact array.isLeast_length_trimmed.1 other (Nat.not_lt.mp inside)
  | push | set | getOrCreate => cases puts

/-- An index has a value after an operation that puts it there, or does not put one there and leaves the slot. -/
theorem get?_apply {operation : Operation} : (array.apply operation).get? index = some value ↔
    array.puts operation = some (index, value) ∨ (∀ other, array.puts operation ≠ some (index, other)) ∧
      index < (array.apply operation).length ∧ array.get? index = some value := by
  cases put : array.puts operation with
  | none =>
    rw [get?_apply_of_not_puts put]
    split_ifs with inside <;> simp [inside]
  | some placed =>
    obtain ⟨place, other⟩ := placed
    obtain ⟨longer, reads⟩ := get?_apply_of_puts put
    rw [reads]
    by_cases same : index = place
    · simp [same]
    · have kept : array.get? index = some value → index < (array.apply operation).length := fun there => by
        by_contra beyond
        rw [get?_of_le (Nat.le_trans longer (Nat.not_lt.mp beyond))] at there
        cases there
      have elsewhere (value : EncodedValue) : some (place, other) ≠ some (index, value) := fun wrong =>
        same (Prod.mk.inj (Option.some.inj wrong)).1.symm
      rw [if_neg same]
      constructor
      · exact fun there => .inr ⟨elsewhere, kept there, there⟩
      · rintro (wrong | ⟨-, -, there⟩)
        · exact absurd wrong (elsewhere value)
        · exact there

/-! ## Histories -/

/-- Whether an index has a value because of the last of some operations, or had it before there were any. -/
def Put (start : EncodedArray) (index : Nat) (value : EncodedValue) (before : List Operation) : Prop :=
  before = [] ∧ start.get? index = some value ∨
    ∃ earlier operation, before = earlier ++ [operation] ∧ (start.run earlier).puts operation = some (index, value)

/-- Whether none of the operations after some puts a value at an index, or cuts off the slot. -/
def Stays (start : EncodedArray) (index : Nat) (before after : List Operation) : Prop :=
  ∀ mid next rest, after = mid ++ next :: rest →
    (∀ other, (start.run (before ++ mid)).puts next ≠ some (index, other)) ∧
      index < (start.run (before ++ mid ++ [next])).length

variable {history before after : List Operation} {operation : Operation}

theorem run_concat (start : EncodedArray) (history : List Operation) (operation : Operation) :
    start.run (history ++ [operation]) = (start.run history).apply operation :=
  List.foldl_concat _ _ _ _

theorem stays_nil : start.Stays index before [] := by
  intro mid next rest same
  cases List.append_eq_nil_iff.mp same.symm |>.2

theorem stays_concat : start.Stays index before (after ++ [operation]) ↔ start.Stays index before after ∧
    (∀ other, (start.run (before ++ after)).puts operation ≠ some (index, other)) ∧
      index < (start.run (before ++ after ++ [operation])).length := by
  constructor
  · intro stays
    refine ⟨fun mid next rest same => ?_, stays after operation [] rfl⟩
    exact stays mid next (rest ++ [operation]) (by rw [same, List.append_assoc, List.cons_append])
  · rintro ⟨stays, last⟩ mid next rest same
    rcases List.eq_nil_or_concat rest with rfl | ⟨rest, final, rfl⟩
    · obtain ⟨rfl, single⟩ := List.append_inj' same rfl
      obtain rfl := List.singleton_inj.mp single
      exact last
    · rw [List.concat_eq_append, ← List.cons_append, ← List.append_assoc] at same
      exact stays mid next rest (List.append_inj' same rfl).1

/-- After any operations an index has the value that was put there last and has not been cut off since. -/
theorem get?_run (start : EncodedArray) (history : List Operation) (index : Nat) (value : EncodedValue) :
    (start.run history).get? index = some value ↔
      ∃ before after, history = before ++ after ∧ start.Put index value before ∧ start.Stays index before after := by
  -- From the last operation back: it put the value there, or left there what those before it had put.
  induction history using List.reverseRecOn with
  | nil =>
    constructor
    · exact fun there => ⟨[], [], rfl, .inl ⟨rfl, there⟩, stays_nil⟩
    · rintro ⟨before, after, same, ⟨-, there⟩ | ⟨earlier, operation, rfl, -⟩, -⟩
      · exact there
      · simp at same
  | append_singleton history operation ih =>
    rw [run_concat, get?_apply, ih]
    constructor
    · rintro (puts | ⟨elsewhere, inside, before, after, rfl, put, stays⟩)
      · exact ⟨history ++ [operation], [], (List.append_nil _).symm,
          .inr ⟨history, operation, rfl, puts⟩, stays_nil⟩
      · refine ⟨before, after ++ [operation], List.append_assoc _ _ _, put, stays_concat.mpr ⟨stays, elsewhere, ?_⟩⟩
        rwa [run_concat]
    · rintro ⟨before, after, same, put, stays⟩
      rcases List.eq_nil_or_concat after with rfl | ⟨after, last, rfl⟩
      · rw [List.append_nil] at same
        rcases put with ⟨rfl, -⟩ | ⟨earlier, last, rfl, puts⟩
        · simp at same
        · obtain ⟨rfl, single⟩ := List.append_inj' same rfl
          obtain rfl := List.singleton_inj.mp single
          exact .inl puts
      · rw [List.concat_eq_append] at same stays
        rw [← List.append_assoc] at same
        obtain ⟨rfl, single⟩ := List.append_inj' same rfl
        obtain rfl := List.singleton_inj.mp single
        obtain ⟨stays, elsewhere, inside⟩ := stays_concat.mp stays
        rw [run_concat] at inside
        exact .inr ⟨elsewhere, inside, before, after, rfl, put, stays⟩

/-! ## Arrays that are written -/

theorem exists_encode (resolved : ∀ value, some value ∈ array.slots.items → value.Resolved) :
    ∃ bytes, encode array = .ok bytes := by
  obtain ⟨bytes, success⟩ := @exists_encodeAll ValueSlot encode array.slots.items fun slot member => by
    cases slot with
    | none => exact ⟨_, rfl⟩
    | some value => exact EncodedValue.exists_encode_of_resolved (resolved value member)
  exact ⟨Bytes.ofVarCount array.length ++ bytes, Result.map_eq_ok.mpr ⟨bytes, success, rfl⟩⟩

/-- Values that are written alike are null together. -/
theorem eq_null_iff {first second : EncodedValue} (alike : first.WrittenAlike second) :
    first = .null ↔ second = .null := by
  cases first <;> cases second <;> simp [EncodedValue.WrittenAlike] at alike ⊢

/-- An array is read back slot by slot, with nulls for placeholders. -/
theorem get?_effective {index : Nat} (inside : index < array.length) :
    ∃ value, array.effective.get? index = some value ∧ value.WrittenAlike ((array.get? index).getD .null) := by
  have there : array.slots.items[index]? = some array.slots.items[index] := List.getElem?_eq_getElem inside
  have read : array.effective.slots.items[index]? = some (some (array.slots.items[index].getD .null).effective) := by
    rw [effective, TrackedList.ofList, List.getElem?_map, there]
    rfl
  refine ⟨(array.slots.items[index].getD .null).effective, by rw [get?_eq, read]; rfl, ?_⟩
  rw [EncodedValue.writtenAlike_iff, EncodedValue.effective_effective, get?_eq, there]
  rfl

/-- An array that is populated from any array, by any operations, has the length that each operation leaves it
with, and in each slot the value that was put there last and has not been cut off since, or else a placeholder.
To get or create a value of a kind keeps one of the kind that is there, and otherwise makes a fresh one, and
changes no other slot. To cut off the placeholders at the end changes what is at no index, and to do it again
changes nothing. If all references are set, and neither the array nor a list in it is too long for its count,
what is written is read as an array of the same length with values that are alike, and nulls for nulls and
placeholders alone. -/
theorem sparse (start : EncodedArray) (history : List Operation)
    {array : EncodedArray} (reached : start.run history = array) :
    (∀ operation, array.Leaves operation (start.run (history ++ [operation])).length) ∧
    (∀ index, array.slot? index = if index < array.length then some (array.get? index) else none) ∧
    (∀ index value, array.get? index = some value ↔
      ∃ before after, history = before ++ after ∧ start.Put index value before ∧ start.Stays index before after) ∧
    (∀ kind index, array.Created kind index (array.getOrCreate kind index).1 (array.getOrCreate kind index).2) ∧
    (∀ index, array.trimmed.get? index = array.get? index) ∧ array.trimmed.trimmed = array.trimmed ∧
    ((∀ value, some value ∈ array.slots.items → value.Resolved) →
      ∃ bytes, (∀ out, array.write out = (.ok bytes.length, out ++ bytes)) ∧ (array.Counted →
        ∃ back, Reads decode bytes back ∧ back.length = array.length ∧ ∀ index < array.length,
          ∃ value, back.get? index = some value ∧ value.WrittenAlike ((array.get? index).getD .null) ∧
            (value = .null ↔ array.get? index = none ∨ array.get? index = some .null))) := by
  subst reached
  refine ⟨fun operation => ?_, slot?_eq _, get?_run start history, created _, get?_trimmed _, trimmed_trimmed _,
    fun resolved => ?_⟩
  · rw [run_concat]
    exact leaves_apply _ operation
  · obtain ⟨bytes, success⟩ := exists_encode resolved
    refine ⟨bytes, (writes _).run_ok success, fun counted =>
      ⟨_, reads_encode success counted, ?_, fun index inside => ?_⟩⟩
    · exact List.length_map _
    · obtain ⟨value, there, alike⟩ := get?_effective inside
      refine ⟨value, there, alike, (eq_null_iff alike).trans ?_⟩
      cases (start.run history).get? index <;> simp

/-- A number and a string with a gap between them, and a null behind. -/
def gapped : List Operation :=
  [.getOrCreate .string 2 fun _ => .ofScalar (.string (.of 5)), .set 0 (.ofScalar (.long (-1))), .setLength 6, .trim,
    .push .null]

theorem sparse_gapped : ∃ bytes back, (empty.run gapped).write
    [] = (.ok bytes.length, bytes) ∧ Reads decode bytes back ∧
    back.length = 4 ∧ (empty.run gapped).get? 1 = none ∧ back.get? 1 = some .null ∧ back.get? 2 ≠ some .null := by
  obtain ⟨-, -, -, -, -, -, written⟩ := sparse empty gapped rfl
  have items : (empty.run gapped).slots.items =
      [some (.scalar (.long (-1)) 1), none, some (.scalar (.string (.of 5)) 1), some .null] := rfl
  have resolved (value : EncodedValue) (member : some value ∈ (empty.run gapped).slots.items) : value.Resolved := by
    rw [items] at member
    simp only [List.mem_cons, Option.some.injEq, reduceCtorEq, List.not_mem_nil, or_false, false_or] at member
    rcases member with rfl | rfl | rfl <;> unfold EncodedValue.Resolved <;> decide
  have counted : (empty.run gapped).Counted := by
    refine ⟨by rw [items]; decide, fun slot member => ?_⟩
    rw [items] at member
    simp only [List.mem_cons, List.not_mem_nil, or_false] at member
    rcases member with rfl | rfl | rfl | rfl <;> simp [EncodedValue.Counted]
  obtain ⟨bytes, write, read⟩ := written resolved
  obtain ⟨back, reads, length, slots⟩ := read counted
  obtain ⟨value, there, -, null⟩ := slots 1 (by decide)
  obtain rfl := null.mpr (.inl rfl)
  refine ⟨bytes, back, write [], reads, length, rfl, there, fun lost => ?_⟩
  obtain ⟨value, there', -, null'⟩ := slots 2 (by decide)
  obtain rfl := Option.some.inj (lost.symm.trans there')
  have string : (empty.run gapped).get? 2 = some (.scalar (.string (.of 5)) 1) := rfl
  rw [string] at null'
  rcases null'.mp rfl with wrong | wrong
  · cases wrong
  · cases wrong

end DexImage.EncodedArray
