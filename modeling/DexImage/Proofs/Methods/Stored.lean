import DexImage.Proofs.Rereading.Alone
import DexImage.Proofs.TryTables.Written
/-! # Code items that are written and read back

A code item without debug info whose numbers fit the fields that tell them is written (`CodeItem.Storable`). It
is read back by every loader, strict or not, with catch-alls last; a try table without ranges is not written, so
that none is read (`CodeItem.settled`). Where the instructions end, whether a unit of padding follows and
whether there is a try table is told by the fields in front of them.
-/

namespace DexImage

namespace HandlerList

/-- Whether a list can be written and is told by what is written of it: it has some handlers, fewer than 2^31,
of which one at most catches all and the others have types. -/
structure Storable (list : HandlerList) : Prop where
  nonempty : list.handlers ≠ []
  few : list.handlers.length < 2 ^ 31
  single : list.catchAlls.length ≤ 1
  typed : ∀ type address, .typed type address ∈ list.handlers → type.isPresent

theorem exists_encodeTyped {handlers : List ExceptionHandler}
    (present : ∀ type address, .typed type address ∈ handlers → type.isPresent) :
    ∃ bytes, encodeTyped handlers = .ok bytes := by
  induction handlers with
  | nil => exact ⟨[], rfl⟩
  | cons handler rest ih =>
    obtain ⟨others, inner⟩ := ih fun type address member => present type address (List.mem_cons_of_mem _ member)
    cases handler with
    | catchAll address => exact ⟨others, inner⟩
    | typed type address =>
      obtain ⟨_ | index⟩ := type
      · cases present _ address List.mem_cons_self
      · exact ⟨_, Result.map_eq_ok.mpr ⟨others, inner, rfl⟩⟩

theorem Storable.encodes {list : HandlerList} (storable : list.Storable) : ∃ bytes, encode list = .ok bytes := by
  obtain ⟨typed, inner⟩ := exists_encodeTyped storable.typed
  rw [encode_eq, if_neg (Nat.not_lt.mpr storable.single)]
  exact ⟨_, Result.map_eq_ok.mpr ⟨typed, inner, rfl⟩⟩

theorem Storable.counted {list : HandlerList} (storable : list.Storable) : list.Counted :=
  .inl (Nat.lt_of_le_of_lt (List.length_filter_le ..) storable.few)

end HandlerList

namespace TryTable

/-- Whether a table can be written and is told by what is written of it. The ranges name lists whose offsets fit
two bytes; and the number of lists fits its count, as it does where the offsets of all lists fit two bytes. -/
structure Storable (table : TryTable) : Prop where
  few : table.tries.length < UInt16.size
  named : ∀ item ∈ table.tries, item.handler < table.handlers.length ∧ table.handlerOffset item.handler ≤ 0xffff
  told : (∀ slot < table.handlers.length, table.handlerOffset slot ≤ 0xffff) ∨ table.handlers.length < UInt32.size
  lists : ∀ list ∈ table.handlers.items, list.Storable

theorem exists_encodeTries {table : TryTable} {tries : List TryItem}
    (named : ∀ item ∈ tries, item.handler < table.handlers.length ∧ table.handlerOffset item.handler ≤ 0xffff)
    (index : Nat) : ∃ bytes, table.encodeTries index tries = .ok bytes := by
  induction tries generalizing index with
  | nil => exact ⟨[], rfl⟩
  | cons item rest ih =>
    obtain ⟨⟨inside, near⟩, named⟩ := List.forall_mem_cons.mp named
    obtain ⟨others, inner⟩ := ih named (index + 1)
    rw [encodeTries_cons, if_neg (Nat.not_le.mpr inside), if_neg (Nat.not_lt.mpr near)]
    exact ⟨_, Result.map_eq_ok.mpr ⟨others, inner, rfl⟩⟩

/-- Every list takes a byte at least, so that later ones have greater offsets. -/
theorem le_handlerOffset (table : TryTable) {slot : Nat} (inside : slot ≤ table.handlers.length) :
    slot ≤ table.handlerOffset slot := by
  have sizes (lists : List HandlerList) : lists.length ≤ total encodedSize lists := by
    induction lists with
    | nil => exact Nat.le_refl 0
    | cons list rest ih =>
      have pos := list.encodedSize_pos
      rw [List.length_cons, total_cons]
      omega
  have front := sizes (table.handlers.items.take slot)
  rw [List.length_take_of_le inside] at front
  exact Nat.le_trans front (Nat.le_add_left ..)

variable {table : TryTable}

theorem Storable.encodes (storable : table.Storable) : ∃ bytes, encode table = .ok bytes := by
  obtain ⟨tries, first⟩ := exists_encodeTries storable.named 0
  obtain ⟨lists, second⟩ := exists_encodeAll fun list member => (storable.lists list member).encodes
  exact ⟨_, Result.bind_eq_ok.mpr ⟨tries, first, Result.map_eq_ok.mpr ⟨lists, second, rfl⟩⟩⟩

theorem Storable.lossless (storable : table.Storable) : table.Lossless where
  nonempty list member := (storable.lists list member).nonempty
  counted :=
    { few := by
        rcases storable.told with near | few
        · change table.handlers.length < 2 ^ 32
          by_contra! many
          have last := near (table.handlers.length - 1) (by omega)
          have behind := table.le_handlerOffset (Nat.sub_le table.handlers.length 1)
          omega
        · exact few
      lists := fun list member => (storable.lists list member).counted }

end TryTable

namespace CodeItem

/-- Whether a code item can be written and is told by what is written of it: it has as many registers as parameters at
least, no debug info, no operand that was lost, and fewer than 2^32 code units. -/
structure Storable (code : CodeItem) : Prop where
  ins : code.ins ≤ code.registers
  alone : code.debugInfo = .absent
  kept : code.instructions.overflow = false
  units : code.instructions.length < UInt32.size
  table : ∀ table, code.tryTable = some table → table.Storable

/-- The item as it is read back: without a table that has no ranges, and with catch-alls last. -/
def settled (code : CodeItem) : CodeItem :=
  { code with tryTable := (code.tryTable.filter fun table => !table.isEmpty).map TryTable.normalized }

variable {code : CodeItem}

/-- A table is written if it has ranges. -/
theorem writtenTable?_eq_filter (storable : code.Storable) :
    code.writtenTable? = code.tryTable.filter fun table => !table.isEmpty := by
  rw [writtenTable?, triesSize]
  rcases present : code.tryTable with _ | table
  · rfl
  · have few := (storable.table table present).few
    have some : 0 < table.tries.length.toUInt16 ↔ (!table.isEmpty) = true := by
      rw [UInt16.lt_iff_toNat_lt, Nat.toUInt16_eq, UInt16.toNat_ofNat', Nat.mod_eq_of_lt few, TryTable.isEmpty]
      cases table.tries <;> simp
    simp only [some, Option.filter]

theorem Storable.encodes (storable : code.Storable) : ∃ bytes, encode code = .ok bytes := by
  have debugInfo : code.debugInfo.encodeWord = .ok (Bytes.ofUInt32 0) := by
    rw [storable.alone]
    rfl
  have instructions : encode code.instructions = .ok (code.instructions.units.flatMap Bytes.ofUInt16) := by
    simp only [encode, storable.kept, Bool.false_eq_true, if_false]
  obtain ⟨table, written⟩ : ∃ table, (code.writtenTable?.map encode).getD (pure []) = .ok table := by
    rcases present : code.writtenTable? with _ | table
    · exact ⟨[], rfl⟩
    · rw [writtenTable?_eq_filter storable] at present
      exact (storable.table table (Option.eq_some_of_filter_eq_some present)).encodes
  rw [encode_eq, encodeAround, if_neg (UInt16.not_lt.mpr storable.ins), debugInfo, instructions, written]
  exact ⟨_, rfl⟩

theorem triesSize_settled (code : CodeItem) : code.settled.triesSize = code.triesSize := by
  obtain ⟨registers, ins, outs, debugInfo, instructions, _ | ⟨_ | ⟨item, rest⟩, handlers⟩⟩ := code <;> rfl

theorem writtenTable?_settled (storable : code.Storable) :
    code.settled.writtenTable? = code.writtenTable?.map TryTable.normalized := by
  have table : code.settled.tryTable = code.writtenTable?.map TryTable.normalized := by
    rw [writtenTable?_eq_filter storable]
    rfl
  rw [writtenTable?, triesSize_settled, table, writtenTable?]
  split_ifs <;> rfl

/-- What is read back is written as the item is. -/
theorem encode_settled (storable : code.Storable) : encode code.settled = encode code := by
  have table : code.settled.writtenTable?.map encode = code.writtenTable?.map encode := by
    rw [writtenTable?_settled storable, Option.map_map]
    exact congrArg (Option.map · code.writtenTable?) (funext TryTable.encode_normalized)
  have padding : code.settled.needsPadding = code.needsPadding := by
    rw [needsPadding, triesSize_settled]
    rfl
  rw [encode_eq, encode_eq, table, encodeAround, encodeAround, triesSize_settled, padding]
  rfl

/-- The table that is read back has ranges and is told by what is written of it. -/
theorem table_settled (storable : code.Storable) {table : TryTable} (present : code.settled.tryTable = some table) :
    0 < table.tries.length ∧ table.Readable ∧ table.Counted := by
  obtain ⟨origin, kept, rfl⟩ := Option.map_eq_some_iff.mp present
  obtain ⟨kept, some⟩ := Option.filter_eq_some_iff.mp kept
  have storable := storable.table origin kept
  refine ⟨?_, storable.lossless.readable storable.few, TryTable.counted_normalized.mpr storable.lossless.counted⟩
  refine List.length_pos_iff.mpr fun (empty : origin.tries = []) => ?_
  rw [TryTable.isEmpty, empty] at some
  cases some

/-- A code item without debug info whose numbers fit their fields is written. Loaders of either strictness read it back
from what is written, wherever that lies and whatever follows it, with catch-alls last and without a table that has no
ranges; nothing behind it is read. -/
theorem load_settled (storable : code.Storable) : ∃ bytes : Bytes,
    (∀ out, code.write out = (.ok bytes.length, out ++ bytes)) ∧
      ∀ loader : Loader, loader.cursor.Ahead bytes →
        load loader = (.ok code.settled, { loader with cursor := loader.cursor.advance bytes.length }) := by
  obtain ⟨bytes, encoded⟩ := storable.encodes
  have settled := (encode_settled storable).trans encoded
  have readable : code.settled.Readable := fun table present =>
    ⟨(table_settled storable present).1, (table_settled storable present).2.1⟩
  have counted : code.settled.Counted :=
    ⟨storable.units, fun table present => (table_settled storable present).2.2⟩
  have reread : code.settled.reread = code.settled := by
    rw [CodeItem.reread, CodeItem.settled]
    cases code.tryTable.filter fun table => !table.isEmpty <;> rfl
  exact ⟨bytes, code.writes.run_ok encoded, load_alone settled readable counted reread storable.alone⟩

/-- An odd number of units, so that one of padding follows, and two ranges, the first of which has its catch-all
in front of a typed handler. -/
def guarded : CodeItem where
  registers := 2
  ins := 1
  outs := 0
  debugInfo := .absent
  instructions := .ofUnits [0, 0, 0x000e]
  tryTable := some
    ⟨[⟨0, 1, 1⟩, ⟨1, 1, 0⟩], .ofList [⟨[.catchAll 2, .typed (.of 7) 1]⟩, ⟨[.typed (.of 200) 2]⟩]⟩

/-- The item is read back with the catch-all last. -/
theorem load_settled_guarded :
    guarded.settled.tryTable = some
        ⟨[⟨0, 1, 1⟩, ⟨1, 1, 0⟩], .ofList [⟨[.typed (.of 7) 1, .catchAll 2]⟩, ⟨[.typed (.of 200) 2]⟩]⟩ ∧
      ∃ bytes : Bytes, (∀ out, guarded.write out = (.ok bytes.length, out ++ bytes)) ∧
        ∀ loader : Loader, loader.cursor.Ahead bytes →
          load loader = (.ok guarded.settled, { loader with cursor := loader.cursor.advance bytes.length }) := by
  have front : HandlerList.Storable ⟨[.catchAll 2, .typed (.of 7) 1]⟩ :=
    ⟨by decide, by decide, by decide, by simp [IdRef.of, IdRef.isPresent]⟩
  have behind : HandlerList.Storable ⟨[.typed (.of 200) 2]⟩ :=
    ⟨by decide, by decide, by decide, by simp [IdRef.of, IdRef.isPresent]⟩
  have storable : guarded.Storable := by
    refine ⟨by decide, rfl, rfl, by decide, fun table present => ?_⟩
    cases present
    exact ⟨by decide, by decide +kernel, .inr (by decide), by simp [TrackedList.ofList, front, behind]⟩
  exact ⟨rfl, load_settled storable⟩

end CodeItem
end DexImage
