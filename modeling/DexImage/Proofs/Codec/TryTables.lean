import DexImage.Item.TryTable
import DexImage.Proofs.Codec.Ids
/-! # Try tables decode back

A handler list is read back if its catch-all comes last and it is not empty. The lists of a table start
at different offsets, so that the offset written for a range leads back to its list.
-/

namespace DexImage

namespace HandlerList

@[simp] theorem typed_normalized (list : HandlerList) : list.normalized.typed = list.typed := by
  simp [normalized, typed, catchAlls, List.filter_append, List.filter_filter]

@[simp] theorem catchAlls_normalized (list : HandlerList) : list.normalized.catchAlls = list.catchAlls := by
  simp [normalized, typed, catchAlls, List.filter_append, List.filter_filter]

theorem normalized_normalized (list : HandlerList) : list.normalized.normalized = list.normalized := by
  rw [normalized, typed_normalized, catchAlls_normalized]
  rfl

theorem mem_normalized {list : HandlerList} {handler : ExceptionHandler}
    (member : handler ∈ list.normalized.handlers) : handler ∈ list.handlers := by
  rcases List.mem_append.mp member with member | member
  · exact (List.mem_filter.mp member).1
  · exact (List.mem_filter.mp member).1

/-- Whether a list is in order and has a handler. -/
structure Readable (list : HandlerList) : Prop where
  ordered : list.normalized = list
  nonempty : list.handlers ≠ []

/-- Whether the number of typed handlers fits the field that tells it, which has one value more for lists with a
catch-all. -/
def Counted (list : HandlerList) : Prop :=
  list.typed.length < 2 ^ 31 ∨ list.typed.length = 2 ^ 31 ∧ list.catchAll?.isSome

/-- What is read of a type and an address. -/
def ofPair (pair : UInt32 × UInt32) : ExceptionHandler := .typed (.of pair.1) pair.2

/-- The typed handlers are written in order, and take the bytes that are reckoned with. -/
theorem encodeTyped_eq_ok {handlers : List ExceptionHandler} {bytes : Bytes}
    (success : encodeTyped handlers = .ok bytes) :
    ∃ pairs : List (UInt32 × UInt32), bytes = pairs.flatMap Leb128.encodePair ∧
      handlers.filter (fun handler => !handler.isCatchAll) = pairs.map ofPair ∧
      bytes.length = total typedSize handlers := by
  induction handlers generalizing bytes with
  | nil => exact ⟨[], (Except.ok.inj success).symm, rfl, by rw [← Except.ok.inj success]; rfl⟩
  | cons handler rest ih =>
    cases handler with
    | catchAll address =>
      obtain ⟨pairs, written, typed, size⟩ := ih success
      exact ⟨pairs, written, typed, by rw [size, total_cons, typedSize, Nat.zero_add]⟩
    | typed type address =>
      obtain ⟨index, required, success⟩ := Result.bind_eq_ok.mp success
      obtain rfl := IdRef.eq_of_required required
      obtain ⟨others, inner, same⟩ := Result.map_eq_ok.mp success
      obtain ⟨pairs, rfl, typed, size⟩ := ih inner
      refine ⟨(index, address) :: pairs, same.symm, ?_, ?_⟩
      · rw [List.filter_cons_of_pos rfl, typed]
        rfl
      · rw [← same, List.length_append, List.length_append, size, Leb128.length_encodeUInt32,
          Leb128.length_encodeUInt32]
        rfl

theorem encode_eq (list : HandlerList) : encode list = (do
    if 1 < list.catchAlls.length then throw (Fault.of (.catchAllsRepeated list.catchAlls.length))
    return Leb128.encodeInt32 list.sizeField ++ (← encodeTyped list.handlers)
      ++ (list.catchAll?.map Leb128.encodeUInt32).getD [] : Result Bytes) := rfl

/-- What is written of a handler list. -/
theorem encode_eq_ok {list : HandlerList} {bytes : Bytes} (success : encode list = .ok bytes) :
    list.catchAlls.length ≤ 1 ∧ ∃ typed, encodeTyped list.handlers = .ok typed ∧
      bytes = Leb128.encodeInt32 list.sizeField ++ typed ++ (list.catchAll?.map Leb128.encodeUInt32).getD [] := by
  rw [encode_eq] at success
  by_cases many : 1 < list.catchAlls.length
  · rw [if_pos many] at success
    cases success
  rw [if_neg many] at success
  obtain ⟨typed, inner, same⟩ := Result.map_eq_ok.mp success
  exact ⟨Nat.not_lt.mp many, typed, inner, same.symm⟩

theorem length_encode {list : HandlerList} {bytes : Bytes} (success : encode list = .ok bytes) :
    bytes.length = encodedSize list := by
  obtain ⟨-, typed, inner, rfl⟩ := encode_eq_ok success
  obtain ⟨-, -, -, size⟩ := encodeTyped_eq_ok inner
  simp only [encodedSize, List.length_append, size, Leb128.lengthInt32]
  cases list.catchAll? with
  | none => rfl
  | some address => simp only [Option.map_some, Option.getD_some, Leb128.length_encodeUInt32]

/-- Typed handlers are read one by one. -/
private theorem reads_typed (pairs : List (UInt32 × UInt32)) :
    Reads (Reading.collect pairs.length fun _ => do
      let type ← Decoder.uleb128
      return .typed (.of type) (← Decoder.uleb128)) (pairs.flatMap Leb128.encodePair) (pairs.map ofPair) :=
  .collect_flatMap pairs fun pair _ _ => (Reads.uleb128 pair.1).bind ((Reads.uleb128 pair.2).bind_pure rfl)

private theorem toInt_neg {count : Nat} (small : count ≤ 2 ^ 31) : (-Int32.ofNat count).toInt = -(count : Int) := by
  rcases Nat.lt_or_eq_of_le small with less | rfl
  · rw [Int32.toInt_neg, Int32.toInt_ofNat_of_lt less, Int.bmod_eq_of_le] <;> omega
  · decide

/-- Each typed handler takes two bytes at least. -/
theorem counted_of_encode {list : HandlerList} {bytes : Bytes} (success : encode list = .ok bytes)
    (small : bytes.length < UInt32.size) : list.Counted := by
  obtain ⟨-, typed, inner, rfl⟩ := encode_eq_ok success
  obtain ⟨pairs, rfl, typedEq, -⟩ := encodeTyped_eq_ok inner
  have two := mul_length_le_flatMap pairs Leb128.two_le_length_encodePair
  simp only [List.length_append] at small
  have size : UInt32.size = 2 ^ 32 := rfl
  left
  rw [HandlerList.typed, typedEq, List.length_map]
  omega

/-- A positive number announces typed handlers alone. -/
private theorem reads_positive {pairs : List (UInt32 × UInt32)} (some : pairs ≠ []) (few : pairs.length < 2 ^ 31) :
    Reads decode (Leb128.encodeInt32 (Int32.ofNat pairs.length) ++ pairs.flatMap Leb128.encodePair)
      ⟨pairs.map ofPair⟩ := by
  have value : (Int32.ofNat pairs.length).toInt = pairs.length := Int32.toInt_ofNat_of_lt few
  have positive : ¬Int32.ofNat pairs.length ≤ 0 := by
    rw [Int32.le_iff_toInt_le, value]
    have pos := List.length_pos_of_ne_nil some
    change ¬((pairs.length : Int) ≤ 0)
    omega
  refine (Reads.sleb128 _).bind ?_
  rw [value, Int.natAbs_natCast]
  refine (reads_typed pairs).bind_pure ?_
  rw [if_neg positive]

/-- A number that is not positive announces a catch-all behind the typed handlers. -/
private theorem reads_nonpositive {pairs : List (UInt32 × UInt32)} (address : UInt32) (few : pairs.length ≤ 2 ^ 31) :
    Reads decode (Leb128.encodeInt32 (-Int32.ofNat pairs.length) ++
        (pairs.flatMap Leb128.encodePair ++ Leb128.encodeUInt32 address))
      ⟨pairs.map ofPair ++ [.catchAll address]⟩ := by
  have nonpositive : -Int32.ofNat pairs.length ≤ 0 := by
    rw [Int32.le_iff_toInt_le, toInt_neg few]
    change -(pairs.length : Int) ≤ 0
    omega
  refine (Reads.sleb128 _).bind ?_
  rw [toInt_neg few, Int.natAbs_neg, Int.natAbs_natCast]
  refine (reads_typed pairs).bind ?_
  rw [if_pos nonpositive]
  exact (Reads.uleb128 address).bind_pure rfl

theorem reads_encode {list : HandlerList} {bytes : Bytes} (success : encode list = .ok bytes)
    (readable : list.Readable) (counted : list.Counted) : Reads decode bytes list := by
  obtain ⟨single, typed, inner, rfl⟩ := encode_eq_ok success
  obtain ⟨pairs, rfl, typedEq, -⟩ := encodeTyped_eq_ok inner
  have length : list.typed.length = pairs.length := by rw [HandlerList.typed, typedEq, List.length_map]
  have ordered : list = ⟨pairs.map ofPair ++ list.catchAlls⟩ := by
    rw [← typedEq]
    exact readable.ordered.symm
  rw [Counted, length] at counted
  rw [List.append_assoc]
  -- The sign of the number in front tells whether a catch-all follows, of which there is one at most.
  rcases last : list.catchAlls with _ | ⟨handler, _ | ⟨other, others⟩⟩
  · have few : pairs.length < 2 ^ 31 := by simpa [catchAll?, last] using counted
    have field : list.sizeField = Int32.ofNat pairs.length := by simp [sizeField, catchAll?, last, length]
    have none : (list.catchAll?.map Leb128.encodeUInt32).getD [] = [] := by simp [catchAll?, last]
    rw [last, List.append_nil] at ordered
    have some : pairs ≠ [] := by
      rintro rfl
      exact readable.nonempty (congrArg handlers ordered)
    have read := reads_positive some few
    rwa [← field, ← ordered, ← List.append_nil (pairs.flatMap _), ← none] at read
  · obtain ⟨address, rfl⟩ : ∃ address, handler = .catchAll address := by
      have member : handler ∈ list.catchAlls := last ▸ List.mem_cons_self
      cases handler with
      | typed => cases (List.mem_filter.mp member).2
      | catchAll address => exact ⟨address, rfl⟩
    have field : list.sizeField = -Int32.ofNat pairs.length := by simp [sizeField, catchAll?, last, length]
    have some : (list.catchAll?.map Leb128.encodeUInt32).getD [] = Leb128.encodeUInt32 address := by
      simp [catchAll?, last, ExceptionHandler.address]
    have few : pairs.length ≤ 2 ^ 31 := by omega
    have read := reads_nonpositive address few
    rw [last] at ordered
    rwa [← field, ← ordered, ← some] at read
  · rw [last] at single
    exact absurd single (by simp)

theorem encodedSize_pos (list : HandlerList) : 0 < encodedSize list := by
  have pos := Leb128.length_encodeInt_pos list.sizeField.toInt
  simp only [encodedSize, Leb128.lengthInt32, Leb128.encodeInt32]
  omega

end HandlerList

/-- Where parts in a row start, the first of them at `first`. -/
def startsFrom : (first : Nat) → List Bytes → List Nat
  | _, [] => []
  | first, part :: rest => first :: startsFrom (first + part.length) rest

/-- Steps in a row that also note where they start. -/
theorem Reads.collect_starts {α : Type} {step : Nat → Decoder α} {parts : List Bytes} {values : List α}
    (each : List.Forall₂ (fun part value => ∀ index, Reads (step index) part value) parts values)
    (base first : Nat) {cursor : Cursor} (start : cursor.position = base + first)
    (there : cursor.Ahead parts.flatten) :
    Reading.collect values.length (fun index => do
        let position ← Decoder.position
        return (position - base, ← step index)) cursor =
      (.ok ((startsFrom first parts).zip values), cursor.advance parts.flatten.length) := by
  have go (index : Nat) (found : List (Nat × α)) :
      Reading.collect.go (fun index => do
          let position ← Decoder.position
          return (position - base, ← step index)) values.length index found cursor =
        (.ok (found.reverse ++ (startsFrom first parts).zip values), cursor.advance parts.flatten.length) := by
    induction each generalizing index found first cursor with
    | nil =>
      rw [startsFrom, List.zip_nil_left, List.append_nil]
      rfl
    | @cons part value parts values head _ ih =>
      rw [List.flatten_cons] at there
      have noted : (do
          let position ← Decoder.position
          return (position - base, ← step index) : Decoder (Nat × α)) cursor =
            (.ok (first, value), cursor.advance part.length) := by
        rw [Reading.bind_ok (Decoder.position_run cursor),
          Reading.bind_ok (head index cursor there.left), start, Nat.add_sub_cancel_left]
        rfl
      have next : (cursor.advance part.length).position = base + (first + part.length) := by
        simp only [Cursor.advance, start, Nat.add_assoc]
      rw [List.length_cons, Reading.collect.go, Reading.bind_ok noted, ih _ next there.right, startsFrom,
        List.zip_cons_cons, List.reverse_cons, List.append_assoc, Cursor.advance_advance, List.flatten_cons,
        List.length_append]
      rfl
  exact go 0 []

/-- Parts that are not empty are told by where they start. -/
theorem findIdx?_startsFrom {parts : List Bytes} (nonempty : ∀ part ∈ parts, 0 < part.length) (first : Nat)
    {slot : Nat} (present : slot < parts.length) :
    (startsFrom first parts).findIdx? (· == first + total List.length (parts.take slot)) = some slot := by
  induction parts generalizing first slot with
  | nil => cases present
  | cons part rest ih =>
    rw [startsFrom, List.findIdx?_cons]
    cases slot with
    | zero => simp
    | succ slot =>
      have pos := nonempty part List.mem_cons_self
      have differ : (first == first + total List.length ((part :: rest).take (slot + 1))) = false := by
        simp only [List.take_succ_cons, total_cons, beq_eq_false_iff_ne]
        omega
      rw [differ]
      have others := ih (fun part member => nonempty part (List.mem_cons_of_mem _ member))
        (first + part.length) (Nat.lt_of_succ_lt_succ present)
      simp only [List.take_succ_cons, total_cons, ← Nat.add_assoc, others]
      rfl

namespace TryTable

/-- Whether a table can be told from what is written of it. -/
structure Readable (table : TryTable) : Prop where
  few : table.tries.length < UInt16.size
  lists : ∀ list ∈ table.handlers.items, list.Readable

/-- Whether the number of handler lists and those of their handlers fit the counts in front of them. -/
structure Counted (table : TryTable) : Prop where
  few : table.handlers.items.length < UInt32.size
  lists : ∀ list ∈ table.handlers.items, list.Counted

/-- How a range is written: its start, its length and the offset of its handler list. -/
def tripleBytes (table : TryTable) (item : TryItem) : Bytes :=
  Bytes.ofUInt32 item.start ++ Bytes.ofUInt16 item.count
    ++ Bytes.ofUInt16 (table.handlerOffset item.handler).toUInt16

theorem encodeTries_cons (table : TryTable) (index : Nat) (item : TryItem) (rest : List TryItem) :
    table.encodeTries index (item :: rest) = (do
      if table.handlers.length ≤ item.handler then
        throw (Fault.of (.handlerMissing index item.handler table.handlers.length))
      if 0xffff < table.handlerOffset item.handler then
        throw (Fault.of (.handlerOffsetTooWide (table.handlerOffset item.handler)))
      return table.tripleBytes item ++ (← table.encodeTries (index + 1) rest) : Result Bytes) := rfl

theorem encodeTries_eq_ok {table : TryTable} {index : Nat} {tries : List TryItem} {bytes : Bytes}
    (success : table.encodeTries index tries = .ok bytes) :
    bytes = tries.flatMap table.tripleBytes ∧ ∀ item ∈ tries,
      item.handler < table.handlers.length ∧ table.handlerOffset item.handler ≤ 0xffff := by
  induction tries generalizing index bytes with
  | nil => exact ⟨(Except.ok.inj success).symm, by simp⟩
  | cons item rest ih =>
    rw [encodeTries_cons] at success
    by_cases missing : table.handlers.length ≤ item.handler
    · rw [if_pos missing] at success
      cases success
    rw [if_neg missing] at success
    by_cases wide : 0xffff < table.handlerOffset item.handler
    · simp only [if_pos wide] at success
      cases success
    simp only [if_neg wide] at success
    obtain ⟨others, inner, same⟩ := Result.map_eq_ok.mp success
    obtain ⟨rfl, each⟩ := ih inner
    exact ⟨same.symm, List.forall_mem_cons.mpr ⟨⟨Nat.not_le.mp missing, Nat.not_lt.mp wide⟩, each⟩⟩

theorem encode_eq_ok {table : TryTable} {bytes : Bytes} (success : encode table = .ok bytes) :
    ∃ parts : List Bytes, bytes = table.tries.flatMap table.tripleBytes
        ++ (Bytes.ofVarCount table.handlers.length ++ parts.flatten) ∧
      (∀ item ∈ table.tries, item.handler < table.handlers.length ∧
        table.handlerOffset item.handler ≤ 0xffff) ∧
      List.Forall₂ (fun list part => encode list = .ok part) table.handlers.items parts := by
  obtain ⟨ranges, first, success⟩ := Result.bind_eq_ok.mp success
  obtain ⟨lists, second, same⟩ := Result.map_eq_ok.mp success
  obtain ⟨rfl, bounds⟩ := encodeTries_eq_ok first
  obtain ⟨parts, each, rfl⟩ := encodeAll_eq_ok second
  exact ⟨parts, by rw [← same, List.append_assoc], bounds, each⟩

theorem length_encode {table : TryTable} {bytes : Bytes} (success : encode table = .ok bytes) :
    bytes.length = encodedSize table := by
  obtain ⟨parts, rfl, -, each⟩ := encode_eq_ok success
  have ranges (tries : List TryItem) : (tries.flatMap table.tripleBytes).length = 8 * tries.length := by
    induction tries with
    | nil => rfl
    | cons item rest ih =>
      simp only [List.flatMap_cons, List.length_append, ih, List.length_cons, tripleBytes,
        Bytes.ofUInt32, Bytes.ofUInt16, Bytes.length_littleEndian]
      omega
  have lists : parts.flatten.length = total encodedSize table.handlers.items := by
    clear success
    generalize table.handlers.items = items at each
    induction each with
    | nil => rfl
    | cons head _ ih =>
      rw [List.flatten_cons, List.length_append, ih, HandlerList.length_encode head, total_cons]
  simp only [List.length_append, ranges, lists, Bytes.ofVarCount, Leb128.length_encodeUInt32]
  simp only [encodedSize, Bytes.varCountLength, Nat.add_assoc]

/-- What a range is read as, before its handler list is known. -/
private def triple (table : TryTable) (item : TryItem) : UInt32 × UInt16 × UInt16 :=
  (item.start, item.count, (table.handlerOffset item.handler).toUInt16)

private theorem reads_ranges (table : TryTable) :
    Reads (Reading.collect table.tries.length fun _ => do
        let start ← Decoder.u4
        let count ← Decoder.u2
        return (start, count, ← Decoder.u2)) (table.tries.flatMap table.tripleBytes)
      (table.tries.map table.triple) := by
  refine .collect_flatMap table.tries fun item _ _ => ?_
  rw [tripleBytes, List.append_assoc]
  exact (Reads.u4 _).bind ((Reads.u2 _).bind ((Reads.u2 _).bind_pure rfl))

/-- The offsets of the ranges lead back to their handler lists. -/
private theorem resolveOffsets_eq {table : TryTable} {parts : List Bytes}
    (each : List.Forall₂ (fun list part => encode list = .ok part) table.handlers.items parts)
    {tries : List TryItem} (bounds : ∀ item ∈ tries, item.handler < table.handlers.length ∧
      table.handlerOffset item.handler ≤ 0xffff) (index : Nat) :
    resolveOffsets (startsFrom (Bytes.ofVarCount table.handlers.length).length parts) index
      (tries.map table.triple) = .ok tries := by
  have sizes (slot : Nat) : total List.length (parts.take slot) = table.handlers.offsetOf slot := by
    rw [TrackedList.offsetOf]
    generalize table.handlers.items = items at each
    induction each generalizing slot with
    | nil => cases slot <;> rfl
    | cons head _ ih =>
      cases slot with
      | zero => rfl
      | succ slot =>
        rw [List.take_succ_cons, List.take_succ_cons, total_cons, total_cons, ih, HandlerList.length_encode head]
  have nonempty : ∀ part ∈ parts, 0 < part.length := by
    intro part member
    obtain ⟨list, -, encoded⟩ := each.exists_of_mem_right member
    rw [HandlerList.length_encode encoded]
    exact list.encodedSize_pos
  induction tries generalizing index with
  | nil => rfl
  | cons item rest ih =>
    obtain ⟨⟨present, narrow⟩, bounds⟩ := List.forall_mem_cons.mp bounds
    have offset : (table.handlerOffset item.handler).toUInt16.toNat =
        (Bytes.ofVarCount table.handlers.length).length + total List.length (parts.take item.handler) := by
      rw [Nat.toUInt16_eq, UInt16.toNat_ofNat', Nat.mod_eq_of_lt (by omega), handlerOffset, sizes,
        Bytes.ofVarCount, Leb128.length_encodeUInt32, Bytes.varCountLength]
    have listed : item.handler < parts.length := by rw [← each.length_eq]; exact present
    have found := findIdx?_startsFrom nonempty (Bytes.ofVarCount table.handlers.length).length listed
    rw [List.map_cons, triple, resolveOffsets, offset, found]
    exact Result.map_eq_ok.mpr ⟨rest, ih bounds (index + 1), rfl⟩

theorem counted_of_encode {table : TryTable} {bytes : Bytes} (success : encode table = .ok bytes)
    (small : bytes.length < UInt32.size) : table.Counted := by
  obtain ⟨parts, rfl, -, each⟩ := encode_eq_ok success
  have few := length_le_flatten each.flip fun part list encoded => by
    rw [HandlerList.length_encode encoded]
    exact list.encodedSize_pos
  simp only [List.length_append] at small
  refine ⟨by omega, fun list member => ?_⟩
  obtain ⟨part, there, encoded⟩ := each.exists_of_mem_left member
  have short := (List.sublist_flatten_of_mem there).length_le
  exact HandlerList.counted_of_encode encoded (by omega)

/-- A table is read back with its list of handler lists as one that has just been refreshed. -/
theorem reads_encode {table : TryTable} {bytes : Bytes} (success : encode table = .ok bytes)
    (readable : table.Readable) (counted : table.Counted) :
    Reads (decode table.tries.length.toUInt16) bytes { table with handlers := .ofList table.handlers.items } := by
  obtain ⟨parts, rfl, bounds, each⟩ := encode_eq_ok success
  have read : List.Forall₂ (fun part list => ∀ index,
      Reads (Reading.within (.nth "catch handler" index) HandlerList.decode) part list)
      parts table.handlers.items := by
    refine List.Forall₂.of_getElem? each.length_eq.symm fun position part found => ?_
    obtain ⟨list, present, encoded⟩ := each.flip.getElem?_left found
    have member := List.mem_of_getElem? present
    refine ⟨list, present, fun index => ?_⟩
    exact (HandlerList.reads_encode encoded (readable.lists list member) (counted.lists list member)).within _
  have ranges : table.tries.length.toUInt16.toNat = table.tries.length := by
    rw [Nat.toUInt16_eq, UInt16.toNat_ofNat', Nat.mod_eq_of_lt readable.few]
  rw [decode, ranges]
  -- The lists are numbered by where they start, counted from behind the ranges.
  refine (reads_ranges table).bind fun cursor there => ?_
  rw [Reading.bind_ok (Decoder.position_run cursor)]
  have count : table.handlers.length.toUInt32.toNat = table.handlers.items.length := by
    rw [Nat.toUInt32_eq, UInt32.toNat_ofNat', TrackedList.length, Nat.mod_eq_of_lt counted.few]
  have lists := Reads.collect_starts read cursor.position (Bytes.ofVarCount table.handlers.length).length rfl
    there.right
  have announced : Decoder.uleb128 cursor = (.ok table.handlers.length.toUInt32,
      cursor.advance (Bytes.ofVarCount table.handlers.length).length) := Reads.uleb128 _ cursor there.left
  rw [Reading.bind_ok announced, count, Reading.bind_ok lists]
  have length : (startsFrom (Bytes.ofVarCount table.handlers.length).length parts).length =
      table.handlers.items.length := by
    rw [each.length_eq]
    generalize (Bytes.ofVarCount table.handlers.length).length = first
    clear * -
    induction parts generalizing first with
    | nil => rfl
    | cons part rest ih => rw [startsFrom, List.length_cons, ih, List.length_cons]
  rw [List.map_fst_zip (Nat.le_of_eq length), List.map_snd_zip (Nat.le_of_eq length.symm),
    resolveOffsets_eq each bounds]
  have ordered : table.handlers.items.map HandlerList.normalized = table.handlers.items :=
    (List.map_congr_left fun list member => (readable.lists list member).ordered).trans (List.map_id _)
  change (Except.ok ({ tries := table.tries, handlers := ⟨table.handlers.items.map HandlerList.normalized, false⟩ }
    : TryTable), _) = _
  rw [ordered, Cursor.advance_advance, List.length_append]
  rfl

end TryTable
end DexImage
