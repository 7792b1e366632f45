import DexImage.Cursor
import DexImage.TrackedList
import DexImage.Proofs.Codec.Leb128
import DexImage.Proofs.Lists
/-! # Reading what lies ahead

A step reads some bytes as a value when, wherever they lie ahead of a little-endian cursor, it yields
the value and comes to stand behind them (`Reads`). Steps in a row read their bytes in a row.
-/

namespace DexImage

/-- Counts that fit are read as they are. -/
theorem toNat_toUInt32_of_lt {count : Nat} (few : count < UInt32.size) : count.toUInt32.toNat = count := by
  rw [Nat.toUInt32_eq, UInt32.toNat_ofNat', Nat.mod_eq_of_lt few]

namespace Reading

variable {σ α β : Type}

/-- A step that succeeds is followed by the next one. -/
theorem bind_ok {step : Reading σ α} {next : α → Reading σ β} {state state' : σ} {value : α}
    (run : step state = (.ok value, state')) : (step >>= next) state = next value state' := by
  simp only [bind, ExceptT.bind, ExceptT.mk, StateT.bind, ExceptT.bindCont]
  simp only [run]

/-- A step that fails is not followed by the next one. -/
theorem bind_error {step : Reading σ α} {next : α → Reading σ β} {state state' : σ} {fault : Fault}
    (run : step state = (.error fault, state')) : (step >>= next) state = (.error fault, state') := by
  simp only [bind, ExceptT.bind, ExceptT.mk, StateT.bind, ExceptT.bindCont]
  simp only [run]
  rfl

/-- Where steps in a row succeed, each of them does. -/
theorem bind_eq_ok {step : Reading σ α} {next : α → Reading σ β} {state state' : σ} {value : β} :
    (step >>= next) state = (.ok value, state') ↔
      ∃ first between, step state = (.ok first, between) ∧ next first between = (.ok value, state') := by
  rcases run : step state with ⟨fault | first, between⟩
  · rw [bind_error run]
    exact iff_of_false (by rintro ⟨⟩) (by rintro ⟨_, _, ⟨⟩, _⟩)
  · rw [bind_ok run]
    constructor
    · exact fun rest => ⟨first, between, rfl, rest⟩
    · rintro ⟨_, _, ⟨⟩, rest⟩
      exact rest

/-- What is asked of the outcome of a step that succeeds is asked of what it yields. -/
theorem exists_ok {step : Reading σ α} {state after : σ} {value : α} (run : step state = (.ok value, after))
    {holds : α → σ → Prop} : (∃ other stop, step state = (.ok other, stop) ∧ holds other stop) ↔
      holds value after := by
  rw [run]
  constructor
  · rintro ⟨_, _, ⟨⟩, there⟩
    exact there
  · exact fun there => ⟨value, after, rfl, there⟩

/-- Where steps in a row fail, one of them does. -/
theorem bind_eq_error {step : Reading σ α} {next : α → Reading σ β} {state state' : σ} {fault : Fault}
    (failure : (step >>= next) state = (.error fault, state')) :
    step state = (.error fault, state') ∨
      ∃ first between, step state = (.ok first, between) ∧ next first between = (.error fault, state') := by
  rcases run : step state with ⟨other | first, between⟩
  · rw [bind_error run] at failure
    obtain ⟨same, rfl⟩ := Prod.mk.inj failure
    exact .inl (by rw [Except.error.inj same])
  · right
    rw [bind_ok run] at failure
    exact ⟨first, between, rfl, failure⟩

theorem get_run (state : σ) : (get : Reading σ σ) state = (.ok state, state) := rfl

theorem set_run (state next : σ) : (set next : Reading σ PUnit) state = (.ok (), next) := rfl

theorem ofResult_run (result : Result α) (state : σ) : (ofResult result : Reading σ α) state = (result, state) := by
  cases result <;> rfl

theorem ofResult_eq_error {result : Result α} {state state' : σ} {fault : Fault}
    (failure : (ofResult result : Reading σ α) state = (.error fault, state')) : result = .error fault := by
  cases result with
  | error other => exact congrArg Except.error (Except.error.inj (Prod.mk.inj failure).1)
  | ok => cases failure

theorem ofResult_eq_ok {result : Result α} {state state' : σ} {value : α} :
    (ofResult result : Reading σ α) state = (.ok value, state') ↔ result = .ok value ∧ state' = state := by
  cases result with
  | error fault => exact iff_of_false (by rintro ⟨⟩) (by rintro ⟨⟨⟩, _⟩)
  | ok other =>
    change (Except.ok other, state) = (Except.ok value, state') ↔ Except.ok other = Except.ok value ∧ _
    rw [Prod.mk.injEq]
    exact and_congr_right fun _ => eq_comm

theorem modify_eq_ok {edit : σ → σ} {state state' : σ} {value : PUnit} :
    (modify edit : Reading σ PUnit) state = (.ok value, state') ↔ state' = edit state := by
  change (Except.ok (), edit state) = _ ↔ _
  rw [Prod.mk.injEq]
  exact ⟨fun same => same.2.symm, fun same => ⟨rfl, same.symm⟩⟩

theorem set_eq_ok {state state' next : σ} {value : PUnit} :
    (set next : Reading σ PUnit) state = (.ok value, state') ↔ state' = next :=
  modify_eq_ok

theorem pure_eq_ok {first value : α} {state state' : σ} :
    (pure first : Reading σ α) state = (.ok value, state') ↔ first = value ∧ state' = state := by
  change (Except.ok first, state) = _ ↔ _
  rw [Prod.mk.injEq]
  exact ⟨fun same => ⟨Except.ok.inj same.1, same.2.symm⟩, fun same => ⟨congrArg _ same.1, same.2.symm⟩⟩

theorem within_eq_ok {step : Reading σ α} {state state' : σ} {value : α} {site : Site} :
    within site step state = (.ok value, state') ↔ step state = (.ok value, state') := by
  rcases run : step state with ⟨fault | first, between⟩
  · simp only [within, run]
    exact iff_of_false (by rintro ⟨⟩) (by rintro ⟨⟩)
  · simp only [within, run]

theorem within_ok {step : Reading σ α} {state state' : σ} {value : α} {site : Site}
    (run : step state = (.ok value, state')) : within site step state = (.ok value, state') := by
  simp only [within, run]

theorem within_error {step : Reading σ α} {state state' : σ} {fault : Fault} {site : Site}
    (run : step state = (.error fault, state')) : within site step state = (.error (fault.within site), state') := by
  simp only [within, run]

end Reading

namespace Cursor

/-- The cursor behind the next `count` bytes. -/
def advance (cursor : Cursor) (count : Nat) : Cursor := { cursor with position := cursor.position + count }

@[simp] theorem advance_zero (cursor : Cursor) : cursor.advance 0 = cursor := rfl

@[simp] theorem advance_advance (cursor : Cursor) (first second : Nat) :
    (cursor.advance first).advance second = cursor.advance (first + second) := by
  simp [advance, Nat.add_assoc]

/-- Whether some bytes lie ahead of a little-endian cursor. -/
structure Ahead (cursor : Cursor) (bytes : Bytes) : Prop where
  littleEndian : cursor.bigEndian = false
  inside : cursor.position ≤ cursor.bytes.size
  ahead : bytes <+: cursor.rest

variable {cursor : Cursor} {first second bytes : Bytes}

theorem length_rest : cursor.rest.length = cursor.remaining := by
  simp [rest, remaining]

theorem Ahead.length_le (there : cursor.Ahead bytes) : bytes.length ≤ cursor.remaining := by
  rw [← length_rest]
  exact there.ahead.length_le

theorem Ahead.left (there : cursor.Ahead (first ++ second)) : cursor.Ahead first :=
  ⟨there.littleEndian, there.inside, (List.prefix_append first second).trans there.ahead⟩

theorem Ahead.right (there : cursor.Ahead (first ++ second)) : (cursor.advance first.length).Ahead second where
  littleEndian := there.littleEndian
  inside := by
    have length := there.length_le
    have inside := there.inside
    rw [List.length_append] at length
    simp only [remaining] at length
    simp only [advance]
    omega
  ahead := by
    have rest : (cursor.advance first.length).rest = cursor.rest.drop first.length := by
      simp [rest, advance, List.drop_drop]
    obtain ⟨tail, ahead⟩ := there.ahead
    rw [rest, ← ahead, List.append_assoc, List.drop_left]
    exact List.prefix_append second tail

theorem window_eq (cursor : Cursor) (count : Nat) : cursor.window count = cursor.rest.take count := by
  simp [window, rest, Array.toList_extract, List.extract_eq_take_drop]

/-- The bytes up to a limit are what lies ahead and more. -/
theorem Ahead.window {limit : Nat} (there : cursor.Ahead bytes) (fits : bytes.length ≤ limit) :
    ∃ tail, cursor.window limit = bytes ++ tail := by
  obtain ⟨tail, ahead⟩ := there.ahead
  rw [window_eq, ← ahead, List.take_append, List.take_of_length_le fits]
  exact ⟨_, rfl⟩

theorem Ahead.window_length (there : cursor.Ahead bytes) : cursor.window bytes.length = bytes := by
  rw [window_eq]
  exact (List.prefix_iff_eq_take.mp there.ahead).symm

end Cursor

theorem Decoder.get_run (cursor : Cursor) : (get : Decoder Cursor) cursor = (.ok cursor, cursor) := rfl

theorem Decoder.position_run (cursor : Cursor) : position cursor = (.ok cursor.position, cursor) := rfl

theorem Decoder.remaining_run (cursor : Cursor) : remaining cursor = (.ok cursor.remaining, cursor) := rfl

theorem Decoder.seek_ok {cursor : Cursor} {offset : Nat} (inside : offset ≤ cursor.bytes.size) :
    seek offset cursor = (.ok (), { cursor with position := offset }) := by
  change (if cursor.bytes.size < offset then _ else _ : Decoder Unit) cursor = _
  rw [if_neg (Nat.not_lt.mpr inside)]
  rfl

/-- Bytes are taken if there are enough of them. -/
theorem Decoder.take_eq_ok {count : Nat} {cursor after : Cursor} {bytes : Bytes} :
    take count cursor = (.ok bytes, after) ↔
      cursor.position + count ≤ cursor.bytes.size ∧ bytes = cursor.window count ∧ after = cursor.advance count := by
  change (if cursor.bytes.size < cursor.position ∨ cursor.bytes.size - cursor.position < count then
    _ else _ : Decoder Bytes) cursor = _ ↔ _
  split_ifs with missing
  · refine iff_of_false (by rintro ⟨⟩) ?_
    rintro ⟨enough, -⟩
    omega
  · constructor
    · rintro ⟨⟩
      exact ⟨by omega, rfl, rfl⟩
    · rintro ⟨-, rfl, rfl⟩
      rfl

/-- Whether a step reads some bytes, wherever they lie ahead, as a value. -/
def Reads {α : Type} (step : Decoder α) (bytes : Bytes) (value : α) : Prop :=
  ∀ cursor : Cursor, cursor.Ahead bytes → step cursor = (.ok value, cursor.advance bytes.length)

namespace Reads

variable {α β : Type} {step : Decoder α} {next : α → Decoder β} {bytes first second : Bytes} {value : α}

protected theorem pure (value : α) : Reads (pure value) [] value := fun _ _ => rfl

protected theorem bind {other : β} (reads : Reads step first value) (then' : Reads (next value) second other) :
    Reads (step >>= next) (first ++ second) other := by
  intro cursor there
  rw [Reading.bind_ok (reads cursor there.left), then' _ there.right, Cursor.advance_advance,
    List.length_append]

/-- A last step that reads nothing. -/
theorem bind_pure {other : β} (reads : Reads step bytes value)
    (then' : next value = pure other) : Reads (step >>= next) bytes other := by
  have behind : Reads (next value) [] other := then' ▸ Reads.pure other
  simpa using reads.bind behind

protected theorem within (reads : Reads step bytes value) (site : Site) :
    Reads (Reading.within site step) bytes value :=
  fun cursor there => Reading.within_ok (reads cursor there)

/-- A run of bytes is read as it is. -/
theorem take (bytes : Bytes) : Reads (Decoder.take bytes.length) bytes bytes := by
  intro cursor there
  have length := there.length_le
  have inside := there.inside
  rw [Cursor.remaining] at length
  exact Decoder.take_eq_ok.mpr ⟨by omega, there.window_length.symm, rfl⟩

theorem u1 (byte : UInt8) : Reads Decoder.u1 [byte] byte := by
  intro cursor there
  have next : cursor.peek? = some byte := by
    obtain ⟨tail, ahead⟩ := there.ahead
    have first := congrArg (·[0]?) ahead
    simp only [Cursor.rest, List.getElem?_drop] at first
    simpa [Cursor.peek?] using first.symm
  rw [Decoder.u1, Reading.bind_ok (Decoder.get_run cursor)]
  simp only [next]
  rfl

/-- A fixed-width number is read with its least significant byte first. -/
theorem fixed {width n : Nat} (small : n < Bytes.capacity width) :
    Reads (Decoder.fixed width) (Bytes.littleEndian width n) n := by
  intro cursor there
  have read := take (Bytes.littleEndian width n) cursor there
  rw [Bytes.length_littleEndian] at read
  rw [Decoder.fixed, Reading.bind_ok read]
  change (Except.ok (if cursor.bigEndian then _ else _), _) = _
  rw [there.littleEndian, Bytes.toNatLittle_littleEndian, Nat.mod_eq_of_lt small, Bytes.length_littleEndian]
  rfl

theorem u2 (value : UInt16) : Reads Decoder.u2 (Bytes.ofUInt16 value) value := by
  have number : value.toNat.toUInt16 = value := by rw [Nat.toUInt16_eq, UInt16.ofNat_toNat]
  exact (fixed value.toNat_lt).bind_pure (congrArg pure number)

theorem u4 (value : UInt32) : Reads Decoder.u4 (Bytes.ofUInt32 value) value := by
  have number : value.toNat.toUInt32 = value := by rw [Nat.toUInt32_eq, UInt32.ofNat_toNat]
  exact (fixed value.toNat_lt).bind_pure (congrArg pure number)

/-- A number in a variable-length form is read by what decodes it. -/
theorem varint {form : String} {limit : Nat} {decode : Bytes → Except Leb128.GroupsFault (α × Nat)}
    (fits : bytes.length ≤ limit) (decodes : ∀ tail, decode (bytes ++ tail) = .ok (value, bytes.length)) :
    Reads (Decoder.varint form limit decode) bytes value := by
  intro cursor there
  obtain ⟨tail, window⟩ := there.window fits
  rw [Decoder.varint, Reading.bind_ok (Decoder.get_run cursor)]
  simp only [window, decodes]
  rfl

theorem uleb128 (value : UInt32) : Reads Decoder.uleb128 (Leb128.encodeUInt32 value) value :=
  varint (Leb128.length_encodeUInt32_le value) (Leb128.decodeUInt32_encodeUInt32 value)

theorem sleb128 (value : Int32) : Reads Decoder.sleb128 (Leb128.encodeInt32 value) value :=
  varint (Leb128.length_encodeInt32_le value) (Leb128.decodeInt32_encodeInt32 value)

theorem uleb128p1 (value : Int32) : Reads Decoder.uleb128p1 (Leb128.encodePlusOne value) value :=
  varint (Leb128.length_encodeUInt32_le _) (Leb128.decodePlusOne_encodePlusOne value)

/-- A step that asks where the cursor stands. -/
theorem position_bind {next : Nat → Decoder β} {other : β} (reads : ∀ position, Reads (next position) bytes other) :
    Reads (Decoder.position >>= next) bytes other := by
  intro cursor there
  rw [Reading.bind_ok (Decoder.position_run cursor)]
  exact reads _ cursor there

/-- A step that asks how many bytes are left: at least those that are to be read. -/
theorem remaining_bind {next : Nat → Decoder β} {other : β}
    (reads : ∀ remaining, bytes.length ≤ remaining → Reads (next remaining) bytes other) :
    Reads (Decoder.remaining >>= next) bytes other := by
  intro cursor there
  rw [Reading.bind_ok (Decoder.remaining_run cursor)]
  exact reads _ there.length_le cursor there

/-- A count that precedes what is counted. -/
theorem varCount {count : Nat} {next : UInt32 → Decoder β} {other : β} (small : count < UInt32.size)
    (reads : ∀ read : UInt32, read.toNat = count → Reads (next read) bytes other) :
    Reads (Decoder.uleb128 >>= next) (Bytes.ofVarCount count ++ bytes) other :=
  (uleb128 _).bind (reads _ (toNat_toUInt32_of_lt small))

/-- A count of four bytes that precedes what is counted. -/
theorem count {count : Nat} {next : UInt32 → Decoder β} {other : β} (small : count < UInt32.size)
    (reads : ∀ read : UInt32, read.toNat = count → Reads (next read) bytes other) :
    Reads (Decoder.u4 >>= next) (Bytes.ofCount count ++ bytes) other :=
  (u4 _).bind (reads _ (toNat_toUInt32_of_lt small))

/-- Steps in a row read parts in a row. -/
theorem collect {step : Nat → Decoder α} {parts : List Bytes} {values : List α}
    (each : List.Forall₂ (fun part value => ∀ index, Reads (step index) part value) parts values) :
    Reads (Reading.collect values.length step) parts.flatten values := by
  have go (index : Nat) (found : List α) :
      Reads (Reading.collect.go step values.length index found) parts.flatten (found.reverse ++ values) := by
    induction each generalizing index found with
    | nil =>
      rw [List.append_nil]
      exact Reads.pure found.reverse
    | @cons part value parts values first _ ih =>
      rw [List.length_cons, Reading.collect.go, List.flatten_cons]
      have rest := ih (index + 1) (value :: found)
      rw [List.reverse_cons, List.append_assoc, List.singleton_append] at rest
      exact (first index).bind rest
  exact go 0 []

/-- Steps in a row read what is written of the members of a list. -/
theorem collect_flatMap {α β : Type} {step : Nat → Decoder β}
    {written : α → Bytes} {read : α → β} (items : List α)
    (each : ∀ item ∈ items, ∀ index, Reads (step index) (written item) (read item)) :
    Reads (Reading.collect items.length step) (items.flatMap written) (items.map read) := by
  have collected := @collect _ step _ _ (.of_map each)
  rwa [List.length_map, ← List.flatMap_def] at collected

theorem collect_self {α : Type} {step : Nat → Decoder α} {written : α → Bytes} (items : List α)
    (each : ∀ item ∈ items, ∀ index, Reads (step index) (written item) item) :
    Reads (Reading.collect items.length step) (items.flatMap written) items := by
  have collected := @collect_flatMap _ _ step written id items each
  rwa [List.map_id] at collected

end Reads

/-- Parts that take a number of bytes each take as many times that number. -/
theorem mul_length_le_flatten {size : Nat} {parts : List Bytes} (least : ∀ part ∈ parts, size ≤ part.length) :
    size * parts.length ≤ parts.flatten.length := by
  induction parts with
  | nil => exact Nat.zero_le _
  | cons part rest ih =>
    obtain ⟨first, others⟩ := List.forall_mem_cons.mp least
    rw [List.flatten_cons, List.length_append, List.length_cons, Nat.mul_succ, Nat.add_comm]
    exact Nat.add_le_add first (ih others)

theorem mul_length_le_flatMap {α : Type} {size : Nat} {written : α → Bytes} (items : List α)
    (least : ∀ item, size ≤ (written item).length) : size * items.length ≤ (items.flatMap written).length := by
  have whole := @mul_length_le_flatten size (items.map written) fun part member => by
    obtain ⟨item, -, rfl⟩ := List.mem_map.mp member
    exact least item
  rwa [List.length_map, ← List.flatMap_def] at whole

/-- There are no more values than bytes where each value takes at least one. -/
theorem length_le_flatten {α : Type} {R : Bytes → α → Prop} {parts : List Bytes} {values : List α}
    (each : List.Forall₂ R parts values) (nonempty : ∀ part value, R part value → 0 < part.length) :
    values.length ≤ parts.flatten.length := by
  rw [← each.length_eq, ← Nat.one_mul parts.length]
  refine mul_length_le_flatten fun part member => ?_
  obtain ⟨value, -, related⟩ := each.exists_of_mem_left member
  exact nonempty part value related

/-- The encoding of a list is made of the encodings of its members. -/
theorem encodeAll_eq_ok {α : Type} {encodeOne : α → Result Bytes} {items : List α} {bytes : Bytes}
    (success : encodeAll encodeOne items = .ok bytes) :
    ∃ parts : List Bytes, List.Forall₂ (fun item part => encodeOne item = .ok part) items parts ∧
      bytes = parts.flatten := by
  induction items generalizing bytes with
  | nil => exact ⟨[], .nil, (Except.ok.inj success).symm⟩
  | cons item rest ih =>
    rw [encodeAll] at success
    rcases first : encodeOne item with fault | part
    · rw [first] at success
      cases success
    rcases others : encodeAll encodeOne rest with fault | tail
    · rw [first, others] at success
      cases success
    rw [first, others] at success
    obtain ⟨parts, each, rfl⟩ := ih others
    exact ⟨part :: parts, .cons first each, (Except.ok.inj success).symm⟩

end DexImage
