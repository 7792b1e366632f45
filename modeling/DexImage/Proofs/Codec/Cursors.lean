import DexImage.Proofs.Codec.Reading
/-! # What reading does to a cursor

A step moves a cursor and does nothing else to it (`Decoder.Moves`). The byte order of the cursor matters to
numbers of a fixed width alone. A step that reads none does the same in either order (`Decoder.Unordered`), so
that what it reads ahead of a little-endian cursor it reads ahead of any (`Decoder.Unordered.run`).
-/

namespace DexImage

/-- Whether some bytes lie ahead of a cursor of either byte order. -/
structure Cursor.Reaches (cursor : Cursor) (bytes : Bytes) : Prop where
  inside : cursor.position ≤ cursor.bytes.size
  ahead : bytes <+: cursor.rest

namespace Cursor.Reaches

variable {cursor : Cursor} {first second : Bytes}

theorem littleEndian (reaches : cursor.Reaches first) : ({ cursor with bigEndian := false } : Cursor).Ahead first :=
  ⟨rfl, reaches.inside, reaches.ahead⟩

theorem left (reaches : cursor.Reaches (first ++ second)) : cursor.Reaches first :=
  ⟨reaches.inside, (List.prefix_append first second).trans reaches.ahead⟩

theorem right (reaches : cursor.Reaches (first ++ second)) : (cursor.advance first.length).Reaches second :=
  ⟨reaches.littleEndian.right.inside, reaches.littleEndian.right.ahead⟩

end Cursor.Reaches

namespace Decoder

variable {α β : Type} {step : Decoder α} {next : α → Decoder β}

/-- What holds of steps that do nothing, and of steps in a row where it holds of each, holds where a step is run again
and again. -/
theorem collect_of_bind (holds : {α : Type} → Decoder α → Prop)
    (pure : ∀ {α : Type} (value : α), holds (pure value))
    (bind : ∀ {α β : Type} {step : Decoder α} {next : α → Decoder β}, holds step →
      (∀ value, holds (next value)) →
      holds (step >>= next)) {count : Nat} {step : Nat → Decoder α} (each : ∀ index, holds (step index)) :
    holds (Reading.collect count step) := by
  have go (count index : Nat) (found : List α) : holds (Reading.collect.go step count index found) := by
    induction count generalizing index found with
    | zero => exact pure _
    | succ count ih => exact bind (each index) fun value => ih (index + 1) (value :: found)
  exact go count 0 []

/-- Whether a step moves to another position and leaves the cursor as it is otherwise. -/
def Moves (step : Decoder α) : Prop := ∀ cursor : Cursor, ∃ position, (step cursor).2 = { cursor with position }

namespace Moves

protected theorem pure (value : α) : Moves (pure value) := fun cursor => ⟨cursor.position, rfl⟩

protected theorem fail (cause : Cause) : Moves (Reading.fail cause : Decoder α) := fun cursor => ⟨cursor.position, rfl⟩

protected theorem ofResult (result : Result α) : Moves (Reading.ofResult result) := by
  cases result <;> exact fun cursor => ⟨cursor.position, rfl⟩

protected theorem bind (first : Moves step) (rest : ∀ value, Moves (next value)) : Moves (step >>= next) := by
  intro cursor
  obtain ⟨position, moved⟩ := first cursor
  rcases run : step cursor with ⟨fault | value, after⟩
  · rw [run] at moved
    exact ⟨position, by rw [Reading.bind_error run, moved]⟩
  · rw [run] at moved
    obtain ⟨other, moved'⟩ := rest value after
    exact ⟨other, by rw [Reading.bind_ok run, moved', show after = _ from moved]⟩

protected theorem within (moves : Moves step) (site : Site) : Moves (Reading.within site step) := by
  intro cursor
  obtain ⟨position, moved⟩ := moves cursor
  rcases run : step cursor with ⟨fault | value, after⟩
  · exact ⟨position, by rw [Reading.within_error run, ← moved, run]⟩
  · exact ⟨position, by rw [Reading.within_ok run, ← moved, run]⟩

theorem collect {count : Nat} {step : Nat → Decoder α} (each : ∀ index, Moves (step index)) :
    Moves (Reading.collect count step) :=
  collect_of_bind Moves .pure .bind each

protected theorem get : Moves (get : Decoder Cursor) := fun cursor => ⟨cursor.position, rfl⟩

theorem position : Moves Decoder.position := .bind .get fun _ => .pure _

theorem remaining : Moves Decoder.remaining := .bind .get fun _ => .pure _

theorem take (count : Nat) : Moves (Decoder.take count) := by
  intro cursor
  change ∃ position,
    ((if cursor.bytes.size < cursor.position ∨ cursor.bytes.size - cursor.position < count then _ else _ :
    Decoder Bytes) cursor).2 = _
  split_ifs
  · exact ⟨cursor.position, rfl⟩
  · exact ⟨cursor.position + count, rfl⟩

theorem u1 : Moves Decoder.u1 := by
  intro cursor
  rw [Decoder.u1, Reading.bind_ok (Decoder.get_run _)]
  cases cursor.peek? with
  | none => exact ⟨cursor.position, rfl⟩
  | some => exact ⟨cursor.position + 1, rfl⟩

theorem fixed (width : Nat) : Moves (Decoder.fixed width) := .bind (take width) fun _ => .bind .get fun _ => .pure _

theorem u2 : Moves Decoder.u2 := .bind (fixed 2) fun _ => .pure _

theorem u4 : Moves Decoder.u4 := .bind (fixed 4) fun _ => .pure _

theorem varint {form : String} {limit : Nat} {decode : Bytes → Except Leb128.GroupsFault (α × Nat)} :
    Moves (Decoder.varint form limit decode) := by
  intro cursor
  rw [Decoder.varint, Reading.bind_ok (Decoder.get_run _)]
  rcases decode (cursor.window limit) with fault | ⟨value, length⟩
  · exact ⟨cursor.position, rfl⟩
  · exact ⟨cursor.position + length, rfl⟩

theorem seek (offset : Nat) : Moves (Decoder.seek offset) := by
  intro cursor
  change ∃ position, ((if cursor.bytes.size < offset then _ else _ : Decoder Unit) cursor).2 = _
  split_ifs
  · exact ⟨cursor.position, rfl⟩
  · exact ⟨offset, rfl⟩

end Moves

/-- Whether a step does the same in either byte order. -/
def Unordered (step : Decoder α) : Prop := ∀ (cursor : Cursor) (bigEndian : Bool),
  step { cursor with bigEndian } = ((step cursor).1, { (step cursor).2 with bigEndian })

namespace Unordered

protected theorem pure (value : α) : Unordered (pure value) := fun _ _ => rfl

protected theorem bind (first : Unordered step) (rest : ∀ value, Unordered (next value)) :
    Unordered (step >>= next) := by
  intro cursor bigEndian
  have run := first cursor bigEndian
  rcases same : step cursor with ⟨fault | value, after⟩
  · rw [same] at run
    rw [Reading.bind_error run, Reading.bind_error same]
  · rw [same] at run
    rw [Reading.bind_ok run, Reading.bind_ok same]
    exact rest value after bigEndian

protected theorem within (unordered : Unordered step) (site : Site) : Unordered (Reading.within site step) := by
  intro cursor bigEndian
  have run := unordered cursor bigEndian
  rcases same : step cursor with ⟨fault | value, after⟩
  · rw [same] at run
    rw [Reading.within_error run, Reading.within_error same]
  · rw [same] at run
    rw [Reading.within_ok run, Reading.within_ok same]

theorem collect {count : Nat} {step : Nat → Decoder α} (each : ∀ index, Unordered (step index)) :
    Unordered (Reading.collect count step) :=
  collect_of_bind Unordered .pure .bind each

theorem remaining : Unordered Decoder.remaining := fun _ _ => rfl

theorem u1 : Unordered Decoder.u1 := by
  intro cursor bigEndian
  have same : ({ cursor with bigEndian } : Cursor).peek? = cursor.peek? := rfl
  rw [Decoder.u1, Reading.bind_ok (Decoder.get_run _), Reading.bind_ok (Decoder.get_run _), same]
  cases cursor.peek? <;> rfl

theorem varint {form : String} {limit : Nat} {decode : Bytes → Except Leb128.GroupsFault (α × Nat)} :
    Unordered (Decoder.varint form limit decode) := by
  intro cursor bigEndian
  have same : ({ cursor with bigEndian } : Cursor).window limit = cursor.window limit := rfl
  rw [Decoder.varint, Reading.bind_ok (Decoder.get_run _), Reading.bind_ok (Decoder.get_run _), same]
  rcases decode (cursor.window limit) with fault | ⟨value, length⟩ <;> rfl

theorem uleb128 : Unordered Decoder.uleb128 := .varint

/-- What is read ahead of a little-endian cursor is read ahead of any cursor. -/
theorem run {bytes : Bytes} {value : α} (unordered : Unordered step) (reads : Reads step bytes value) {cursor : Cursor}
    (reaches : cursor.Reaches bytes) : step cursor = (.ok value, cursor.advance bytes.length) := by
  have either := unordered { cursor with bigEndian := false } cursor.bigEndian
  rw [reads _ reaches.littleEndian] at either
  exact either

end Unordered
end Decoder
end DexImage
