import DexImage.Proofs.Codec.Writing
import DexImage.Proofs.Rereading.Decoding
/-! # Try tables that are written and read back

What is written of a handler list is its typed handlers and then its catch-all, wherever that stands in the list, so
that a table is read back with catch-alls last (`TryTable.normalized`). The field in front of a list tells that no
catch-all follows by being positive, which it cannot be for a list without handlers: such a list is written, but every
list that is read has a handler. Lists and handlers that the counts cannot tell are lost as well (`TryTable.Lossless`).
-/

namespace DexImage

namespace HandlerList

theorem encodeTyped_filter (handlers : List ExceptionHandler) :
    encodeTyped (handlers.filter fun handler => !handler.isCatchAll) = encodeTyped handlers := by
  induction handlers with
  | nil => rfl
  | cons handler rest ih =>
    cases handler with
    | typed type address =>
      rw [List.filter_cons_of_pos rfl, encodeTyped, encodeTyped, ih]
    | catchAll address => exact ih

theorem total_typedSize_filter (handlers : List ExceptionHandler) :
    total typedSize (handlers.filter fun handler => !handler.isCatchAll) = total typedSize handlers := by
  induction handlers with
  | nil => rfl
  | cons handler rest ih =>
    cases handler with
    | typed type address => rw [List.filter_cons_of_pos rfl, total_cons, total_cons, ih]
    | catchAll address => exact ih.trans (Nat.zero_add _).symm

@[simp] theorem catchAll?_normalized (list : HandlerList) : list.normalized.catchAll? = list.catchAll? := by
  rw [catchAll?, catchAll?, catchAlls_normalized]

@[simp] theorem sizeField_normalized (list : HandlerList) : list.normalized.sizeField = list.sizeField := by
  rw [sizeField, sizeField, typed_normalized, catchAll?_normalized]

/-- Where the catch-all stands does not matter to what is written. -/
theorem encode_normalized (list : HandlerList) : encode list.normalized = encode list := by
  have typed : encodeTyped list.normalized.handlers = encodeTyped list.handlers := by
    rw [← encodeTyped_filter, ← encodeTyped_filter list.handlers]
    exact congrArg encodeTyped list.typed_normalized
  simp only [encode, catchAlls_normalized, sizeField_normalized, catchAll?_normalized, typed]

theorem encodedSize_normalized (list : HandlerList) : encodedSize list.normalized = encodedSize list := by
  have typed : total typedSize list.normalized.handlers = total typedSize list.handlers := by
    rw [← total_typedSize_filter, ← total_typedSize_filter list.handlers]
    exact congrArg (total typedSize) list.typed_normalized
  simp only [encodedSize, sizeField_normalized, catchAll?_normalized, typed]

theorem counted_normalized {list : HandlerList} : list.normalized.Counted ↔ list.Counted := by
  rw [Counted, Counted, typed_normalized, catchAll?_normalized]

end HandlerList

namespace TryTable

/-- The table with catch-alls last, and no edit mark. -/
def normalized (table : TryTable) : TryTable := { table with handlers := refresh table.handlers }

theorem items_normalized (table : TryTable) :
    table.normalized.handlers.items = table.handlers.items.map HandlerList.normalized := rfl

theorem handlerOffset_normalized (table : TryTable) (slot : Nat) :
    table.normalized.handlerOffset slot = table.handlerOffset slot := by
  have sizes (lists : List HandlerList) :
      total encodedSize (lists.map HandlerList.normalized) = total encodedSize lists := by
    induction lists with
    | nil => rfl
    | cons list rest ih => rw [List.map_cons, total_cons, total_cons, ih, list.encodedSize_normalized]
  rw [handlerOffset, handlerOffset, TrackedList.offsetOf, TrackedList.offsetOf, TrackedList.length, TrackedList.length,
    items_normalized, List.length_map, ← List.map_take, sizes]

theorem encodeTries_normalized (table : TryTable) (index : Nat) (tries : List TryItem) :
    table.normalized.encodeTries index tries = table.encodeTries index tries := by
  have length : table.normalized.handlers.length = table.handlers.length := List.length_map _
  induction tries generalizing index with
  | nil => rfl
  | cons item rest ih => simp only [encodeTries, length, handlerOffset_normalized, ih]

theorem encode_normalized (table : TryTable) : encode table.normalized = encode table := by
  have lists (items : List HandlerList) :
      encodeAll encode (items.map HandlerList.normalized) = encodeAll encode items := by
    rw [Writing.encodeAll_eq, Writing.encodeAll_eq, List.map_map]
    exact congrArg Writing.joined (List.map_congr_left fun list _ => list.encode_normalized)
  have tries : table.normalized.encodeTries 0 table.normalized.tries = table.encodeTries 0 table.tries :=
    table.encodeTries_normalized 0 table.tries
  have length : table.normalized.handlers.length = table.handlers.length := List.length_map _
  have handlers : encode table.normalized.handlers = encode table.handlers := lists table.handlers.items
  change (do
    return (← table.normalized.encodeTries 0 table.normalized.tries)
      ++ Bytes.ofVarCount table.normalized.handlers.length ++ (← encode table.normalized.handlers) : Result Bytes) = _
  rw [tries, length, handlers]
  rfl

/-- Whether what is written of a table tells the table: no handler list is empty, and the counts tell how many handler
lists there are, and how many handlers in each. -/
structure Lossless (table : TryTable) : Prop where
  nonempty : ∀ list ∈ table.handlers.items, list.handlers ≠ []
  counted : table.Counted

theorem Lossless.readable {table : TryTable} (lossless : table.Lossless) (few : table.tries.length < UInt16.size) :
    table.normalized.Readable where
  few := few
  lists list member := by
    obtain ⟨origin, present, rfl⟩ := List.mem_map.mp (table.items_normalized ▸ member)
    exact ⟨origin.normalized_normalized, HandlerList.normalized_ne_nil (lossless.nonempty origin present)⟩

theorem counted_normalized {table : TryTable} : table.normalized.Counted ↔ table.Counted := by
  have length : table.normalized.handlers.items.length = table.handlers.items.length := List.length_map _
  have lists : (∀ list ∈ table.normalized.handlers.items, list.Counted) ↔
      ∀ list ∈ table.handlers.items, list.Counted := by
    rw [items_normalized, List.forall_mem_map]
    exact forall₂_congr fun list _ => HandlerList.counted_normalized
  constructor
  · exact fun counted => ⟨length ▸ counted.few, lists.mp counted.lists⟩
  · exact fun counted => ⟨length.symm ▸ counted.few, lists.mpr counted.lists⟩

/-- Whatever is read has handlers in each list, and as many as are told. -/
theorem lossless_of_decode {table : TryTable} {count : UInt16} {cursor after : Cursor}
    (read : decode count cursor = (.ok table.normalized, after)) : table.Lossless := by
  obtain ⟨readable, counted, -⟩ := (gives_readable count).holds _ _ _ read
  refine ⟨fun list member empty => ?_, counted_normalized.mp counted⟩
  refine (readable.lists list.normalized (List.mem_map_of_mem member)).nonempty ?_
  simp [HandlerList.normalized, HandlerList.typed, HandlerList.catchAlls, empty]

/-- A table that is written is read back from what is written, whatever follows it, with catch-alls last, if no handler
list is empty and the counts tell how many lists and handlers there are. Otherwise it is read from nothing at all. -/
theorem rereads_iff_lossless {table : TryTable} {out bytes : Bytes} {count : Nat}
    (few : table.tries.length < UInt16.size) (written : table.write out = (.ok count, out ++ bytes)) :
    (table.Lossless → Reads (decode table.tries.length.toUInt16) bytes table.normalized) ∧
      (¬table.Lossless → ∀ ranges cursor after, decode ranges cursor ≠ (.ok table.normalized, after)) := by
  have encoded := table.encode_normalized.trans (table.writes.encoded_of_run written)
  refine ⟨fun lossless => ?_, fun lossy ranges cursor after read => lossy (lossless_of_decode read)⟩
  exact reads_encode encoded (lossless.readable few) (counted_normalized.mpr lossless.counted)

/-- Two ranges, of which the first has a catch-all in front of its typed handler. -/
def catchAllFirst : TryTable :=
  ⟨[⟨0, 4, 1⟩, ⟨4, 2, 0⟩], .ofList [⟨[.typed (.of 1) 10]⟩, ⟨[.catchAll 14, .typed (.of 2) 12]⟩]⟩

/-- A catch-all in front of a typed handler is read behind it. -/
theorem rereads_catchAllFirst : ∃ bytes : Bytes, catchAllFirst.tries.length < UInt16.size ∧
    catchAllFirst.write [] = (.ok bytes.length, bytes) ∧
      Reads (decode 2) bytes
        ⟨[⟨0, 4, 1⟩, ⟨4, 2, 0⟩],
          .ofList [⟨[.typed (.of 1) 10]⟩, ⟨[.typed (.of 2) 12, .catchAll 14]⟩]⟩ := by
  have encoded : encode catchAllFirst =
      .ok [0, 0, 0, 0, 4, 0, 4, 0, 4, 0, 0, 0, 2, 0, 1, 0, 2, 1, 1, 10, 127, 2, 12, 14] := by decide +kernel
  have written := catchAllFirst.writes.run_ok encoded []
  have lossless : catchAllFirst.Lossless :=
    ⟨by decide, by decide, fun list member => .inl (by revert list; decide)⟩
  exact ⟨_, by decide, written, (rereads_iff_lossless (by decide) written).1 lossless⟩

/-- One range, whose handler list is empty. -/
def emptyList : TryTable := ⟨[⟨0, 1, 0⟩], .ofList [⟨[]⟩]⟩

/-- An empty handler list is written, but what is written ends too early to be read; and where a byte follows, it is
taken for the address of a catch-all. -/
theorem emptyList_lost : ∃ bytes : Bytes, emptyList.tries.length < UInt16.size ∧
    emptyList.write [] = (.ok bytes.length, bytes) ∧
      ¬Reads (decode 1) bytes emptyList.normalized ∧
      (∃ fault after, decode 1 (.ofBytes bytes) = (.error fault, after) ∧ fault.kind = .truncatedInput) ∧
      ∃ after, decode 1 (.ofBytes (bytes ++ [7])) = (.ok ⟨[⟨0, 1, 0⟩], .ofList [⟨[.catchAll 7]⟩]⟩, after) ∧
        after.position = bytes.length + 1 := by
  have encoded : encode emptyList = .ok [0, 0, 0, 0, 1, 0, 1, 0, 1, 0] := by decide +kernel
  have lossy : ¬emptyList.Lossless := fun lossless => lossless.nonempty ⟨[]⟩ List.mem_cons_self rfl
  have starved : ((decode 1 (.ofBytes [0, 0, 0, 0, 1, 0, 1, 0, 1, 0])).1.map fun _ => ()).mapError Fault.kind =
      .error .truncatedInput := by decide +kernel
  have taken : ((decode 1 (.ofBytes [0, 0, 0, 0, 1, 0, 1, 0, 1, 0, 7])).1.map fun table =>
      (table.tries, table.handlers.items, table.handlers.dirty)) = .ok ([⟨0, 1, 0⟩], [⟨[.catchAll 7]⟩], false) := by
    decide +kernel
  have position : (decode 1 (.ofBytes [0, 0, 0, 0, 1, 0, 1, 0, 1, 0, 7])).2.position = 11 := by decide +kernel
  refine ⟨_, by decide, emptyList.writes.run_ok encoded [], fun reads => ?_, ?_, ?_⟩
  · exact lossy (lossless_of_decode (reads (.ofBytes _) ⟨rfl, Nat.zero_le _, List.prefix_rfl⟩))
  · rcases run : decode 1 (.ofBytes [0, 0, 0, 0, 1, 0, 1, 0, 1, 0]) with ⟨fault | table, after⟩
    · rw [run] at starved
      exact ⟨fault, after, rfl, Except.error.inj starved⟩
    · rw [run] at starved
      cases starved
  · change ∃ after, decode 1 (.ofBytes [0, 0, 0, 0, 1, 0, 1, 0, 1, 0, 7]) = _ ∧ _
    rcases run :
      decode 1 (.ofBytes [0, 0, 0, 0, 1, 0, 1, 0, 1, 0, 7]) with ⟨fault | ⟨tries, ⟨items, dirty⟩⟩, after⟩
    · rw [run] at taken
      cases taken
    · rw [run] at taken position
      obtain ⟨rfl, rfl, rfl⟩ : tries = [⟨0, 1, 0⟩] ∧ items = [⟨[.catchAll 7]⟩] ∧ dirty = false := by
        simpa [Except.map] using taken
      exact ⟨after, rfl, position⟩

end TryTable
end DexImage
