import DexImage.Proofs.Loading.Code
import DexImage.Proofs.Reached.Decoding
/-! # What decoding yields is written in one way

An item that has been read from any bytes has lists that fit the counts in front of them, since such a count has been
read, and values with the widths that they are written with. Its handler lists are in order.
-/

namespace DexImage

open Reading Loading

theorem Reading.Gives.and {σ α : Type} {step : Reading σ α} {post post' : α → Prop} (first : Gives step post)
    (second : Gives step post') : Gives step fun value => post value ∧ post' value :=
  ⟨fun state value after run => ⟨first.holds state value after run, second.holds state value after run⟩⟩

theorem Reading.Gives.weaken {σ α : Type} {step : Reading σ α} {post post' : α → Prop} (gives : Gives step post)
    (implies : ∀ value, post value → post' value) : Gives step post' :=
  ⟨fun state value after run => implies value (gives.holds state value after run)⟩

theorem Reading.Gives.ofDecoder {α : Type} {step : Decoder α} {post : α → Prop} (gives : Gives step post) :
    Gives (Loading.ofDecoder step) post := by
  refine ⟨fun loader value after run => ?_⟩
  obtain ⟨same, -⟩ := Prod.mk.inj run
  exact gives.holds loader.cursor value (step loader.cursor).2 (Prod.ext same rfl)

/-- What holds of a value whatever it is read from. -/
theorem Reading.Gives.trivial {σ α : Type} (step : Reading σ α) : Gives step fun _ => True :=
  ⟨fun _ _ _ _ => True.intro⟩

theorem TypeList.gives_counted : Gives decode Counted := by
  apply Gives.skip
  intro count
  apply (Gives.collect fun _ => .trivial _).bind
  rintro types ⟨length, -⟩
  apply Gives.pure
  rw [Counted, length]
  exact count.toNat_lt

namespace Scalar

/-- Extending a payload by its sign leaves a number that has the width of the payload. -/
private theorem signedWidth_bmod {raw width : Nat} (pos : 0 < width) :
    signedWidth (Int.bmod raw (Bytes.capacity width)) ≤ width := by
  obtain ⟨width, rfl⟩ := Nat.exists_eq_succ_of_ne_zero (Nat.ne_of_gt pos)
  have capacity : 0 < Bytes.capacity (width + 1) := by
    rw [Bytes.capacity_eq]
    exact Nat.pow_pos (by decide)
  have scale : Bytes.capacity (width + 1) = 256 * 256 ^ width := by rw [Bytes.capacity_eq, Nat.pow_succ, Nat.mul_comm]
  have lower := Int.le_bmod (x := raw) capacity
  have upper := Int.bmod_lt (x := raw) capacity
  have cast : ((256 ^ width : Nat) : Int) = 256 ^ width := by simp
  rw [Nat.succ_eq_add_one, signedWidth_le_iff, ← cast]
  rw [scale] at lower upper ⊢
  omega

/-- Zero bytes at the low end are dropped. -/
private theorem rightWidth_mul {raw width size : Nat} (pos : 0 < width) (within : width ≤ size) :
    rightWidth size (raw * Bytes.capacity (size - width)) ≤ width := by
  obtain ⟨more, rfl⟩ := Nat.exists_eq_add_of_le within
  rw [Nat.add_sub_cancel_left]
  induction more with
  | zero => exact rightWidth_le pos
  | succ more ih =>
    obtain ⟨width, rfl⟩ := Nat.exists_eq_succ_of_ne_zero (Nat.ne_of_gt pos)
    have size : width + 1 + (more + 1) = width + more + 2 := by omega
    have shift : raw * Bytes.capacity (more + 1) = 256 * (raw * Bytes.capacity more) := by
      rw [Bytes.capacity]
      exact Nat.mul_left_comm ..
    rw [size, shift, rightWidth, if_pos (Nat.mul_mod_right ..), Nat.mul_div_cancel_left _ (by decide)]
    have rest := ih (Nat.le_add_right ..)
    rwa [Nat.succ_add] at rest

private theorem unsignedWidth_mod {raw width limit : Nat} (pos : 0 < width) (bound : raw < Bytes.capacity width) :
    unsignedWidth (raw % limit) ≤ width := by
  obtain ⟨width, rfl⟩ := Nat.exists_eq_succ_of_ne_zero (Nat.ne_of_gt pos)
  exact unsignedWidth_le_iff.mpr (Nat.lt_of_le_of_lt (Nat.mod_le ..) bound)

theorem mul_capacity_lt {raw width size : Nat} (within : width ≤ size) (bound : raw < Bytes.capacity width) :
    raw * Bytes.capacity (size - width) < Bytes.capacity size := by
  have split : Bytes.capacity size = Bytes.capacity width * Bytes.capacity (size - width) := by
    rw [← Bytes.capacity_add, Nat.add_sub_cancel' within]
  have pos : 0 < Bytes.capacity (size - width) := by
    rw [Bytes.capacity_eq]
    exact Nat.pow_pos (by decide)
  rw [split]
  exact Nat.mul_lt_mul_of_pos_right bound pos

/-- A payload spells a scalar of its kind that needs no more width. -/
theorem leastWidth_ofPayload {kind : ValueKind} {width raw : Nat} (pos : 0 < width) (within : width ≤ kind.maxWidth)
    (bound : raw < Bytes.capacity width) :
    (ofPayload kind width raw).kind = kind ∧ (ofPayload kind width raw).leastWidth ≤ width := by
  have signed := @signedWidth_bmod raw width pos
  have unsigned (limit : Nat) := @unsignedWidth_mod raw width limit pos bound
  have word : unsignedWidth raw.toUInt32.toNat ≤ width := by
    rw [Nat.toUInt32_eq, UInt32.toNat_ofNat']
    exact unsigned _
  cases kind with
  | byte => exact ⟨rfl, pos⟩
  | short =>
    refine ⟨rfl, ?_⟩
    obtain ⟨lower, upper⟩ := signedWidth_le_iff.mp (Nat.le_trans signed within)
    change signedWidth (Int16.ofInt _).toInt ≤ width
    rwa [Int16.toInt_ofInt_of_le lower upper]
  | int =>
    refine ⟨rfl, ?_⟩
    obtain ⟨lower, upper⟩ := signedWidth_le_iff.mp (Nat.le_trans signed within)
    change signedWidth (Int32.ofInt _).toInt ≤ width
    rwa [Int32.toInt_ofInt_of_le lower upper]
  | long =>
    refine ⟨rfl, ?_⟩
    obtain ⟨lower, upper⟩ := signedWidth_le_iff.mp (Nat.le_trans signed within)
    change signedWidth (Int64.ofInt _).toInt ≤ width
    rwa [Int64.toInt_ofInt_of_le lower upper]
  | char =>
    refine ⟨rfl, ?_⟩
    change unsignedWidth raw.toUInt16.toNat ≤ width
    rw [Nat.toUInt16_eq, UInt16.toNat_ofNat']
    exact unsigned _
  | float =>
    refine ⟨rfl, ?_⟩
    have small : raw * Bytes.capacity (4 - width) < 2 ^ 32 := mul_capacity_lt within bound
    change rightWidth 4 (raw * Bytes.capacity (4 - width)).toUInt32.toNat ≤ width
    rw [toNat_toUInt32_of_lt small]
    exact rightWidth_mul pos within
  | double =>
    refine ⟨rfl, ?_⟩
    have small : raw * Bytes.capacity (8 - width) < 2 ^ 64 := mul_capacity_lt within bound
    change rightWidth 8 (raw * Bytes.capacity (8 - width)).toUInt64.toNat ≤ width
    rw [Nat.toUInt64_eq, UInt64.toNat_ofNat', Nat.mod_eq_of_lt small]
    exact rightWidth_mul pos within
  | methodType | methodHandle | string | type | field | method | enum => exact ⟨rfl, word⟩
  | array | annotationBody | null | boolean => exact absurd (Nat.lt_of_lt_of_le pos within) (Nat.lt_irrefl 0)

end Scalar

theorem Bytes.toNatLittle_lt (bytes : Bytes) : bytes.toNatLittle < capacity bytes.length := by
  induction bytes with
  | nil => exact Nat.one_pos
  | cons byte rest ih =>
    have low := byte.toNat_lt
    rw [toNatLittle, List.length_cons, capacity]
    omega

namespace EncodedValue

/-- Whether a value is one that bytes spell: its lists fit the counts in front of them, and its widths are those that it
is written with. -/
structure Spelled (value : EncodedValue) : Prop where
  counted : value.Counted
  settled : value.effective = value

theorem spelled_list {values : List EncodedValue} (each : ∀ value ∈ values, value.Spelled) :
    CountedList values ∧ effectiveList values = values := by
  induction values with
  | nil => exact ⟨trivial, rfl⟩
  | cons value rest ih =>
    obtain ⟨head, tail⟩ := List.forall_mem_cons.mp each
    obtain ⟨counted, settled⟩ := ih tail
    rw [CountedList, effectiveList, head.settled, settled]
    exact ⟨⟨head.counted, counted⟩, rfl⟩

theorem spelled_elements {elements : List (IdRef .stringId × EncodedValue)}
    (each : ∀ element ∈ elements, element.2.Spelled) :
    CountedElements elements ∧ effectiveElements elements = elements := by
  induction elements with
  | nil => exact ⟨trivial, rfl⟩
  | cons element rest ih =>
    obtain ⟨head, tail⟩ := List.forall_mem_cons.mp each
    obtain ⟨counted, settled⟩ := ih tail
    rw [CountedElements, effectiveElements, head.settled, settled]
    exact ⟨⟨head.counted, counted⟩, rfl⟩

/-- A counted run of named values. -/
theorem gives_elements {step : Decoder EncodedValue} (each : Gives step Spelled) (count : Nat) :
    Gives (Reading.collect count fun _ => do
      let name ← Decoder.uleb128
      return (.of name, ← step)) fun elements : List (IdRef .stringId × EncodedValue) =>
        elements.length = count ∧ ∀ element ∈ elements, element.2.Spelled :=
  Gives.collect fun _ => .skip fun _ => each.bind fun _ spelled => .pure spelled

theorem gives_scalar (kind : ValueKind) (position width : Nat) (pos : 0 < width) :
    Gives (do
      if kind.maxWidth < width then
        Reading.fail (.payloadTooWide kind position width)
      else
        let payload ← Decoder.take width
        return scalar (Scalar.ofPayload kind width payload.toNatLittle) width) Spelled := by
  split_ifs with wide
  · exact .fail
  · apply (Decoder.gives_take width).bind
    intro payload length
    have within := Nat.not_lt.mp wide
    have bound : payload.toNatLittle < Bytes.capacity width := length ▸ payload.toNatLittle_lt
    obtain ⟨same, least⟩ := Scalar.leastWidth_ofPayload pos within bound
    refine .pure ⟨trivial, ?_⟩
    simp only [effective, EncodedValue.width, same]
    rw [Nat.max_eq_left least, Nat.min_eq_left within]

/-- Whatever bytes a value is read from, they spell it. -/
theorem gives_decodeWithin (fuel : Nat) : Gives (decodeWithin fuel) Spelled := by
  induction fuel with
  | zero => exact .skip fun _ => .pure ⟨trivial, rfl⟩
  | succ fuel ih =>
    have body (position : Nat) (kind : ValueKind) (argument : Nat) :
        Gives (decodeBody fuel position kind argument) Spelled := by
      cases kind with
      | array =>
        refine .skip fun count => (Gives.collect fun _ => ih).bind ?_
        rintro elements ⟨length, each⟩
        obtain ⟨counted, settled⟩ := spelled_list each
        refine .pure ⟨⟨length ▸ count.toNat_lt, counted⟩, ?_⟩
        rw [effective, settled]
      | annotationBody =>
        refine .skip fun type => .skip fun count => (gives_elements ih count.toNat).bind ?_
        rintro elements ⟨length, each⟩
        obtain ⟨counted, settled⟩ := spelled_elements each
        refine .pure ⟨⟨length ▸ count.toNat_lt, counted⟩, ?_⟩
        rw [effective, settled]
      | null => exact .pure ⟨trivial, rfl⟩
      | boolean => exact .pure ⟨trivial, rfl⟩
      | _ => exact gives_scalar _ position _ (Nat.succ_pos argument)
    rw [decodeWithin]
    refine .skip fun position => .skip fun byte => ?_
    dsimp only
    split
    · rename_i kind _
      have reads := body position kind (byte.toNat / 32)
      cases kind <;> exact reads
    · exact .fail

theorem gives_decode : Gives decode Spelled := .skip gives_decodeWithin

end EncodedValue

theorem AnnotationBody.gives_spelled : Gives decode fun body => body.Counted ∧ body.effective = body := by
  refine .skip fun type => .skip fun count =>
    (EncodedValue.gives_elements EncodedValue.gives_decode count.toNat).bind ?_
  rintro elements ⟨length, each⟩
  obtain ⟨counted, settled⟩ := EncodedValue.spelled_elements each
  exact .pure ⟨⟨length ▸ count.toNat_lt, counted⟩, congrArg (AnnotationBody.mk _) settled⟩

theorem AnnotationItem.gives_spelled : Gives decode fun item => item.body.Counted ∧ item.effective = item := by
  refine .skip fun code => AnnotationBody.gives_spelled.bind ?_
  rintro body ⟨counted, settled⟩
  exact .pure ⟨counted, congrArg (AnnotationItem.mk _) settled⟩

theorem EncodedArray.gives_spelled : Gives decode fun array => array.Counted ∧ array.effective = array := by
  refine .skip fun count => (Gives.collect fun _ => EncodedValue.gives_decode.within _).bind ?_
  rintro values ⟨length, each⟩
  refine .pure ⟨⟨?_, ?_⟩, ?_⟩
  · change (values.map some).length < UInt32.size
    rw [List.length_map, length]
    exact count.toNat_lt
  · intro slot member
    obtain ⟨value, there, rfl⟩ := List.mem_map.mp member
    exact (each value there).counted
  · simp only [effective, TrackedList.ofList, List.map_map]
    refine congrArg (fun items => EncodedArray.mk ⟨items, false⟩) (List.map_congr_left fun value member => ?_)
    exact congrArg some (each value member).settled

theorem DebugInfo.gives_counted : Gives decode Counted := by
  refine .skip fun lineStart => .skip fun count => (Gives.collect fun _ => .trivial _).bind ?_
  rintro names ⟨length, -⟩
  refine .skip fun ops => .pure ?_
  rw [Counted, length]
  exact count.toNat_lt

/-- Entries for unknown kinds of section are passed over. -/
theorem MapList.gives_counted : Gives decode fun map => map.entries.length < UInt32.size := by
  refine .skip fun start => .skip fun count => .skip fun remaining => ?_
  refine .ite .fail_bind ((Gives.collect fun _ => .trivial _).bind ?_)
  rintro entries ⟨length, -⟩
  apply Gives.pure
  have fewer := List.length_filterMap_le id entries
  rw [length] at fewer
  exact Nat.lt_of_le_of_lt fewer count.toNat_lt

namespace HandlerList

/-- Typed handlers in order, with a catch-all last or not, are in order. -/
theorem typed_append {typed last : List ExceptionHandler} (each : ∀ handler ∈ typed, handler.isCatchAll = false)
    (all : ∀ handler ∈ last, handler.isCatchAll = true) :
    (HandlerList.mk (typed ++ last)).typed = typed ∧ (HandlerList.mk (typed ++ last)).catchAlls = last := by
  constructor
  · rw [HandlerList.typed, List.filter_append, List.filter_eq_self.mpr, List.filter_eq_nil_iff.mpr, List.append_nil]
    · intro handler member
      simp [all handler member]
    · intro handler member
      simp [each handler member]
  · rw [catchAlls, List.filter_append, List.filter_eq_nil_iff.mpr, List.filter_eq_self.mpr, List.nil_append]
    · exact all
    · intro handler member
      simp [each handler member]

theorem gives_readable : Gives decode fun list => list.Readable ∧ list.Counted := by
  apply Gives.skip
  intro size
  have lower := size.le_toInt
  have upper := size.toInt_lt
  apply (@Gives.collect _ _ (fun handler => handler.isCatchAll = false) size.toInt.natAbs _ fun _ =>
    .skip fun type => .skip fun address => .pure rfl).bind
  rintro typed ⟨length, each⟩
  split_ifs with low
  · refine .skip fun address => .pure ?_
    obtain ⟨same, last⟩ := @typed_append typed [.catchAll address] each (by simp [ExceptionHandler.isCatchAll])
    refine ⟨⟨by rw [normalized, same, last], by simp⟩, ?_⟩
    have some : (HandlerList.mk (typed ++ [.catchAll address])).catchAll?.isSome := by simp [catchAll?, last]
    rw [Counted, same, length]
    simp only [some, and_true]
    omega
  · have positive : 0 < size.toInt := by
      rw [Int32.le_iff_toInt_le] at low
      exact Int.not_le.mp low
    obtain ⟨same, last⟩ := @typed_append typed [] each (by simp)
    rw [List.append_nil] at same last
    refine .pure ⟨⟨by rw [normalized, same, last, List.append_nil], ?_⟩, ?_⟩
    · rintro rfl
      rw [List.length_nil] at length
      omega
    · rw [Counted, same, length]
      omega

end HandlerList

namespace TryTable

theorem gives_readable (count : UInt16) : Gives (decode count) fun table =>
    table.Readable ∧ table.Counted ∧ table.tries.length = count.toNat ∧ table.handlers.dirty = false := by
  apply (@Gives.collect _ _ (fun _ => True) count.toNat _ fun _ => .trivial _).bind
  rintro ranges ⟨length, -⟩
  refine .skip fun base => .skip fun listCount => ?_
  have list (index : Nat) : Gives (do
      let position ← Decoder.position
      return (position - base, ← Reading.within (.nth "catch handler" index) HandlerList.decode))
      fun found => found.2.Readable ∧ found.2.Counted :=
    .skip fun position => (HandlerList.gives_readable.within _).bind fun list good => .pure good
  apply (Gives.collect list).bind
  rintro lists ⟨listed, good⟩
  apply (Gives.ofResult fun tries success => (length_resolveOffsets success).trans length).bind
  intro tries same
  have ordered : (lists.map Prod.snd).map HandlerList.normalized = lists.map Prod.snd := by
    rw [List.map_map]
    exact List.map_congr_left fun found member => (good found member).1.ordered
  have each (list : HandlerList) (member : list ∈ (lists.map Prod.snd).map HandlerList.normalized) :
      list.Readable ∧ list.Counted := by
    rw [ordered] at member
    obtain ⟨found, there, rfl⟩ := List.mem_map.mp member
    exact good found there
  refine .pure ⟨⟨?_, fun list member => (each list member).1⟩,
    ⟨?_, fun list member => (each list member).2⟩, same, rfl⟩
  · rw [same]
    exact count.toNat_lt
  · change ((lists.map Prod.snd).map HandlerList.normalized).length < UInt32.size
    rw [List.length_map, List.length_map, listed]
    exact listCount.toNat_lt

end TryTable

namespace CodeItem

theorem gives_decodeUnits (start : Nat) (count : UInt32) :
    Gives (decodeUnits start count) fun units => units.length = count.toNat :=
  .skip fun _ => .ite .fail ((Gives.collect fun _ => .trivial _).weaken fun _ counted => counted.1)

/-- A code item that is read is as one that has just been read. -/
theorem gives_load : Gives load fun code => code.Readable ∧ code.Counted ∧ code.reread = code := by
  refine .skip fun start => .skip fun registers => .skip fun ins => .skip fun outs => .skip fun triesSize => ?_
  refine .skip fun loader => .ite .fail_bind ?_
  refine .skip fun debugOffset => .skip fun unitCount => (gives_decodeUnits start unitCount).ofDecoder.bind ?_
  intro units length
  have finish (found : Option TryTable) (good : ∀ table, found = some table →
      0 < table.tries.length ∧ table.Readable ∧ table.Counted ∧ table.handlers.dirty = false) : Gives (do
        let debugInfo ← Reading.within (.itemAt .code start)
          (refAt .debugInfo (ofDecoder DebugInfo.decode) debugOffset)
        return ⟨registers, ins, outs, debugInfo, .ofUnits units, found⟩)
        fun code : CodeItem => code.Readable ∧ code.Counted ∧ code.reread = code := by
    refine .skip fun debugInfo => .pure ⟨?_, ?_, ?_⟩
    · exact fun table present => ⟨(good table present).1, (good table present).2.1⟩
    · exact ⟨length ▸ unitCount.toNat_lt, fun table present => (good table present).2.2.1⟩
    · cases found with
      | none => rfl
      | some table =>
        obtain ⟨-, -, -, clean⟩ := good table rfl
        obtain ⟨tries, items, dirty⟩ := table
        obtain rfl := clean
        rfl
  have unwritten : Gives (pure none : Loading (Option TryTable)) fun found => ∀ table, found = some table →
      0 < table.tries.length ∧ table.Readable ∧ table.Counted ∧ table.handlers.dirty = false := by
    apply Gives.pure
    rintro _ ⟨⟩
  have table (written : 0 < triesSize) :
      Gives (some <$> Reading.within (.tryTable start) (ofDecoder (TryTable.decode triesSize))) fun found =>
        ∀ table, found = some table →
          0 < table.tries.length ∧ table.Readable ∧ table.Counted ∧ table.handlers.dirty = false := by
    refine ((TryTable.gives_readable triesSize).ofDecoder.within _).bind ?_
    rintro table ⟨readable, counted, same, clean⟩
    apply Gives.pure
    rintro _ ⟨⟩
    exact ⟨same ▸ UInt16.lt_iff_toNat_lt.mp written, readable, counted, clean⟩
  dsimp only
  split_ifs with padded written written
  · exact .skip fun _ => (table written).bind finish
  · exact .skip fun _ => unwritten.bind finish
  · exact (table written).bind finish
  · exact unwritten.bind finish

end CodeItem

theorem DefinedField.length_ofDifferences (previous : UInt32) (pairs : List (UInt32 × UInt32)) :
    (ofDifferences previous pairs).length = pairs.length := by
  induction pairs generalizing previous with
  | nil => rfl
  | cons pair rest ih => exact congrArg Nat.succ (ih _)

theorem DefinedMethod.length_ofDifferences (previous : UInt32) (triples : List (UInt32 × UInt32 × DataRef .code)) :
    (ofDifferences previous triples).length = triples.length := by
  induction triples generalizing previous with
  | nil => rfl
  | cons triple rest ih => exact congrArg Nat.succ (ih _)

theorem DefinedField.gives_decodeList (noun : String) (count : UInt32) :
    Gives (decodeList noun count) fun entries => entries.length < UInt32.size := by
  refine (Gives.collect fun _ => .trivial _).bind ?_
  rintro pairs ⟨length, -⟩
  apply Gives.pure
  rw [length_ofDifferences, length]
  exact count.toNat_lt

theorem DefinedMethod.gives_loadList (noun : String) (count : UInt32) :
    Gives (loadList noun count) fun entries => entries.length < UInt32.size := by
  refine (Gives.collect fun _ => .trivial _).bind ?_
  rintro triples ⟨length, -⟩
  apply Gives.pure
  rw [length_ofDifferences, length]
  exact count.toNat_lt

theorem ClassData.gives_counted : Gives load Counted := by
  refine .skip fun staticCount => .skip fun instanceCount => .skip fun directCount => .skip fun virtualCount => ?_
  refine (DefinedField.gives_decodeList _ staticCount).ofDecoder.bind fun statics staticsFew => ?_
  refine (DefinedField.gives_decodeList _ instanceCount).ofDecoder.bind fun instances instancesFew => ?_
  refine (DefinedMethod.gives_loadList _ directCount).bind fun direct directFew => ?_
  refine (DefinedMethod.gives_loadList _ virtualCount).bind fun virtual virtualFew => ?_
  exact .pure ⟨staticsFew, instancesFew, directFew, virtualFew⟩

end DexImage
