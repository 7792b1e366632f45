import DexImage.Proofs.Codec.Headers
import DexImage.Proofs.Reached.Regular
/-! # What decoding yields

Whatever bytes an item is read from, it has a form that is read back: strings that are kept as bytes do not decode,
operations of debug info are told apart by their codes, and handler lists are not empty.
-/

namespace DexImage

namespace Reading

variable {σ α β : Type} {step : Reading σ α} {post : α → Prop}

/-- Whether what a step yields has a property, when it yields something. -/
structure Gives (step : Reading σ α) (post : α → Prop) : Prop where
  holds : ∀ state value after, step state = (.ok value, after) → post value

namespace Gives

protected theorem pure {value : α} (holds : post value) : Gives (pure value : Reading σ α) post := by
  constructor
  intro state other after run
  obtain ⟨rfl, -⟩ := pure_eq_ok.mp run
  exact holds

/-- What an earlier step yields may be used for a later one. -/
protected theorem bind {next : α → Reading σ β} {last : β → Prop} (first : Gives step post)
    (rest : ∀ value, post value → Gives (next value) last) : Gives (step >>= next) last := by
  constructor
  intro state value after run
  obtain ⟨middle, between, run, run'⟩ := bind_eq_ok.mp run
  exact (rest middle (first.holds _ _ _ run)).holds between value after run'

theorem skip {next : α → Reading σ β} {last : β → Prop} (rest : ∀ value, Gives (next value) last) :
    Gives (step >>= next) last := by
  constructor
  intro state value after run
  obtain ⟨middle, between, -, run⟩ := bind_eq_ok.mp run
  exact (rest middle).holds between value after run

protected theorem within (gives : Gives step post) (site : Site) : Gives (within site step) post :=
  ⟨fun state value after run => gives.holds state value after (within_eq_ok.mp run)⟩

theorem fail {cause : Cause} : Gives (Reading.fail cause : Reading σ α) post := by
  constructor
  rintro state value after ⟨⟩

theorem fail_bind {cause : Cause} {next : β → Reading σ α} : Gives (Reading.fail cause >>= next) post := by
  constructor
  rintro state value after ⟨⟩

protected theorem ite {condition : Prop} [Decidable condition] {yes no : Reading σ α} (first : Gives yes post)
    (second : Gives no post) : Gives (if condition then yes else no) post := by
  split_ifs
  · exact first
  · exact second

theorem ofResult {result : Result α} (holds : ∀ value, result = .ok value → post value) :
    Gives (ofResult result : Reading σ α) post :=
  ⟨fun _ value _ run => holds value (ofResult_eq_ok.mp run).1⟩

/-- As many values are collected as were asked for. -/
theorem collect {count : Nat} {step : Nat → Reading σ α} (each : ∀ index, Gives (step index) post) :
    Gives (collect count step) fun values => values.length = count ∧ ∀ value ∈ values, post value := by
  have go (count index : Nat) (found : List α) (good : ∀ value ∈ found, post value) :
      Gives (collect.go step count index found) fun values =>
        values.length = found.length + count ∧ ∀ value ∈ values, post value := by
    induction count generalizing index found with
    | zero =>
      apply Gives.pure
      refine ⟨by rw [List.length_reverse, Nat.add_zero], fun value member => ?_⟩
      exact good value (List.mem_reverse.mp member)
    | succ count ih =>
      apply (each index).bind
      intro value holds
      have rest := ih (index + 1) (value :: found) (List.forall_mem_cons.mpr ⟨holds, good⟩)
      rwa [List.length_cons, Nat.add_assoc, Nat.add_comm 1] at rest
  have whole := go count 0 [] (fun _ member => absurd member List.not_mem_nil)
  rwa [List.length_nil, Nat.zero_add] at whole

end Gives
end Reading

open Reading

namespace StringData

theorem settled_ofPayload {units : UInt32} {payload : Bytes} (free : (0 : UInt8) ∉ payload) :
    (ofPayload units payload).Settled := by
  rcases same : ofPayload units payload with text | ⟨units', payload'⟩
  · trivial
  · have kept : units' = units ∧ payload' = payload := by
      rw [ofPayload] at same
      split at same
      · split_ifs at same
        cases same
        exact ⟨rfl, rfl⟩
      · cases same
        exact ⟨rfl, rfl⟩
    obtain ⟨rfl, rfl⟩ := kept
    exact ⟨free, same⟩

theorem gives_terminated : Gives terminated fun bytes => (0 : UInt8) ∉ bytes := by
  have go (fuel : Nat) (found : Bytes) (free : (0 : UInt8) ∉ found) :
      Gives (terminated.go fuel found) fun bytes => (0 : UInt8) ∉ bytes := by
    induction fuel generalizing found with
    | zero => exact .pure fun member => free (List.mem_reverse.mp member)
    | succ fuel ih =>
      apply Gives.skip
      intro byte
      split_ifs with zero
      · exact .pure fun member => free (List.mem_reverse.mp member)
      · exact ih _ (by simp [Ne.symm zero, free])
  apply Gives.skip
  intro remaining
  exact go _ [] List.not_mem_nil

theorem gives_decode : Gives decode Settled := by
  apply Gives.skip
  intro units
  apply gives_terminated.bind
  intro payload free
  exact .pure (settled_ofPayload free)

end StringData

/-- An index that is written one higher has 31 bits. -/
theorem Decoder.gives_plusOneIndex {target : PoolKind} :
    Gives (Decoder.plusOneIndex : Decoder (IdRef target)) IdRef.Narrow := by
  apply Gives.skip
  intro value
  apply Gives.pure
  intro index present
  rw [IdRef.ofPlusOne] at present
  split_ifs at present with negative
  · cases present
  · obtain rfl := Option.some.inj present
    have nonneg : 0 ≤ value.toInt := by
      rw [Int32.lt_iff_toInt_lt] at negative
      exact Int.not_lt.mp negative
    have small := value.toInt_lt
    have same : (value.toUInt32.toNat : Int) = value.toInt := by
      change (value.toBitVec.toNat : Int) = value.toBitVec.toInt
      have nonneg : 0 ≤ value.toBitVec.toInt := nonneg
      rw [BitVec.toInt_eq_toNat_cond] at nonneg ⊢
      split_ifs at nonneg ⊢ with low
      · rfl
      · have bound := value.toBitVec.isLt
        omega
    omega

namespace DebugOp

/-- A code that ends no program stands for one operation. -/
theorem gives_decodeOperands {code : UInt8} (more : code ≠ Code.endSequence) :
    Gives (decodeOperands code) Readable := by
  unfold decodeOperands
  split_ifs with pc line start extended finish restart prologue epilogue file
  · exact .skip fun delta => .pure trivial
  · exact .skip fun delta => .pure trivial
  · exact .skip fun register => Decoder.gives_plusOneIndex.bind fun name narrow =>
      Decoder.gives_plusOneIndex.bind fun type narrow' => .pure ⟨narrow, narrow'⟩
  · exact .skip fun register => Decoder.gives_plusOneIndex.bind fun name narrow =>
      Decoder.gives_plusOneIndex.bind fun type narrow' =>
        Decoder.gives_plusOneIndex.bind fun signature narrow'' => .pure ⟨narrow, narrow', narrow''⟩
  · exact .skip fun register => .pure trivial
  · exact .skip fun register => .pure trivial
  · exact .pure trivial
  · exact .pure trivial
  · exact Decoder.gives_plusOneIndex.bind fun name narrow => .pure narrow
  · apply Gives.pure
    have number {other : UInt8} (differ : code ≠ other) : code.toNat ≠ other.toNat :=
      fun same => differ (UInt8.toNat_inj.mp same)
    have more : code.toNat ≠ 0 := number more
    have pc : code.toNat ≠ 1 := number pc
    have line : code.toNat ≠ 2 := number line
    have start : code.toNat ≠ 3 := number start
    have extended : code.toNat ≠ 4 := number extended
    have finish : code.toNat ≠ 5 := number finish
    have restart : code.toNat ≠ 6 := number restart
    have prologue : code.toNat ≠ 7 := number prologue
    have epilogue : code.toNat ≠ 8 := number epilogue
    have file : code.toNat ≠ 9 := number file
    refine UInt8.le_iff_toNat_le.mpr ?_
    change 10 ≤ code.toNat
    omega

end DebugOp

theorem DebugInfo.gives_decode : Gives decode Readable := by
  apply Gives.skip
  intro lineStart
  apply Gives.skip
  intro count
  apply (Gives.collect fun _ => Decoder.gives_plusOneIndex).bind
  rintro names ⟨-, names'⟩
  have go (fuel : Nat) (found : List DebugOp) (good : ∀ op ∈ found, op.Readable) :
      Gives (decodeOps.go fuel found) fun ops => ∀ op ∈ ops, op.Readable := by
    induction fuel generalizing found with
    | zero => exact .pure fun op member => good op (List.mem_reverse.mp member)
    | succ fuel ih =>
      apply Gives.skip
      intro code
      split_ifs with last
      · exact .pure fun op member => good op (List.mem_reverse.mp member)
      · apply (DebugOp.gives_decodeOperands last).bind
        intro op readable
        exact ih _ (List.forall_mem_cons.mpr ⟨readable, good⟩)
  have ops : Gives decodeOps fun ops => ∀ op ∈ ops, op.Readable :=
    .skip fun remaining => go _ [] fun _ member => absurd member List.not_mem_nil
  apply ops.bind
  intro ops readable
  exact .pure ⟨names', readable⟩

namespace HandlerList

theorem gives_decode : Gives decode fun list => list.handlers ≠ [] := by
  apply Gives.skip
  intro size
  apply (@Gives.collect _ _ (fun _ => True) size.toInt.natAbs _ fun _ =>
    .skip fun type => .skip fun address => .pure trivial).bind
  rintro typed ⟨length, -⟩
  split_ifs with low
  · apply Gives.skip
    intro address
    exact .pure (by simp)
  · apply Gives.pure
    rintro rfl
    apply low
    rw [List.length_nil] at length
    rw [Int32.le_iff_toInt_le]
    exact Int.le_of_eq (Int.natAbs_eq_zero.mp length.symm)

end HandlerList

namespace TryTable

theorem length_resolveOffsets {offsets : List Nat} {index : Nat} {ranges : List (UInt32 × UInt16 × UInt16)}
    {tries : List TryItem} (success : resolveOffsets offsets index ranges = .ok tries) :
    tries.length = ranges.length := by
  induction ranges generalizing index tries with
  | nil =>
    obtain rfl := Except.ok.inj success
    rfl
  | cons range rest ih =>
    obtain ⟨start, count, offset⟩ := range
    rw [resolveOffsets] at success
    split at success
    · obtain ⟨others, found, rfl⟩ := Result.map_eq_ok.mp success
      rw [List.length_cons, List.length_cons, ih found]
    · cases success

/-- A table is read with as many ranges as its code item counts. -/
theorem gives_decode {count : UInt16} (some : 0 < count) : Gives (decode count) Formed := by
  apply (@Gives.collect _ _ (fun _ => True) count.toNat _ fun _ =>
    .skip fun start => .skip fun length => .skip fun offset => .pure trivial).bind
  rintro ranges ⟨length, -⟩
  apply Gives.skip
  intro base
  apply Gives.skip
  intro listCount
  have list (index : Nat) : Gives (do
      let position ← Decoder.position
      return (position - base, ← Reading.within (.nth "catch handler" index) HandlerList.decode))
      fun found => found.2.handlers ≠ [] :=
    .skip fun position => (HandlerList.gives_decode.within _).bind fun list some => .pure some
  apply (Gives.collect list).bind
  rintro lists ⟨-, nonempty⟩
  apply (Gives.ofResult fun tries success => (length_resolveOffsets success).trans length).bind
  intro tries same
  apply Gives.pure
  refine ⟨?_, ?_, ?_⟩
  · rw [same]
    exact UInt16.lt_iff_toNat_lt.mp some
  · rw [same]
    exact count.toNat_lt
  · intro list member
    obtain ⟨other, present, rfl⟩ := List.mem_map.mp member
    obtain ⟨found, there, rfl⟩ := List.mem_map.mp present
    exact HandlerList.normalized_ne_nil (nonempty found there)

end TryTable

theorem AnnotationItem.gives_decode :
    Gives decode fun item => .ofCode item.visibility.code = item.visibility := by
  apply Gives.skip
  intro code
  apply Gives.skip
  intro body
  exact .pure (by rw [Visibility.code_ofCode])

theorem Decoder.gives_take (count : Nat) : Gives (take count) fun bytes => bytes.length = count := by
  refine ⟨fun cursor value after run => ?_⟩
  obtain ⟨enough, rfl, -⟩ := take_eq_ok.mp run
  simp only [Cursor.window, Array.length_toList, Array.size_extract]
  omega

namespace Header

theorem gives_decodeFields (magic : Vector UInt8 8) :
    Gives (decodeFields magic) fun header => header.magic = magic ∧ header.surplus = [] := by
  iterate 14
    apply Gives.skip
    intro
  exact .pure ⟨rfl, rfl⟩

theorem gives_surplus {header : Header} {version : Nat} (spelled : header.version? = some version)
    (fresh : header.surplus = [])
    (least : header.knownSize ≤ header.headerSize.toNat)
    (contained : header.container.isSome = (containerVersion ≤ version && containerSize ≤ header.headerSize.toNat))
    (strict : Bool) :
    Gives (if header.knownSize < header.headerSize.toNat then do
      if strict then Reading.fail (.headerTooLarge header.headerSize.toNat header.knownSize)
      return { header with surplus := ← Decoder.take (header.headerSize.toNat - header.knownSize) }
    else return header : Decoder Header) Coherent := by
  by_cases more : header.knownSize < header.headerSize.toNat
  · rw [if_pos more]
    refine .ite .fail_bind ((Decoder.gives_take _).bind fun surplus length => .pure ⟨?_, version, spelled, contained⟩)
    change header.headerSize.toNat = header.knownSize + surplus.length
    omega
  · rw [if_neg more]
    refine .pure ⟨?_, version, spelled, contained⟩
    rw [fresh, List.length_nil]
    omega

/-- A header that is read is coherent. -/
theorem gives_decode (strict : Bool) : Gives (decode strict) Coherent := by
  apply Gives.skip
  intro cursor
  apply Gives.ite .fail_bind
  apply Gives.skip
  intro magic
  split
  · rename_i version spelled
    apply Gives.ite .fail_bind
    refine .ite (.skip fun _ => ?_) (.ite (.skip fun _ => ?_) .fail_bind)
    all_goals
      apply (gives_decodeFields magic).bind
      rintro header ⟨rfl, fresh⟩
      by_cases small : header.headerSize.toNat < baseSize
      · rw [if_pos small]
        exact .fail_bind
      rw [if_neg small]
      by_cases contained : (containerVersion ≤ version && containerSize ≤ header.headerSize.toNat) = true
      · rw [if_pos contained]
        refine .skip fun size => .skip fun headerOffset => ?_
        rw [pure_bind]
        simp only [Bool.and_eq_true, decide_eq_true_eq] at contained
        exact @gives_surplus { header with container := some ⟨size, headerOffset⟩ } version spelled fresh contained.2
          (by simp [contained]) _
      · rw [if_neg contained, pure_bind]
        exact @gives_surplus { header with container := none } version spelled fresh (Nat.not_lt.mp small)
          (Bool.eq_false_iff.mpr contained).symm _
  · exact .fail

end Header
end DexImage
