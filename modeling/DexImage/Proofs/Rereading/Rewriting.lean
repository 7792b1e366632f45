import DexImage.Proofs.Layout.Agreement
import DexImage.Proofs.Layout.Digests
import DexImage.Proofs.Rereading.Moved
/-! # Writing the same items again

Where items are laid out depends on the items alone and not on the offsets that their references have known before
(`Layout.plan_again`), and the image of a layout depends on what the items are encoded as (`Layout.emit_again`). Items
that are the same where they have been written are thus written as the same image (`Image.Written.write_of_meet`).
-/

namespace DexImage

/-- The offsets of the items of some sections. -/
def OffsetTable.finderIn (offsets : OffsetTable) (kinds : List SectionKind) : Finder := fun slot =>
  if slot.kind.toSection ∈ kinds then offsets.finder slot else none

/-- Whether items are the same where their references are told some offsets. -/
def Pools.Meet (find : Finder) (one other : Pools) : Prop :=
  ∀ kind, (other.pool kind).items.map (locate find) = (one.pool kind).items.map (locate find)

namespace Pools.Meet

variable {find : Finder} {one other : Pools} (meet : Meet find one other)
include meet

theorem size_eq (kind : PoolKind) : (other.pool kind).size = (one.pool kind).size := by
  have length := congrArg List.length (meet kind)
  rwa [List.length_map, List.length_map, Pool.length_items, Pool.length_items] at length

theorem itemCount_eq (kind : SectionKind) : Layout.itemCount other kind = Layout.itemCount one kind := by
  have size : other.size kind = one.size kind := by
    rw [Pools.size, Pools.size]
    cases kind.pool? with
    | none => rfl
    | some pool => exact meet.size_eq pool
  cases kind <;> simp only [Layout.itemCount, size]

/-- Items take as many bytes, unless class data would be told where its code is. -/
theorem sizesOf_eq {kind : SectionKind} (steady : kind = .classData →
    ∀ slot : Slot, slot.kind = .code → find slot = none) :
    Layout.sizesOf other kind = Layout.sizesOf one kind := by
  have count : other.size kind = one.size kind := by
    rw [Pools.size, Pools.size]
    cases kind.pool? with
    | none => rfl
    | some pool => exact meet.size_eq pool
  rw [Layout.sizesOf, Layout.sizesOf, count, Pools.itemSizes, Pools.itemSizes]
  rcases found : kind.pool? with _ | pool
  · rfl
  · have told (pools : Pools) : (pools.pool pool).items.map encodedSize =
        ((pools.pool pool).items.map (locate find)).map encodedSize := by
      rw [List.map_map]
      refine List.map_congr_left fun item _ => (encodedSize_locate find item ?_).symm
      rintro rfl
      exact steady (by cases kind <;> cases found; rfl)
    simp only [told, meet pool]

theorem slots_eq : other.slots = one.slots := by
  have told (pools : Pools) (kind : PoolKind) : (pools.pool kind).items.flatMap DexImage.slots =
      ((pools.pool kind).items.map (locate find)).flatMap DexImage.slots := by
    rw [List.flatMap_map]
    refine List.flatMap_congr fun item _ => ?_
    rw [DexImage.slots_eq, DexImage.slots_eq, (alike_locate find item).slots]
  simp only [Pools.slots, told, meet _]

end Pools.Meet

/-- Items that are alike but for edit marks are encoded as the same bytes. -/
theorem Pools.encodeItem_congr {one other : Pools}
    (alike : ∀ kind, (other.pool kind).items.map untouched = (one.pool kind).items.map untouched) (kind : SectionKind)
    (index : UInt32) : other.encodeItem kind index = one.encodeItem kind index := by
  rw [encodeItem, encodeItem]
  cases kind.pool? with
  | none => rfl
  | some pool =>
    have found (pools : Pools) : (pools.get? pool index).map untouched =
        ((pools.pool pool).items.map untouched)[index.toNat]? := by
      simp [Pools.get?, Pool.get?, Pool.items, Function.comp_def]
    have same := (found other).trans ((congrArg (·[index.toNat]?) (alike pool)).trans (found one).symm)
    have size := congrArg List.length (alike pool)
    rw [List.length_map, List.length_map, Pool.length_items, Pool.length_items] at size
    rcases here : one.get? pool index with _ | item
    · rw [here, Option.map_none, Option.map_eq_none_iff] at same
      simp only [here, same, size]
    · rw [here, Option.map_some] at same
      obtain ⟨copy, there, same⟩ := Option.map_eq_some_iff.mp same
      have encoded : encode copy = encode item := by rw [← encode_untouched copy, same, encode_untouched]
      simp only [here, there, encoded]

namespace Layout

variable {header header' : Header} {kind : SectionKind} {before after : Planning} {pools : Pools}

/-- Of the header only its size matters. -/
theorem planSections_congr (size : encodedSize header' = encodedSize header) (kinds : List SectionKind) :
    planSections header' kinds = planSections header kinds := by
  have place (kind : SectionKind) (start : Nat) : placeSection header' kind start = placeSection header kind start := by
    cases kind with
    | header => rw [placeSection, placeSection, size]
    | _ => rfl
  induction kinds with
  | nil => rfl
  | cons kind rest ih =>
    rw [planSections, planSections, ih]
    simp only [planSection, place]

/-- Items of the same sizes are placed in the same way. -/
private theorem placeSection_again {start : Nat} (success : placeSection header kind start before = (.ok (), after))
    (sizes : sizesOf pools kind = sizesOf before.pools kind) (slots : pools.slots = before.pools.slots) :
    ∃ pools', placeSection header kind start { before with pools } = (.ok (), { after with pools := pools' }) := by
  rcases cases_section kind with rfl | rfl | ⟨notHeader, notMap⟩
  · obtain ⟨-, rfl⟩ := Prod.mk.inj (placeSection_header.symm.trans success)
    exact ⟨pools, rfl⟩
  · obtain ⟨-, rfl⟩ := Prod.mk.inj (placeSection_mapList.symm.trans success)
    exact ⟨pools, rfl⟩
  rcases placed : placeItems (alignmentOf kind) start (sizesOf before.pools kind) #[] with fault | ⟨offsets, position⟩
  · rw [placeSection_of_error notHeader notMap placed] at success
    cases success
  rw [placeSection_of_ok notHeader notMap placed] at success
  obtain ⟨told, rfl⟩ := Prod.mk.inj success
  rw [← sizes] at placed
  refine ⟨_,
    (@placeSection_of_ok header kind start position { before with pools } offsets notHeader notMap placed).trans
    (Prod.ext ?_ rfl)⟩
  have same := @fault_toldPools_congr kind (withRow kind offsets position before) pools slots
  exact (congrArg (Option.elim · _ _) same).trans told

private theorem planSection_again (success : planSection header kind before = (.ok (), after))
    (count : itemCount pools kind = itemCount before.pools kind)
    (sizes : sizesOf pools kind = sizesOf before.pools kind) (slots : pools.slots = before.pools.slots) :
    ∃ pools', planSection header kind { before with pools } = (.ok (), { after with pools := pools' }) := by
  rcases planSection_eq_ok.mp success with ⟨none, rfl⟩ | ⟨some, start, placed, found, placing, rfl⟩
  · exact ⟨pools, planSection_eq_ok.mpr (.inl ⟨count.trans none, rfl⟩)⟩
  obtain ⟨pools', again⟩ := placeSection_again placing sizes slots
  refine ⟨pools',
    planSection_eq_ok.mpr (.inr ⟨fun none => some (count.symm.trans none), start, _, found, again, ?_⟩)⟩
  simp only [withEntry, count]

/-- The offsets of the items of a section are those of its pool. -/
theorem finderIn_singleton {kind : SectionKind} {target : PoolKind}
    (home : target.toSection = kind) (offsets : OffsetTable) :
    offsets.finderIn [kind] = finder offsets target := by
  subst home
  funext slot
  rw [OffsetTable.finderIn, finder]
  by_cases same : slot.kind = target
  · subst same
    rw [if_pos (List.mem_singleton_self _), if_pos rfl]
    rfl
  · rw [if_neg same, if_neg fun member => same (PoolKind.toSection_injective (List.mem_singleton.mp member))]

theorem finderIn_of_untracked {kind : SectionKind} (untracked : isTracked kind ≠ true)
    (offsets : OffsetTable) {slot : Slot}
    (data : slot.kind.toSection.isIdTable = false) : offsets.finderIn [kind] slot = none := by
  rw [OffsetTable.finderIn, if_neg]
  intro member
  obtain rfl := List.mem_singleton.mp member
  revert data untracked
  cases slot.kind <;> decide

/-- What placing a section does to items is to tell their references where the items of the section lie. -/
theorem PlannedSection.map_locate (section' : PlannedSection header kind before after)
    (fresh : before.layout.offsets.row? kind = none) (find : Finder) (pool : PoolKind) :
    (after.pools.pool pool).items.map (locate find) =
      (before.pools.pool pool).items.map (locate (find.or (after.layout.offsets.finderIn [kind]))) := by
  rcases section'.telling with ⟨none, same⟩ | ⟨-, -, target, rfl, located⟩
  · have untold (slot : Slot) (data : slot.kind.toSection.isIdTable = false) :
        after.layout.offsets.finderIn [kind] slot = Option.none := by
      by_cases tracked : isTracked kind = true
      · cases section' with
        | empty =>
          rw [OffsetTable.finderIn]
          split_ifs with same
          · obtain rfl := List.mem_singleton.mp same
            cases slot.index <;> simp [OffsetTable.finder, OffsetTable.offset?, fresh]
          · rfl
        | placed _ some => exact absurd (none tracked) some
      · exact finderIn_of_untracked tracked _ data
    rw [same]
    refine List.map_congr_left fun item _ => locate_congr item fun slot data => ?_
    rw [Finder.or, untold slot data, Option.or_none]
  · rw [located.pools, Pool.items_map, List.map_map, finderIn_singleton rfl]
    exact List.map_congr_left fun item _ => locate_locate item

/-- What sections are told in turn they can be told together. -/
theorem finderIn_cons {kind : SectionKind} {earlier offsets : OffsetTable} (row : offsets.row? kind = earlier.row? kind)
    (rest : List SectionKind) :
    (offsets.finderIn rest).or (earlier.finderIn [kind]) = offsets.finderIn (kind :: rest) := by
  funext slot
  simp only [Finder.or, OffsetTable.finderIn, List.mem_cons, List.not_mem_nil, or_false]
  by_cases home : slot.kind.toSection = kind
  · have here : earlier.finder slot = offsets.finder slot := by
      simp only [OffsetTable.finder, home]
      cases slot.index with
      | none => rfl
      | some index => simp only [Option.bind_some, OffsetTable.offset?, row]
    rw [if_pos home, if_pos (Or.inl home), here]
    by_cases later : slot.kind.toSection ∈ rest <;> simp [later]
  · by_cases later : slot.kind.toSection ∈ rest <;> simp [home, later]

/-- Items that would be the same still would when a section of theirs has been placed. -/
theorem PlannedSection.meet {before' after' : Planning} {offsets : OffsetTable} {rest : List SectionKind}
    (one : PlannedSection header kind before after) (other : PlannedSection header kind before' after')
    (fresh : before.layout.offsets.row? kind = none)
    (same : before'.layout = before.layout) (same' : after'.layout = after.layout)
    (row : offsets.row? kind = after.layout.offsets.row? kind)
    (meet : Pools.Meet (offsets.finderIn (kind :: rest)) before.pools before'.pools) :
    Pools.Meet (offsets.finderIn rest) after.pools after'.pools := by
  intro pool
  rw [one.map_locate fresh, other.map_locate (same ▸ fresh), same', finderIn_cons row rest]
  exact meet pool

/-- Sections are planned as they were for items that would be the same. -/
theorem planSections_again {kinds : List SectionKind} (success : planSections header kinds before = (.ok (), after))
    (apart : kinds.Pairwise Apart) (fresh : ∀ kind ∈ kinds, before.layout.offsets.row? kind = none)
    (meet : Pools.Meet (after.layout.offsets.finderIn kinds) before.pools pools) :
    ∃ pools', planSections header kinds { before with pools } = (.ok (), { after with pools := pools' }) ∧
      Pools.Meet (after.layout.offsets.finderIn []) after.pools pools' := by
  induction kinds generalizing before pools with
  | nil =>
    obtain ⟨-, rfl⟩ := Reading.pure_eq_ok.mp success
    exact ⟨pools, rfl, meet⟩
  | cons kind rest ih =>
    obtain ⟨_, between, first, others⟩ := Reading.bind_eq_ok.mp success
    obtain ⟨behind, apart⟩ := List.pairwise_cons.mp apart
    have absent : kind ∉ rest := fun member => (behind kind member).1 rfl
    -- Code has been placed before class data.
    have sizes : sizesOf pools kind = sizesOf before.pools kind := meet.sizesOf_eq fun data slot code => by
      rw [OffsetTable.finderIn, if_neg]
      rw [code, List.mem_cons, not_or, data]
      exact ⟨by decide, fun member => (behind _ member).2.1 data rfl⟩
    obtain ⟨pools', again⟩ := planSection_again first (meet.itemCount_eq kind) sizes meet.slots_eq
    have spec := planSection_spec first
    have row := (planSections_spec others).row?_of_notMem absent
    have fresh' : ∀ other ∈ rest, between.layout.offsets.row? other = none := by
      intro other member
      rw [spec.row?_of_ne fun same => absent (same ▸ member)]
      exact fresh other (List.mem_cons_of_mem _ member)
    have meet' := spec.meet (planSection_spec again) (fresh kind List.mem_cons_self) rfl rfl row meet
    obtain ⟨last, run, meet⟩ := ih others apart fresh' meet'
    exact ⟨last, (Reading.bind_ok again).trans run, meet⟩

/-- Every item is told of by one of the sections. -/
theorem finderIn_order (offsets : OffsetTable) : offsets.finderIn order = offsets.finder := by
  funext slot
  rw [OffsetTable.finderIn, if_pos (by cases slot.kind <;> decide)]

/-- A plan depends on the items alone, and not on the offsets that their references have known before. -/
theorem plan_again {items placed : Pools} {layout : Layout} (success : plan header items = (.ok layout, placed))
    (size : encodedSize header' = encodedSize header) (meet : Pools.Meet layout.offsets.finder items pools) :
    ∃ placed', plan header' pools = (.ok layout, placed') ∧
      ∀ kind, (placed'.pool kind).items.map untouched = (placed.pool kind).items.map untouched := by
  obtain ⟨planned, fileSize, sections, found, rfl, rfl⟩ := plan_eq_ok.mp success
  have start : Pools.Meet (planned.layout.offsets.finderIn order) items pools := by
    rw [finderIn_order]
    exact meet
  obtain ⟨placed', again, meet⟩ := planSections_again sections (by decide) (fun _ _ => rfl) start
  have run : planSections header' order ⟨.empty, 0, pools⟩ = (.ok (), { planned with pools := placed' }) := by
    rw [planSections_congr size]
    exact again
  exact ⟨placed', plan_eq_ok.mpr ⟨_, fileSize, run, found, rfl, rfl⟩, fun kind => meet kind⟩

/-- Whether images are the same behind their fronts. -/
def Alongside (front front' image image' : Array UInt8) : Prop :=
  ∃ tail : Bytes, image = front ++ tail ∧ image' = front' ++ tail

namespace Alongside

variable {front front' image image' : Array UInt8} {other : Pools} {layout : Layout} {entry : MapEntry}

protected theorem refl (front front' : Array UInt8) : Alongside front front' front front' :=
  ⟨[], Array.toList_inj.mp (by simp), Array.toList_inj.mp (by simp)⟩

protected theorem append (alongside : Alongside front front' image image') (bytes : Bytes) :
    Alongside front front' (image ++ bytes) (image' ++ bytes) := by
  obtain ⟨tail, rfl, rfl⟩ := alongside
  have grouped (front : Array UInt8) : front ++ tail ++ bytes = front ++ (tail ++ bytes) :=
    Array.toList_inj.mp (by simp)
  exact ⟨tail ++ bytes, grouped front, grouped front'⟩

theorem size_eq (alongside : Alongside front front' image image') (size : front'.size = front.size) :
    image'.size = image.size := by
  obtain ⟨tail, rfl, rfl⟩ := alongside
  have length (front : Array UInt8) : (front ++ tail).size = front.size + tail.length := by
    rw [← Array.length_toList, Array.toList_appendList, List.length_append, Array.length_toList]
  rw [length, length, size]

protected theorem pad (alongside : Alongside front front' image image')
    (size : front'.size = front.size) (alignment : Nat) :
    Alongside front front' (pad image alignment) (pad image' alignment) := by
  rw [Layout.pad, Layout.pad, alongside.size_eq size]
  exact alongside.append _

/-- Items that are encoded as the same bytes. -/
theorem emitItems (alongside : Alongside front front' image image') (size : front'.size = front.size)
    (each : ∀ index, other.encodeItem kind index = pools.encodeItem kind index) {count : Nat} {index : UInt32}
    {result : Array UInt8} (success : emitItems pools kind count index image = .ok result) :
    ∃ result', Layout.emitItems other kind count index image' = .ok result' ∧
    Alongside front front' result result' := by
  induction count generalizing index image image' with
  | zero =>
    obtain rfl := Except.ok.inj success
    exact ⟨image', rfl, alongside⟩
  | succ count ih =>
    obtain ⟨part, first, success⟩ := Result.bind_eq_ok.mp success
    obtain ⟨result', run, after⟩ := ih ((alongside.pad size _).append part) success
    exact ⟨result', Result.bind_eq_ok.mpr ⟨part, (each index).trans first, run⟩, after⟩

theorem emitSection (alongside : Alongside front front' image image') (size : front'.size = front.size)
    (each : ∀ index, other.encodeItem entry.kind index = pools.encodeItem entry.kind index)
    (notHeader : entry.kind ≠ .header)
    {result : Array UInt8} (success : emitSection header pools layout entry image = .ok result) :
    ∃ result', Layout.emitSection header' other layout entry image' = .ok result' ∧
    Alongside front front' result result' := by
  have padded := alongside.pad size entry.kind.alignment
  have reached : (pad image entry.kind.alignment).size = entry.offset.toNat := by
    by_contra missed
    rw [emitSection_of_missed missed] at success
    cases success
  rw [emitSection_of_reached reached] at success
  rw [emitSection_of_reached ((padded.size_eq size).trans reached)]
  generalize pad image entry.kind.alignment = padding at success padded
  generalize pad image' entry.kind.alignment = padding' at padded
  obtain ⟨kind, count, offset⟩ := entry
  cases kind with
  | header => exact absurd rfl notHeader
  | mapList =>
    obtain ⟨bytes, encoded, rfl⟩ := Result.map_eq_ok.mp success
    exact ⟨_, Result.map_eq_ok.mpr ⟨bytes, encoded, rfl⟩, padded.append bytes⟩
  | stringId =>
    obtain rfl := Except.ok.inj success
    refine ⟨_, rfl, ?_⟩
    rw [← Array.foldl_toList, ← Array.foldl_toList, foldl_append_words, foldl_append_words]
    exact padded.append _
  | _ => exact padded.emitItems size each success

theorem emitSections (alongside : Alongside front front' image image') (size : front'.size = front.size)
    (each : ∀ kind index, other.encodeItem kind index = pools.encodeItem kind index) {entries : List MapEntry}
    (notHeader : ∀ entry ∈ entries, entry.kind ≠ .header) {result : Array UInt8}
    (success : emitSections header pools layout entries image = .ok result) :
    ∃ result', Layout.emitSections header' other layout entries image' = .ok result' ∧
      Alongside front front' result result' := by
  induction entries generalizing image image' with
  | nil =>
    obtain rfl := Except.ok.inj success
    exact ⟨image', rfl, alongside⟩
  | cons entry rest ih =>
    obtain ⟨between, first, others⟩ := Result.bind_eq_ok.mp success
    obtain ⟨here, there⟩ := List.forall_mem_cons.mp notHeader
    obtain ⟨between', first', middle⟩ := alongside.emitSection size (each _) here first
    obtain ⟨result', others', after⟩ := ih middle there others
    exact ⟨result', Result.bind_eq_ok.mpr ⟨between', first', others'⟩, after⟩

end Alongside

/-- Items that are encoded as the same bytes are written as the same image behind the header. -/
theorem emit_again {other : Pools} {layout : Layout} {added : List MapEntry} {image : Bytes}
    (listed : layout.map.entries = ⟨.header, 1, 0⟩ :: added) (notHeader : ∀ entry ∈ added, entry.kind ≠ .header)
    (size : encodedSize header' = encodedSize header)
    (each : ∀ kind index, other.encodeItem kind index = pools.encodeItem kind index)
    (success : emit header pools layout = .ok image) :
    ∃ front front' tail, encode header = .ok front ∧ encode header' = .ok front' ∧ image = front ++ tail ∧
      emit header' other layout = .ok (front' ++ tail) := by
  obtain ⟨result, sections, done⟩ := Result.bind_eq_ok.mp success
  rw [listed] at sections
  obtain ⟨between, first, others⟩ := Result.bind_eq_ok.mp sections
  have start (header : Header) (pools : Pools) {front : Bytes} (encoded : encode header = .ok front) :
      emitSection header pools layout ⟨.header, 1, 0⟩ #[] = .ok ((#[] : Array UInt8) ++ front) := by
    rw [emitSection_of_reached rfl]
    exact Result.map_eq_ok.mpr ⟨front, encoded, rfl⟩
  obtain ⟨front, encoded⟩ : ∃ front, encode header = .ok front := ⟨_, header.encode_eq⟩
  obtain ⟨front', encoded'⟩ : ∃ front, encode header' = .ok front := ⟨_, header'.encode_eq⟩
  obtain rfl := Except.ok.inj ((start header pools encoded).symm.trans first)
  have length (front : Bytes) : ((#[] : Array UInt8) ++ front).size = front.length := by
    rw [← Array.length_toList, Array.toList_appendList, List.nil_append]
  have sizes : ((#[] : Array UInt8) ++ front').size = ((#[] : Array UInt8) ++ front).size := by
    rw [length, length, Header.length_encode encoded, Header.length_encode encoded', size]
  -- From behind the header on, both images take the same bytes at the same positions.
  obtain ⟨result', run, after⟩ : ∃ result', emitSections header' other layout added (#[] ++ front') = .ok result' ∧
      Alongside (#[] ++ front) (#[] ++ front') result result' :=
    (Alongside.refl _ _).emitSections sizes each notHeader others
  have whole := after.size_eq sizes
  obtain ⟨tail, rfl, rfl⟩ := after
  have listed' (front : Bytes) : ((#[] : Array UInt8) ++ front ++ tail).toList = front ++ tail := by simp
  dsimp only at done
  by_cases missized : ((#[] : Array UInt8) ++ front ++ tail).size ≠ layout.fileSize.toNat
  · rw [if_pos missized] at done
    cases done
  rw [if_neg missized] at done
  obtain rfl := Except.ok.inj done
  refine ⟨front, front', tail, encoded, encoded', listed' front,
    Result.bind_eq_ok.mpr ⟨(#[] : Array UInt8) ++ front' ++ tail, ?_, ?_⟩⟩
  · rw [listed]
    exact Result.bind_eq_ok.mpr ⟨_, start header' other encoded', run⟩
  · dsimp only
    rw [whole, if_neg missized, listed']
    rfl

end Layout

/-- What a layout says of a header has been said of it by the same layout before, but for the digests. -/
theorem Layout.applyTo_again (layout : Layout) (header : Header) (checksum : UInt32) (signature : Vector UInt8 20) :
    layout.applyTo { layout.applyTo header with checksum, signature, endianTag := Header.littleEndianTag } =
      { layout.applyTo header with checksum, signature } := by
  obtain ⟨magic, checksum, signature, fileSize, headerSize, endianTag, link, mapOffset, stringIds, typeIds, protoIds,
    fieldIds, methodIds, classDefs, data, _ | container, surplus⟩ := header <;> rfl

/-- Items that would be the same where they have been written are written as the same image. -/
theorem Image.Written.write_of_meet {image after again : Image} {layout : Layout} {bytes : Bytes}
    (written : image.Written layout bytes after) {checksum : UInt32} {signature : Vector UInt8 20}
    (applied : layout.applyTo again.header = { layout.applyTo image.header with checksum, signature })
    (meet : Pools.Meet layout.offsets.finder image.pools.refreshAll again.pools.refreshAll) : ∃ placed,
      again.Written layout bytes ⟨after.header, placed, layout.map⟩ ∧
        ∀ kind, (placed.pool kind).items.map untouched = (after.pools.pool kind).items.map untouched := by
  obtain ⟨added, listed, sublist, -⟩ := written.planned.header
  have size : encodedSize (layout.applyTo again.header) = encodedSize (layout.applyTo image.header) := by
    rw [applied]
    rfl
  have sizes : encodedSize again.header = encodedSize image.header := by
    rwa [Layout.encodedSize_applyTo, Layout.encodedSize_applyTo] at size
  have notHeader : ∀ entry ∈ added, entry.kind ≠ .header := by
    intro entry member same
    have there := sublist.subset (List.mem_map_of_mem member)
    rw [same] at there
    exact absurd there (by decide)
  obtain ⟨placed, plan, alike⟩ := Layout.plan_again written.plan sizes meet
  obtain ⟨unsigned, emitted, digests⟩ := written.stored
  obtain ⟨front, front', tail, encoded, encoded', rfl, emitted'⟩ :=
    Layout.emit_again listed notHeader size (Pools.encodeItem_congr alike) emitted
  -- The digests depend neither on those that were in the header nor on the offsets that references knew.
  obtain ⟨stored, storedHeader, digests'⟩ := Header.updateDigests_encode encoded tail
  obtain ⟨stored', storedHeader', digests''⟩ := Header.updateDigests_encode encoded' tail
  obtain ⟨header, rfl⟩ := Prod.mk.inj (Except.ok.inj (digests'.symm.trans digests))
  rw [applied, Header.sealed_with, header] at storedHeader'
  rw [header] at storedHeader
  obtain rfl := Except.ok.inj (storedHeader.symm.trans storedHeader')
  refine ⟨placed, ⟨plan, ⟨_, emitted', ?_⟩, rfl⟩, alike⟩
  rw [digests'', applied, Header.sealed_with, header]

end DexImage
