import DexImage.Proofs.Rereading.Moved
import DexImage.Proofs.Rereading.Tidy
import DexImage.Proofs.StaticValues.Reread
/-! # What has been written is up to date

Bringing pools up to date puts members, handler lists and annotation sets in order. What is written of them and read
again is in the same order, so that bringing it up to date changes nothing (`Image.refreshed_of_write`).
-/

namespace DexImage

variable {written read placed : Pools}

section Items

variable {kinds : List PoolKind} {kind : PoolKind} {item other : Item kind}

theorem Layout.Relocated.tidy (relocated : Relocated kinds item other) (tidy : Tidy item) : Tidy other := by
  induction relocated with
  | refl => exact tidy
  | told _ _ _ ih => exact tidy_locate ih _

/-- Annotations refer to no data item. -/
theorem Layout.Relocated.annotation_eq {item other : Item .annotationItem} (relocated : Relocated kinds item other) :
    other = item := by
  induction relocated with
  | refl => rfl
  | told _ _ _ ih => exact ih

/-- Whatever has been brought up to date is tidy. -/
theorem Pools.tidy_refreshAll {item : Item kind}
    (member : item ∈ (written.refreshAll.pool kind).items) : Tidy item := by
  by_cases sets : kind = .annotationSet
  · subst sets
    trivial
  · rw [pool_refreshAll sets, Pool.items_map] at member
    obtain ⟨origin, -, rfl⟩ := List.mem_map.mp member
    exact tidy_refresh origin

end Items

namespace Pools

/-- Whether the annotations of a set are in the order of their types. -/
def Ranked (annotations : Pool AnnotationItem) (set : AnnotationSet) : Prop :=
  (set.items.map (annotationRank annotations)).Pairwise (· ≤ ·)

theorem ranked_refreshAll {set : AnnotationSet} (member : set ∈ (written.refreshAll.pool .annotationSet).items) :
    Ranked (written.refreshAll.pool .annotationItem) set := by
  rw [pool_refreshAll (by decide)]
  rw [refreshAll, sortAnnotationSets, pool_modify_self, pool_foldl_refresh, Pool.items_map] at member
  obtain ⟨origin, -, rfl⟩ := List.mem_map.mp member
  have annotations :
    (PoolKind.all.foldl (fun pools kind => pools.modify kind fun pool => pool.map refresh) written).annotationItems =
      (written.pool .annotationItem).map refresh := pool_foldl_refresh written .annotationItem
  rw [annotations, Ranked, List.pairwise_map]
  refine (List.pairwise_mergeSort (fun a b c first second => ?_) (fun a b => ?_) _).imp fun ordered =>
    of_decide_eq_true ordered
  · exact decide_eq_true (Nat.le_trans (of_decide_eq_true first) (of_decide_eq_true second))
  · rw [Bool.or_eq_true, decide_eq_true_eq, decide_eq_true_eq]
    exact Nat.le_total _ _

/-- Ranked sets stay as they are. -/
theorem sortAnnotationSets_of_ranked {pools : Pools}
    (ranked : ∀ set ∈ (pools.pool .annotationSet).items, Ranked (pools.pool .annotationItem) set) :
    pools.sortAnnotationSets = pools := by
  refine ext_pool fun kind => ?_
  rw [sortAnnotationSets]
  by_cases sets : kind = .annotationSet
  · subst sets
    rw [pool_modify_self]
    refine Pool.map_of_fixed fun set member => ?_
    have ordered := ranked set member
    rw [Ranked, List.pairwise_map] at ordered
    exact congrArg AnnotationSet.mk (List.mergeSort_of_pairwise (ordered.imp fun le => decide_eq_true le))
  · exact pool_modify_of_ne _ sets _

end Pools

/-- Offsets do not matter to the order of annotations. -/
theorem Layout.Relocated.ranked {kinds : List PoolKind} {annotations : Pool AnnotationItem}
    {set other : Item .annotationSet}
    (relocated : Relocated kinds set other) (ranked : Pools.Ranked annotations set) :
    Pools.Ranked annotations other := by
  induction relocated with
  | refl => exact ranked
  | @told between offsets target _ _ ih =>
    have ranks : ((between : AnnotationSet).items.map (DataRef.located (finder offsets target) .annotated)).map
        (Pools.annotationRank annotations) =
          (between : AnnotationSet).items.map (Pools.annotationRank annotations) := by
      rw [List.map_map]
      refine List.map_congr_left fun ref _ => ?_
      rw [Function.comp_apply, Pools.annotationRank, Pools.annotationRank, DataRef.index_located]
    exact (congrArg (List.Pairwise (· ≤ ·)) ranks).mpr ih

theorem Pools.annotationRank_eq (pools : Pools) (ref : DataRef .annotationItem) :
    annotationRank (pools.pool .annotationItem) ref =
      ((pools.resolve? ref).map fun item : AnnotationItem => item.body.type.raw.toNat + 1).getD 0 := by
  change (match pools.resolve? ref with | some item => _ | none => 0) = _
  cases pools.resolve? ref <;> rfl

/-- Sets with the same contents are ranked together. -/
theorem Pools.Ranked.of_matches {set other : Item .annotationSet} (ranked : Ranked (written.pool .annotationItem) set)
    (matching : (itemHolding .annotationSet).Matches (SameContents written read) set other) :
    Ranked (read.pool .annotationItem) other := by
  change AnnotationSet.holding.Matches _ set other at matching
  unfold AnnotationSet.holding at matching
  have ranks : (set : AnnotationSet).items.map (annotationRank (written.pool .annotationItem)) =
      (other : AnnotationSet).items.map (annotationRank (read.pool .annotationItem)) := by
    refine matching.of_part.of_list.map_eq fun same => ?_
    obtain ⟨same, -⟩ := List.forall₂_cons.mp same.held
    rw [annotationRank_eq, annotationRank_eq]
    rcases resolve?_of_matches same with ⟨missing, missing'⟩ | ⟨item, copy, found, there, contents⟩
    · rw [missing, missing']
    · have same := contents.eq (fun item => fill_held item) (dataless_of_locate fun _ _ => rfl)
      have ranks := congrArg (fun item : AnnotationItem => item.body.type.raw.toNat + 1) same
      rw [found, there]
      exact ranks
  exact (congrArg (List.Pairwise (· ≤ ·)) ranks).mp ranked

/-- No more data items have been read than are stored. -/
theorem Loader.Sound.size_le {image : Bytes} {layout : Layout}
    {loader : Loader} (sound : loader.Sound image placed layout)
    (stored : layout.Stored image placed) {kind : PoolKind} (plain : kind.toSection.isIdTable = false) :
    (loader.pools.pool kind).size ≤ (placed.pool kind).size := by
  have length : (loader.offsets kind).length = (loader.pools.pool kind).size := by
    rw [offsets, List.length_map, sound.counted kind plain]
  rw [← length]
  rcases none : loader.offsets kind with _ | ⟨offset, rest⟩
  · exact Nat.zero_le _
  · have places (place : UInt32) (member : place ∈ loader.offsets kind) :
        ∃ index item, layout.offsets.offset? kind.toSection index = some place ∧
        placed.get? kind index = some item := by
      obtain ⟨number, member⟩ := mem_offsets.mp member
      obtain ⟨index, there, contents⟩ := sound.read kind place number member
      cases contents with
      | intro _ found => exact ⟨index, _, there, found⟩
    obtain ⟨index, item, -, found⟩ := places offset (none ▸ List.mem_cons_self)
    rw [Pools.get?, Pool.get?_eq_some] at found
    rw [← none]
    refine stored.length_le plain (loader.nodup_offsets kind sound.distinct)
      (List.ne_nil_of_mem (List.mem_of_getElem? found)) fun place member => ?_
    obtain ⟨index, _, there, -⟩ := places place member
    exact ⟨index, there⟩

theorem Pools.exists_index_of_mem {pools : Pools} {kind : PoolKind} (few : (pools.pool kind).size ≤ UInt32.size)
    {item : Item kind} (member : item ∈ (pools.pool kind).items) :
    ∃ index, pools.contains (kind, index) ∧ pools.get? kind index = some item := by
  obtain ⟨position, there⟩ := List.getElem?_of_mem member
  have inside := (List.getElem?_eq_some_iff.mp there).1
  rw [Pool.length_items] at inside
  have number : position.toUInt32.toNat = position := toNat_toUInt32_of_lt (Nat.lt_of_lt_of_le inside few)
  refine ⟨position.toUInt32, ?_, ?_⟩
  · rw [contains, number]
    exact inside
  · rw [get?, Pool.get?_eq_some, number]
    exact there

namespace Image

/-- What is read of an image that has been written is loaded from it as it is stored. -/
theorem Sane.filled_of_read {image after again : Image} {layout : Layout} {bytes : Bytes} (sane : image.Sane)
    (written : image.Written layout bytes after) (reread : Image.read bytes .lenient = .ok again) :
    ∃ cursor loader, loadTables again.header (.ofCursor cursor false) = (.ok again.map, loader) ∧
    loader.pools = again.pools ∧
      again.header.spans = after.header.spans ∧
      loader.Filled bytes after.pools layout [.classDef, .methodId, .fieldId, .protoId, .typeId, .stringId] := by
  obtain ⟨read, cursor, loader, decoded, spans, run, filled⟩ := sane.filled written
  obtain ⟨cursor', loader', decoded', run', pools⟩ := read_eq_ok reread
  obtain ⟨same, rfl⟩ := Prod.mk.inj (decoded.symm.trans decoded')
  obtain rfl := Except.ok.inj same
  obtain ⟨-, rfl⟩ := Prod.mk.inj (run.symm.trans run')
  exact ⟨cursor, loader, run', pools, spans, filled⟩

/-- What has been written is tidy. -/
theorem Written.tidy {image after : Image} {layout : Layout}
    {bytes : Bytes} (written : image.Written layout bytes after)
    {kind : PoolKind} {item : Item kind} (member : item ∈ (after.pools.pool kind).items) : Tidy item := by
  obtain ⟨origin, present, relocated⟩ := written.planned.pools.exists_of_mem member
  exact relocated.tidy (Pools.tidy_refreshAll present)

theorem Written.ranked {image after : Image} {layout : Layout}
    {bytes : Bytes} (written : image.Written layout bytes after)
    {set : Item .annotationSet} (member : set ∈ (after.pools.pool .annotationSet).items) :
    Pools.Ranked (after.pools.pool .annotationItem) set := by
  obtain ⟨origin, present, relocated⟩ := written.planned.pools.exists_of_mem member
  obtain ⟨edit, same, each⟩ := written.planned.pools .annotationItem
  have annotations : after.pools.pool .annotationItem = image.pools.refreshAll.pool .annotationItem := by
    rw [same]
    exact Pool.map_of_fixed fun item _ => (each item).annotation_eq
  rw [annotations]
  exact relocated.ranked (Pools.ranked_refreshAll present)

/-- What is read of an image that has been written is up to date. -/
theorem Sane.refreshed_of_write {image after again : Image} {bytes : Bytes} (sane : image.Sane)
    (success : image.write = (.ok bytes, after)) (reread : Image.read bytes .lenient = .ok again) :
    again.pools.refreshAll = again.pools := by
  obtain ⟨layout, written⟩ := write_eq_ok.mp success
  have complete := written.complete sane.regular
  obtain ⟨cursor, loader, run, pools, -, filled⟩ := sane.filled_of_read written reread
  have regular := ((keeps_loadTables again.header).holds _ _ _ run (regular_ofCursor _ _)).1
  rw [← pools]
  -- Every data item has the contents of one that was written.
  have counterpart (kind : PoolKind) (plain : kind.toSection.isIdTable = false) (other : Item kind)
      (member : other ∈ (loader.pools.pool kind).items) : ∃ item ∈ (after.pools.pool kind).items,
        (itemHolding kind).Matches (SameContents after.pools loader.pools) (effective item) (effective other) := by
    have few := Nat.le_trans (filled.sound.size_le complete.toStored plain) (Nat.le_of_lt (complete.sizes kind))
    obtain ⟨index, inside, there⟩ := Pools.exists_index_of_mem few member
    obtain ⟨offset, known⟩ := regular.known kind plain index inside
    obtain ⟨place, -, contents⟩ := filled.sound.read kind offset index known
    cases contents with
    | intro related found there' matching deeper =>
      obtain rfl := Option.some.inj (there.symm.trans there')
      exact ⟨_, Pools.mem_of_get? found, matching.mono deeper⟩
  have tidy (kind : PoolKind) (item : Item kind) (member : item ∈ (loader.pools.pool kind).items) : Tidy item := by
    by_cases plain : kind.toSection.isIdTable = true
    · cases kind <;> trivial
    · obtain ⟨origin, stored, matching⟩ := counterpart kind (Bool.eq_false_iff.mpr plain) item member
      exact (written.tidy stored).of_matches matching
  have refreshed : PoolKind.all.foldl (fun pools kind => pools.modify kind fun pool => pool.map refresh) loader.pools =
      loader.pools := by
    refine Pools.ext_pool fun kind => ?_
    rw [Pools.pool_foldl_refresh]
    exact Pool.map_of_fixed fun item member => refresh_of_tidy (tidy kind item member) (regular.asRead kind item member)
  rw [Pools.refreshAll, refreshed]
  refine Pools.sortAnnotationSets_of_ranked fun set member => ?_
  obtain ⟨origin, stored, matching⟩ := counterpart .annotationSet rfl set member
  exact (written.ranked stored).of_matches matching

end Image
end DexImage
