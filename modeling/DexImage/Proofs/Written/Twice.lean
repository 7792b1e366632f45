import DexImage.Proofs.Rereading.FixedPoint
/-! # Writing twice

Writing brings an image up to date and tells its references where their targets lie. What has just been written is up
to date but for edit marks, and would be told the same offsets, so that writing it again yields the same bytes and
changes nothing (`Image.write_write`).
-/

namespace DexImage

open Layout

section Items

variable {kind : PoolKind} {pools : Pools}

/-- Being told anything marks an item as edited. -/
theorem untouched_locate (find : Finder) (item : Item kind) : untouched (locate find item) = locate find item := by
  rw [untouched, locate_locate]
  congr 1

theorem locate_unmarked (find : Finder) (item : Item kind) : locate find (unmarked item) = locate find item := by
  rw [← locate_untouched, untouched_unmarked, locate_untouched]

/-- What has been brought up to date has no edit marks. -/
theorem unmarked_refresh (item : Item kind) : unmarked (refresh item) = refresh item := by
  cases kind with
  | code =>
    obtain ⟨registers, ins, outs, debugInfo, instructions, _ | table⟩ := (item : CodeItem)
    · rfl
    · rfl
  | _ => rfl

theorem Pools.unmarked_of_mem_refreshAll {item : Item kind} (member : item ∈ (pools.refreshAll.pool kind).items) :
    unmarked item = item := by
  by_cases sets : kind = .annotationSet
  · subst sets
    rfl
  · rw [pool_refreshAll sets, Pool.items_map] at member
    obtain ⟨origin, -, rfl⟩ := List.mem_map.mp member
    exact unmarked_refresh origin

/-- A pool whose items stay the same under an edit stays the same. -/
theorem Pool.map_eq_self {α : Type} {pool : Pool α} {edit : α → α} (same : (pool.map edit).items = pool.items) :
    pool.map edit = pool := by
  refine map_of_fixed (List.map_inj_left.mp ?_)
  rw [← items_map, same, List.map_id']

end Items

namespace Layout

variable {header : Header} {kinds : List SectionKind} {before after : Planning}

/-- What placing sections does to items is to tell their references where the items of the sections lie. -/
theorem PlannedRun.map_locate (run : PlannedRun header kinds before after) (distinct : kinds.Nodup)
    (fresh : ∀ kind ∈ kinds, before.layout.offsets.row? kind = none) (find : Finder) (pool : PoolKind) :
    (after.pools.pool pool).items.map (locate find) =
      (before.pools.pool pool).items.map (locate (find.or (after.layout.offsets.finderIn kinds))) := by
  induction run generalizing find with
  | nil =>
    refine List.map_congr_left fun item _ => congrArg (locate · item) (funext fun slot => ?_)
    rw [Finder.or, OffsetTable.finderIn, if_neg List.not_mem_nil, Option.or_none]
  | @cons kind rest before between after first others ih =>
    obtain ⟨absent, distinct⟩ := List.nodup_cons.mp distinct
    obtain ⟨here, later⟩ := List.forall_mem_cons.mp fresh
    have fresh : ∀ other ∈ rest, between.layout.offsets.row? other = none := fun other member => by
      rw [first.row?_of_ne fun same => absent (same ▸ member)]
      exact later other member
    rw [ih distinct fresh, first.map_locate here, ← finderIn_cons (others.row?_of_notMem absent) rest]
    refine List.map_congr_left fun item _ => congrArg (locate · item) (funext fun slot => ?_)
    exact Option.or_assoc

/-- Items that have been laid out would be told the same as before. -/
theorem meet_of_plan {pools placed : Pools} {layout : Layout} (success : plan header pools = (.ok layout, placed)) :
    Pools.Meet layout.offsets.finder pools placed := by
  obtain ⟨planned, fileSize, sections, -, rfl, rfl⟩ := plan_eq_ok.mp success
  intro kind
  rw [(planSections_spec sections).map_locate (by decide) (fun _ _ => rfl), finderIn_order]
  refine List.map_congr_left fun item _ => congrArg (locate · item) (funext fun slot => ?_)
  exact Option.or_self

/-- Either no section that is placed is referred to by offsets, and items stay as they are, or all are marked as
edited. -/
theorem PlannedRun.marked (run : PlannedRun header kinds before after) :
    (∀ kind ∈ kinds, isTracked kind = true → itemCount after.pools kind = 0) ∧ after.pools = before.pools ∨
      (∃ kind ∈ kinds, isTracked kind = true ∧ itemCount after.pools kind ≠ 0) ∧
        ∀ kind, ∀ item ∈ (after.pools.pool kind).items, untouched item = item := by
  induction run with
  | nil => exact .inl ⟨fun _ member => absurd member List.not_mem_nil, rfl⟩
  | @cons kind rest before between after first others ih =>
    have count : itemCount after.pools kind = itemCount before.pools kind :=
      (others.pools.itemCount kind).trans (first.pools.itemCount kind)
    rcases ih with ⟨none, same⟩ | ⟨⟨other, member, some⟩, marked⟩
    · rcases first.telling with ⟨nothing, unchanged⟩ | ⟨tracked, some, target, -, located⟩
      · refine .inl ⟨List.forall_mem_cons.mpr ⟨fun tracked => count.trans (nothing tracked), none⟩,
          same.trans unchanged⟩
      · refine .inr ⟨⟨kind, List.mem_cons_self, tracked, count ▸ some⟩, fun pool item member => ?_⟩
        rw [same, located.pools, Pool.items_map] at member
        obtain ⟨origin, -, rfl⟩ := List.mem_map.mp member
        exact untouched_locate _ origin
    · exact .inr ⟨⟨other, List.mem_cons_of_mem _ member, some⟩, marked⟩

/-- Plans for the same items but for edit marks yield the same marks, where the items had none. -/
theorem placed_eq {header' : Header} {one other placed placed' : Pools} {layout layout' : Layout}
    (success : plan header one = (.ok layout, placed)) (success' : plan header' other = (.ok layout', placed'))
    (plain : ∀ kind, ∀ item ∈ (one.pool kind).items, unmarked item = item)
    (same : ∀ kind, other.pool kind = (placed.pool kind).map unmarked)
    (alike : Pools.Meet (fun _ => none) placed placed') : placed' = placed := by
  obtain ⟨planned, -, sections, -, -, rfl⟩ := plan_eq_ok.mp success
  obtain ⟨planned', -, sections', -, -, rfl⟩ := plan_eq_ok.mp success'
  refine Pools.ext_pool fun kind => ?_
  rcases (planSections_spec sections).marked with ⟨none, unchanged⟩ | ⟨⟨told, member, tracked, some⟩, marked⟩
  · rcases (planSections_spec sections').marked with ⟨-, unchanged'⟩ | ⟨⟨told, member, tracked, some⟩, -⟩
    · rw [unchanged', same, unchanged]
      exact Pool.map_of_fixed (plain kind)
    · exact absurd ((alike.itemCount_eq told).trans (none told member tracked)) some
  · rcases (planSections_spec sections').marked with ⟨none, -⟩ | ⟨-, marked'⟩
    · exact absurd ((alike.itemCount_eq told).symm.trans (none told member tracked)) some
    · obtain ⟨edit, located, -⟩ := (planSections_spec sections').pools kind
      have items : (planned'.pools.pool kind).items = (planned.pools.pool kind).items := by
        have plain {pools : Pools} (marked : ∀ kind, ∀ item ∈ (pools.pool kind).items, untouched item = item) :
            (pools.pool kind).items.map untouched = (pools.pool kind).items :=
          (List.map_congr_left (marked kind)).trans (List.map_id' _)
        rw [← plain marked, ← plain marked']
        exact alike kind
      have twice : planned'.pools.pool kind = (planned.pools.pool kind).map (edit ∘ unmarked) := by
        rw [located]
        change (other.pool kind).map edit = _
        rw [same]
        simp [Pool.map]
      rw [twice] at items ⊢
      exact Pool.map_eq_self items

end Layout

namespace Image

variable {image after : Image} {layout : Layout} {bytes : Bytes}

/-- What has been written loses its edit marks when it is brought up to date, and nothing else. -/
theorem Written.pool_refreshAll (written : image.Written layout bytes after) (kind : PoolKind) :
    after.pools.refreshAll.pool kind = (after.pools.pool kind).map DexImage.unmarked := by
  let refreshed := PoolKind.all.foldl (fun pools kind => pools.modify kind fun pool => pool.map refresh) after.pools
  have pools (kind : PoolKind) : refreshed.pool kind = (after.pools.pool kind).map DexImage.unmarked :=
    (Pools.pool_foldl_refresh after.pools kind).trans
      (Pool.map_congr fun item member => refresh_eq_unmarked (written.tidy member))
  have unchanged (pool : Pool AnnotationItem) : pool.map (@DexImage.unmarked .annotationItem) = pool :=
    Pool.map_of_fixed fun _ _ => rfl
  have unchanged' (pool : Pool AnnotationSet) : pool.map (@DexImage.unmarked .annotationSet) = pool :=
    Pool.map_of_fixed fun _ _ => rfl
  have ranked : refreshed.sortAnnotationSets = refreshed := by
    refine Pools.sortAnnotationSets_of_ranked fun set member => ?_
    rw [pools, unchanged'] at member
    rw [pools, unchanged]
    exact written.ranked member
  exact (congrArg (·.pool kind) ranked).trans (pools kind)

/-- Writing an image that has just been written yields the same bytes and leaves the image as it is. -/
theorem write_write (success : image.write = (.ok bytes, after)) : after.write = (.ok bytes, after) := by
  obtain ⟨layout, written⟩ := write_eq_ok.mp success
  obtain ⟨-, checksum, signature, header⟩ := written.emitted
  have applied : layout.applyTo after.header = { layout.applyTo image.header with checksum, signature } := by
    rw [header]
    exact layout.applyTo_again image.header checksum signature
  have meet : Pools.Meet layout.offsets.finder image.pools.refreshAll after.pools.refreshAll := by
    intro kind
    rw [written.pool_refreshAll, Pool.items_map, List.map_map, ← meet_of_plan written.plan kind]
    exact List.map_congr_left fun item _ => locate_unmarked _ item
  obtain ⟨placed, written', alike⟩ := written.write_of_meet applied meet
  obtain rfl : placed = after.pools := placed_eq written.plan written'.plan
    (fun kind item member => Pools.unmarked_of_mem_refreshAll member) written.pool_refreshAll alike
  obtain ⟨header, pools, map⟩ := after
  obtain rfl : map = layout.map := written.map
  exact write_eq_ok.mpr ⟨layout, written'⟩

/-- A class with an interface, written twice. -/
theorem write_write_withListener : ∃ bytes after, withListener.write =
    (.ok bytes, after) ∧ after.write = (.ok bytes, after) := by
  obtain ⟨bytes, written⟩ :=
    Result.exists_of_toOption (show withListener.write.1.toOption.isSome = true by decide +kernel)
  have success : withListener.write = (.ok bytes, withListener.write.2) := Prod.ext written rfl
  exact ⟨bytes, withListener.write.2, success, write_write success⟩

end Image
end DexImage
