import DexImage.Proofs.Rereading.Retracing
/-! # What a loader knows

A loader numbers the items of a kind in the order in which it has read them, each at an offset of its own, and what the
items refer to is known to it (`Loader.Coherent`). This holds after every step, whether the step succeeds or fails
halfway (`Loading.Coheres`): nested items are appended before the item that refers to them, and are of other kinds.
-/

namespace DexImage

open Loading

/-- The indices of the items that have been read, by section and offset, the last one first. -/
abbrev Loaded := List ((SectionKind × UInt32) × UInt32)

/-- Whether a reference is absent, or leads to an item that has been read at the offset that the reference knows. -/
def DataRef.Known {target : PoolKind} (loaded : Loaded) (ref : DataRef target) : Prop :=
  ref = .absent ∨ ∃ index offset, ref = .placed index offset ∧
    offset ≠ 0 ∧ ((target.toSection, offset), index) ∈ loaded

/-- Whether what stands in a place is known, if it is a reference to a data item. -/
def Held.Known (loaded : Loaded) : Held → Prop
  | data target _ state => (DataRef.ofState state : DataRef target).Known loaded
  | _ => True

/-- Whether all data references of an item are known. -/
def Known (loaded : Loaded) {kind : PoolKind} (item : Item kind) : Prop :=
  (itemHolding kind).Each (Held.Known loaded) item

section References

variable {loaded longer : Loaded}

theorem DataRef.Known.mono {target : PoolKind} {ref : DataRef target}
    (known : ref.Known loaded) (subset : loaded ⊆ longer) :
    ref.Known longer := by
  rcases known with absent | ⟨index, offset, placed, nonzero, member⟩
  · exact .inl absent
  · exact .inr ⟨index, offset, placed, nonzero, subset member⟩

theorem Held.Known.mono {one : Held} (known : one.Known loaded) (subset : loaded ⊆ longer) : one.Known longer := by
  cases one with
  | data => exact DataRef.Known.mono known subset
  | id | operand => trivial

theorem DataRef.Known.each {target : PoolKind} {ref : DataRef target} (known : ref.Known loaded) (usage : Usage) :
    (DataRef.holding usage).Each (Held.Known loaded) ref := by
  refine List.forall_mem_singleton.mpr ?_
  change (DataRef.ofState ref.state : DataRef target).Known loaded
  rwa [DataRef.ofState_state]

theorem IdRef.known_each {target : PoolKind} (usage : Usage) (ref : IdRef target) :
    (IdRef.holding usage).Each (Held.Known loaded) ref :=
  IdRef.each (fun _ => trivial) ref

/-- Items that refer to no data item. -/
theorem known_of_dataless {kind : PoolKind} (dataless : ∀ (item : Item kind) find other,
    locate find item = locate other item)
    (item : Item kind) : Known loaded item := by
  intro one member
  cases one with
  | id | operand => trivial
  | data target usage state =>
    cases state with
    | none => exact .inl rfl
    | some state => exact absurd member (dataless_of_locate (dataless item) target usage state)

end References

/-- Whether a loader has noted every item of some kinds that it has read, under the next number and an offset of its
own, and knows what the items refer to. -/
structure Loader.Coherent (kinds : PoolKind → Prop) (loader : Loader) : Prop where
  distinct : (loader.loaded.map Prod.fst).Nodup
  numbered : ∀ kind, kinds kind → (loader.loaded.filter fun entry => entry.1.1 = kind.toSection).map
    (fun entry => entry.2.toNat) = (List.range (loader.pools.pool kind).size).reverse
  known : ∀ kind, ∀ item ∈ (loader.pools.pool kind).items, Known loader.loaded item

/-- How what a loader has noted grows in a step that reads items of less than a depth. -/
structure Loader.Notes (depth : Nat) (before after : Loader) : Prop where
  suffix : before.loaded <:+ after.loaded
  apart : ∀ kind : PoolKind, depth ≤ kind.depth → ∀ entry ∈ after.loaded, entry.1.1 = kind.toSection →
    entry ∈ before.loaded

namespace Loader

theorem Notes.refl (depth : Nat) (loader : Loader) : Notes depth loader loader :=
  ⟨List.suffix_refl _, fun _ _ _ member _ => member⟩

theorem Notes.trans {depth : Nat} {first second third : Loader} (left : Notes depth first second)
    (right : Notes depth second third) : Notes depth first third where
  suffix := left.suffix.trans right.suffix
  apart kind deep entry member same := left.apart kind deep entry (right.apart kind deep entry member same) same

theorem Notes.mono {depth deeper : Nat} {before after : Loader}
    (notes : Notes depth before after) (le : depth ≤ deeper) :
    Notes deeper before after where
  suffix := notes.suffix
  apart kind deep := notes.apart kind (Nat.le_trans le deep)

variable {kinds : PoolKind → Prop} {loader : Loader}

theorem coherent_ofCursor (cursor : Cursor) (strict : Bool) : (Loader.ofCursor cursor strict).Coherent kinds where
  distinct := List.nodup_nil
  numbered kind _ := by cases kind <;> rfl
  known kind item member := by cases kind <;> cases member

/-- What is noted of a key is what is found for it. -/
theorem loaded?_eq_some {section' : SectionKind} {offset index : UInt32}
    (distinct : (loader.loaded.map Prod.fst).Nodup) :
    loader.loaded? section' offset = some index ↔ ((section', offset), index) ∈ loader.loaded := by
  refine ⟨mem_loaded, fun member => List.lookup_eq_some_iff.mpr ?_⟩
  obtain ⟨front, back, split⟩ := List.append_of_mem member
  refine ⟨front, back, split, fun entry earlier => ?_⟩
  rw [split, List.map_append, List.map_cons] at distinct
  have apart := (List.nodup_append.mp distinct).2.2 entry.1 (List.mem_map_of_mem earlier) _ List.mem_cons_self
  exact bne_iff_ne.mpr apart.symm

namespace Coherent

variable (coherent : loader.Coherent kinds)
include coherent

/-- Each item of a kind has been read at an offset of its own. -/
theorem size_eq {kind : PoolKind} (tracked : kinds kind) :
    (loader.pools.pool kind).size = (loader.offsets kind).length := by
  have length := congrArg List.length (coherent.numbered kind tracked)
  rw [List.length_map, List.length_reverse, List.length_range] at length
  rw [offsets, List.length_map, length]

theorem index_lt {kind : PoolKind} (tracked : kinds kind) {offset index : UInt32}
    (noted : ((kind.toSection, offset), index) ∈ loader.loaded) : index.toNat < (loader.pools.pool kind).size := by
  have member :
      index.toNat ∈ (loader.loaded.filter fun entry => entry.1.1 = kind.toSection).map fun entry => entry.2.toNat :=
    List.mem_map.mpr ⟨_, List.mem_filter.mpr ⟨noted, decide_eq_true rfl⟩, rfl⟩
  rwa [coherent.numbered kind tracked, List.mem_reverse, List.mem_range] at member

/-- Items at different offsets have different indices. -/
theorem offset_eq {kind : PoolKind} (tracked : kinds kind) {first second index : UInt32}
    (one : ((kind.toSection, first), index) ∈ loader.loaded)
    (other : ((kind.toSection, second), index) ∈ loader.loaded) :
    first = second := by
  have distinct :
      ((loader.loaded.filter fun entry => entry.1.1 = kind.toSection).map fun entry => entry.2.toNat).Nodup := by
    rw [coherent.numbered kind tracked]
    exact List.nodup_reverse.mpr List.nodup_range
  have same := List.inj_on_of_nodup_map distinct (List.mem_filter.mpr ⟨one, decide_eq_true rfl⟩)
    (List.mem_filter.mpr ⟨other, decide_eq_true rfl⟩) rfl
  exact congrArg (fun entry : (SectionKind × UInt32) × UInt32 => entry.1.2) same

/-- Moving the cursor changes nothing about what has been read. -/
theorem moved (cursor : Cursor) : Coherent kinds { loader with cursor } :=
  ⟨coherent.distinct, coherent.numbered, coherent.known⟩

/-- There are no more offsets than numbers of four bytes, so that an item at another one gets a number, too. -/
theorem size_lt {kind : PoolKind} (tracked : kinds kind) {offset : UInt32}
    (fresh : ∀ index, ((kind.toSection, offset), index) ∉ loader.loaded) :
    (loader.pools.pool kind).size < UInt32.size := by
  have distinct : (offset :: loader.offsets kind).Nodup := by
    refine List.nodup_cons.mpr ⟨fun member => ?_, loader.nodup_offsets kind coherent.distinct⟩
    obtain ⟨index, noted⟩ := mem_offsets.mp member
    exact fresh index noted
  have numbers := distinct.map_on (fun first _ second _ same => UInt32.toNat_inj.mp same)
  have bound : (offset :: loader.offsets kind).map UInt32.toNat ⊆ List.range UInt32.size := by
    intro number member
    obtain ⟨place, -, rfl⟩ := List.mem_map.mp member
    exact List.mem_range.mpr place.toNat_lt
  have length := (numbers.subperm bound).length_le
  rw [List.length_map, List.length_cons, List.length_range] at length
  rw [coherent.size_eq tracked]
  exact length

/-- An item that is appended without being noted, of a kind whose items are not. -/
theorem push {kind : PoolKind} (untracked : ¬ kinds kind) {item : Item kind} (known : Known loader.loaded item) :
    Coherent kinds { loader with pools := loader.pools.push kind item } where
  distinct := coherent.distinct
  numbered one tracked := by
    have other : one ≠ kind := fun same => untracked (same ▸ tracked)
    rw [Pools.pool_push_of_ne _ other]
    exact coherent.numbered one tracked
  known one other member := by
    rcases Pools.mem_push member with old | ⟨rfl, rfl⟩
    · exact coherent.known one other old
    · exact known

/-- An item that is appended and noted under the next number. -/
theorem remember {kind : PoolKind} (tracked : kinds kind) {offset : UInt32} {item : Item kind}
    (fresh : ∀ index, ((kind.toSection, offset), index) ∉ loader.loaded) (known : Known loader.loaded item) :
    Coherent kinds { loader with
      pools := loader.pools.push kind item
      loaded := ((kind.toSection, offset), (loader.pools.pool kind).nextIndex) :: loader.loaded } where
  distinct := by
    refine List.nodup_cons.mpr ⟨fun member => ?_, coherent.distinct⟩
    obtain ⟨⟨key, index⟩, noted, rfl⟩ := List.mem_map.mp member
    exact fresh index noted
  numbered one followed := by
    dsimp only
    by_cases same : one = kind
    · subst same
      rw [Pools.pool_push_self, List.filter_cons_of_pos (by simp), List.map_cons, coherent.numbered one followed,
        Pool.size_push, List.range_succ, List.reverse_append, Pool.toNat_nextIndex (coherent.size_lt tracked fresh)]
      rfl
    · have differ : kind.toSection ≠ one.toSection := fun equal => same (PoolKind.toSection_injective equal.symm)
      rw [Pools.pool_push_of_ne _ same, List.filter_cons_of_neg (by simpa using differ)]
      exact coherent.numbered one followed
  known one other member := by
    have longer : loader.loaded ⊆ ((kind.toSection, offset), (loader.pools.pool kind).nextIndex) :: loader.loaded :=
      List.subset_cons_self _ _
    rcases Pools.mem_push member with old | ⟨rfl, rfl⟩
    · exact fun place held => (coherent.known one other old place held).mono longer
    · exact fun place held => (known place held).mono longer

end Coherent
end Loader

namespace Loading

/-- Whether a step leaves a loader coherent, whether it succeeds or fails, notes items of less than a depth alone, and
yields a value of which `post` holds. -/
structure Coheres {α : Type} (kinds : PoolKind → Prop) (depth : Nat)
    (step : Loading α) (post : Loaded → α → Prop) : Prop where
  holds : ∀ loader result after, step loader = (result, after) → loader.Coherent kinds →
    after.Coherent kinds ∧ loader.Notes depth after ∧ ∀ value, result = .ok value → post after.loaded value

/-- Whether a step that reads an item of a kind reads nested items of less depth, and yields an item whose
references are known. -/
abbrev CoheresItem (kinds : PoolKind → Prop) (kind : PoolKind) (step : Loading (Item kind)) : Prop :=
  Coheres kinds kind.depth step fun loaded item => Known loaded item

namespace Coheres

variable {α β : Type} {kinds : PoolKind → Prop} {depth : Nat} {step : Loading α} {mid post : Loaded → α → Prop}
  {last : Loaded → β → Prop}

theorem weaken (coheres : Coheres kinds depth step mid)
    (implies : ∀ loaded value, mid loaded value → post loaded value) :
    Coheres kinds depth step post := by
  constructor
  intro loader result after run coherent
  obtain ⟨coherent, notes, holds⟩ := coheres.holds _ _ _ run coherent
  exact ⟨coherent, notes, fun value same => implies _ _ (holds value same)⟩

theorem mono (coheres : Coheres kinds depth step post) {deeper : Nat} (le : depth ≤ deeper) :
    Coheres kinds deeper step post := by
  constructor
  intro loader result after run coherent
  obtain ⟨coherent, notes, holds⟩ := coheres.holds _ _ _ run coherent
  exact ⟨coherent, notes.mono le, holds⟩

/-- A step that at most moves the cursor. -/
theorem of_moves (moves : ∀ loader : Loader, ∃ cursor, (step loader).2 = { loader with cursor }) :
    Coheres kinds depth step fun _ _ => True := by
  constructor
  intro loader result after run coherent
  obtain ⟨cursor, same⟩ := moves loader
  obtain rfl : after = { loader with cursor } := by rw [← same, run]
  exact ⟨coherent.moved cursor, ⟨List.suffix_refl _, fun _ _ _ member _ => member⟩, fun _ _ => trivial⟩

theorem read {step : Decoder α} : Coheres kinds depth (ofDecoder step) fun _ _ => True :=
  of_moves fun _ => ⟨_, rfl⟩

protected theorem get : Coheres kinds depth (get : Loading Loader) fun _ _ => True :=
  of_moves fun loader => ⟨loader.cursor, rfl⟩

protected theorem pure {value : α} (holds : ∀ loaded, post loaded value) : Coheres kinds depth (pure value) post := by
  constructor
  rintro loader result after ⟨⟩ coherent
  refine ⟨coherent, .refl _ _, ?_⟩
  rintro other ⟨⟩
  exact holds _

/-- What a first step yields has its property until the last one is done. -/
protected theorem bind {next : α → Loading β} (first : Coheres kinds depth step mid)
    (stable : ∀ {loaded longer value}, loaded ⊆ longer → mid loaded value → mid longer value)
    (rest : ∀ value, Coheres kinds depth (next value) fun loaded result => mid loaded value → last loaded result) :
    Coheres kinds depth (step >>= next) last := by
  constructor
  intro loader result after run coherent
  rcases start : step loader with ⟨fault | value, between⟩
  · rw [Reading.bind_error start] at run
    obtain ⟨rfl, rfl⟩ := Prod.mk.inj run
    obtain ⟨coherent, notes, -⟩ := first.holds _ _ _ start coherent
    exact ⟨coherent, notes, by rintro other ⟨⟩⟩
  · rw [Reading.bind_ok start] at run
    obtain ⟨coherent, notes, holds⟩ := first.holds _ _ _ start coherent
    obtain ⟨coherent, notes', follows⟩ := (rest value).holds _ _ _ run coherent
    exact ⟨coherent, notes.trans notes', fun other same =>
      follows other same (stable notes'.suffix.subset (holds value rfl))⟩

/-- A step whose value does not matter. -/
theorem skip {next : α → Loading β} (first : Coheres kinds depth step fun _ _ => True)
    (rest : ∀ value, Coheres kinds depth (next value) last) : Coheres kinds depth (step >>= next) last :=
  first.bind (fun _ => id) fun value => (rest value).weaken fun _ _ holds _ => holds

/-- A reference that is known stays known. -/
theorem ref_bind {target : PoolKind} {step : Loading (DataRef target)} {next : DataRef target → Loading β}
    (first : Coheres kinds depth step fun loaded ref => ref.Known loaded)
    (rest : ∀ ref, Coheres kinds depth (next ref) fun loaded result => ref.Known loaded → last loaded result) :
    Coheres kinds depth (step >>= next) last :=
  first.bind (fun subset known => known.mono subset) rest

theorem read_bind {step : Decoder α} {next : α → Loading β} (rest : ∀ value, Coheres kinds depth (next value) last) :
    Coheres kinds depth (ofDecoder step >>= next) last :=
  read.skip rest

protected theorem map {edit : α → β} (coheres : Coheres kinds depth step fun loaded value => last loaded (edit value))
    (stable : ∀ {loaded longer value}, loaded ⊆ longer → last loaded value → last longer value) :
    Coheres kinds depth (edit <$> step) last := by
  rw [← bind_pure_comp]
  exact coheres.bind stable fun value => .pure fun _ => id

protected theorem within (coheres : Coheres kinds depth step post) (site : Site) :
    Coheres kinds depth (Reading.within site step) post := by
  constructor
  intro loader result after run coherent
  rcases start : step loader with ⟨fault | value, between⟩
  · rw [Reading.within_error start] at run
    obtain ⟨rfl, rfl⟩ := Prod.mk.inj run
    obtain ⟨coherent, notes, -⟩ := coheres.holds _ _ _ start coherent
    exact ⟨coherent, notes, by rintro other ⟨⟩⟩
  · rw [Reading.within_ok start] at run
    obtain ⟨rfl, rfl⟩ := Prod.mk.inj run
    exact coheres.holds _ _ _ start coherent

protected theorem ite {condition : Prop} [Decidable condition]
    {yes no : Loading α} (first : Coheres kinds depth yes post)
    (second : Coheres kinds depth no post) : Coheres kinds depth (if condition then yes else no) post := by
  split_ifs
  · exact first
  · exact second

theorem fail_bind {cause : Cause} {next : β → Loading α} : Coheres kinds depth (Reading.fail cause >>= next) post := by
  constructor
  intro loader result after run coherent
  rw [Reading.bind_error (show Reading.fail cause loader = (.error _, loader) from rfl)] at run
  obtain ⟨rfl, rfl⟩ := Prod.mk.inj run
  exact ⟨coherent, .refl _ _, by rintro value ⟨⟩⟩

theorem collect {count : Nat} {step : Nat → Loading α} (each : ∀ index, Coheres kinds depth (step index) post)
    (stable : ∀ {loaded longer value}, loaded ⊆ longer → post loaded value → post longer value) :
    Coheres kinds depth (Reading.collect count step) fun loaded values => ∀ value ∈ values, post loaded value := by
  have go (count index : Nat) (found : List α) : Coheres kinds depth (Reading.collect.go step count index found)
      fun loaded values => (∀ value ∈ found, post loaded value) → ∀ value ∈ values, post loaded value := by
    induction count generalizing index found with
    | zero => exact .pure fun loaded good value member => good value (List.mem_reverse.mp member)
    | succ count ih =>
      refine (each index).bind stable fun value => (ih (index + 1) (value :: found)).weaken ?_
      exact fun loaded values others holds good => others (List.forall_mem_cons.mpr ⟨holds, good⟩)
  exact (go count 0 []).weaken fun loaded values good => good fun _ member => absurd member List.not_mem_nil

protected theorem detour (coheres : Coheres kinds depth step post)
    (stable : ∀ {loaded longer value}, loaded ⊆ longer →
      post loaded value → post longer value) (site : Site) (offset : Nat) :
    Coheres kinds depth (detour site offset step) post := by
  refine read_bind fun position => (read.within site).skip fun _ => coheres.bind stable fun value => ?_
  exact read_bind fun _ => .pure fun _ => id

variable {kind : PoolKind} {step : Loading (Item kind)}

/-- An entry of an id table is appended without being noted. -/
theorem append (untracked : ¬ kinds kind) (entry : Coheres kinds depth step fun loaded item => Known loaded item) :
    Coheres kinds depth (do
      let item ← step
      discard (Loading.append kind item)) fun _ _ => True := by
  constructor
  intro loader result after run coherent
  rcases start : step loader with ⟨fault | item, between⟩
  · rw [Reading.bind_error start] at run
    obtain ⟨rfl, rfl⟩ := Prod.mk.inj run
    obtain ⟨coherent, notes, -⟩ := entry.holds _ _ _ start coherent
    exact ⟨coherent, notes, fun _ _ => trivial⟩
  · rw [Reading.bind_ok start] at run
    obtain ⟨rfl, rfl⟩ := Prod.mk.inj run
    obtain ⟨coherent, notes, known⟩ := entry.holds _ _ _ start coherent
    exact ⟨coherent.push untracked (known item rfl), ⟨notes.suffix, notes.apart⟩, fun _ _ => trivial⟩

variable (tracked : kinds kind) (items : CoheresItem kinds kind step) (deep : kind.depth < depth)
include tracked items deep

/-- An item is noted where it has been read. What is read with it is of other kinds, and is noted before it. -/
protected theorem load (offset : UInt32) : Coheres kinds depth (load kind step offset) fun loaded index =>
    ((kind.toSection, offset), index) ∈ loaded := by
  constructor
  intro loader result after run coherent
  rcases found : loader.loaded? kind.toSection offset with _ | index
  · rw [load_unknown found] at run
    have unknown := Loader.loaded?_eq_none_iff.mp found
    have inner := (items.within (.itemAt kind.toSection offset.toNat)).detour
      (fun subset known one member => (known one member).mono subset) (.itemAt kind.toSection offset.toNat) offset.toNat
    rcases start : detour (.itemAt kind.toSection offset.toNat) offset.toNat
        (Reading.within (.itemAt kind.toSection offset.toNat) step) loader with ⟨fault | item, between⟩
    · rw [Reading.bind_error start] at run
      obtain ⟨rfl, rfl⟩ := Prod.mk.inj run
      obtain ⟨coherent, notes, -⟩ := inner.holds _ _ _ start coherent
      exact ⟨coherent, notes.mono (Nat.le_of_lt deep), by rintro other ⟨⟩⟩
    · rw [Reading.bind_ok start] at run
      obtain ⟨rfl, rfl⟩ := Prod.mk.inj run
      obtain ⟨coherent, notes, known⟩ := inner.holds _ _ _ start coherent
      -- What has been noted meanwhile is of kinds less deep, so that the offset is still new.
      have fresh (index : UInt32) : ((kind.toSection, offset), index) ∉ between.loaded := fun noted =>
        unknown index (notes.apart kind (Nat.le_refl _) _ noted rfl)
      refine ⟨coherent.remember tracked fresh (known item rfl), ⟨notes.suffix.trans (List.suffix_cons _ _), ?_⟩, ?_⟩
      · intro one deeper entry noted same
        rcases List.mem_cons.mp noted with rfl | noted
        · obtain rfl := PoolKind.toSection_injective same
          omega
        · exact notes.apart one (Nat.le_trans (Nat.le_of_lt deep) deeper) entry noted same
      · rintro index ⟨⟩
        exact List.mem_cons_self
  · rw [load_known found] at run
    obtain ⟨rfl, rfl⟩ := Prod.mk.inj run
    refine ⟨coherent, .refl _ _, ?_⟩
    rintro other ⟨⟩
    exact (Loader.loaded?_eq_some coherent.distinct).mp found

theorem refAt (offset : UInt32) : Coheres kinds depth (refAt kind step offset) fun loaded ref => ref.Known loaded := by
  rw [Loading.refAt]
  split_ifs with none
  · exact .pure fun _ => .inl rfl
  · exact (Coheres.load tracked items deep offset).bind (fun subset noted => subset noted) fun index =>
      .pure fun _ noted => .inr ⟨index, offset, rfl, none, noted⟩

theorem ref : Coheres kinds depth (ref kind step) fun loaded ref => ref.Known loaded :=
  .read_bind fun offset => .refAt tracked items deep offset

end Coheres
end Loading
end DexImage
