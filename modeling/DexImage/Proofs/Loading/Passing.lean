import DexImage.Loader
import DexImage.Proofs.Codec.Reading
import DexImage.Proofs.Lists
/-! # Loading past what is read

A loader passes some bytes when, wherever they lie ahead, it goes on behind them with its pools as they are
(`Loading.Passes`). What decoders read is passed, up to the first reference that has to be followed. That is to an
item that is known already, or to one that is read where it lies and noted (`Loading.load_eq_ok`).
-/

namespace DexImage

namespace Loader

variable {loader : Loader} {kind : SectionKind} {offset index : UInt32}

/-- What is known of an offset has been noted of it. -/
theorem mem_loaded (known : loader.loaded? kind offset = some index) : ((kind, offset), index) ∈ loader.loaded :=
  List.mem_of_lookup_eq_some known

theorem loaded?_eq_none_iff : loader.loaded? kind offset = none ↔
    ∀ index, ((kind, offset), index) ∉ loader.loaded := by
  rw [loaded?, List.lookup_eq_none_iff]
  constructor
  · intro differ index noted
    exact bne_iff_ne.mp (differ _ noted) rfl
  · rintro unknown ⟨key, index⟩ noted
    exact bne_iff_ne.mpr (by rintro rfl; exact unknown index noted)

end Loader

namespace Loading

variable {α β : Type}

theorem get_run (loader : Loader) : (get : Loading Loader) loader = (.ok loader, loader) := rfl

theorem position_run (loader : Loader) : ofDecoder Decoder.position loader = (.ok loader.cursor.position, loader) := rfl

theorem seek_run {loader : Loader} {place : Nat} (inside : place ≤ loader.cursor.bytes.size) :
    ofDecoder (Decoder.seek place) loader = (.ok (), { loader with cursor.position := place }) := by
  rw [ofDecoder]
  simp only [Decoder.seek_ok inside]

/-- A step that moves on from a place within the image is a detour from any other place in it. -/
theorem detour_run {site : Site} {place stop : Nat} {step : Loading α} {value : α} {loader between : Loader}
    (inside : place ≤ loader.cursor.bytes.size) (back : loader.cursor.position ≤ loader.cursor.bytes.size)
    (run : step { loader with cursor.position := place } = (.ok value, between))
    (moved : between.cursor = { loader.cursor with position := stop }) :
    detour site place step loader = (.ok value, { between with cursor := loader.cursor }) := by
  have returned : ofDecoder (Decoder.seek loader.cursor.position) between =
      (.ok (), { between with cursor := loader.cursor }) := by
    rw [seek_run (by rw [moved]; exact back), moved]
  rw [detour, Reading.bind_ok (position_run loader), Reading.bind_ok (Reading.within_ok (seek_run inside)),
    Reading.bind_ok run, Reading.bind_ok returned]
  rfl

section Load

variable {kind : PoolKind} {step : Loading (Item kind)} {offset index : UInt32} {loader after : Loader}

/-- What is known of an offset is loaded as that, and nothing else happens. -/
theorem load_known (known : loader.loaded? kind.toSection offset = some index) :
    load kind step offset loader = (.ok index, loader) := by
  rw [load, Reading.bind_ok (get_run loader)]
  simp only [known]
  rfl

/-- What is not known of an offset is read there and noted. -/
theorem load_unknown (unknown : loader.loaded? kind.toSection offset = none) : load kind step offset loader = (do
      let item ← detour (.itemAt kind.toSection offset.toNat) offset.toNat
        (Reading.within (.itemAt kind.toSection offset.toNat) step)
      let index ← append kind item
      modify fun loader => { loader with loaded := ((kind.toSection, offset), index) :: loader.loaded }
      return index : Loading UInt32) loader := by
  rw [load, Reading.bind_ok (get_run loader)]
  simp only [unknown]

/-- An item that is loaded is known, or it is read at its offset, appended and noted. -/
theorem load_eq_ok : load kind step offset loader = (.ok index, after) ↔
    loader.loaded? kind.toSection offset = some index ∧ after = loader ∨
      loader.loaded? kind.toSection offset = none ∧ ∃ item between,
        detour (.itemAt kind.toSection offset.toNat) offset.toNat
          (Reading.within (.itemAt kind.toSection offset.toNat) step) loader = (.ok item, between) ∧
        index = (between.pools.pool kind).nextIndex ∧ after = { between with
          pools := between.pools.push kind item
          loaded := ((kind.toSection, offset), index) :: between.loaded } := by
  rcases known : loader.loaded? kind.toSection offset with _ | found
  · rw [load_unknown known, Reading.bind_eq_ok]
    simp only [reduceCtorEq, false_and, false_or, true_and]
    refine exists_congr fun item => exists_congr fun between => and_congr_right fun _ => ?_
    constructor
    · rintro ⟨⟩
      exact ⟨rfl, rfl⟩
    · rintro ⟨rfl, rfl⟩
      rfl
  · rw [load_known known]
    simp only [reduceCtorEq, false_and, or_false, Option.some.injEq]
    constructor
    · rintro ⟨⟩
      exact ⟨rfl, rfl⟩
    · rintro ⟨rfl, rfl⟩
      rfl

end Load

/-- Whether a step reads some bytes, wherever they lie ahead, and goes on as another step. -/
def Passes (step : Loading α) (bytes : Bytes) (rest : Loading α) : Prop :=
  ∀ loader : Loader, loader.cursor.Ahead bytes →
    step loader = rest { loader with cursor := loader.cursor.advance bytes.length }

namespace Passes

variable {step rest : Loading α} {next : α → Loading β} {last : Loading β} {bytes first second : Bytes} {value : α}

protected theorem refl (step : Loading α) : Passes step [] step := fun _ _ => rfl

protected theorem bind (passes : Passes step first (pure value)) (then' : Passes (next value) second last) :
    Passes (step >>= next) (first ++ second) last := by
  intro loader there
  rw [Reading.bind_ok (passes loader there.left), then' _ there.right, Cursor.advance_advance, List.length_append]

/-- A last step that reads nothing. -/
theorem bind_pure (passes : Passes step bytes (pure value)) : Passes (step >>= next) bytes (next value) := by
  have whole := passes.bind (Passes.refl (next value))
  rwa [List.append_nil] at whole

theorem ofDecoder {step : Decoder α} (reads : Reads step bytes value) :
    Passes (ofDecoder step) bytes (pure value) := by
  intro loader there
  rw [Loading.ofDecoder]
  simp only [reads loader.cursor there]
  rfl

/-- A step that follows what a decoder reads. -/
theorem read_bind {step : Decoder α} (reads : Reads step first value) (then' : Passes (next value) second last) :
    Passes (Loading.ofDecoder step >>= next) (first ++ second) last :=
  (ofDecoder reads).bind then'

/-- A step that looks at the loader. -/
theorem get_bind {next : Loader → Loading β} (then' : ∀ loader, Passes (next loader) bytes last) :
    Passes (get >>= next) bytes last :=
  fun loader there => (Reading.bind_ok rfl).trans (then' loader loader there)

/-- Steps in a row pass parts in a row. -/
theorem collect {step : Nat → Loading α} {parts : List Bytes} {values : List α}
    (each : List.Forall₂ (fun part value => ∀ index, Passes (step index) part (pure value)) parts values) :
    Passes (Reading.collect values.length step) parts.flatten (pure values) := by
  have go (index : Nat) (found : List α) :
      Passes (Reading.collect.go step values.length index found) parts.flatten (pure (found.reverse ++ values)) := by
    induction each generalizing index found with
    | nil =>
      rw [List.append_nil]
      exact Passes.refl _
    | @cons part value parts values head _ ih =>
      rw [List.length_cons, Reading.collect.go, List.flatten_cons]
      have rest := ih (index + 1) (value :: found)
      rw [List.reverse_cons, List.append_assoc, List.singleton_append] at rest
      exact (head index).bind rest
  exact go 0 []

end Passes
end Loading
end DexImage
