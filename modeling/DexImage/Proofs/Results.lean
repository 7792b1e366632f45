import DexImage.Fault
/-! # Results

Where a result that goes on is a value, every step of it was one.
-/

namespace DexImage.Result

variable {α β : Type}

theorem bind_eq_ok {result : Result α} {next : α → Result β} {value : β} :
    (result >>= next) = .ok value ↔ ∃ first, result = .ok first ∧ next first = .ok value := by
  cases result with
  | error fault => exact iff_of_false (by rintro ⟨⟩) (by rintro ⟨_, ⟨⟩, _⟩)
  | ok first => exact ⟨fun next => ⟨first, rfl, next⟩, fun ⟨_, same, next⟩ => Except.ok.inj same ▸ next⟩

theorem map_eq_ok {result : Result α} {edit : α → β} {value : β} :
    (result >>= fun first => pure (edit first)) = .ok value ↔ ∃ first, result = .ok first ∧ edit first = value := by
  rw [bind_eq_ok]
  exact exists_congr fun first => and_congr_right fun _ => ⟨Except.ok.inj, congrArg _⟩

theorem exists_map_eq_ok {result : Result α} {edit : α → β} :
    (∃ value, (result >>= fun first => pure (edit first)) = .ok value) ↔ ∃ first, result = .ok first :=
  ⟨fun ⟨_, success⟩ => (map_eq_ok.mp success).imp fun _ => And.left,
    fun ⟨first, same⟩ => ⟨_, map_eq_ok.mpr ⟨first, same, rfl⟩⟩⟩

theorem within_eq_ok {result : Result α} {site : Site} {value : α} :
    result.within site = .ok value ↔ result = .ok value := by
  cases result with
  | error fault => exact iff_of_false (by rintro ⟨⟩) (by rintro ⟨⟩)
  | ok other => exact Iff.rfl

theorem toOption_eq_some {result : Result α} {value : α} : result.toOption = some value ↔ result = .ok value := by
  cases result with
  | error fault => exact iff_of_false (by rintro ⟨⟩) (by rintro ⟨⟩)
  | ok other => exact ⟨fun same => congrArg _ (Option.some.inj same), fun same => congrArg _ (Except.ok.inj same)⟩

theorem exists_of_toOption {result : Result α} (success : result.toOption.isSome) : ∃ value, result = .ok value := by
  cases result with
  | error fault => cases success
  | ok value => exact ⟨value, rfl⟩

end DexImage.Result
