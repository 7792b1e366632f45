/-! # Totals

Sizes and counts added up over the members of a list.
-/

namespace DexImage

variable {α β : Type}

/-- The sum of what `size` gives for each member. -/
def total (size : α → Nat) : List α → Nat
  | [] => 0
  | item :: rest => size item + total size rest

@[simp] theorem total_nil (size : α → Nat) : total size [] = 0 := rfl

@[simp] theorem total_cons (size : α → Nat) (item : α) (rest : List α) :
    total size (item :: rest) = size item + total size rest := rfl

@[simp] theorem total_append (size : α → Nat) (first second : List α) :
    total size (first ++ second) = total size first + total size second := by
  induction first with
  | nil => simp
  | cons item rest ih => simp [ih, Nat.add_assoc]

theorem length_flatMap_eq_total (parts : α → List β) (items : List α) :
    (items.flatMap parts).length = total (fun item => (parts item).length) items := by
  induction items with
  | nil => rfl
  | cons item rest ih => simp [ih]

end DexImage
