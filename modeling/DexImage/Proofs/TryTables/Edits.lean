import DexImage.Proofs.Rereading.Decoding
/-! # Edits of a try table and its edit mark

The edit mark of a table is that of its handler lists. It tells of every edit of the lists, and of an edit of
the ranges that comes with one. Two edits change the ranges alone: a range is added whose handlers are there
already, or the ranges of a table without handler lists are cleared (`TryTable.Operation.slips`). Where none of
these has happened since a table was last refreshed, or read, a table without an edit mark is as it was then.
-/

namespace DexImage

namespace TryTable

/-- What can be done to a table. -/
inductive Operation : Type 1 where
  | add (start : UInt32) (count : UInt16) (list : HandlerList)
  | clear
  | merge {τ : Type} (translator : Translator τ) (state : τ) (other : TryTable)
  | visit {σ : Type} (visitor : Visitor σ) (state : σ)
  | refresh

namespace Operation

/-- What an operation makes of a table. A merge that fails leaves it as it is. -/
def apply (table : TryTable) : Operation → TryTable
  | add start count list => table.add start count list
  | clear => table.clear
  | merge translator state other => (TryTable.merge translator other state).1.toOption.getD table
  | visit visitor state => (Referring.visit visitor table state).1
  | refresh => Encodable.refresh table

/-- Whether an operation changes the ranges of a table and leaves its handler lists alone. -/
def slips (table : TryTable) : Operation → Bool
  | add _ _ list => table.handlers.items.contains list
  | clear => table.handlers.isEmpty && !table.isEmpty
  | _ => false

end Operation

/-- What edits come to: they leave the edit mark, or change nothing, or slip and add ranges to those of a table
with handler lists, or drop those of a table without. -/
inductive Effect (table : TryTable) : (after : TryTable) → (slipped : Bool) → Prop
  | marked {after : TryTable} {slipped : Bool} (dirty : after.handlers.dirty = true) : Effect table after slipped
  | kept : Effect table table false
  | extended (handled : table.handlers.items ≠ []) {added : List TryItem} (more : added ≠ []) :
      Effect table { table with tries := table.tries ++ added } true
  | dropped (unhandled : table.handlers.items = []) (covered : table.tries ≠ []) :
      Effect table { table with tries := [] } true

/-- An edit mark stays, and edits that slip come to one of their kind. -/
theorem Effect.trans {first second third : TryTable} {slipped slips : Bool} (before : Effect first second slipped)
    (after : Effect second third slips) : Effect first third (slipped || slips) := by
  cases after with
  | marked dirty => exact .marked dirty
  | kept => rwa [Bool.or_false]
  | extended handled more =>
    rw [Bool.or_true]
    cases before with
    | marked dirty => exact .marked dirty
    | kept => exact .extended handled more
    | extended before =>
      rw [List.append_assoc]
      exact .extended before (List.append_ne_nil_of_right_ne_nil _ more)
    | dropped unhandled => exact absurd unhandled handled
  | dropped unhandled covered =>
    rw [Bool.or_true]
    cases before with
    | marked dirty => exact .marked dirty
    | kept => exact .dropped unhandled covered
    | extended handled => exact absurd unhandled handled
    | dropped => exact absurd rfl covered

theorem effect_add (table : TryTable) (start : UInt32) (count : UInt16) (list : HandlerList) :
    Effect table (table.add start count list) (table.handlers.items.contains list) := by
  rw [add]
  split
  case h_1 slot found =>
    obtain ⟨inside, same, -⟩ := List.findIdx?_eq_some_iff_getElem.mp found
    obtain rfl := eq_of_beq same
    have there := List.getElem_mem inside
    rw [List.contains_iff_mem.mpr there]
    exact .extended (List.ne_nil_of_mem there) (List.cons_ne_nil _ _)
  case h_2 => exact .marked rfl

theorem effect_clear (table : TryTable) : Effect table table.clear (table.handlers.isEmpty && !table.isEmpty) := by
  obtain ⟨tries, ⟨_ | ⟨list, rest⟩, dirty⟩⟩ := table
  · cases tries with
    | nil => exact .kept
    | cons item rest => exact .dropped rfl (List.cons_ne_nil _ _)
  · exact .marked rfl

theorem effect_merge {τ : Type} (table : TryTable) (translator : Translator τ) (state : τ) (other : TryTable) :
    Effect table ((merge translator other state).1.toOption.getD table) false := by
  rcases run : translate translator other state with ⟨⟨_ | fault, taken⟩, after⟩
  · have merged : (merge translator other state).1 = .ok { taken with handlers := taken.handlers.markDirty } := by
      simp only [merge, bind, StateT.bind, run]
      rfl
    rw [merged]
    exact .marked rfl
  · have refused : (merge translator other state).1 = .error fault := by
      simp only [merge, bind, StateT.bind, run]
      rfl
    rw [refused]
    exact .kept

/-- Every operation but refreshing is an edit. -/
theorem effect_apply (table : TryTable) {operation : Operation} (edit : operation ≠ .refresh) :
    Effect table (operation.apply table) (operation.slips table) := by
  cases operation with
  | add start count list => exact effect_add table start count list
  | clear => exact effect_clear table
  | merge translator state other => exact effect_merge table translator state other
  | visit visitor state => exact .marked rfl
  | refresh => exact absurd rfl edit

/-- A table with what it was when it was last refreshed, or read. -/
structure History where
  last : TryTable
  table : TryTable
  /-- Whether the ranges have been changed alone since then. -/
  slipped : Bool

namespace History

def start (table : TryTable) : History := ⟨table, table, false⟩

def step (history : History) : Operation → History
  | .refresh => .start (refresh history.table)
  | operation =>
    { history with
      table := operation.apply history.table
      slipped := history.slipped || operation.slips history.table }

def run (table : TryTable) (operations : List Operation) : History := operations.foldl step (.start table)

/-- Whether the last table had no edit mark, and all that was done to it is known. -/
structure Sound (history : History) : Prop where
  clean : history.last.handlers.dirty = false
  effect : Effect history.last history.table history.slipped

variable {history : History}

theorem sound_start {table : TryTable} (clean : table.handlers.dirty = false) : (start table).Sound := ⟨clean, .kept⟩

theorem Sound.step (sound : history.Sound) (operation : Operation) : (history.step operation).Sound := by
  by_cases edit : operation = .refresh
  · subst edit
    exact sound_start rfl
  · have edited : history.step operation =
        { history with
          table := operation.apply history.table
          slipped := history.slipped || operation.slips history.table } := by
      cases operation <;> first | rfl | exact absurd rfl edit
    rw [edited]
    exact ⟨sound.clean, sound.effect.trans (effect_apply history.table edit)⟩

theorem Sound.run {table : TryTable} (clean : table.handlers.dirty = false) (operations : List Operation) :
    (run table operations).Sound := by
  have steps (history : History) (sound : history.Sound) : (operations.foldl History.step history).Sound := by
    induction operations generalizing history with
    | nil => exact sound
    | cons operation rest ih => exact ih _ (sound.step operation)
  exact steps _ (sound_start clean)

end History

/-- Tables that have just been read or refreshed. -/
inductive Fresh : TryTable → Prop
  | read {count : UInt16} {cursor after : Cursor} {table : TryTable}
      (success : decode count cursor = (.ok table, after)) : Fresh table
  | refreshed (table : TryTable) : Fresh (refresh table)

theorem Fresh.clean {table : TryTable} (fresh : table.Fresh) : table.handlers.dirty = false := by
  cases fresh with
  | read success => exact ((gives_readable _).holds _ _ _ success).2.2.2
  | refreshed => rfl

theorem isDirty_eq (table : TryTable) : isDirty table = table.handlers.dirty := by
  have lists : table.handlers.items.any isDirty = false := List.any_eq_false.mpr fun _ _ => Bool.false_ne_true
  change (table.handlers.dirty || table.handlers.items.any isDirty) = _
  rw [lists, Bool.or_false]

/-- Where a table that was read or refreshed, edited and refreshed in any order bears no edit mark, its handler
lists are as they were when it was last refreshed or read, and the table as a whole is as it was then just if no
edit since has changed the ranges alone. -/
theorem clean_iff_unslipped {table : TryTable} (fresh : table.Fresh) (operations : List Operation)
    (clean : isDirty (History.run table operations).table = false) :
    (History.run table operations).table.handlers = (History.run table operations).last.handlers ∧
      ((History.run table operations).table = (History.run table operations).last ↔
        (History.run table operations).slipped = false) := by
  obtain ⟨-, effect⟩ := History.Sound.run fresh.clean operations
  generalize History.run table operations = history at clean effect
  obtain ⟨last, now, slipped⟩ := history
  change Effect last now slipped at effect
  rw [isDirty_eq] at clean
  change now.handlers.dirty = false at clean
  change now.handlers = last.handlers ∧ (now = last ↔ slipped = false)
  cases effect with
  | marked dirty => exact absurd (clean.symm.trans dirty) Bool.false_ne_true
  | kept => exact ⟨rfl, iff_of_true rfl rfl⟩
  | extended handled more =>
    refine ⟨rfl, iff_of_false (fun same => more ?_) Bool.false_ne_true.symm⟩
    exact List.append_right_eq_self.mp (congrArg TryTable.tries same)
  | dropped unhandled covered =>
    exact ⟨rfl, iff_of_false (fun same => covered (congrArg TryTable.tries same).symm) Bool.false_ne_true.symm⟩

/-- A range that is added before the table is refreshed, and a merge after that which fails. -/
def settled : List Operation :=
  [.add 0 4 ⟨[.catchAll 5]⟩, .refresh,
    .merge (τ := Unit) (fun _ _ => pure (.error (Fault.of .targetMissing))) () ⟨[], .ofList [⟨[.typed (.of 0) 7]⟩]⟩]

theorem clean_iff_unslipped_settled : (refresh empty).Fresh ∧ isDirty
    (History.run (refresh empty) settled).table = false ∧
    (History.run (refresh empty) settled).table = (History.run (refresh empty) settled).last := by
  have clean : isDirty (History.run (refresh empty) settled).table = false := by
    rw [isDirty_eq]
    rfl
  obtain ⟨-, same⟩ := clean_iff_unslipped (.refreshed empty) settled clean
  exact ⟨.refreshed empty, clean, same.mpr rfl⟩

/-- One range with its handlers. -/
def covered : TryTable := ⟨[⟨0, 4, 0⟩], .ofList [⟨[.catchAll 5]⟩]⟩

/-- A range is added to a table without leaving an edit mark, since its handlers are there already. -/
theorem clean_extended : (refresh covered).Fresh ∧
    isDirty (History.run (refresh covered) [.add 4 1 ⟨[.catchAll 5]⟩]).table = false ∧
      (History.run (refresh covered) [.add 4 1 ⟨[.catchAll 5]⟩]).table ≠
        (History.run (refresh covered) [.add 4 1 ⟨[.catchAll 5]⟩]).last := by
  refine ⟨.refreshed covered, ?_, fun same => ?_⟩
  · rw [isDirty_eq]
    rfl
  · have longer : (refresh covered).tries ++ [⟨4, 1, 0⟩] = (refresh covered).tries := congrArg TryTable.tries same
    exact List.cons_ne_nil _ _ (List.append_right_eq_self.mp longer)

end TryTable
end DexImage
