import DexImage.Proofs.Codec.Writing
import DexImage.Proofs.TryTables.Refreshed
/-! # Ranges that name no handlers

A table in which a range names a slot without handlers is refused when it is written. Refreshing leaves the
slots as they are where every handler list is named, and leaves no lists at all where none is, and what comes
out is refused as well. In between it drops some lists and keeps others, and then hands the first of those it
keeps to the ranges that named none (`TryTable.substitute?`), so that the table can be written.
-/

namespace DexImage

namespace TryTable

/-- Whether some range names a slot without handlers. -/
def Dangles (table : TryTable) : Prop := ∃ item ∈ table.tries, table.handlers.length ≤ item.handler

/-- Whether the table cannot be written, because an index is out of range. -/
def Refused (table : TryTable) : Prop :=
  ∀ out, ∃ fault after, table.write out = (.error fault, after) ∧ fault.kind = .indexOutOfRange

variable {table : TryTable}

/-- The first range that cannot be written is one that names no handlers, or handlers that start too far behind. -/
theorem encodeTries_of_dangling {tries : List TryItem}
    (dangling : ∃ item ∈ tries, table.handlers.length ≤ item.handler)
    (index : Nat) : ∃ fault, table.encodeTries index tries = .error fault ∧ fault.kind = .indexOutOfRange := by
  induction tries generalizing index with
  | nil => simp at dangling
  | cons item rest ih =>
    rw [encodeTries]
    by_cases missing : table.handlers.length ≤ item.handler
    · rw [if_pos missing]
      exact ⟨_, rfl, rfl⟩
    · rw [if_neg missing]
      by_cases wide : 0xffff < table.handlerOffset item.handler
      · simp only [if_pos wide]
        exact ⟨_, rfl, rfl⟩
      · obtain ⟨fault, failure, kind⟩ := ih (by simpa [missing] using dangling) (index + 1)
        simp only [if_neg wide, failure]
        exact ⟨fault, rfl, kind⟩

theorem Dangles.refused (dangling : table.Dangles) : table.Refused := by
  intro out
  obtain ⟨fault, failure, kind⟩ := encodeTries_of_dangling dangling 0
  have encoded : encode table = .error fault := by
    change (do
      return (← table.encodeTries 0 table.tries) ++ Bytes.ofVarCount table.handlers.length
        ++ (← encode table.handlers) : Result Bytes) = _
    rw [failure]
    rfl
  obtain ⟨after, run⟩ := table.writes.run_error encoded out
  exact ⟨fault, after, run, kind⟩

theorem dangles_iff : table.Dangles ↔ ∃ one ∈ table.coverage, one.handlers = none := by
  simp only [Dangles, coverage, List.mem_map, exists_exists_and_eq_and, TrackedList.get?, List.getElem?_eq_none_iff]
  rfl

/-- Refreshing sorts what a table covers, once the ranges that name no handlers have been given some. -/
theorem stablySorted_refresh_orElse (table : TryTable) :
    StablySorted Coverage.start (table.coverage.map fun one => (one.orElse table.substitute?).normalized)
      (refresh table).coverage := by
  rw [coverage_refresh_eq, coverage_pruned, List.map_map]
  exact stablySorted_mergeSort Coverage.start _

theorem dangles_refresh_iff (table : TryTable) :
    (refresh table).Dangles ↔ table.Dangles ∧ table.substitute? = none := by
  rw [dangles_iff, dangles_iff]
  simp only [table.stablySorted_refresh_orElse.perm.mem_iff, List.mem_map, exists_exists_and_eq_and,
    Coverage.normalized,
    Coverage.orElse, Option.map_eq_none_iff, Option.or_eq_none_iff]
  tauto

/-- There is nothing to give to such a range where all handler lists are named, or none is. -/
theorem substitute?_eq_none_iff : table.substitute? = none ↔
    (∀ slot < table.handlers.length, table.names slot = true) ∨ ∀ slot < table.handlers.length,
    table.names slot = false := by
  rw [substitute?]
  split_ifs with every
  · exact iff_of_true rfl (.inl every)
  · rw [or_iff_right every, List.head?_eq_none_iff, namedLists, List.map_eq_nil_iff, List.filter_eq_nil_iff]
    constructor
    · intro unnamed slot inside
      have placed : (table.handlers.items[slot], slot) ∈ table.handlers.items.zipIdx :=
        List.mk_mem_zipIdx_iff_getElem?.mpr (List.getElem?_eq_getElem inside)
      exact Bool.eq_false_iff.mpr (unnamed _ placed)
    · intro unnamed placed member
      exact Bool.eq_false_iff.mp (unnamed placed.2 (List.snd_lt_of_mem_zipIdx member))

/-- A table with a range that names no handlers cannot be written. Refreshing keeps the handlers of each range, and none
where there were none, just if all handler lists are named or none is, and the table cannot be written then either.
Otherwise it gives the first list that is kept to all ranges that named none. -/
theorem refresh_dangling (dangling : table.Dangles) :
    table.Refused ∧
      ((refresh table).Dangles ↔
        (∀ slot < table.handlers.length, table.names slot = true) ∨
          ∀ slot < table.handlers.length, table.names slot = false) ∧
      ((refresh table).Dangles → (refresh table).Refused ∧
        StablySorted Coverage.start (table.coverage.map Coverage.normalized) (refresh table).coverage) ∧
      (¬(refresh table).Dangles → ∃ first, table.namedLists.head? = some first ∧
        StablySorted Coverage.start (table.coverage.map fun one => (one.orElse (some first)).normalized)
          (refresh table).coverage) := by
  have still : (refresh table).Dangles ↔ table.substitute? = none :=
    table.dangles_refresh_iff.trans (and_iff_right dangling)
  have sorted := table.stablySorted_refresh_orElse
  refine ⟨dangling.refused, still.trans substitute?_eq_none_iff,
    fun dangles => ⟨dangles.refused, ?_⟩, fun settled => ?_⟩
  · have same : Coverage.orElse none = id := funext fun one => congrArg (Coverage.mk _ _) Option.or_none
    rwa [still.mp dangles, same] at sorted
  · rw [still, substitute?] at settled
    split_ifs at settled with every
    · exact absurd rfl settled
    · obtain ⟨first, found⟩ := Option.ne_none_iff_exists'.mp settled
      rw [substitute?, if_neg every, found] at sorted
      exact ⟨first, found, sorted⟩

/-- Two ranges of which one names no handlers, while the only list is named by the other. -/
def halfNamed : TryTable := ⟨[⟨4, 1, 1⟩, ⟨0, 4, 0⟩], .ofList [⟨[.catchAll 5]⟩]⟩

theorem refresh_dangling_halfNamed : halfNamed.Dangles ∧ halfNamed.Refused ∧ (refresh halfNamed).Refused ∧
    StablySorted Coverage.start [⟨4, 1, none⟩, ⟨0, 4, some ⟨[.catchAll 5]⟩⟩] (refresh halfNamed).coverage := by
  have dangling : halfNamed.Dangles := ⟨⟨4, 1, 1⟩, List.mem_cons_self, by decide⟩
  obtain ⟨refused, still, sorted, -⟩ := refresh_dangling dangling
  obtain ⟨refusedStill, sorted⟩ := sorted (still.mpr (.inl (by decide)))
  exact ⟨dangling, refused, refusedStill, sorted⟩

/-- Two ranges of which one names no handlers, and a handler list that none of them names. -/
def masked : TryTable := ⟨[⟨0, 4, 0⟩, ⟨4, 1, 2⟩], .ofList [⟨[.catchAll 5]⟩, ⟨[.catchAll 9]⟩]⟩

/-- Dropping the unused list hands the other one to the range that named none, and the table can be written. -/
theorem refresh_masked : masked.Dangles ∧ masked.Refused ∧ masked.handlersAt? 4 = none ∧
    (∃ bytes : Bytes, (refresh masked).write [] = (.ok bytes.length, bytes)) ∧
      (refresh masked).handlersAt? 4 = some ⟨[.catchAll 5]⟩ := by
  have dangling : masked.Dangles := ⟨⟨4, 1, 2⟩, by decide, by decide⟩
  have refreshed : refresh masked = ⟨[⟨0, 4, 0⟩, ⟨4, 1, 0⟩], .ofList [⟨[.catchAll 5]⟩]⟩ := by
    have ascending : InOrder (masked.pruned.tries.map TryItem.start) := by
      unfold InOrder
      decide
    exact congrArg (TryTable.mk · _) (mergeSort_of_inOrder ascending)
  have encoded : encode (TryTable.mk [⟨0, 4, 0⟩, ⟨4, 1, 0⟩] (.ofList [⟨[.catchAll 5]⟩])) =
      .ok [0, 0, 0, 0, 4, 0, 1, 0, 4, 0, 0, 0, 1, 0, 1, 0, 1, 0, 5] := by decide +kernel
  rw [refreshed]
  exact ⟨dangling, dangling.refused, by decide, ⟨_, (writes _).run_ok encoded []⟩, by decide⟩

end TryTable
end DexImage
