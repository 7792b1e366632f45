import DexImage.Proofs.Codec.Cursors
import DexImage.Proofs.Loading.Coherent
import DexImage.Proofs.Loading.Lenient
/-! # Code items that are read whatever has been read before

A loader remembers what it has read, so that whether an item can be read might depend on what came before. It
does not for code items. A step of a loader that has read nothing can be followed by another loader at the same
place (`Loader.Follows`): what the first one reads the other one reads too, or it has read it already. So an
image holds a code item at an offset if a loader that has read nothing reads one there (`Cursor.HoldsCode`), and
then every loader gets a reference to it (`Cursor.HoldsCode.refAt`).
-/

namespace DexImage

open Reading
open Decoder (Moves)

theorem CodeItem.moves_units (start : Nat) (count : UInt32) : Moves (decodeUnits start count) := by
  refine .bind .remaining fun left => ?_
  split_ifs
  · exact .fail _
  · exact .collect fun _ => .u2

theorem HandlerList.moves_decode : Moves decode := by
  refine .bind .varint fun size => .bind (.collect fun _ => .bind .varint fun _ =>
    .bind .varint fun _ => .pure _) fun _ => ?_
  split_ifs
  · exact .bind .varint fun _ => .pure _
  · exact .pure _

theorem TryTable.moves_decode (count : UInt16) : Moves (decode count) := by
  refine .bind (.collect fun _ => .bind .u4 fun _ => .bind .u2 fun _ => .bind .u2 fun _ => .pure _) fun _ => ?_
  refine .bind .position fun _ => .bind .varint fun _ => .bind ?_ fun _ => .bind (.ofResult _) fun _ => .pure _
  exact .collect fun _ => .bind .position fun _ => .bind (HandlerList.moves_decode.within _) fun _ => .pure _

theorem DebugOp.moves_operands (code : UInt8) : Moves (decodeOperands code) := by
  have name : Moves (Decoder.plusOneIndex : Decoder (IdRef .stringId)) := .bind .varint fun _ => .pure _
  have type : Moves (Decoder.plusOneIndex : Decoder (IdRef .typeId)) := .bind .varint fun _ => .pure _
  rw [decodeOperands]
  split_ifs
  · exact .bind .varint fun _ => .pure _
  · exact .bind .varint fun _ => .pure _
  · exact .bind .varint fun _ => .bind name fun _ => .bind type fun _ => .pure _
  · exact .bind .varint fun _ => .bind name fun _ => .bind type fun _ => .bind name fun _ => .pure _
  · exact .bind .varint fun _ => .pure _
  · exact .bind .varint fun _ => .pure _
  · exact .pure _
  · exact .pure _
  · exact .bind name fun _ => .pure _
  · exact .pure _

theorem DebugInfo.moves_decode : Moves decode := by
  have go (fuel : Nat) (found : List DebugOp) : Moves (decodeOps.go fuel found) := by
    induction fuel generalizing found with
    | zero => exact .pure _
    | succ fuel ih =>
      refine .bind .u1 fun code => ?_
      split_ifs
      · exact .pure _
      · exact .bind (DebugOp.moves_operands code) fun op => ih (op :: found)
  refine .bind .varint fun _ => .bind .varint fun _ =>
    .bind (.collect fun _ => .bind .varint fun _ => .pure _) fun _ => ?_
  exact .bind (.bind .remaining fun _ => go _ _) fun _ => .pure _

namespace Loader

/-- Whether a loader stands somewhere in an image and is as strict as given. -/
structure Over (image : Cursor) (strict : Bool) (loader : Loader) : Prop where
  inside : ∃ position, loader.cursor = { image with position }
  strictness : loader.strict = strict

/-- Whether a loader stands where another one does that has read no data item of the image. -/
structure Follows (image : Cursor) (strict : Bool) (first other : Loader) : Prop where
  stands : first.Over image strict
  cursor : other.cursor = first.cursor
  strictness : other.strict = first.strict
  unread : first.loaded = []

theorem Follows.stands_other {image : Cursor} {strict : Bool}
    {first other : Loader} (follows : Follows image strict first other) :
    other.Over image strict :=
  ⟨follows.cursor ▸ follows.stands.inside, follows.strictness.trans follows.stands.strictness⟩

end Loader

namespace Loading

variable {α β : Type} {image : Cursor} {strict : Bool}

/-- Whether a step that succeeds for a loader that has read nothing yields the same for one that follows it. -/
abbrev Repeats (image : Cursor) (strict : Bool) (step : Loading α) : Prop :=
  Admits (Loader.Follows image strict) step step

/-- Whether a step that succeeds for a loader that has read nothing succeeds for one that follows it. -/
def Persists (image : Cursor) (strict : Bool) (step : Loading α) : Prop :=
  ∀ ⦃first other value after⦄, Loader.Follows image strict first other → step first = (.ok value, after) →
    ∃ value' after', step other = (.ok value', after') ∧ after'.Over image strict

namespace Repeats

theorem reads {step : Decoder α} (moves : step.Moves) : Repeats image strict (ofDecoder step) := by
  rintro ⟨_, _, pools, loaded⟩ ⟨cursor, strict', pools', loaded'⟩ value after
    ⟨⟨⟨old, inside⟩, same⟩, rfl, rfl, unread⟩ run
  obtain ⟨decoded, rfl⟩ := Prod.mk.inj run
  obtain ⟨position, moved⟩ := moves cursor
  have inside : ∃ position, (step cursor).2 = { image with position } :=
    ⟨position, by rw [moved, show cursor = _ from inside]⟩
  exact ⟨_, Prod.ext decoded rfl, ⟨inside, same⟩, rfl, rfl, unread⟩

protected theorem detour {step : Loading α} (repeats : Repeats image strict step) (site : Site) (offset : Nat) :
    Repeats image strict (detour site offset step) :=
  .bind (reads .position) fun _ => .bind (.within (reads (.seek offset)) site) fun _ => .bind repeats fun _ =>
    .bind (reads (.seek _)) fun _ => .pure

end Repeats

namespace Persists

variable {step : Loading α} {next : α → Loading β}

protected theorem bind (first : Repeats image strict step) (rest : ∀ value, Persists image strict (next value)) :
    Persists image strict (step >>= next) := by
  intro loader other value after follows run
  obtain ⟨middle, between, run, last⟩ := bind_eq_ok.mp run
  obtain ⟨between', run', follows⟩ := first follows run
  obtain ⟨value', after', last', stands⟩ := rest middle follows last
  exact ⟨value', after', bind_eq_ok.mpr ⟨middle, between', run', last'⟩, stands⟩

theorem bind_pure {edit : α → β} (persists : Persists image strict step) :
    Persists image strict (step >>= fun value => pure (edit value)) := by
  intro loader other value after follows run
  obtain ⟨middle, between, run, -⟩ := bind_eq_ok.mp run
  obtain ⟨value', after', run', stands⟩ := persists follows run
  exact ⟨edit value', after', bind_eq_ok.mpr ⟨value', after', run', rfl⟩, stands⟩

protected theorem within (persists : Persists image strict step) (site : Site) :
    Persists image strict (Reading.within site step) := by
  intro loader other value after follows run
  obtain ⟨value', after', run', stands⟩ := persists follows (within_eq_ok.mp run)
  exact ⟨value', after', within_ok run', stands⟩

protected theorem ite {condition : Prop} [Decidable condition] {yes no : Loading α} (first : Persists image strict yes)
    (second : Persists image strict no) : Persists image strict (if condition then yes else no) := by
  split_ifs
  · exact first
  · exact second

/-- A check that depends on how strict the loader is. -/
theorem strict_bind {condition : Bool} {cause : Cause} {rest : Loading β} (passed : Persists image strict rest) :
    Persists image strict (get >>= fun loader : Loader =>
      if (loader.strict && condition) = true then Reading.fail cause >>= fun _ : Unit => rest else rest) := by
  intro first other value after follows run
  rw [bind_ok (get_run first)] at run
  rw [bind_ok (get_run other), follows.strictness]
  split_ifs at run ⊢ with refused
  · cases run
  · exact passed follows run

/-- An item is read, or it has been read already. -/
protected theorem load {kind : PoolKind} {step : Loading (Item kind)}
    (repeats : Repeats image strict step) (offset : UInt32) :
    Persists image strict (load kind step offset) := by
  intro first other index after follows run
  rcases known : other.loaded? kind.toSection offset with _ | index'
  · have unknown : first.loaded? kind.toSection offset = none := by
      rw [Loader.loaded?, follows.unread]
      rfl
    rw [load_unknown unknown] at run
    obtain ⟨item, between, run, -⟩ := bind_eq_ok.mp run
    obtain ⟨between', run', follows⟩ := Repeats.detour (Admits.within repeats _) _ _ follows run
    refine ⟨_, _, (load_unknown known).trans (bind_ok run'), ?_⟩
    exact ⟨follows.stands_other.inside, follows.stands_other.strictness⟩
  · exact ⟨index', other, load_known known, follows.stands_other⟩

theorem refAt {kind : PoolKind} {step : Loading (Item kind)} (repeats : Repeats image strict step) (offset : UInt32) :
    Persists image strict (refAt kind step offset) := by
  rw [Loading.refAt]
  split_ifs
  · exact fun first other value after follows run => ⟨.absent, other, rfl, follows.stands_other⟩
  · exact bind_pure (.load repeats offset)

end Persists
end Loading

open Loading

namespace CodeItem

theorem persists_load (image : Cursor) (strict : Bool) : Persists image strict load := by
  have reads {α : Type} {step : Decoder α} (moves : step.Moves) : Repeats image strict (ofDecoder step) := .reads moves
  refine .bind (reads .position) fun start => .bind (reads .u2) fun registers => .bind (reads .u2) fun ins => ?_
  refine .bind (reads .u2) fun outs => .bind (reads .u2) fun triesSize => .strict_bind ?_
  refine .bind (reads .u4) fun debugOffset => .bind (reads .u4) fun unitCount =>
    .bind (reads (moves_units _ _)) fun units => ?_
  have last (tryTable : Option TryTable) : Persists image strict (do
      let debugInfo ← Reading.within (.itemAt .code start)
        (Loading.refAt .debugInfo (ofDecoder DebugInfo.decode) debugOffset)
      return CodeItem.mk registers ins outs debugInfo (.ofUnits units) tryTable) :=
    .bind_pure (.within (.refAt (reads DebugInfo.moves_decode) debugOffset) _)
  have table :
      Repeats image strict (some <$> Reading.within (.tryTable start) (ofDecoder (TryTable.decode triesSize))) :=
    Admits.map (Admits.within (reads (TryTable.moves_decode _)) _) _
  refine .ite (.bind (Admits.map (reads .u2) _) fun _ => ?_) ?_
  all_goals exact .ite (.bind table last) (.bind Admits.pure last)

end CodeItem

theorem Loader.seek_eq_ok {loader after : Loader} {offset : Nat} {value : Unit} :
    ofDecoder (Decoder.seek offset) loader = (.ok value, after) ↔
      offset ≤ loader.cursor.bytes.size ∧ after = { loader with cursor.position := offset } := by
  by_cases inside : offset ≤ loader.cursor.bytes.size
  · rw [seek_run inside, Prod.mk.injEq]
    exact ⟨fun same => ⟨inside, same.2.symm⟩, fun same => ⟨rfl, same.2.symm⟩⟩
  · refine iff_of_false (fun run => ?_) (inside ·.1)
    change ((if loader.cursor.bytes.size < offset then _ else _ : Decoder Unit) loader.cursor |>.1, _) = _ at run
    rw [if_pos (Nat.lt_of_not_le inside)] at run
    cases run

namespace Cursor

/-- Goes to an offset of an image and reads a code item there, before anything else has been read. -/
def codeAt (image : Cursor) (strict : Bool) (offset : UInt32) : Result CodeItem × Loader :=
  (do
    ofDecoder (Decoder.seek offset.toNat)
    CodeItem.load : Loading CodeItem) (.ofCursor image strict)

/-- Whether a loader that has read nothing reads a code item at an offset of an image. -/
def HoldsCode (image : Cursor) (strict : Bool) (offset : UInt32) : Prop :=
  ∃ code, (image.codeAt strict offset).1 = .ok code

instance (image : Cursor) (strict : Bool) (offset : UInt32) : Decidable (image.HoldsCode strict offset) :=
  decidable_of_iff ((image.codeAt strict offset).1.toOption.isSome = true)
    ⟨Result.exists_of_toOption, fun ⟨code, same⟩ => by rw [same]; rfl⟩

/-- Every loader gets a reference to a code item that its image holds, and comes back from there. -/
theorem HoldsCode.refAt {image : Cursor} {strict : Bool} {offset : UInt32} (holds : image.HoldsCode strict offset)
    (nonzero : offset ≠ 0) {loader : Loader} (stands : loader.Over image strict)
    (inside : loader.cursor.position ≤ loader.cursor.bytes.size) :
    ∃ index after, Loading.refAt .code CodeItem.load offset loader = (.ok (.placed index offset), after) ∧
      after.cursor = loader.cursor ∧ after.Over image strict := by
  rw [Loading.refAt, if_neg nonzero]
  rcases known : loader.loaded? (PoolKind.toSection .code) offset with _ | index
  · obtain ⟨code, same⟩ := holds
    have run : image.codeAt strict offset = (.ok code, (image.codeAt strict offset).2) := Prod.ext same rfl
    obtain ⟨_, there, sought, read⟩ := bind_eq_ok.mp run
    obtain ⟨room, rfl⟩ := Loader.seek_eq_ok.mp sought
    obtain ⟨position, same⟩ := stands.inside
    have follows : Loader.Follows image strict { Loader.ofCursor image strict with cursor.position := offset.toNat }
        { loader with cursor.position := offset.toNat } :=
      ⟨⟨⟨offset.toNat, rfl⟩, rfl⟩, by rw [same]; rfl, stands.strictness, rfl⟩
    obtain ⟨code', between, read, ⟨stop, stopped⟩, strictness⟩ := CodeItem.persists_load image strict follows read
    have moved : between.cursor = { loader.cursor with position := stop } := by
      rw [stopped, same]
    have found :=
      load_eq_ok.mpr (.inr ⟨known, code', _, detour_run (same ▸ room) inside (within_ok read) moved, rfl, rfl⟩)
    exact ⟨_, _, bind_ok found, rfl, stands.inside, strictness⟩
  · exact ⟨index, loader, bind_ok (load_known known), rfl, stands⟩

end Cursor
end DexImage
