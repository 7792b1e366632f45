import DexImage.Image.Merging
import DexImage.Proofs.Copying.Classes
import DexImage.Proofs.Layout.Agreement
import DexImage.Proofs.Loading.Images
import DexImage.Proofs.Reached.Loading
import DexImage.Proofs.Reached.Merging
import DexImage.Proofs.Reached.Writing
/-! # What is written is read back

An image that has been made by reading, interning, sorting, trimming, merging and writing is reached. When it is
written, the bytes are read back as an image with the same contents (`Image.Reached.read_write`). Reached images have
regular pools and a header with a version (`Image.Reached.sane`), and such images are written completely.
-/

namespace DexImage

open Pools

/-- A step that interns an id by what it names. -/
inductive Interned : Interning → Prop where
  | string (text : String) : Interned (internString text)
  | type (descriptor : String) : Interned (internType descriptor)
  | proto (returnType : String) (parameters : List String) : Interned (internProto returnType parameters)
  | field (definer name fieldType : String) : Interned (internField definer name fieldType)
  | method (definer name returnType : String) (parameters : List String) :
    Interned (internMethod definer name returnType parameters)

theorem Interned.regular {step : Interning} (interned : Interned step) {pools : Pools} (regular : pools.Regular) :
    (step pools).2.Regular := by
  cases interned with
  | string text => exact (@keeps_internString (fun _ => True) text pools regular trivial).1
  | type descriptor => exact (@keeps_internType (fun _ => True) descriptor pools regular trivial).1
  | proto returnType parameters =>
    exact (@keeps_internProto (fun _ => True) returnType parameters pools regular trivial).1
  | field definer name fieldType =>
    exact (@keeps_internField (fun _ => True) definer name fieldType pools regular trivial).1
  | method definer name returnType parameters =>
    exact (@keeps_internMethod (fun _ => True) definer name returnType parameters pools regular trivial).1

namespace Image

/-- The images that can be made from empty ones and from those that are read. What failed steps leave behind is
reached as well. -/
inductive Reached : Image → Prop where
  | new (version : Nat) : Reached (.ofVersion version)
  | read {bytes : Bytes} {options : ReadOptions} {image : Image}
    (success : read bytes options = .ok image) : Reached image
  | interned {image : Image} {step : Interning} (reached : Reached image) (interned : Interned step) :
    Reached { image with pools := (step image.pools).2 }
  | sorted {image after : Image} (reached : Reached image) (success : image.sortIds = .ok after) : Reached after
  | trimmed {image : Image} (reached : Reached image) : Reached image.removeUnused.2
  | merged {image source : Image} (index : UInt32) (reached : Reached image) (other : Reached source) :
    Reached (image.mergeClass source index).2
  | written {image after : Image} {bytes : Bytes} (reached : Reached image)
    (success : image.write = (.ok bytes, after)) :
    Reached after

/-- Whether an image has regular pools, and a version. -/
structure Sane (image : Image) : Prop where
  regular : image.pools.Regular
  version : image.header.version?.isSome

theorem Sane.write {image after : Image} {bytes : Bytes} (sane : image.Sane)
    (success : image.write = (.ok bytes, after)) : after.Sane := by
  obtain ⟨layout, written⟩ := write_eq_ok.mp success
  obtain ⟨-, checksum, signature, header⟩ := written.emitted
  refine ⟨written.planned.pools.regular sane.regular.refreshAll, ?_⟩
  rw [header]
  exact sane.version

theorem Reached.sane {image : Image} (reached : image.Reached) : image.Sane := by
  induction reached with
  | new version => exact ⟨.empty, Header.version?_ofVersion version⟩
  | read success =>
    obtain ⟨regular, version⟩ := regular_read success
    exact ⟨regular, version⟩
  | interned _ interned ih => exact ⟨interned.regular ih.regular, ih.version⟩
  | sorted _ success ih =>
    obtain ⟨regular, header⟩ := regular_of_sortIds ih.regular success
    exact ⟨regular, header ▸ ih.version⟩
  | @trimmed image _ ih =>
    refine ⟨regular_removeUnused ih.regular, ?_⟩
    have exact := image.removeUnused_exact.2
    rcases removal : image.removeUnused with ⟨fault | dropped, after⟩
    · simp only [removal] at exact
      rw [exact]
      exact ih.version
    · simp only [removal] at exact
      rw [exact.1]
      exact ih.version
  | @merged image source index _ _ ih ih' =>
    refine ⟨regular_mergeClass ih.regular ih'.regular index, ?_⟩
    rw [(mergeClass_faithful image source index).2.1]
    exact ih.version
  | written _ success ih => exact ih.write success

/-- What is written is loaded as it is stored. -/
theorem Sane.filled {image after : Image} {layout : Layout} {bytes : Bytes} (sane : image.Sane)
    (written : image.Written layout bytes after) : ∃ read cursor loader,
      Header.decode false (.ofBytes bytes) = (.ok read, cursor) ∧ read.spans = after.header.spans ∧
        loadTables read (.ofCursor cursor false) = (.ok layout.map, loader) ∧
        loader.Filled bytes after.pools layout [.classDef, .methodId, .fieldId, .protoId, .typeId, .stringId] := by
  obtain ⟨emitted, checksum, signature, header⟩ := written.emitted
  obtain ⟨added, listed, -⟩ := written.planned.header
  have first : ⟨.header, 1, 0⟩ ∈ layout.map.entries := by
    rw [listed]
    exact List.mem_cons_self
  refine filled_of_complete (written.complete sane.regular) emitted first ?_ ?_ ?_ ?_
  · exact (sane.write (write_eq_ok.mpr ⟨layout, written⟩)).version
  · rw [header]
    exact congrArg Nat.toUInt32 (Layout.encodedSize_applyTo layout image.header).symm
  · rw [header]
    rfl
  · rw [header]
    exact ⟨rfl, rfl, rfl, rfl, rfl, rfl⟩

/-- Whatever can be decoded and loaded is read if neither checksum nor rules matter. -/
theorem read_lenient {bytes : Bytes} {header : Header} {cursor : Cursor} {map : MapList} {loader : Loader}
    (decoded : Header.decode false (.ofBytes bytes) = (.ok header, cursor))
    (run : loadTables header (.ofCursor cursor false) = (.ok map, loader)) :
    Image.read bytes .lenient = .ok { header, pools := loader.pools, map } := by
  rw [@read_of_decode _ .lenient _ _ decoded]
  simp only [ReadOptions.lenient, Bool.false_and, Bool.false_eq_true, if_false, run]
  rfl

theorem Sane.reread_of_write {image after : Image} {bytes : Bytes} (sane : image.Sane)
    (success : image.write = (.ok bytes, after)) :
    ∃ again, Image.read bytes .lenient = .ok again ∧ again.map = after.map ∧ after.pools.Reread again.pools := by
  obtain ⟨layout, written⟩ := write_eq_ok.mp success
  obtain ⟨read, cursor, loader, decoded, -, run, filled⟩ := sane.filled written
  exact ⟨_, read_lenient decoded run, written.map.symm, filled.reread⟩

/-- What is written of a reached image is read back with the same contents. -/
theorem Reached.read_write {image after : Image} {bytes : Bytes} (reached : image.Reached)
    (success : image.write = (.ok bytes, after)) :
    ∃ again, Image.read bytes .lenient = .ok again ∧ again.map = after.map ∧ after.pools.Reread again.pools :=
  reached.sane.reread_of_write success

/-- A class with an interface, that was read from one image and is merged into another. -/
theorem read_write_withListener : ∃ bytes source written after again,
    withListener.write.1 = .ok bytes ∧ Image.read bytes .lenient = .ok source ∧
      ((ofVersion 35).mergeClass source 0).2.write = (.ok written, after) ∧
        Image.read written .lenient = .ok again ∧ again.map = after.map ∧ after.pools.Reread again.pools := by
  have success : (withListener.write.1 >>= fun bytes => Image.read bytes .lenient >>= fun source =>
      ((ofVersion 35).mergeClass source 0).2.write.1).toOption.isSome = true := by decide +kernel
  obtain ⟨written, run⟩ := Result.exists_of_toOption success
  obtain ⟨bytes, encoded, run⟩ := Result.bind_eq_ok.mp run
  obtain ⟨source, decoded, run⟩ := Result.bind_eq_ok.mp run
  have merged : ((ofVersion 35).mergeClass source 0).2.write =
      (.ok written, ((ofVersion 35).mergeClass source 0).2.write.2) := Prod.ext run rfl
  have reached : ((ofVersion 35).mergeClass source 0).2.Reached := .merged 0 (.new 35) (.read decoded)
  obtain ⟨again, reread⟩ := reached.read_write merged
  exact ⟨bytes, source, written, _, again, encoded, decoded, merged, reread⟩

end Image
end DexImage
