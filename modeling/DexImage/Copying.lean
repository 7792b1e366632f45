import DexImage.Key
/-! # Copying between images

A reference into the pools of one image is translated by copying its target, with everything that
the target refers to, into the pools of another. Each source item is copied once. Items that are
named by what they hold are shared with equal ones of the target; the others are appended.
-/

namespace DexImage

/-- The target pools and the new indices of the items copied so far. -/
structure Copying where
  target : Pools
  copied : List ((SectionKind × UInt32) × UInt32)

namespace Copying

def into (target : Pools) : Copying := ⟨target, []⟩

/-- Whether copies of a kind are shared with equal items of the target. -/
def isShared : PoolKind → Bool
  | .annotationsDirectory | .classData | .code | .debugInfo => false
  | _ => true

/-- Puts a copy, whose references have been translated, into the target. -/
def store (kind : PoolKind) (item : Item kind) (copying : Copying) : UInt32 × Copying :=
  let (index, target) :=
    if isShared kind then copying.target.intern kind item
    else ((copying.target.pool kind).nextIndex, copying.target.push kind item)
  (index, { copying with target })

/-- Copies an item whose references are translated by `inner`. -/
def copyItem (source : Pools) (inner : Translator Copying) (kind : PoolKind) (index : UInt32) :
    StateM Copying (Result UInt32) := do
  match source.require kind index with
  | .error fault => return .error fault
  | .ok item =>
    let outcome ← translate inner item
    match outcome.fault? with
    | some fault => return .error fault
    | none => return .ok (← store kind outcome.value)

/-- The pool that holds the targets of references into a section. Class definitions are never
the target of a reference. -/
def targetPool? (kind : SectionKind) : Option PoolKind :=
  if kind = .classDef then none else kind.pool?

/-- Translates by copying, through at most `depth` items that each refer to the next. -/
def translatorWithin (source : Pools) : (depth : Nat) → Translator Copying
  | 0 => fun kind _ => pure (.error (Fault.of (.notATarget kind)))
  | depth + 1 => fun kind index => do
    match (← get).copied.lookup (kind, index) with
    | some done => return .ok done
    | none =>
      match targetPool? kind with
      | none => return .error (Fault.of (.notATarget kind))
      | some pool =>
        match ← copyItem source (translatorWithin source depth) pool index with
        | .error fault => return .error fault
        | .ok new =>
          modify fun copying => { copying with copied := ((kind, index), new) :: copying.copied }
          return .ok new

/-- Translates by copying. No kind of item refers to itself, not even through others, so the
number of kinds bounds the depth. -/
def translator (source : Pools) : Translator Copying :=
  translatorWithin source PoolKind.all.length

end Copying
end DexImage
