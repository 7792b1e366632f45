import DexImage.Image.Basic
/-! # Reachability

The items that the class definitions reach through references, each with the union of the usages
under which reachable items refer to it. Items that are not reached can be dropped.
-/

namespace DexImage

/-- The items found so far, with their usages. -/
abbrev Marks := List ((PoolKind × UInt32) × Usage)

namespace Marks

def usage? (marks : Marks) (kind : PoolKind) (index : UInt32) : Option Usage :=
  marks.lookup (kind, index)

/-- Adds markers to the usage of an item that has been found. -/
def add (marks : Marks) (use : Use) : Marks :=
  marks.map fun (item, usage) =>
    (item, if item = (use.kind, use.index) then usage.union use.usage else usage)

/-- The marks as uses, ordered by kind and index. -/
def toUses (marks : Marks) : List Use :=
  let before (a b : Use) : Bool :=
    a.kind.rank < b.kind.rank || (a.kind.rank == b.kind.rank && a.index ≤ b.index)
  (marks.map fun ((kind, index), usage) => ({ kind, index, usage } : Use)).mergeSort before

end Marks

/-- What references are marked with: the markers of the reference that stands at a position among those that an item
holds, given the marker of its place. -/
abbrev Markers := PoolKind × UInt32 → Nat → Usage → Usage

namespace Markers

/-- References that are marked with their places, as those are that are read, made or interned. -/
def own : Markers := fun _ _ usage => usage

/-- The references that an item holds, with what they are marked with. -/
def apply (markers : Markers) (holder : PoolKind × UInt32) (held : List Use) : List Use :=
  held.mapIdx fun position use => { use with usage := markers holder position use.usage }

end Markers

namespace Image

/-- Enters the references that an item holds; those to items not found before come on top of the
items still to be scanned. -/
def enterUses (pools : Pools) (kind : PoolKind) (index : UInt32) :
    List Use → Marks → List (PoolKind × UInt32) → Result (Marks × List (PoolKind × UInt32))
  | [], marks, pending => .ok (marks, pending)
  | use :: rest, marks, pending =>
    let size := (pools.pool use.kind).size
    if size ≤ use.index.toNat then
      .error (Fault.of
        (.danglingUse kind.toSection index use.kind.toSection use.index size))
    else match marks.usage? use.kind use.index with
      | some _ => enterUses pools kind index rest (marks.add use) pending
      | none =>
        enterUses pools kind index rest (((use.kind, use.index), use.usage) :: marks)
          ((use.kind, use.index) :: pending)

/-- Scans the pending items, of which at most `fuel` are still to come. -/
def scan (markers : Markers) (pools : Pools) : (fuel : Nat) → Marks → List (PoolKind × UInt32) → Result Marks
  | _, marks, [] => .ok marks
  | 0, marks, _ :: _ => .ok marks
  | fuel + 1, marks, (kind, index) :: pending => do
    let held ← (pools.usesOf kind.toSection index).within (.entry kind.toSection index.toNat)
    let (marks, pending) ← enterUses pools kind index (markers.apply (kind, index) held) marks pending
    scan markers pools fuel marks pending

/-- The number of items of all pools. Each of them is scanned at most once. -/
def itemTotal (pools : Pools) : Nat := total (fun kind => (pools.pool kind).size) PoolKind.all

/-- The items that the class definitions reach, ordered by kind and index, whatever the references to them are
marked with. The definitions, which are counted by a word, are taken up last first. -/
def reachableBy (markers : Markers) (image : Image) : Result (List Use) := do
  let roots := (List.range image.pools.classDefs.size.toUInt32.toNat).reverse.map fun index =>
    (PoolKind.classDef, index.toUInt32)
  let marks := roots.map fun root => (root, Usage.definition)
  return (← scan markers image.pools (itemTotal image.pools) marks roots).toUses

/-- The items that the class definitions reach through references that are marked with their places. -/
def reachable (image : Image) : Result (List Use) := image.reachableBy .own

/-- Records a usage; an empty one is recorded as that of an id item. -/
def recordUse (pools : Pools) (use : Use) : Result Pools := do
  let usage := if use.usage.isEmpty then Usage.idItem else use.usage
  return (← pools.mark use.kind.toSection use.index usage).2

/-- Records usages one after the other, up to one that is beyond its pool. -/
def recordUses : List Use → Pools → Result Unit × Pools
  | [], pools => (.ok (), pools)
  | use :: rest, pools =>
    match recordUse pools use with
    | .ok pools => recordUses rest pools
    | .error fault => (.error fault, pools)

/-- Replaces the recorded usages by those of a fresh scan; yields the number of items found. A
scan that fails leaves the image as it was. -/
def markUsage (image : Image) : Result Nat × Image :=
  match image.reachable with
  | .error fault => (.error fault, image)
  | .ok found =>
    let (recorded, pools) := recordUses found image.pools.clearUsage
    (recorded.map fun _ => found.length, { image with pools })

/-- Drops every item that is not reached and renumbers all references; yields the number of items
dropped. -/
def removeUnused (image : Image) : Result Nat × Image :=
  match image.markUsage with
  | (.error fault, marked) => (.error fault, marked)
  | (.ok _, marked) =>
    let (remaps, pools) := marked.pools.compactAll
    let dropped := total (fun (_, remap) => remap.removed) remaps
    (.ok dropped, { marked with pools }.applyRemaps remaps)

end Image
end DexImage
