import DexImage.Copying
import DexImage.Image.Interning
/-! # Merging classes

A class definition is copied from one image into another together with everything that it
refers to.
-/

namespace DexImage.Image

/-- Copies a class definition of another image; yields its index. A class that the image already
defines is refused. What a failed attempt has copied stays in the pools. -/
def mergeClass (image source : Image) (index : UInt32) : Result UInt32 × Image :=
  let named : Result (ClassDef × TypeKey) := do
    let definition ← source.pools.require .classDef index
    return (definition, ← TypeKey.of? source.pools (ClassDef.type definition))
  match named with
  | .error fault => (.error fault, image)
  | .ok (definition, key) =>
    if (image.pools.findClass? key.descriptor).isSome then
      (.error (Fault.of (.classDefined key.descriptor)), image)
    else
      let (outcome, copying) :=
        translate (Copying.translator source.pools) definition (.into image.pools)
      match outcome.fault? with
      | some fault =>
        (.error (fault.within (.classNamed key.descriptor)), { image with pools := copying.target })
      | none =>
        (.ok copying.target.classDefs.nextIndex,
          { image with pools := copying.target.push .classDef outcome.value })

end DexImage.Image
