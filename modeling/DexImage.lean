import DexImage.Image.Merging
import DexImage.Image.Sorting
import DexImage.Listing.Image
import DexImage.Proofs.Copying.Classes
import DexImage.Proofs.Copying.Offsets
import DexImage.Proofs.Copying.Stopped
import DexImage.Proofs.Reachability.Listing
import DexImage.Proofs.Reachability.Repeated
import DexImage.Proofs.Codec.Headers
import DexImage.Proofs.Codec.Ids
import DexImage.Proofs.Codec.Members
import DexImage.Proofs.Codec.Programs
import DexImage.Proofs.Codec.Scalars
import DexImage.Proofs.Codec.Sizes
import DexImage.Proofs.Codec.Classified
import DexImage.Proofs.Codec.Strings
import DexImage.Proofs.Codec.Varints
import DexImage.Proofs.Codec.Writing
import DexImage.Proofs.Disassembly.Iteration
import DexImage.Proofs.Interning.Merging
import DexImage.Proofs.Layout.Emission
import DexImage.Proofs.Layout.Gaps
import DexImage.Proofs.Layout.Stored
import DexImage.Proofs.Loading.Coherent
import DexImage.Proofs.Loading.Contents
import DexImage.Proofs.Loading.Items
import DexImage.Proofs.Loading.Corrupted
import DexImage.Proofs.Loading.Lenient
import DexImage.Proofs.Pools.InPlace
import DexImage.Proofs.RoundTrip
import DexImage.Proofs.Slots
import DexImage.Proofs.StaticValues.Merged
import DexImage.Proofs.StaticValues.Reread
import DexImage.Proofs.StaticValues.Sparse
import DexImage.Proofs.Layout.Agreement
import DexImage.Proofs.Layout.Resolution
import DexImage.Proofs.Sorting.Keys
import DexImage.Proofs.Sorting.Moving
import DexImage.Proofs.Sorting.Order
import DexImage.Proofs.Sorting.Sorted
import DexImage.Proofs.Sorting.Strings
import DexImage.Proofs.Methods.Debugging
import DexImage.Proofs.Methods.Merging
import DexImage.Proofs.Methods.Stored
import DexImage.Proofs.Rereading.Alone
import DexImage.Proofs.Rereading.FixedPoint
import DexImage.Proofs.Tracking
import DexImage.Proofs.TryTables.Dangling
import DexImage.Proofs.TryTables.Edits
import DexImage.Proofs.TryTables.Equivalent
import DexImage.Proofs.TryTables.Lookup
import DexImage.Proofs.TryTables.Written
import DexImage.Proofs.Values.Equality
import DexImage.Proofs.Values.Fresh
import DexImage.Proofs.Values.Rewritten
import DexImage.Proofs.Values.Unmodified
import DexImage.Proofs.Written.Described
import DexImage.Proofs.Written.Headers
import DexImage.Proofs.Written.Members
import DexImage.Proofs.Written.Payloads
import DexImage.Proofs.Written.Texts
import DexImage.Proofs.Written.Truncated
import DexImage.Proofs.Written.Twice
