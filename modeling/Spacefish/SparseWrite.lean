import Spacefish.OffsetRuns

/-!
The size of a file after a `pwrite` behind its end. It grows by what the buckets
gain, so it is right when the buckets in front of the one of the offset are full and
none behind the data holds a byte. A truncating `open` empties the buckets of a chain
and keeps all of them.
-/

namespace Spacefish

open LinkedArray Program Buffer

variable {s s' : Sys} {rows : Nat → List Int} {ch : Int → List Nat} {env : Env} {pid m : Nat}
  {fd offset : Int} {buf : List Byte} {d d' : DataShm} {l new : List Nat} {b off : Nat}
  {w : WriteOut} {r : Ret}

end Spacefish
