import NeuralOs.Storage.TickvLatch
import NeuralOs.Storage.TickvHostileMount
import NeuralOs.Storage.FileFlash
import NeuralOs.Storage.TickvLostKey
import NeuralOs.Storage.TickvLimits
import NeuralOs.Storage.TickvPowerLoss
import NeuralOs.Storage.TickvDegraded
import NeuralOs.Storage.TickvCorruption
import NeuralOs.Storage.TickvVolumeRecovery
import NeuralOs.NeuralFs.JournalReplay
import NeuralOs.NeuralFs.LeafPage
import NeuralOs.Memory.FrameLowmem
import NeuralOs.Sgdb.MemoryCodec
import NeuralOs.Mesh.Hearing
import NeuralOs.Sgdb.CrdtSync
import NeuralOs.Sync.TicketLock
import NeuralOs.Fat32.HostileDisk
import NeuralOs.EventBus.Provenance
import NeuralOs.EventBus.Delivery
import NeuralOs.Cortex.KvFailure
import NeuralOs.Cortex.StructuredDecode
import NeuralOs.Cortex.SentenceUniform
import NeuralOs.AgentCore.LifeCycle
import NeuralOs.Smp.Conservation
import NeuralOs.Async.Executor
import NeuralOs.Async.Timers
import NeuralOs.Gguf.Loader
import NeuralOs.Bpe.MergePass
import NeuralOs.Ota.PowerCut
import NeuralOs.Hermes.ModuleTyping
import NeuralOs.Cortex.KvReuse
import NeuralOs.Cortex.AnswerSlice
import NeuralOs.Cortex.InferRuns
import NeuralOs.Hermes.PackageSignature
import NeuralOs.Hermes.StreamPacket
import NeuralOs.Skills.OutputCache
import NeuralOs.Hermes.Approval
import NeuralOs.Hermes.Membrane
import NeuralOs.Tls.PinRuns
import NeuralOs.Ota.SlotReadBack
import NeuralOs.Mesh.Interleaving
import NeuralOs.Mesh.TokenBucket
import NeuralOs.Mesh.FragmentRoundTrip
import NeuralOs.Gpt.RoundTrip
