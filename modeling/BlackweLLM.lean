import BlackweLLM.AdmissionOrder
import BlackweLLM.ArenaBalance
import BlackweLLM.BlockKeys
import BlackweLLM.BlockPool
import BlackweLLM.CapacityAdmission
import BlackweLLM.ChatIntact
import BlackweLLM.DaemonShutdown
import BlackweLLM.DraftRing
import BlackweLLM.DsparkAccept
import BlackweLLM.Dsv4Arena
import BlackweLLM.Dsv4Compressor
import BlackweLLM.Dsv4DecodeFailure
import BlackweLLM.Dsv4Indexer
import BlackweLLM.Dsv4Superchunk
import BlackweLLM.Dsv4WindowRuns
import BlackweLLM.EngineShutdown
import BlackweLLM.EngineWakeup
import BlackweLLM.F32Attention
import BlackweLLM.FlashNextCheckpoints
import BlackweLLM.FlashNextCoordinates
import BlackweLLM.FlashNextGatherExact
import BlackweLLM.FlashNextIndexStream
import BlackweLLM.FlashNextPleConv
import BlackweLLM.FlashNextPleHash
import BlackweLLM.GdnExact
import BlackweLLM.GgufHeader
import BlackweLLM.LagunaFullHit
import BlackweLLM.LagunaGraphMatch
import BlackweLLM.LagunaPrefixHit
import BlackweLLM.LagunaSlotSound
import BlackweLLM.MoeRouters
import BlackweLLM.MtpLossless
import BlackweLLM.NvfpAttention
import BlackweLLM.PleGathers
import BlackweLLM.PrefillWave
import BlackweLLM.PrefixAuthenticity
import BlackweLLM.Q8Activation
import BlackweLLM.RecordAuthenticity
import BlackweLLM.RecurrentRows
import BlackweLLM.RollingCheckpoints
import BlackweLLM.SampledRounds
import BlackweLLM.ScratchRuns
import BlackweLLM.SlotChoice
import BlackweLLM.StopChunks
import BlackweLLM.StopMatch
import BlackweLLM.StreamChannel
import BlackweLLM.StreamCompleteness
import BlackweLLM.ThinkingBudget
import BlackweLLM.ToolParsers
import BlackweLLM.VerifyPlanner
import BlackweLLM.VmmCommit
import BlackweLLM.WeightLayouts
