import Gensim.Lib.ByteStore
import Gensim.Lib.BlockProgram
import Gensim.BlockJIT.IR
import Gensim.BlockJIT.Trace
import Gensim.BlockJIT.Transforms.ConstantProp
import Gensim.BlockJIT.Transforms.MergeBlocks
import Gensim.Lib.Acyclic
import Gensim.GenC.Dominance
import Gensim.BlockJIT.X86.Encoder
import Gensim.Generators.DecodeGenerate
import Gensim.BlockJIT.X86.LowerFlags
import Gensim.BlockJIT.FlagLowerings
import Gensim.GenC.Action
import Gensim.GenC.Passes.ConstantPropagation
import Gensim.Lib.Loop
import Gensim.GenC.Passes.JumpThreading
import Gensim.Arch.ARMDecodeContext
import Gensim.BlockJIT.BlockCache
import Gensim.BlockJIT.BlockJitTranslate
import Gensim.BlockJIT.BlockProfile
import Gensim.BlockJIT.TranslationDependence
import Gensim.Core.BlockLifetime
import Gensim.Core.Cache
import Gensim.Core.FeatureDispatch
import Gensim.Core.MonitorProgress
import Gensim.Core.CachedLegacyMemoryInterface
import Gensim.GenC.Passes.ConstantFolding
import Gensim.Memory.SparseRefinement
import Gensim.Translate.TranslationManager
import Gensim.Arch.RiscVSystemCoprocessor
import Gensim.Arch.RiscVStatus
import Gensim.Devices.ARMv6MMU
import Gensim.Devices.GenericInterruptController
import Gensim.Devices.SifivePLIC
import Gensim.Devices.VirtIO
import Gensim.Devices.ARM926EJSMMU
import Gensim.Devices.VersatileSIC
import Gensim.Devices.SP804
import Gensim.Devices.ActiveInterrupts
import Gensim.Devices.PL190
import Gensim.Lib.Reader
import Gensim.Memory.CacheBasedSystemMemoryModel
import Gensim.Memory.Unmapping
import Gensim.Abi.UserStack
import Gensim.Abi.ProgramBreak
import Gensim.Trace.TraceSource
import Gensim.BlockJIT.LLVM.LoweringBitwise
import Gensim.Generators.DecodeConflict
import Gensim.Isa.DecodeConstraints
import Gensim.Arch.RegisterFile
import Gensim.Arch.ITBlocks
import Gensim.GenC.ConstantCast
import Gensim.GenC.DominanceFrontier
import Gensim.GenC.LoopAnalysis
import Gensim.GenC.RegisterAllocation
import Gensim.GenC.UseBeforeDef
import Gensim.Uarch.MemoryCache
import Gensim.Util.FastVector
import Gensim.Util.PagePool
import Gensim.Util.MemAllocator
import Gensim.Memory.MergedRegions
import Gensim.Devices.VirtRing
import Gensim.Core.GuestStrings
import Gensim.Devices.DeviceManager
import Gensim.Devices.MemoryCOWBlockDevice
import Gensim.Translate.RegisterIntervals
import Gensim.Util.WVector
import Gensim.Util.SmallSet
