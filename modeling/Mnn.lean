import Mnn.Core.KVMeta
import Mnn.Lib.LongestPrefix
import Mnn.Lib.Loops
import Mnn.Lib.BitPack
import Mnn.Core.BlobStream
import Mnn.Core.WeightQuant
import Mnn.Core.DenseBlob
import Mnn.Core.SparseBlob
import Mnn.Llm.History
import Mnn.Llm.Trie
import Mnn.Llm.Tiktoken
import Mnn.Llm.Generation
import Mnn.Llm.Ngram
import Mnn.Llm.Lookahead
import Mnn.Geometry.Region
import Mnn.Geometry.RasterCache
import Mnn.Geometry.Flatten
import Mnn.Lib.StridedBox
import Mnn.Geometry.FuseRegion
import Mnn.Geometry.FuseAxes
import Mnn.Geometry.FuseWindow
import Mnn.Geometry.FuseExact
import Mnn.Lib.Run
import Mnn.Lib.Laminar
import Mnn.Core.EagerAllocator
import Mnn.Core.EagerInvariant
import Mnn.Core.EagerSafety
import Mnn.Lib.Linked
import Mnn.Lib.Layout
import Mnn.Core.DeferAllocator
import Mnn.Core.DeferRoots
import Mnn.Core.DeferSteps
import Mnn.Core.DeferSafety
import Mnn.Core.AllocatorAlign
import Mnn.Llm.PendingEdit
import Mnn.Llm.Positions
import Mnn.Llm.AttentionMask
import Mnn.Llm.Mtp
import Mnn.Llm.NgramUpdate
import Mnn.Core.ResizeCache
import Mnn.Lib.Serving
import Mnn.Core.PipelineMemory
import Mnn.Geometry.PackedBlit
import Mnn.Geometry.PackedRegion
import Mnn.Geometry.PackedRaster
import Mnn.Lib.Buffer
import Mnn.Core.KVCacheManager
import Mnn.Core.KVCacheLayout
import Mnn.Core.KVCacheMoves
import Mnn.Core.KVCacheGrowth
import Mnn.Core.KVCacheRuns
import Mnn.Core.KVCacheCompact
import Mnn.Lib.Broadcast
import Mnn.Geometry.Command
import Mnn.Geometry.BatchMatMul
import Mnn.Geometry.Gather
import Mnn.Geometry.BroadcastTo
import Mnn.Geometry.Binary
import Mnn.Geometry.Recompute
import Mnn.Lib.Dataflow
import Mnn.Converter.Net
import Mnn.Converter.FuseDupOp
import Mnn.Converter.RemoveUnusefulOp
import Mnn.Geometry.TensorArray
import Mnn.Geometry.TensorArrayInv
import Mnn.Geometry.TensorArraySteps
import Mnn.Geometry.TensorArrayPieces
import Mnn.Geometry.TensorArrayConcat
import Mnn.Geometry.TensorArrayRuns
import Mnn.Express.PipelineModule
import Mnn.Express.PipelineCollect
import Mnn.Express.PipelineCut
import Mnn.Express.PipelineInterface
import Mnn.Express.PipelineStack
import Mnn.Express.PipelineRun
import Mnn.Express.PipelineCorrect
import Mnn.Core.IDSTQuan
import Mnn.Converter.WeightQuantAndCoding
import Mnn.Lib.GreedyMerge
import Mnn.Llm.HuggingfaceBpe
import Mnn.Llm.Sentencepiece
import Mnn.Llm.SentencepieceMerge
import Mnn.Llm.SentencepieceBpe
import Mnn.Lib.Replace
import Mnn.Llm.SentencepieceDecode
import Mnn.Llm.Base64
import Mnn.Lib.Reduce
import Mnn.Core.ReduceDims
import Mnn.Lib.Heap
import Mnn.Llm.SamplerSlice
import Mnn.Cpu.BlitSplit
import Mnn.Cpu.ReduceBlit
import Mnn.Lib.LoopNest
import Mnn.Geometry.Permute
import Mnn.Lib.Saturate
import Mnn.Core.ConstantTensors
import Mnn.Core.ScheduleGraph
import Mnn.Core.SharedBuffer
import Mnn.Core.EagerAccounting
import Mnn.Geometry.BatchMatMulLoop
import Mnn.Geometry.PadExact
import Mnn.Geometry.BroadCastDims
import Mnn.Lib.ToomCook
import Mnn.Math.Matrix
import Mnn.Math.WinogradGenerater
import Mnn.Geometry.SliceIndex
import Mnn.Geometry.GatherSlices
import Mnn.Geometry.Scatter
import Mnn.Geometry.Tile
import Mnn.Shape.SizeComputer
import Mnn.Shape.Reshape
import Mnn.Shape.Slice
import Mnn.Geometry.SliceConcat
import Mnn.Lib.Rounding
import Mnn.Shape.Convolution
import Mnn.Geometry.Im2Col
import Mnn.Shape.SpaceToBatchND
import Mnn.Geometry.SpaceToBatchND
import Mnn.Shape.DepthToSpace
import Mnn.Geometry.DepthToSpace
import Mnn.Converter.RemoveInplace
import Mnn.Lib.FreshNames
import Mnn.Converter.ReIndexTensor
import Mnn.Lib.Descent
import Mnn.Converter.TemplateMerge
import Mnn.Lib.GreedySelection
import Mnn.Express.NMSModule
import Mnn.Lib.Buckets
import Mnn.Express.MoEModule
import Mnn.Geometry.CumSum
import Mnn.Geometry.ReverseSequence
import Mnn.Express.WhileModule
import Mnn.Lib.Boundaries
import Mnn.Cpu.DivideSizes
import Mnn.Core.EagerUseCount
import Mnn.Core.QuantBits
import Mnn.Converter.GroupConvolution
import Mnn.Converter.TransformGroupConvolution
import Mnn.Lib.PostOrder
import Mnn.Express.SaveLoad
import Mnn.Cpu.ThreadPool
import Mnn.Cpu.ThreadPoolSafety
import Mnn.Cpu.ThreadPoolProgress
import Mnn.Lib.Footprint
import Mnn.Cpu.Strassen
import Mnn.Cpu.StrassenPlan
import Mnn.Cpu.StrassenLevel
