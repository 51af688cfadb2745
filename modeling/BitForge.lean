import BitForge.Lib.Region
import BitForge.Lib.Run
import BitForge.Lib.Chunks
import BitForge.Lib.Tally
import BitForge.Kv.Window
import BitForge.Kv.Cache
import BitForge.Kv.Faithful
import BitForge.Lib.Bytes
import BitForge.Pool.Machine
import BitForge.Pool.Invariant
import BitForge.Pool.Steps
import BitForge.Pool.Wait
import BitForge.Pool.Dispatch
import BitForge.Format.Export
import BitForge.Format.Load
import BitForge.Format.Sync
import BitForge.Format.Decode
import BitForge.Format.Agree
import BitForge.Lib.CString
import BitForge.Transformer.Forward
import BitForge.Transformer.Generate
import BitForge.Agent.Interceptor
import BitForge.Agent.Loop
import BitForge.Agent.Positions
import BitForge.Server.Chat
import BitForge.Server.Independence
import BitForge.Lib.File
import BitForge.Rag.VectorDb
import BitForge.Rag.Durable
import BitForge.Lib.Marker
import BitForge.Reasoning.ThoughtFilter
import BitForge.Reasoning.Hidden
import BitForge.Agent.Blocks
import BitForge.Transformer.StopLaw
import BitForge.Agent.Agreement
import BitForge.Gguf.Reader
import BitForge.Gguf.Safety
import BitForge.Api.Cancel
import BitForge.Api.CancelProtocol
import BitForge.Api.Connection
import BitForge.Api.Metrics
import BitForge.Api.Request
import BitForge.Api.Framing
import BitForge.Api.AuthGate
import BitForge.Lib.Sorting
import BitForge.Tokenizer.VocabIndex
import BitForge.Lib.Single
import BitForge.Tokenizer.Encode
import BitForge.Tokenizer.RankOrder
import BitForge.Tokenizer.Decode
import BitForge.Tokenizer.RoundTrip
import BitForge.Api.JsonParse
import BitForge.Api.JsonSafety
import BitForge.Api.JsonEscape
import BitForge.Api.JsonRequest
import BitForge.Api.JsonDecode
import BitForge.Api.JsonReference
import BitForge.Api.JsonCut
import BitForge.Api.JsonTruncated
import BitForge.Kv.Bounds
import BitForge.Transformer.Launch
import BitForge.Reasoning.Generate
import BitForge.Reasoning.CacheBounds
import BitForge.Dense.Export
import BitForge.Dense.Load
import BitForge.Dense.Decode
import BitForge.Dense.Agree
import BitForge.Vision.Export
import BitForge.Vision.Load
import BitForge.Vision.Agree
import BitForge.Moe.Config
import BitForge.Moe.Routing
import BitForge.Moe.Bounds
import BitForge.Tokenizer.Guard
import BitForge.Tokenizer.IntSearch
import BitForge.Tokenizer.Room
import BitForge.Tokenizer.Postcondition
import BitForge.Agent.MemoryText
import BitForge.Agent.CmdExec
import BitForge.Dense.ConfigSanity
import BitForge.Moe.Freshness
import BitForge.Transformer.ActBuffers
import BitForge.Format.MappedRegions
import BitForge.Kernel.Q2Vnni
import BitForge.Kernel.ClassifierQuant
import BitForge.Kernel.LutTernary
import BitForge.Kernel.Quantize
import BitForge.Kernel.PackedTernary
import BitForge.Kernel.PackedGroups
import BitForge.Kernel.HalfFloat
import BitForge.Kernel.Q4k
import BitForge.Kernel.Q4kX8
import BitForge.Template.Compare
import BitForge.Template.Slice
import BitForge.Kv.Strategy
import BitForge.Api.DataUrl
import BitForge.Vision.PixelShuffle
import BitForge.Api.ChatCompile
import BitForge.Api.SseStream
import BitForge.Api.StaticFiles
import BitForge.Template.Lex
import BitForge.Template.Parse
import BitForge.Cli.Markdown
import BitForge.Template.Arithmetic
import BitForge.Kernel.Unpack
import BitForge.Kv.Compress
import BitForge.Lib.TopK
import BitForge.Rag.Similarity
import BitForge.Transformer.LinearConv
import BitForge.Gguf.Dequant
import BitForge.Moe.TopK
import BitForge.Sampling.TopP
import BitForge.Rag.Embedder
import BitForge.Server.ImageText
import BitForge.Rag.Memory
import BitForge.Lib.RowTask
import BitForge.Pool.Calls
import BitForge.Pool.Compute
import BitForge.Pool.Matmul
import BitForge.Tokenizer.Convert
import BitForge.Sampling.Law
import BitForge.Transformer.SampleLaw
import BitForge.Lib.Rotation
import BitForge.Transformer.Rope
import BitForge.Api.JsonFollowed
