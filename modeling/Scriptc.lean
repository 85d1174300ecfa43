import Scriptc.Backend.BuildCache
import Scriptc.Backend.Mangle
import Scriptc.Backend.MayThrowSound
import Scriptc.Backend.NativeBuildSlotSafe
import Scriptc.Frontend.ArraySortSound
import Scriptc.Frontend.ResolveBare
import Scriptc.Frontend.ResolveExportsNode
import Scriptc.Frontend.ResolvePaths
import Scriptc.IntInfer.Operators
import Scriptc.Runtime.CycleComplete
import Scriptc.Runtime.FfiQueue
import Scriptc.Runtime.Hpack
import Scriptc.Runtime.HpackSession
import Scriptc.Runtime.Http2FlowSound
import Scriptc.Runtime.Http2Receive
import Scriptc.Runtime.ScrMapRuns
import Scriptc.RuntimeRust.ChildIpcRuns
import Scriptc.RuntimeRust.ChildWriterRuns
import Scriptc.RuntimeRust.EventLoop
import Scriptc.RuntimeRust.GeneratorRuns
import Scriptc.RuntimeRust.HeapCollect
import Scriptc.RuntimeRust.HttpAgentRuns
import Scriptc.RuntimeRust.HttpChunkedBody
import Scriptc.RuntimeRust.JsMap
import Scriptc.RuntimeRust.StringDecoder
import Scriptc.RuntimeRust.TimerRuns
import Scriptc.RuntimeRust.Promises
import Scriptc.RuntimeRust.ReadableRuns
import Scriptc.RuntimeRust.EffectQueueRuns
import Scriptc.RuntimeRust.EffectLatchRuns
import Scriptc.RuntimeRust.EffectPubSubRuns
import Scriptc.RuntimeRust.WebStream
import Scriptc.RuntimeRust.JsonRoundTrip
import Scriptc.RuntimeRust.JsonParse
import Scriptc.RuntimeRust.QuerystringAgree
import Scriptc.RuntimeRust.QuerystringRoundTrip
import Scriptc.Runtime.ScrPathAgree
import Scriptc.Ir.IntegerRangesSound
import Scriptc.Ir.ConstantTablesSound
import Scriptc.Backend.RustClassGraph
import Scriptc.Backend.RustIntegerCallsExact
import Scriptc.Frontend.InertCallees
import Scriptc.Frontend.ReachesCluster
import Scriptc.Frontend.ModuleComponents
import Scriptc.Frontend.NpmStaticPruneClosed
import Scriptc.Frontend.PackagePurity
import Scriptc.Frontend.RuntimeExport
import Scriptc.Library.IntSlots
import Scriptc.Runtime.HpackHuffman
import Scriptc.Runtime.HpackInsert
import Scriptc.RuntimeRust.PosixPathLaws
import Scriptc.RuntimeRust.ByteBuffers
import Scriptc.RuntimeRust.BytesEncoding
import Scriptc.Runtime.BigIntGrammar
import Scriptc.RuntimeRust.ByteNumbers
import Scriptc.RuntimeRust.UriCoding
import Scriptc.RuntimeRust.JsonCycles
import Scriptc.RuntimeRust.NumericGrammar
import Scriptc.RuntimeRust.Dates
import Scriptc.RuntimeRust.NumberFixed
import Scriptc.RuntimeRust.NumberEnUs
import Scriptc.RuntimeRust.NumberPrecision
import Scriptc.Library.Wyhash
import Scriptc.RuntimeRust.NumericOps
import Scriptc.Runtime.CycleBuffers
import Scriptc.RuntimeRust.JsString
import Scriptc.RuntimeRust.JsStringSearch
import Scriptc.RuntimeRust.TextDecoder
import Scriptc.RuntimeRust.ParseArgsTokens
