import Emscripten.Dynlink.LoadOutcomes
import Emscripten.Dynlink.Metadata
import Emscripten.Dynlink.Replay
import Emscripten.Dynlink.SearchPath
import Emscripten.Dynlink.SymbolRuns
import Emscripten.Dynlink.WriteLock
import Emscripten.JsFs.AutoPersist
import Emscripten.JsFs.ByteModel
import Emscripten.JsFs.DirectoryReads
import Emscripten.JsFs.LZ4
import Emscripten.JsFs.Mappings
import Emscripten.JsFs.Ownership
import Emscripten.JsFs.PathNormal
import Emscripten.JsFs.PipeBuckets
import Emscripten.JsFs.StorageRuns
import Emscripten.JsFs.Timestamps
import Emscripten.JsRuntime.AsyncifyRuns
import Emscripten.JsRuntime.FunctionTableRuns
import Emscripten.JsRuntime.HandleAllocator
import Emscripten.JsRuntime.WideStrings
import Emscripten.Libc.FreeBuckets
import Emscripten.Opfs.ProfileOutcomes
import Emscripten.Opfs.WebLocks
import Emscripten.Preprocessor.Expansion
import Emscripten.Preprocessor.Expressions
import Emscripten.Preprocessor.FastValue
import Emscripten.Preprocessor.Indentation
import Emscripten.Preprocessor.LibraryConditionals
import Emscripten.Preprocessor.SplitI64
import Emscripten.Proxy.ConnectionLoop
import Emscripten.Proxy.HandlerBounds
import Emscripten.Pthread.Futex
import Emscripten.Pthread.Locks
import Emscripten.Pthread.QueuedCall
import Emscripten.Pthread.Retirement
import Emscripten.Pthread.Semaphore
import Emscripten.Pthread.TaskQueues
import Emscripten.Pthread.TaskRing
import Emscripten.Pthread.ThreadCreation
import Emscripten.Pthread.ThreadRuns
import Emscripten.Pthread.WaitAsync
import Emscripten.Sockfs.Iovecs
import Emscripten.Sockfs.SendOrder
import Emscripten.Tools.LittleEndianRuns
import Emscripten.Tools.NameChanges
import Emscripten.Tools.ResponseFile
import Emscripten.Tools.SourceMapDecoding
import Emscripten.Tools.SymbolMap
import Emscripten.Tools.WasmSections
import Emscripten.WasmFS.Detached
import Emscripten.WasmFS.DirectoryStreams
import Emscripten.WasmFS.DrainSafety
import Emscripten.WasmFS.FileTimes
import Emscripten.WasmFS.LockThreads
import Emscripten.WasmFS.MappingRoutes
import Emscripten.WasmFS.OpenErrors
import Emscripten.WasmFS.OpenFiles
import Emscripten.WasmFS.ParentWalks
import Emscripten.WasmFS.Removal
