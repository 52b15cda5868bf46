import CoroRpc.Lib.Words
import CoroRpc.Lib.Memory
import CoroRpc.Lib.Codec
import CoroRpc.Lib.Loop
import CoroRpc.Lib.Trace
import CoroRpc.Lib.Recycle
import CoroRpc.Lib.Atomic
import CoroRpc.Rpc.Protocol
import CoroRpc.Rpc.RoundTrip
import CoroRpc.Rpc.Containment
import CoroRpc.Rpc.Serializer
import CoroRpc.Net.Connection
import CoroRpc.Rpc.RpcServer
import CoroRpc.Rpc.Framing
import CoroRpc.Rpc.Correspondence
import CoroRpc.Net.TcpClient
import CoroRpc.Rpc.RpcClient
import CoroRpc.Rpc.ShortReads
import CoroRpc.Rpc.Chunking
import CoroRpc.Rpc.ResponseStream
import CoroRpc.Rpc.ReplyMatching
import CoroRpc.Net.PoolRun
import CoroRpc.Rpc.PooledCalls
import CoroRpc.Coro.Sync
import CoroRpc.Coro.Task
import CoroRpc.Coro.TaskTree
import CoroRpc.Lib.Forest
import CoroRpc.Coro.TaskLifetime
import CoroRpc.Coro.TaskOwners
import CoroRpc.Io.TimerFiring
import CoroRpc.Io.Completions
import CoroRpc.Io.MsgRing
import CoroRpc.Io.Dispatch
import CoroRpc.Io.Spawn
import CoroRpc.Net.Buffer
import CoroRpc.Coro.Scheduler
import CoroRpc.Coro.Drain
import CoroRpc.Coro.SchedulerStop
import CoroRpc.Coro.Awaitable
import CoroRpc.Coro.ConditionVariable
import CoroRpc.Io.PostedTasks
import CoroRpc.Net.PoolShutdown
import CoroRpc.Net.PoolWaiters
import CoroRpc.Net.ConnectionLife
import CoroRpc.Net.TcpServer
import CoroRpc.Idl.CodeGenerator
import CoroRpc.Idl.Parser
import CoroRpc.Idl.Rendering
import CoroRpc.Idl.Recovery
import CoroRpc.Rpc.Destination
import CoroRpc.Rpc.Registration
import CoroRpc.Rpc.Canonicity
import CoroRpc.Lib.Reading
import CoroRpc.Rpc.DecodeReads
import CoroRpc.Io.TimerRace
import CoroRpc.Rpc.Admission
import CoroRpc.Io.TimerOrder
import CoroRpc.Io.WheelCalls
import CoroRpc.Io.LoopReentry
import CoroRpc.Lib.CallStack
import CoroRpc.Coro.InlineResume
import CoroRpc.Io.KeptTasks
import CoroRpc.Io.PoolStop
import CoroRpc.Lib.Turns
import CoroRpc.Rpc.LoadBalancer
import CoroRpc.Rpc.ServiceDiscovery
import CoroRpc.Io.WorkerTurns
import CoroRpc.Lib.Balance
import CoroRpc.Io.Placement
import CoroRpc.Rpc.Heartbeat
import CoroRpc.Io.CallbackIds
import CoroRpc.Lib.Awaiting
import CoroRpc.Io.TimedIo
import CoroRpc.Io.WithTimeout
import CoroRpc.Io.LoopTimers
import CoroRpc.Io.ReadAll
import CoroRpc.Net.WriteAll
import CoroRpc.Net.ReadLine
import CoroRpc.Idl.ServiceBody
import CoroRpc.Lib.Substr
import CoroRpc.Idl.Robustness
import CoroRpc.Lib.Brackets
import CoroRpc.Idl.Header
import CoroRpc.Idl.Pipeline
import CoroRpc.Coro.Generator
import CoroRpc.Coro.ResultReads
import CoroRpc.Net.BufferCopies
import CoroRpc.Net.BufferChain
import CoroRpc.Net.BufferReads
import CoroRpc.Rpc.RegistryHistory
import CoroRpc.Rpc.RemoteCalls
import CoroRpc.Rpc.TypedCalls
import CoroRpc.Rpc.Interleaving
import CoroRpc.Rpc.StreamFrames
import CoroRpc.Net.PoolManager
import CoroRpc.Rpc.MapEncoding
