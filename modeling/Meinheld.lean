import Meinheld.Bytes
import Meinheld.HttpParser
import Meinheld.Buffer
import Meinheld.Client
import Meinheld.HttpRequestParser
import Meinheld.Response
import Meinheld.Server
import Meinheld.Greenlets
import Meinheld.RemoteAddress
import Meinheld.Writing
import Meinheld.Head
import Meinheld.ChunkedCoding
import Meinheld.ResponseRuns
import Meinheld.Runs
import Meinheld.ChunkedResponse
import Meinheld.Totals
import Meinheld.Schedules
import Meinheld.SafeRuns
import Meinheld.Liveness
import Meinheld.FileRuns
import Meinheld.Transparency
import Meinheld.KeepAlive
import Meinheld.CloseCalls
import Meinheld.FailedResponses
import Meinheld.EventLoop
import Meinheld.WithoutGreenlets
import Meinheld.ActiveCount
import Meinheld.Timeouts
import Meinheld.Connections
import Meinheld.ResponseOrder
import Meinheld.LostConnections
import Meinheld.FreeList
import Meinheld.StaleHandles
import Meinheld.ErrorIndicator
import Meinheld.SplitBuffers
import Meinheld.RequestPieces
import Meinheld.SplitReads
import Meinheld.Framing
import Meinheld.Retries
import Meinheld.Utf8
import Meinheld.WebSocketFrames
import Meinheld.WebSocket
import Meinheld.WebSocketErrors
import Meinheld.WebSocketMessages
import Meinheld.Takeovers
import Meinheld.Expectations
import Meinheld.FieldCalls
import Meinheld.LineTally
import Meinheld.BodyFidelity
import Meinheld.StartCalls
import Meinheld.PathInfo
import Meinheld.HeaderLimits
import Meinheld.Sendfile
import Meinheld.NoBody
import Meinheld.TextLines
import Meinheld.Splitting
import Meinheld.BinaryHeap
import Meinheld.Timers
import Meinheld.ScheduledCalls
import Meinheld.DueTimes
import Meinheld.RequestQueue
import Meinheld.TimerHeap
import Meinheld.BufferWrites
import Meinheld.ByteStream
import Meinheld.InputObject
import Meinheld.HeaderReferences
import Meinheld.AccessLog
import Meinheld.Memory
import Meinheld.PathBuffer
import Meinheld.RequestReferences
import Meinheld.Audits
import Meinheld.ByteAccounts
import Meinheld.CallTrace
import Meinheld.FieldLines
import Meinheld.RequestMethods
import Meinheld.RequestText
import Meinheld.HeadRules
import Meinheld.RequestTrip
import Meinheld.BitScan
import Meinheld.TimeoutBitmaps
import Meinheld.EpollSets
import Meinheld.MissedTimeouts
import Meinheld.RingRows
import Meinheld.TimeCache
import Meinheld.Shutdown
