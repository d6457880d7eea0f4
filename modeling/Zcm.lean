import Zcm.Lib.Memory
import Zcm.Lib.Ring
import Zcm.Lib.Runs
import Zcm.Util.QueueRefinement
import Zcm.Blocking.Awake
import Zcm.Blocking.Received
import Zcm.Blocking.Shutdown
import Zcm.Blocking.Stop
import Zcm.Blocking.Subscriptions
import Zcm.Nonblocking.Dispatch
import Zcm.Serial.Capacity
import Zcm.Udp.Accounting
import Zcm.Udp.Limits
import Zcm.Gen.RoundTrip
import Zcm.Gen.FingerprintCache
import Zcm.Gen.Layout
import Zcm.Gen.TokenizeClean
import Zcm.Gen.Strings
import Zcm.Java.SameBytes
import Zcm.Coretypes.Encode
import Zcm.Eventlog.Cursor
import Zcm.Eventlog.Replay
import Zcm.Filter.Exact
import Zcm.Tracking.Dispatcher
import Zcm.Logger.Shutdown
import Zcm.Logger.Truth
import Zcm.Zmq.Polled
import Zcm.Introspection.Exact
import Zcm.Udp.Short
import Zcm.Udp.Isolation
import Zcm.Udp.Failures
import Zcm.Serial.Asserted
import Zcm.Blocking.Filter
import Zcm.Nonblocking.Handles
import Zcm.Eventlog.Seek
import Zcm.Java.SameBits
import Zcm.Cpp.Forgets
import Zcm.Coretypes.ArrayBits
import Zcm.Node.SameBits
import Zcm.Julia.SameBits
import Zcm.Gen.StringLiterals
import Zcm.Gen.TokenInside
import Zcm.Lib.Strtol
import Zcm.Gen.Parser
import Zcm.Gen.Constants
import Zcm.Gen.ConstantBits
import Zcm.Gen.WellFormed
import Zcm.Coretypes.StringArrays
import Zcm.Cpp.Dispatch
import Zcm.Ipcshm.Options
import Zcm.Tracking.Nearest
import Zcm.Logger.Rotation
import Zcm.Lib.Cycles
import Zcm.Indexer.Plugins
import Zcm.Logger.Drop
import Zcm.Logger.Progress
import Zcm.Eventlog.Repaired
import Zcm.Logplayer.Independence
import Zcm.SpyLite.Numbers
import Zcm.Filter.Reads
import Zcm.EmitC.Faithful
import Zcm.Serial.Bounded
import Zcm.Serial.Fletcher
import Zcm.Udp.Owners
import Zcm.Util.MessageBufferPool
