import JKYi.Address.Lookup
import JKYi.Address.Masks
import JKYi.ByteArray.File
import JKYi.ByteArray.Flat
import JKYi.ByteArray.RoundTrip
import JKYi.Config.ConfigVar
import JKYi.Db.MySQLObjects
import JKYi.Db.MySQLStmt
import JKYi.Db.RedisManager
import JKYi.Db.Transaction
import JKYi.Hook.FdManager
import JKYi.Hook.Sleep
import JKYi.Hook.Timeout
import JKYi.Http.ChunkSize
import JKYi.Http.HeadSplits
import JKYi.Http.HttpDump
import JKYi.Http.HttpParams
import JKYi.Http.PoolLimits
import JKYi.Http.WSControlFrames
import JKYi.Http.WSEmptyFragments
import JKYi.Http.WSMasking
import JKYi.Http.WSServer
import JKYi.Http2.PriorityTransfer
import JKYi.Http2.StringRoundTrip
import JKYi.Http2.TableSearch
import JKYi.IOManager.Accounting
import JKYi.IOManager.Contexts
import JKYi.IOManager.Idle
import JKYi.Log.Appenders
import JKYi.Log.LogIniter
import JKYi.Reactor.CodecDelivery
import JKYi.Reactor.ConnectionLifecycle
import JKYi.Reactor.EventLoop
import JKYi.Reactor.HttpPipeline
import JKYi.Reactor.LogBuffers
import JKYi.Reactor.LogDelivery
import JKYi.Reactor.LogStream
import JKYi.Reactor.ShutdownOrder
import JKYi.Reactor.TimerCancel
import JKYi.Scheduler.Stopping
import JKYi.Timer.Membership
import JKYi.Util.Base64Accept
import JKYi.Util.FiberSemaphore
import JKYi.Util.ScopedLock
