import LjrServer.ByteArray.RoundTrip
import LjrServer.IoManager.StaleEvents
import LjrServer.IoManager.Table
import LjrServer.Http.HeaderReads
import LjrServer.Http.KeepAlive
import LjrServer.Http.Chunks
import LjrServer.Http.PoolLimits
import LjrServer.Timer.Races
import LjrServer.Timer.Wakeups
import LjrServer.Scheduler.Affinity
import LjrServer.Scheduler.Tickles
import LjrServer.Scheduler.Stopping
import LjrServer.Hook.FdManager
import LjrServer.Hook.Timeouts
import LjrServer.Config.Listeners
import LjrServer.Log.Reconfigure
import LjrServer.Log.Yaml
import LjrServer.Log.Inheritance
import LjrServer.Uri.Dump
import LjrServer.Http.DumpReceived
import LjrServer.Net.Socket
import LjrServer.Net.FixSize
import LjrServer.ByteArray.Strings
import LjrServer.ByteArray.Malformed
import LjrServer.ByteArray.Scatter
import LjrServer.ByteArray.Files
import LjrServer.Timer.Expiry
import LjrServer.IoManager.Idle
import LjrServer.Hook.Process
import LjrServer.Hook.Sleep
import LjrServer.Hook.Connect
import LjrServer.Hook.FdTable
import LjrServer.Hook.Descriptors
import LjrServer.IoManager.Cancel
import LjrServer.Net.Subnet
import LjrServer.Net.IPv6Text
import LjrServer.Net.Lookup
import LjrServer.Http.Servlet
import LjrServer.App.Env
import LjrServer.Net.TcpServer
import LjrServer.Log.Pattern
import LjrServer.Config.Directory
import LjrServer.Config.Casts
import LjrServer.Http.BodyFraming
import LjrServer.Http.ReceiveLimits
import LjrServer.Http.Methods
import LjrServer.Http.ClientCalls
import LjrServer.Http.ResponseReceived
import LjrServer.Http.Exchange
import LjrServer.Log.Delivery
import LjrServer.Fiber.Contexts
import LjrServer.Fiber.Lifetimes
