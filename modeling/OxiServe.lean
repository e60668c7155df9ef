import OxiServe.Lib.Bytes
import OxiServe.Lib.KeyMap
import OxiServe.Lib.BoundedFifo
import OxiServe.Lib.Runs
import OxiServe.Http.Uri
import OxiServe.Http.Request
import OxiServe.Http.RequestFraming
import OxiServe.Http2.Frame
import OxiServe.Http2.Huffman
import OxiServe.Http2.Hpack
import OxiServe.Http2.HpackTable
import OxiServe.Http2.Conn
import OxiServe.Http2.Lifecycle
import OxiServe.Http2.Concurrency
import OxiServe.Http2.HpackSync
import OxiServe.Http2.TableLimit
import OxiServe.Http2.Moves
import OxiServe.Http2.Assembly
import OxiServe.Http2.Spawning
import OxiServe.Http2.BodyLimit
import OxiServe.Http2.Outgoing
import OxiServe.Http2.Tasks
import OxiServe.Http2.Anchored
import OxiServe.Http2.InFlight
import OxiServe.Http2.AfterReset
import OxiServe.Http2.FlowControl
import OxiServe.Http2.Pumping
import OxiServe.Lib.Stream
import OxiServe.Lib.Chunked
import OxiServe.Http.Response
import OxiServe.Http.Date
import OxiServe.Server.FcgiBody
import OxiServe.Server.Reply
import OxiServe.Config.Vars
import OxiServe.Config.Model
import OxiServe.Server.Conn
import OxiServe.Server.BodyWriter
import OxiServe.Server.KeepAlive
import OxiServe.Server.Env
import OxiServe.Server.Ctx
import OxiServe.Server.ProxyHead
import OxiServe.Lib.Http1Head
import OxiServe.Server.ProxyHeadSafe
import OxiServe.Server.Proxy
import OxiServe.Http2.Body
import OxiServe.Http3.Body
import OxiServe.Http2.Request
import OxiServe.Http3.Qpack
import OxiServe.Http3.Request
import OxiServe.Server.Transport
import OxiServe.Server.FastCgi
import OxiServe.Server.Files
import OxiServe.Server.Decorate
import OxiServe.Server.Handler
import OxiServe.Server.Authorisation
import OxiServe.Server.Producers
import OxiServe.Server.ReplyFraming
import OxiServe.Server.RequestLength
import OxiServe.Server.Downgrade
import OxiServe.Http2.Truncation
import OxiServe.Http2.NoPanic
import OxiServe.Http2.WindowBound
import OxiServe.Http2.Notices
import OxiServe.Http2.ReceiveCredit
import OxiServe.Http2.Legal
import OxiServe.Http2.Trailers
import OxiServe.Http2.RoundTrip
import OxiServe.Http2.PrefixedInt
import OxiServe.Http2.TableAccount
import OxiServe.Http2.HuffmanUnique
import OxiServe.Server.LimitConn
import OxiServe.Server.ConnGuards
import OxiServe.Server.ConnAdmission
import OxiServe.Server.Truncation
import OxiServe.Config.Listener
import OxiServe.Server.ClientBody
import OxiServe.Server.Entry
import OxiServe.Server.VirtualHost
import OxiServe.Server.WorkerDeath
import OxiServe.Server.LimitReq
import OxiServe.Server.LeakyBucket
import OxiServe.Server.ReqZones
import OxiServe.Server.Rollback
import OxiServe.Server.CheckRace
import OxiServe.Server.Charging
import OxiServe.Config.Build
import OxiServe.Config.Units
import OxiServe.Server.LimitRuns
import OxiServe.Server.CacheManager
import OxiServe.Config.ZoneRefs
import OxiServe.Config.ZoneChecks
import OxiServe.Server.CacheEntry
import OxiServe.Server.Entering
import OxiServe.Server.CacheKey
import OxiServe.Config.CacheValid
import OxiServe.Server.CacheStore
import OxiServe.Server.CachedPages
import OxiServe.Http3.Reader
import OxiServe.Http3.Grammar
import OxiServe.Http3.Dispatch
import OxiServe.Http.Canonical
import OxiServe.Server.UriTurns
import OxiServe.Server.CanonicalUri
import OxiServe.Server.MapPath
import OxiServe.Http3.Control
import OxiServe.Http3.Held
import OxiServe.Http3.HeldBound
import OxiServe.Http3.QpackRound
import OxiServe.Http3.FrameRound
import OxiServe.Server.FcgiWire
import OxiServe.Server.FcgiReader
import OxiServe.Server.FcgiSplit
import OxiServe.Server.FcgiParams
import OxiServe.Lib.Numerals
import OxiServe.Server.ProxyFields
import OxiServe.Lib.Windows
import OxiServe.Server.PeerHealth
import OxiServe.Server.PeerChoice
import OxiServe.Server.RoundRobin
import OxiServe.Server.RangeExact
import OxiServe.Server.PartialExact
import OxiServe.Server.Validators
import OxiServe.Server.Retries
import OxiServe.Server.ListedStatus
import OxiServe.Server.Surplus
import OxiServe.Server.Returned
import OxiServe.Server.Pool
import OxiServe.Lib.Hysteresis
import OxiServe.Server.Balance
import OxiServe.Server.BodyLimit
import OxiServe.Lib.Utf8
import OxiServe.Config.Lexer
import OxiServe.Config.Words
import OxiServe.Config.Ast
import OxiServe.Config.DumpExact
import OxiServe.Config.IncludeSplice
import OxiServe.Config.Locations
import OxiServe.Config.HostChoice
import OxiServe.Server.Sni
import OxiServe.Server.Rendering
import OxiServe.Server.ErrorPages
import OxiServe.Server.HeadOnly
import OxiServe.Lib.Counting
import OxiServe.Lib.Slots
import OxiServe.Lib.Cursor
import OxiServe.Server.Load
import OxiServe.Server.Interim
import OxiServe.Config.Lists
import OxiServe.Server.Inheritance
import OxiServe.Lib.InTurn
import OxiServe.Config.Phases
import OxiServe.Server.RewriteOrder
import OxiServe.Server.RewritePasses
import OxiServe.Server.RewriteProbes
import OxiServe.Server.RewriteDisorder
import OxiServe.Server.RewriteKept
import OxiServe.Server.FileCache
import OxiServe.Server.FetchLock
import OxiServe.Server.FirstFailure
import OxiServe.Server.HeadFields
import OxiServe.Server.HeadOrigin
import OxiServe.Server.Prefork
import OxiServe.Server.Preread
import OxiServe.Server.ClientHello
import OxiServe.Server.PrereadRecords
import OxiServe.Server.PrereadFinal
import OxiServe.Server.Supervision
import OxiServe.Server.Signals
import OxiServe.Server.Draining
import OxiServe.Server.Udp
import OxiServe.Server.Pump
import OxiServe.Server.AccessLog
import OxiServe.Server.CacheIndex
import OxiServe.Server.CacheFileWhole
import OxiServe.Http.Segments
import OxiServe.Http.EncodeRound
import OxiServe.Server.AliasPath
import OxiServe.Server.TryFiles
import OxiServe.Server.MapLookup
import OxiServe.Server.ChunkLine
import OxiServe.Server.ChunkOverflow
import OxiServe.Server.FcgiCursors
import OxiServe.Server.FcgiFaithful
import OxiServe.Server.BodyCursor
import OxiServe.Server.BodyRound
