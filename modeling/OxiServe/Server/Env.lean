import OxiServe.Server.Reply

/-! # The world a request handler runs in

File system, clocks, limiter zones, cache, upstream peers and third-party codecs
as a request sees them. Answers are numbered by the routing pass (and the
position or attempt within it), so any sequence of answers is allowed.
-/
namespace OxiServe.Server
open Fcgi

structure FileMeta where
  isDir : Bool
  isFile : Bool
  executable : Bool
deriving DecidableEq, Repr

/-- What the open-file cache resolves a path to. Times are nanoseconds. -/
inductive Cached
  | error (status : ℕ)
  | dir
  | file (f : File) (size : ℕ) (mtime : Int)

structure DirEntry where
  name : Bytes
  isDir : Bool
  size : ℕ
  mtime : Int
deriving DecidableEq, Repr

inductive Decision
  | pass
  | delay (ms : ℕ)
  | reject
deriving DecidableEq, Repr

inductive CacheStatus
  | miss | hit | expired | bypass | stale | revalidated
deriving DecidableEq, Repr

def CacheStatus.asStr : CacheStatus → Bytes
  | .miss => lit "MISS"
  | .hit => lit "HIT"
  | .expired => lit "EXPIRED"
  | .bypass => lit "BYPASS"
  | .stale => lit "STALE"
  | .revalidated => lit "REVALIDATED"

/-- A cache entry read back. -/
structure Decoded where
  status : ℕ
  headers : List (Bytes × Bytes)
  body : Bytes
deriving DecidableEq, Repr

/-- A parsed upstream response head. -/
structure UpstreamHead where
  len : ℕ
  code : Option ℕ
  headers : List (Bytes × Bytes)
deriving DecidableEq, Repr

/-- One connection to an upstream peer: whether it came from the pool, whether
connecting and each of the two writes succeeded, what its reads return, whether
a failing read is a timeout, and whether the retry deadline has passed. -/
structure Peer where
  reused : Bool
  connects : Bool
  takesHead : Bool
  takesBody : Bool
  reads : Source
  timesOut : Bool
  pastDeadline : Bool
deriving DecidableEq, Repr

inductive Dial
  | ok | failed | timedOut
deriving DecidableEq, Repr

/-- One FastCGI connection. -/
structure FcgiPeer where
  dial : Dial
  takesRequest : Bool
  reads : Source
  timesOut : Bool
deriving DecidableEq, Repr

structure Env where
  hostname : Bytes
  pid : ℕ
  requestTime : ℕ → ℕ
  msec : ℕ → ℕ
  timeLocal : ℕ → Bytes
  timeIso8601 : ℕ → Bytes
  now : ℕ → Int
  httpDate : Int → Bytes
  parseHttpDate : Bytes → Option Int
  fileMeta : ℕ → Bytes → Option FileMeta
  lookup : ℕ → Bytes → Cached
  mmap : ℕ → Bytes → Option Bytes
  readDir : ℕ → Bytes → Except ℕ (List DirEntry)
  acquireConn : ℕ → ℕ → Bytes → Bytes → ℕ → Bool
  checkReq : ℕ → ℕ → Bytes → Bytes → ℕ → Bool → ℕ → Decision
  cacheLoad : ℕ → Bytes → Bytes → Option (Decoded × CacheStatus)
  cacheLock : ℕ → Bytes → Bytes → Bool
  cacheWait : ℕ → Bytes → Bytes → Option Decoded
  selectPeer : ℕ → ℕ → Bytes → List ℕ → Option ℕ
  peer : ℕ → ℕ → Bytes → Peer
  parseResponse : Bytes → Except Unit (Option UpstreamHead)
  fcgiPeer : ℕ → Bytes → FcgiPeer
  gzip : ℕ → Bytes → Option Bytes
  stubStatus : ℕ → Bytes
  statusJson : ℕ → Bytes

/-- A world without files, peers, cache entries or limits. -/
def Env.idle : Env where
  hostname := lit "localhost"
  pid := 1
  requestTime := fun _ => 0
  msec := fun _ => 0
  timeLocal := fun _ => lit "01/Jan/1970:00:00:00 +0000"
  timeIso8601 := fun _ => lit "1970-01-01T00:00:00+00:00"
  now := fun _ => 0
  httpDate := fun _ => lit "Thu, 01 Jan 1970 00:00:00 GMT"
  parseHttpDate := fun _ => none
  fileMeta := fun _ _ => none
  lookup := fun _ _ => .error 404
  mmap := fun _ _ => none
  readDir := fun _ _ => .error 404
  acquireConn := fun _ _ _ _ _ => true
  checkReq := fun _ _ _ _ _ _ _ => .pass
  cacheLoad := fun _ _ _ => none
  cacheLock := fun _ _ _ => true
  cacheWait := fun _ _ _ => none
  selectPeer := fun _ _ _ _ => none
  peer := fun _ _ _ => ⟨false,false,true,true,[],false,false⟩
  parseResponse := fun _ => .ok none
  fcgiPeer := fun _ _ => ⟨.failed,true,[],false⟩
  gzip := fun _ _ => none
  stubStatus := fun _ => []
  statusJson := fun _ => []

end OxiServe.Server
