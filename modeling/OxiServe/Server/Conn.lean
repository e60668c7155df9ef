import OxiServe.Config.Model
import OxiServe.Http.Request
import OxiServe.Server.Reply

/-! # Writing a reply on an HTTP/1 connection

Every body kind has its own copy loop. Whether the connection survives is
decided before the body is written, and a write error or a failing source ends
it.
-/
namespace OxiServe.Server
open Config Response

section Loops

/-- The loop shared by the buffered copy and `sendfile(2)`: a read of nothing
ends it early. -/
def fileLoop (f : File) (chunk len : ℕ) : ℕ → ℕ → Sink → ℕ → ℕ → Sink × Option ℕ
  | 0, _, s, _, _ => (s,none)
  | fuel + 1, t, s, pos, sent =>
    if len ≤ sent then (s,some sent)
    else
      match f.readAt t pos (min chunk (len - sent)) with
      | none => (s,none)
      | some b =>
        if b = [] then (s,some sent)
        else
          match s.writeAll b with
          | (s,false) => (s,none)
          | (s,true) => fileLoop f chunk len fuel (t + 1) s (pos + b.length) (sent + b.length)

/-- The longest read `stream_file` asks for; the kernel path takes up to 1 GiB. -/
def fileChunk (core : CoreConf) (tcp : Bool) (len : ℕ) : ℕ :=
  if core.sendfile && tcp then 2 ^ 30
  else min (min (max core.outputBufferSize (16 * 1024)) (512 * 1024)) (max len 1)

def streamFile (core : CoreConf) (tcp : Bool) (t : ℕ) (s : Sink) (f : File) (offset len : ℕ) :
    Sink × Option ℕ :=
  fileLoop f (fileChunk core tcp len) len (len + 1) t s offset 0

def upstreamBuf : ℕ := 32 * 1024

/-- How much of a read still belongs to the body. -/
def takeUpTo (len : Option ℕ) (sent : ℕ) (b : Bytes) : Bytes :=
  match len with
  | some total => b.take (total - sent)
  | none => b

def reached (len : Option ℕ) (sent : ℕ) : Bool :=
  match len with
  | some total => total ≤ sent
  | none => false

/-- The upstream bytes go out as they come, up to the length when there is one. -/
def upstreamLoop (len : Option ℕ) : ℕ → Sink → Io → ℕ → Sink × Option ℕ
  | 0, s, _, _ => (s,none)
  | fuel + 1, s, io, sent =>
    if reached len sent then (s,some sent)
    else
      match Reader.read upstreamBuf io with
      | (.failed,_) => (s,none)
      | (.data b,io) =>
        if b = [] then (s,some sent)
        else
          match s.writeAll (takeUpTo len sent b) with
          | (s,false) => (s,none)
          | (s,true) => upstreamLoop len fuel s io (sent + (takeUpTo len sent b).length)

/-- What was read with the head goes out whole, whatever the length says. -/
def streamUpstream (s : Sink) (pre : Bytes) (io : Io) (len : Option ℕ) : Sink × Option ℕ :=
  match s.writeAll pre with
  | (s,false) => (s,none)
  | (s,true) => upstreamLoop len (Reader.size io + 1) s io pre.length

/-- The client's direction of a tunnel; an error of either side just ends it. -/
def tunnelLoop : ℕ → Sink → Source → ℕ → Sink × ℕ
  | 0, s, _, sent => (s,sent)
  | fuel + 1, s, io, sent =>
    match Source.read (16 * 1024) io with
    | (.failed,_) => (s,sent)
    | (.data b,io) =>
      if b = [] then (s,sent)
      else
        match s.writeAll b with
        | (s,false) => (s,sent)
        | (s,true) => tunnelLoop fuel s io (sent + b.length)

end Loops

/-- Head and body of a reply that has one, up to the final flush. -/
def writeBody (core : CoreConf) (tcp : Bool) (t : ℕ) (s : Sink) (head : Bytes) (body : Body) :
    Sink × Option ℕ :=
  match body with
  | .empty =>
    match s.writeAll head with
    | (s,false) => (s,none)
    | (s,true) => (s,some 0)
  | .bytes b =>
    match s.writeAll (head ++ b) with
    | (s,false) => (s,none)
    | (s,true) => (s,some b.length)
  | .mmap w =>
    match s.writeAll (head ++ w.bytes) with
    | (s,false) => (s,none)
    | (s,true) => (s,some w.bytes.length)
  | .inline f offset len =>
    match f.readAt t offset len with
    | none => (s,none)
    | some b =>
      match s.writeAll (head ++ b) with
      | (s,false) => (s,none)
      | (s,true) => (s,some b.length)
  | .file f offset len =>
    match s.writeAll head with
    | (s,false) => (s,none)
    | (s,true) => streamFile core tcp t s f offset len
  | .stream pre io len =>
    match s.writeAll head with
    | (s,false) => (s,none)
    | (s,true) => streamUpstream s pre io len
  | .upgraded pre io =>
    match s.writeAll (head ++ pre) with
    | (s,false) => (s,none)
    | (s,true) =>
      if s.flushOk then
        let (s,sent) := tunnelLoop (Source.size io + 1) s io 0
        (s,some (pre.length + sent))
      else (s,none)

/-- Writes a framed reply; the answer is the number of body bytes, or an error. -/
def writeReply (core : CoreConf) (date : Bytes) (tcp : Bool) (t : ℕ) (s : Sink) (reply : Reply)
    (headOnly : Bool) : Sink × Option ℕ :=
  let head := reply.resp.writeHead core.serverTokens date
  let (s,n) := writeBody core tcp t s head (if headOnly then .empty else reply.body)
  (s,if s.flushOk then n else none)

/-- One turn of the connection loop after the request has been read: the request,
how many this connection has served, the server it selected, the status of a
request body that could not be read, and the handler's reply. -/
structure Exchange where
  req : Request.Req
  requests : ℕ
  core : CoreConf
  bodyStatus : Option ℕ
  reply : Reply
  date : Bytes
  tcp : Bool
  clock : ℕ

namespace Exchange

def headOnly (x : Exchange) : Bool := x.req.method == .head

/-- The connection survives only if everyone agrees. -/
def keepAlive (x : Exchange) : Bool :=
  x.reply.resp.keepAlive && x.req.keepAlive && !decide (x.core.keepaliveRequests ≤ x.requests) &&
    x.bodyStatus.isNone && decide (0 < x.core.keepaliveTimeout)

/-- The reply as it is handed to the writer. -/
def framed (x : Exchange) : Reply :=
  let reply := { x.reply with resp := { x.reply.resp with keepAlive := x.keepAlive } }
  let reply := reply.frame (x.req.minor == 1)
  if x.headOnly then { reply with body := .empty } else reply

def head (x : Exchange) : Bytes := x.framed.resp.writeHead x.core.serverTokens x.date

/-- Writes the reply; the flag says whether the loop goes on to another request. -/
def respond (x : Exchange) (s : Sink) : Sink × Bool :=
  match writeReply x.core x.date x.tcp x.clock s x.framed x.headOnly with
  | (s,none) => (s,false)
  | (s,some _) => (s,x.framed.resp.keepAlive)

/-- The bytes written after the response head. -/
def written (x : Exchange) (s : Sink) : Bytes :=
  (x.respond s).1.out.drop (s.out.length + x.head.length)

end Exchange

end OxiServe.Server
