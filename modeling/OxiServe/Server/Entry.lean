import OxiServe.Config.Listener
import OxiServe.Http2.Request
import OxiServe.Http3.Request
import OxiServe.Server.ClientBody
import OxiServe.Server.Ctx

/-! # From a request of any transport to its context

HTTP/1 picks the server by the `Host` field, without its port, and reads the body
within that server's limit. HTTP/2 and HTTP/3 have the whole body by then and
pick the server by the authority as it stands.
-/
namespace OxiServe.Server
open Config Request
open Hpack (Header)
open Http2 (Handed Parsed StreamTask parseHeaders)

/-- What a connection brings to each of its requests. -/
structure Wire where
  http : Http
  remote : Option SocketAddr
  localAddr : Option SocketAddr
  scheme : Bytes
  connId : ℕ

section Entry

/-- The part of `serve_with_prefix` behind a head: the context and the end of the
body, or a bare 400. The ranges of the request lie in the head, so what the body
adds to the buffer is left out. -/
def http1 (l : Listener) (w : Wire) (hp : Httparse) (q : Req) (requests : ℕ) (i : Incoming) :
    Option (Ctx × BodyEnd) :=
  match q.parse hp i.buf with
  | (req,.complete) =>
    let server := l.matchHost (req.host i.buf)
    match Uri.normalize (req.pathStr i.buf) with
    | .error _ => none
    | .ok uri =>
      let read := readBody req server.core.clientMaxBodySize i
      some (Ctx.new i.buf req read.body w.http server uri w.remote w.localAddr w.scheme w.connId requests,read.ended)
  | _ => none

/-- The context of a request built from a header list. -/
def listCtx (l : Listener) (w : Wire) (scheme : Bytes) (requests : ℕ) (p : Parsed) (h : Handed) : Ctx :=
  Ctx.new h.buf h.req h.body w.http (l.matchHost p.authority) h.uri w.remote w.localAddr scheme w.connId requests

/-- The start of the task `spawn_stream` makes. -/
def http2 (l : Listener) (w : Wire) (t : StreamTask) : Option Ctx :=
  match parseHeaders t.headers with
  | .error _ => none
  | .ok p => (p.handOver t.body).map (listCtx l w w.scheme t.id p)

/-- The limit on a body is known before the request is: the default server's. -/
def listenerLimit (l : Listener) : ℕ := l.default.core.clientMaxBodySize

def http3 (l : Listener) (w : Wire) (requests : ℕ) (input : Bytes) : Option Ctx :=
  match Http3.request (listenerLimit l) input with
  | .handed fields h =>
    match parseHeaders fields with
    | .error _ => none
    | .ok p => some (listCtx l w (lit "https") requests p h)
  | _ => none

end Entry

section Cases
variable {l : Listener} {w : Wire} {hp : Httparse} {q : Req} {requests : ℕ} {i : Incoming} {t : StreamTask}
  {input : Bytes} {ctx : Ctx} {e : BodyEnd}

theorem http1_some (h : http1 l w hp q requests i = some (ctx,e)) :
    (q.parse hp i.buf).2 = .complete ∧ ctx.buf = i.buf ∧ ctx.req = (q.parse hp i.buf).1 ∧
      ctx.server = l.matchHost (ctx.req.host i.buf) ∧
      e = (readBody ctx.req ctx.server.core.clientMaxBodySize i).ended := by
  unfold http1 at h
  split at h
  · rename_i req hreq
    dsimp only at h
    split at h
    · cases h
    · cases h
      rw [hreq]
      exact ⟨rfl,rfl,rfl,rfl,rfl⟩
  · cases h

/-- Whether there is a context does not depend on the listener. -/
theorem http1_transfer (h : http1 l w hp q requests i = some (ctx,e)) (m : Listener) :
    ∃ c d, http1 m w hp q requests i = some (c,d) := by
  unfold http1 at h ⊢
  split at h
  · rename_i req hreq
    dsimp only at h ⊢
    split at h
    · cases h
    · exact ⟨_,_,rfl⟩
  · cases h

theorem http2_some (h : http2 l w t = some ctx) :
    ∃ p r, parseHeaders t.headers = .ok p ∧ p.handOver t.body = some r ∧ ctx = listCtx l w w.scheme t.id p r := by
  unfold http2 at h
  split at h
  · cases h
  · rename_i p hp
    obtain ⟨r,hr,hc⟩ := Option.map_eq_some_iff.mp h
    exact ⟨p,r,hp,hr,hc.symm⟩

theorem http2_transfer (h : http2 l w t = some ctx) (m : Listener) : ∃ c, http2 m w t = some c := by
  obtain ⟨p,r,hp,hr,-⟩ := http2_some h
  unfold http2
  rw [hp]
  dsimp only
  rw [hr]
  exact ⟨_,rfl⟩

theorem http3_some (h : http3 l w requests input = some ctx) :
    ∃ fields p body r, Http3.request (listenerLimit l) input = .handed fields r ∧ parseHeaders fields = .ok p ∧
      p.handOver body = some r ∧ ctx = listCtx l w (lit "https") requests p r := by
  unfold http3 at h
  split at h
  · rename_i fields r hr
    split at h
    · cases h
    · rename_i p hp
      obtain ⟨block,fs,p',-,-,hp',ho,-⟩ := Http3.request_handed hr
      obtain rfl : p = p' := by
        rw [hp] at hp'
        exact Except.ok.inj hp'
      exact ⟨fields,p,_,r,hr,hp,ho,(Option.some.inj h).symm⟩
  · cases h

theorem http3_transfer (h : http3 l w requests input = some ctx) {m : Listener}
    (hm : listenerLimit m = listenerLimit l) : ∃ c, http3 m w requests input = some c := by
  obtain ⟨fields,p,_,r,hr,hp,-,-⟩ := http3_some h
  unfold http3
  rw [hm,hr]
  dsimp only
  rw [hp]
  exact ⟨_,rfl⟩

end Cases

end OxiServe.Server
