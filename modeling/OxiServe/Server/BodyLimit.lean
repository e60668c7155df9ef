import OxiServe.Http.RequestFraming
import OxiServe.Http2.BodyLimit
import OxiServe.Http3.Reader
import OxiServe.Server.ChunkOverflow
import OxiServe.Server.Entry
import OxiServe.Server.Handler

/-! # The limit on request bodies

Every transport reads the body before the request is routed: HTTP/1 within the limit of
the server its `Host` field names, HTTP/2 and HTTP/3 within that of the listener's
default server. The limit of the location is not among them.
-/
namespace OxiServe.Server
open Config Request

section Counted
variable {t : Bool} {n max : ℕ} {rest body b r : Bytes} {reads s : Source}

theorem fillBody_ne_413 : (fillBody t n rest reads body).ended ≠ .refused 413 := by
  induction reads generalizing body with
  | nil =>
    unfold fillBody
    dsimp only
    split
    · exact fun h => nomatch h
    · exact fun h => absurd (BodyEnd.refused.inj h) (by decide)
  | cons d reads ih =>
    cases d with
    | failed =>
      unfold fillBody
      dsimp only
      split
      · exact fun h => nomatch h
      · cases t
        · exact fun h => absurd (BodyEnd.refused.inj h) (by decide)
        · exact fun h => absurd (BodyEnd.refused.inj h) (by decide)
    | data d =>
      unfold fillBody
      split
      · exact fun h => nomatch h
      · split
        · exact fun h => absurd (BodyEnd.refused.inj h) (by decide)
        · split
          · exact ih
          · exact fun h => nomatch h

end Counted

section Chunks
variable {t : Bool} {fuel max : ℕ} {rest body b r : Bytes} {reads s : Source}

/-- No size is too large for it. -/
def unlimited : ℕ := 2 ^ 64 - 1

theorem not_unlimited_lt (n : ℕ) : ¬ unlimited < n % 2 ^ 64 := by
  have h : n % 2 ^ 64 < 2 ^ 64 := Nat.mod_lt _ (Nat.two_pow_pos 64)
  unfold unlimited
  omega

/-- Chunks that make up a body are read within any limit the body keeps, and refused at
the first one that takes it past the limit. -/
theorem readChunks_limit (h : readChunks t unlimited fuel rest reads body = ⟨b,.done r s⟩) (hb : b.length < 2 ^ 64) :
    body.length ≤ b.length ∧ (b.length ≤ max → readChunks t max fuel rest reads body = ⟨b,.done r s⟩) ∧
      (body.length ≤ max → max < b.length → (readChunks t max fuel rest reads body).ended = .refused 413) := by
  induction fuel generalizing rest reads body with
  | zero => cases h
  | succ fuel ih =>
    rw [readChunks] at h
    simp only [readChunks]
    rcases hline : fillUntil t sizeLine reads rest with e | ⟨i,rest',reads'⟩
    · rw [hline] at h
      cases h
    rw [hline] at h
    dsimp only at h ⊢
    cases hsize : parseHex ((rest'.take i).takeWhile (· != 59)) with
    | none =>
      rw [hsize] at h
      cases h
    | some size =>
      rw [hsize] at h
      dsimp only at h ⊢
      by_cases hz : size = 0
      · rw [if_pos hz] at h
        rw [if_pos hz]
        rcases htr : readTrailers t fuel (rest'.drop (i + 2)) reads' with e | ⟨rest'',reads''⟩
        · rw [htr] at h
          cases h
        · rw [htr] at h
          cases h
          exact ⟨Nat.le_refl _,fun _ => rfl,fun hle hlt => absurd hle (by omega)⟩
      rw [if_neg hz,if_neg (not_unlimited_lt _)] at h
      rw [if_neg hz]
      rcases hfill : fillUntil t (holds ((size + 2) % 2 ^ 64)) reads' (rest'.drop (i + 2)) with e | ⟨u,rest'',reads''⟩
      · rw [hfill] at h
        cases h
      rw [hfill] at h
      dsimp only at h ⊢
      by_cases hbig : 2 ^ 64 ≤ size + 2
      · rw [if_pos hbig] at h
        cases h
      rw [if_neg hbig] at h
      by_cases hcr : (rest''.drop size).take 2 ≠ Chunked.crlf
      · rw [if_pos hcr] at h
        cases h
      rw [if_neg hcr] at h
      obtain ⟨hmono,hfits,hover⟩ := ih h
      have hlen : (body ++ rest''.take size).length = body.length + size := by
        have hhold := holds_length hfill
        rw [Nat.mod_eq_of_lt (by omega)] at hhold
        rw [List.length_append,List.length_take]
        omega
      rw [hlen] at hmono hover
      have hmod : (body.length + size) % 2 ^ 64 = body.length + size := Nat.mod_eq_of_lt (by omega)
      rw [hmod]
      refine ⟨by omega,?_,?_⟩
      · intro hle
        rw [if_neg (by omega),if_neg hbig,if_neg hcr]
        exact hfits hle
      · intro hle hlt
        by_cases hnow : max < body.length + size
        · rw [if_pos hnow]
        · rw [if_neg hnow,if_neg hbig,if_neg hcr]
          exact hover (by omega) hlt

end Chunks

section Http1
variable {req : Req} {i : Incoming} {b : Bytes}

/-- The body the client sends: of the length it declares, or the one its chunks make up. -/
def Decodes (req : Req) (i : Incoming) (b : Bytes) : Prop :=
  match req.body with
  | .none => b = []
  | .length n => b.length = n
  | .chunked => b.length < 2 ^ 64 ∧ ∃ rest reads,
      readChunkedBody i.timesOut unlimited (i.buf.drop req.headLen) i.reads = ⟨b,.done rest reads⟩

/-- The body is refused for its size exactly when it is larger than the limit. -/
theorem readBody_413 (h : Decodes req i b) (max : ℕ) :
    (readBody req max i).ended = .refused 413 ↔ max < b.length := by
  unfold Decodes at h
  unfold readBody
  dsimp only
  cases hb : req.body with
  | none =>
    rw [hb] at h
    obtain rfl : b = [] := h
    exact ⟨(fun hd => nomatch hd),fun hlt => absurd hlt (Nat.not_lt_zero _)⟩
  | length n =>
    rw [hb] at h
    obtain rfl : b.length = n := h
    dsimp only
    by_cases hlt : max < b.length
    · rw [if_pos hlt]
      exact ⟨fun _ => hlt,fun _ => rfl⟩
    · rw [if_neg hlt]
      exact ⟨fun hd => absurd hd fillBody_ne_413,fun hn => absurd hn hlt⟩
  | chunked =>
    rw [hb] at h
    obtain ⟨hsize,rest,reads,hread⟩ := h
    obtain ⟨-,hfits,hover⟩ := @readChunks_limit _ _ max _ _ _ _ _ _ hread hsize
    dsimp only
    constructor
    · intro hd
      by_contra hn
      rw [readChunkedBody,hfits (Nat.not_lt.mp hn)] at hd
      cases hd
    · exact hover (Nat.zero_le _)

end Http1

section Http3
open Http3 (Carries isControl request maxFieldSection)
open Http2 (Handed Parsed parseHeaders)
variable {fs : List (ℕ × Bytes)} {buf body block : Bytes} {fields : List Hpack.Header} {p : Parsed} {r : Handed}
  {max fuel : ℕ}

/-- Frames with more data than is allowed are refused at the first that goes past. -/
theorem carries_readBody_413 (h : Carries buf fs) (hn : ∀ f ∈ fs, isControl f.1 = false) (hb : body.length ≤ max)
    (hl : max < (body ++ Http3.dataOf fs).length) (hf : buf.length < fuel) :
    Http3.readBody max fuel buf body = .error (.bare 413) := by
  induction h generalizing fuel body with
  | nil =>
    simp [Http3.dataOf] at hl
    omega
  | @cons b rest rest' payload hd fs hh hx hc ih =>
    cases fuel with
    | zero => omega
    | succ fuel =>
      have h1 := Http3.head_shorter hh
      have h2 := Http3.exact_some hx
      have hlt : rest'.length < fuel := by omega
      obtain ⟨hk,hn⟩ := List.forall_mem_cons.mp hn
      rw [Http3.readBody]
      simp only [hh,hx]
      by_cases hd' : hd.kind = Http3.Kind.data
      · have hdata : body ++ Http3.dataOf ((hd.kind,payload) :: fs) = body ++ payload ++ Http3.dataOf fs := by
          simp [Http3.dataOf,hd']
        rw [hdata] at hl
        rw [if_pos hd']
        by_cases hnow : max < body.length + hd.len
        · rw [if_pos hnow]
        · rw [if_neg hnow]
          exact ih hn (by rw [List.length_append,h2.1]; omega) hl hlt
      · have hdata : Http3.dataOf ((hd.kind,payload) :: fs) = Http3.dataOf fs := by simp [Http3.dataOf,hd']
        rw [hdata] at hl
        have hctl : ¬ (hd.kind = Http3.Kind.settings ∨ hd.kind = Http3.Kind.goaway ∨ hd.kind = Http3.Kind.maxPushId ∨
            hd.kind = Http3.Kind.cancelPush) := by
          rw [← Http3.isControl_iff]
          exact Bool.eq_false_iff.mp hk
        rw [if_neg hd',if_neg hctl]
        exact ih hn hb hl hlt

/-- The stream is a request in order, whatever its size. -/
structure Asking (buf : Bytes) (fs : List (ℕ × Bytes)) (fields : List Hpack.Header) (p : Parsed) : Prop where
  stream : ∃ block, Carries buf ((Http3.Kind.headers,block) :: fs) ∧ block.length ≤ maxFieldSection ∧
    Qpack.decode block maxFieldSection = .ok fields
  parsed : parseHeaders fields = .ok p
  frames : ∀ f ∈ fs, isControl f.1 = false

theorem Asking.request_413 (h : Asking buf fs fields p) (hr : p.handOver (Http3.dataOf fs) = some r) :
    request max buf = .refused (.bare 413) ↔ max < (Http3.dataOf fs).length := by
  obtain ⟨block,hc,hb,hq⟩ := h.stream
  constructor
  · intro he
    by_contra hle
    rw [hc.request hq h.parsed hr hb (Nat.not_lt.mp hle) h.frames] at he
    cases he
  · intro hlt
    generalize hg : (Http3.Kind.headers,block) :: fs = gs at hc
    cases hc with
    | nil => cases hg
    | @cons _ rest rest' payload hd gs hh hx hrest =>
      obtain ⟨hf,rfl⟩ := List.cons.inj hg
      obtain ⟨hk,rfl⟩ := Prod.mk.inj hf
      have hsize : ¬ maxFieldSection < hd.len := by
        rw [← (Http3.exact_some hx).1]
        omega
      have hbody : Http3.readBody max (rest'.length + 1) rest' [] = .error (.bare 413) :=
        carries_readBody_413 hrest h.frames (Nat.zero_le _) hlt (Nat.lt_succ_self _)
      rw [request]
      simp only [hh,hx,← hk,ne_eq,not_true_eq_false,if_false,if_neg hsize,hq,h.parsed,hbody]

end Http3

section Rule
open Http2 (Conn Event StreamTask)
open Http3 (Recv)

/-- How a request arrives: behind a head of HTTP/1, as the events of a connection that
carry a stream of HTTP/2, or on a stream of HTTP/3. -/
inductive Carrier
  | overHttp1 (hp : Httparse) (q : Req) (requests : ℕ) (i : Incoming)
  | overHttp2 (es : List Event) (id : ℕ)
  | overHttp3 (requests : ℕ) (recv : Recv)

namespace Carrier

/-- The limit its body is read within. -/
def limit (l : Listener) : Carrier → ℕ
  | .overHttp1 hp q _ i => (l.matchHost ((q.parse hp i.buf).1.host i.buf)).core.clientMaxBodySize
  | .overHttp2 _ _ => listenerLimit l
  | .overHttp3 _ _ => listenerLimit l

/-- The request is in order, with this body, and would be served in this context. -/
def Brings (l : Listener) (w : Wire) (body : Bytes) (ctx : Ctx) : Carrier → Prop
  | .overHttp1 hp q requests i => ∃ req uri, q.parse hp i.buf = (req,.complete) ∧
      Uri.normalize (req.pathStr i.buf) = .ok uri ∧ Decodes req i body ∧
      ctx = Ctx.new i.buf req body w.http (l.matchHost (req.host i.buf)) uri w.remote w.localAddr w.scheme w.connId requests
  | .overHttp2 es id => (∃ c, Runs (stepRel Conn.next) (Conn.new (listenerLimit l)) es c) ∧
      Http2.Uploads (listenerLimit l) id es ∧ Http2.EndSeen id es ∧ body = Http2.dataOf id es ∧
      ∃ hs, Http2.HeadersOf (listenerLimit l) id es hs ∧ http2 l w ⟨id,hs,body⟩ = some ctx
  | .overHttp3 requests recv => recv.finished = true ∧ ∃ fs fields p r, Asking recv.bytes fs fields p ∧
      body = Http3.dataOf fs ∧ p.handOver body = some r ∧ ctx = listCtx l w (lit "https") requests p r

/-- It is refused for the size of its body. -/
def Refused (l : Listener) (w : Wire) : Carrier → Prop
  | .overHttp1 hp q requests i => ∃ ctx, http1 l w hp q requests i = some (ctx,.refused 413)
  | .overHttp2 es id => Http2.RefusedForSize (listenerLimit l) id es
  | .overHttp3 _ recv => recv.request (listenerLimit l) = .refused (.bare 413)

variable {l : Listener} {w : Wire} {body : Bytes} {ctx : Ctx} {a : Carrier}

theorem refused_iff (h : a.Brings l w body ctx) : a.Refused l w ↔ a.limit l < body.length := by
  cases a with
  | overHttp1 hp q requests i =>
    obtain ⟨req,uri,hreq,huri,hd,-⟩ := h
    have hread := readBody_413 hd (l.matchHost (req.host i.buf)).core.clientMaxBodySize
    simp only [Refused,limit,hreq,← hread,Server.http1,huri,Option.some.injEq,Prod.mk.injEq]
    constructor
    · rintro ⟨c,-,he⟩
      exact he
    · intro he
      exact ⟨_,rfl,he⟩
  | overHttp2 es id =>
    obtain ⟨⟨c,hr⟩,hu,-,rfl,-⟩ := h
    exact Http2.refusedForSize_iff hr hu
  | overHttp3 requests recv =>
    obtain ⟨-,fs,fields,p,r,ha,rfl,hr,-⟩ := h
    simp only [Refused,limit,Recv.request_eq]
    exact ha.request_413 hr

end Carrier

/-- The limit of the server and location that serve a request. -/
def servedLimit (env : Env) (ctx : Ctx) : ℕ := (handle env ctx).ctx.matchedCore.clientMaxBodySize

/-- The limit in force is kept exactly for a body that is larger than both limits or
than neither. -/
theorem sizeRule_iff {l : Listener} {w : Wire} {body : Bytes} {ctx : Ctx} {a : Carrier} (env : Env)
    (h : a.Brings l w body ctx) : (a.Refused l w ↔ servedLimit env ctx < body.length) ↔
      max (a.limit l) (servedLimit env ctx) < body.length ∨ body.length ≤ min (a.limit l) (servedLimit env ctx) := by
  rw [Carrier.refused_iff h]
  omega

end Rule

section Instance
open Http3 (Recv)

/-- A listener whose default server has the first limit, and whose server `b` has the
second, with a location of the third. -/
def sized (first own inner : ℕ) : Listener where
  servers := [{ ServerConf.bare with core := { defaultCore with clientMaxBodySize := first } },
    { ServerConf.bare with
      names := [.exact (lit "b")]
      core := { defaultCore with clientMaxBodySize := own }
      locations := ⟨[],[{ Location.bare (.pfx (lit "/")) (.ret 200 none) with
        core := { defaultCore with clientMaxBodySize := inner } }],[],[]⟩ }]
  defaultServer := 0
  default_lt := Nat.zero_lt_succ _

def postHead : Bytes := lit "POST / HTTP/1.1\r\nHost: b\r\nContent-Length: 3\r\n\r\n"

def postHttparse : Httparse :=
  .only postHead ⟨47,some ⟨0,4⟩,some ⟨5,6⟩,some 1,[⟨⟨17,21⟩,⟨23,24⟩⟩,⟨⟨26,40⟩,⟨42,43⟩⟩]⟩ (by decide +kernel) (by decide)

def postWire : Wire := ⟨.bare,none,none,lit "http",1⟩

/-- `abc` sent to the server `b` with its length. -/
def lengthCarrier : Carrier := .overHttp1 postHttparse .new 1 ⟨postHead,[.data (lit "abc")],false⟩

def lengthCtx (l : Listener) : Ctx :=
  Ctx.new postHead (Req.new.parse postHttparse postHead).1 (lit "abc") postWire.http
    (l.matchHost ((Req.new.parse postHttparse postHead).1.host postHead)) (lit "/") postWire.remote postWire.localAddr
    postWire.scheme postWire.connId 1

theorem postHead_facts : (Req.new.parse postHttparse postHead).2 = .complete ∧
    (Req.new.parse postHttparse postHead).1.body = .length 3 ∧
    (Uri.normalize ((Req.new.parse postHttparse postHead).1.pathStr postHead)).toOption = some (lit "/") ∧
    (lit "abc").length = 3 := by decide +kernel

theorem lengthCarrier_brings (l : Listener) : lengthCarrier.Brings l postWire (lit "abc") (lengthCtx l) := by
  obtain ⟨hcomplete,hbody,huri,hlen⟩ := postHead_facts
  unfold lengthCtx
  generalize hr : Req.new.parse postHttparse postHead = r at *
  obtain ⟨req,o⟩ := r
  obtain rfl : o = .complete := hcomplete
  refine ⟨req,lit "/",hr,?_,?_,rfl⟩
  · cases hn : Uri.normalize (req.pathStr postHead) with
    | error e =>
      rw [hn] at huri
      cases huri
    | ok u =>
      rw [hn] at huri
      rw [← Option.some.inj huri]
  · unfold Decodes
    rw [hbody]
    exact hlen

/-- The same request on a stream of HTTP/3. -/
def postStream : Bytes := [1,8,0,0,0xd4,0xd7,0xc1,0x50,1,98,0,3,97,98,99]

def streamCarrier : Carrier := .overHttp3 1 ⟨[postStream],true⟩

def streamCtx (l : Listener) : Option Ctx :=
  match Http3.request 3 postStream with
  | .handed fields r =>
    match Http2.parseHeaders fields with
    | .error _ => none
    | .ok p => some (listCtx l postWire (lit "https") 1 p r)
  | _ => none

theorem handed_body {p : Http2.Parsed} {body : Bytes} {r : Http2.Handed} (h : p.handOver body = some r) : r.body = body := by
  unfold Http2.Parsed.handOver at h
  dsimp only at h
  split at h
  · cases h
    rfl
  · cases h

theorem streamCarrier_brings {l : Listener} {ctx : Ctx} (h : streamCtx l = some ctx) (hb : ctx.body = lit "abc") :
    streamCarrier.Brings l postWire (lit "abc") ctx := by
  unfold streamCtx at h
  split at h
  · rename_i fields r hreq
    split at h
    · cases h
    · rename_i p hp
      cases h
      obtain ⟨block,fs,p',hc,hq,hp',hr,hblock,-,hn⟩ := Http3.request_handed hreq
      rw [hp] at hp'
      cases hp'
      have hbody : lit "abc" = Http3.dataOf fs := by
        rw [← hb,← handed_body hr]
        rfl
      refine ⟨rfl,fs,fields,p,r,⟨⟨block,?_,hblock,hq⟩,hp,hn⟩,hbody,hbody ▸ hr,rfl⟩
      rw [Recv.bytes,List.flatten_singleton]
      exact hc
  · cases h

/-- With one limit everywhere it is kept. -/
theorem evenLimits_kept : lengthCarrier.Refused (sized 8 8 8) postWire ↔
    servedLimit .idle (lengthCtx (sized 8 8 8)) < (lit "abc").length := by
  have hs : servedLimit .idle (lengthCtx (sized 8 8 8)) = 8 := by decide +kernel
  refine (sizeRule_iff .idle (lengthCarrier_brings (sized 8 8 8))).mpr (Or.inr ?_)
  rw [hs]
  decide +kernel

/-- Over HTTP/1 a limit of the location is not kept, and over HTTP/3 neither is that of
the server, which HTTP/1 keeps. -/
theorem ownLimits_missed : ¬ (∀ env l w body ctx (a : Carrier), a.Brings l w body ctx →
    (a.Refused l w ↔ servedLimit env ctx < body.length)) ∧
    (servedLimit .idle (lengthCtx (sized 8 8 1)) = 1 ∧ ¬ lengthCarrier.Refused (sized 8 8 1) postWire) ∧
    ∃ ctx, streamCarrier.Brings (sized 2 8 8) postWire (lit "abc") ctx ∧ servedLimit .idle ctx = 8 ∧
      streamCarrier.Refused (sized 2 8 8) postWire ∧ ¬ lengthCarrier.Refused (sized 2 8 8) postWire := by
  have hlimit : lengthCarrier.limit (sized 8 8 1) = 8 ∧ lengthCarrier.limit (sized 2 8 8) = 8 ∧ (lit "abc").length = 3 ∧
      servedLimit .idle (lengthCtx (sized 8 8 1)) = 1 := by decide +kernel
  have hctx : (streamCtx (sized 2 8 8)).map (fun c => (servedLimit .idle c,c.body)) = some (8,lit "abc") := by
    decide +kernel
  obtain ⟨h1,h2,hlen,hinner⟩ := hlimit
  obtain ⟨ctx,hc,he⟩ := Option.map_eq_some_iff.mp hctx
  obtain ⟨hserved,hbody⟩ := Prod.mk.inj he
  have hbrings := streamCarrier_brings hc hbody
  have hinside : ¬ lengthCarrier.Refused (sized 8 8 1) postWire := by
    rw [Carrier.refused_iff (lengthCarrier_brings _),h1,hlen]
    decide
  refine ⟨?_,⟨hinner,hinside⟩,ctx,hbrings,hserved,?_,?_⟩
  · intro h
    have hr := (h .idle (sized 8 8 1) postWire (lit "abc") _ lengthCarrier (lengthCarrier_brings _)).mpr
    rw [hinner,hlen] at hr
    exact hinside (hr (by decide))
  · rw [Carrier.refused_iff hbrings,hlen]
    exact Nat.lt_succ_self 2
  · rw [Carrier.refused_iff (lengthCarrier_brings _),h2,hlen]
    decide

end Instance

end OxiServe.Server
