import Mathlib.Data.List.Induction
import OxiServe.Server.ProxyFields
import OxiServe.Server.Surplus

/-! # Returning an upstream connection

When the connection of an answered request goes back to the pool, what a clean
exchange is, and under which conditions on the two heads and on what the upstream
sends only clean ones return and nothing behind a counted body reaches the client.
-/
namespace OxiServe.Server
open Config Response Request

section Close

/-- A list of options has `close` among them. -/
def AsksClose (values : List Bytes) : Prop :=
  ∃ v ∈ values, ∃ t ∈ split 44 v, eqIgnoreAsciiCase (trim t) (lit "close") = true

instance (values : List Bytes) : Decidable (AsksClose values) :=
  inferInstanceAs (Decidable (∃ v ∈ values, ∃ t ∈ split 44 v, _))

/-- The connection options of an upstream head. -/
def upstreamConnection (hs : List (Bytes × Bytes)) : List Bytes :=
  (fieldValues (hs.takeWhile (fun h => !h.1.isEmpty)) (lit "connection")).map utf8Lossy

/-- The last of them is `close` and nothing else. -/
def EndsInClose (values : List Bytes) : Prop :=
  ∃ v, values.getLast? = some v ∧ eqIgnoreAsciiCase v (lit "close") = true

theorem fieldValues_concat (hs : List (Bytes × Bytes)) (h : Bytes × Bytes) (name : Bytes) :
    fieldValues (hs ++ [h]) name =
      fieldValues hs name ++ if eqIgnoreAsciiCase h.1 name = true then [h.2] else [] := by
  rw [fieldValues_append]
  congr 1
  exact fieldValues_singleton h.1 h.2 name

theorem isConnection_iff {name : Bytes} :
    eqIgnoreAsciiCase name (lit "connection") = true ↔ toAsciiLowercase name = lit "connection" := by
  rw [eqIgnoreAsciiCase_iff,← connection_lower]

theorem saidClose_add (conf : ProxyConf) (u : UpstreamFields) (h : Bytes × Bytes) :
    (u.add conf h).saidClose =
      if eqIgnoreAsciiCase h.1 (lit "connection") = true then eqIgnoreAsciiCase (utf8Lossy h.2) (lit "close")
      else u.saidClose := by
  have hte : lit "transfer-encoding" ≠ lit "connection" := by decide +kernel
  have hcl : lit "content-length" ≠ lit "connection" := by decide +kernel
  unfold UpstreamFields.add
  by_cases hc : eqIgnoreAsciiCase h.1 (lit "connection") = true
  · have hl := isConnection_iff.mp hc
    simp only [hl,if_pos hc]
    rw [if_neg (fun he => hte he.symm),if_neg (fun he => hcl he.symm)]
    simp
  · have hl := fun he => hc (isConnection_iff.mpr he)
    simp only [if_neg hc]
    rw [if_neg hl]
    split_ifs <;> rfl

theorem saidClose_foldl (conf : ProxyConf) (hs : List (Bytes × Bytes)) :
    (hs.foldl (UpstreamFields.add conf) .new).saidClose = true ↔
      EndsInClose ((fieldValues hs (lit "connection")).map utf8Lossy) := by
  induction hs using List.reverseRecOn with
  | nil =>
    refine iff_of_false Bool.false_ne_true ?_
    rintro ⟨v,hv,-⟩
    cases hv
  | append_singleton hs h ih =>
    rw [List.foldl_append,List.foldl_cons,List.foldl_nil,saidClose_add,fieldValues_concat]
    by_cases hc : eqIgnoreAsciiCase h.1 (lit "connection") = true
    · rw [if_pos hc,if_pos hc,List.map_append]
      unfold EndsInClose
      simp
    · rw [if_neg hc,if_neg hc,List.append_nil]
      exact ih

/-- The upstream is taken to close only when its last option says so. -/
theorem saidClose_iff (conf : ProxyConf) (hs : List (Bytes × Bytes)) :
    (upstreamFields conf hs).saidClose = true ↔ EndsInClose (upstreamConnection hs) :=
  saidClose_foldl conf _

end Close

section Reading

theorem contents_read {cap : ℕ} (hc : 0 < cap) {s s' : Source} {b : Bytes}
    (h : Source.read cap s = (.data b,s')) (hb : b ≠ []) :
    (Source.contents s).1 = b ++ (Source.contents s').1 := by
  have hd : delivery cap s = (b ++ (delivery cap s').1,(delivery cap s').2) := delivery_data h hb
  rw [Source.delivery_eq_contents hc,Source.delivery_eq_contents hc] at hd
  exact congrArg Prod.fst hd

/-- A head is complete once everything read so far parses, and the rest is unread. -/
theorem readHead_complete {env : Env} {fuel : ℕ} {src rest : Source} {buf buf' : Bytes} {head : UpstreamHead}
    (h : readHead env fuel src buf = .complete buf' head rest) :
    env.parseResponse buf' = .ok (some head) ∧
      buf ++ (Source.contents src).1 = buf' ++ (Source.contents rest).1 := by
  induction fuel generalizing src buf with
  | zero => cases h
  | succ fuel ih =>
    simp only [readHead] at h
    rcases hr : Source.read 8192 src with ⟨b | _,src'⟩
    · rw [hr] at h
      dsimp only at h
      by_cases hb : b = []
      · rw [if_pos hb] at h
        cases h
      · rw [if_neg hb] at h
        rw [contents_read (by decide) hr hb,← List.append_assoc]
        cases hp : env.parseResponse (buf ++ b) with
        | error e =>
          rw [hp] at h
          cases h
        | ok o =>
          rw [hp] at h
          cases o with
          | some head' =>
            cases h
            exact ⟨hp,rfl⟩
          | none =>
            dsimp only at h
            split at h
            · cases h
            · exact ih h
    · rw [hr] at h
      cases h

end Reading

/-- How the client is spoken to. -/
inductive Version
  | http1 | http2 | http3
deriving DecidableEq, Repr

/-- A request that an upstream answered, up to the reply. The parser reports no
longer a head than it was given. -/
structure Exchanged where
  env : Env
  ctx : Ctx
  conf : ProxyConf
  chosen : Option (Upstream × ℕ)
  addr : Bytes
  peer : Peer
  cache : Option CacheCtx
  stale : Option Decoded
  version : Version
  answer : Answer
  answers : exchangeHead env ctx conf chosen peer = .answers answer
  parses : ∀ b head, env.parseResponse b = .ok (some head) → head.len ≤ b.length

namespace Exchanged
variable (x : Exchanged)

def keepalive : ℕ := (x.chosen.map (fun c => c.1.keepalive)).getD 0

/-- Keeping a connection needs a pool and HTTP/1.1. -/
def wantKeepalive : Bool := decide (0 < x.keepalive) && x.conf.httpVersion11

/-- A stale entry answers instead. -/
def replaced : Bool :=
  (if 400 ≤ answerStatus x.answer then tryStale x.cache x.stale (.status (answerStatus x.answer)) else none).isSome

/-- The connection goes to the pool: the body is counted, all of it is in hand, and
neither side is taken to close. -/
def returns : Bool :=
  !x.replaced && answerStatus x.answer != 101 && !x.answer.fields.chunked &&
    (match x.answer.fields.len with
      | some n => decide (n - x.answer.pre.length = 0)
      | none => false) &&
    x.wantKeepalive && !x.answer.fields.saidClose

/-- The client gets the answer, with a body of the announced length. -/
structure Counted (n : ℕ) : Prop where
  replaced : x.replaced = false
  answers : answerStatus x.answer ≠ 101
  chunked : x.answer.fields.chunked = false
  len : x.answer.fields.len = some n

def headOnly : Bool := x.ctx.req.method == .head

/-- No body is due. -/
def bodiless : Bool := x.headOnly || isBodyless (answerStatus x.answer)

/-- A body that some run of the client's writer puts out. -/
def Delivers (b : Bytes) : Prop :=
  ∃ reply, answerReply x.ctx x.answer = .ok reply ∧
    match x.version with
    | .http1 => ∃ (e : Exchange) (s : Sink), e.reply = reply ∧ e.headOnly = x.headOnly ∧ b = e.written s
    | .http2 => ∃ t checks, b = (Http2.sendResponse t checks reply x.headOnly).1.flatten
    | .http3 => ∃ t ok, b = (Http3.writeResponse t ok reply x.headOnly).1.flatten

/-- What was read is one complete response and nothing else, and nobody asked for
the connection to be closed. -/
structure Clean : Prop where
  received : (Source.contents x.peer.reads).1 = x.answer.buf ++ (Source.contents x.answer.rest).1
  complete : x.answer.fields.chunked = false ∧
    ∃ n, x.answer.fields.len = some n ∧ x.answer.buf.length = x.answer.headLen + n
  upstreamKeeps : ∀ head, x.env.parseResponse x.answer.buf = .ok (some head) →
    ¬ AsksClose (upstreamConnection head.headers)
  weKeep : ¬ AsksClose (fieldValues (requestFields x.env x.ctx x.conf x.addr x.wantKeepalive) (lit "connection"))

/-- Only a clean connection returns, one with surplus does not, and the surplus
goes to no client. -/
structure Sound : Prop where
  clean : x.returns = true → x.Clean
  surplus : ∀ n, x.Counted n → n < x.answer.pre.length → x.returns = false
  client : ∀ n, x.Counted n → ∀ b, x.Delivers b → b.length ≤ n

/-- Where a connection may be kept, no surplus comes with the head and a close is
asked for in the last option alone; where a body is sent on, no surplus comes with
the head, nor later to a client of HTTP/2 or HTTP/3. -/
structure Upright : Prop where
  kept : x.wantKeepalive = true → ∀ n, x.Counted n → n ≤ x.answer.pre.length →
    ∀ head, x.env.parseResponse x.answer.buf = .ok (some head) → ¬ EndsInClose (upstreamConnection head.headers) →
      x.answer.pre.length ≤ n ∧ ¬ AsksClose (upstreamConnection head.headers) ∧
        ¬ AsksClose (configuredValues x.env x.ctx x.conf (lit "connection"))
  sent : ∀ n, x.Counted n → x.bodiless = false →
    x.answer.pre.length ≤ n ∧ (x.version = .http1 ∨ x.answer.pre.length = n ∨ x.answer.wire.length ≤ n)

variable {x}

theorem head_of_answer : ∃ head, x.env.parseResponse x.answer.buf = .ok (some head) ∧
    x.answer.headLen = head.len ∧ x.answer.fields = upstreamFields x.conf head.headers ∧
      (Source.contents x.peer.reads).1 = x.answer.buf ++ (Source.contents x.answer.rest).1 := by
  have h := x.answers
  simp only [exchangeHead] at h
  split at h
  · cases h
  · split at h
    · cases h
    · split at h
      · cases h
      · cases hr : readHead x.env (Source.size x.peer.reads + 1) x.peer.reads [] with
        | complete buf head rest =>
          rw [hr] at h
          dsimp only at h
          have ha := Outcome.answers.inj h
          obtain ⟨hp,hc⟩ := readHead_complete hr
          rw [← ha]
          exact ⟨head,hp,rfl,rfl,hc⟩
        | ended =>
          rw [hr] at h
          cases h
        | failed =>
          rw [hr] at h
          dsimp only at h
          split at h
          · cases h
          · cases h
        | tooLong =>
          rw [hr] at h
          cases h
        | invalid =>
          rw [hr] at h
          cases h

theorem returns_iff : x.returns = true ↔
    x.wantKeepalive = true ∧ (∃ n, x.Counted n ∧ n ≤ x.answer.pre.length) ∧ x.answer.fields.saidClose = false := by
  unfold returns
  simp only [Bool.and_eq_true,Bool.not_eq_true',bne_iff_ne]
  constructor
  · rintro ⟨⟨⟨⟨⟨hr,hs⟩,hc⟩,hl⟩,hk⟩,hsc⟩
    refine ⟨hk,?_,hsc⟩
    cases hn : x.answer.fields.len with
    | none =>
      rw [hn] at hl
      cases hl
    | some n =>
      rw [hn] at hl
      exact ⟨n,⟨hr,hs,hc,hn⟩,by have := of_decide_eq_true hl; omega⟩
  · rintro ⟨hk,⟨n,hn,hle⟩,hsc⟩
    refine ⟨⟨⟨⟨⟨hn.replaced,hn.answers⟩,hn.chunked⟩,?_⟩,hk⟩,hsc⟩
    rw [hn.len]
    exact decide_eq_true (by omega)

theorem not_asksClose_append {xs ys : List Bytes} (hx : ¬ AsksClose xs) (hy : ¬ AsksClose ys) :
    ¬ AsksClose (xs ++ ys) := by
  rintro ⟨v,hv,t,ht⟩
  rcases List.mem_append.mp hv with hv | hv
  · exact hx ⟨v,hv,t,ht⟩
  · exact hy ⟨v,hv,t,ht⟩

/-- Asking to keep the connection does not ask to close it. -/
theorem not_asksClose_keepalive : ¬ AsksClose (fieldValues (Server.connectionField true) (lit "connection")) := by
  decide +kernel

theorem Upright.clean (h : x.Upright) (hr : x.returns = true) : x.Clean := by
  obtain ⟨hk,⟨n,hn,hle⟩,hsc⟩ := returns_iff.mp hr
  obtain ⟨head,hp,hlen,hf,hc⟩ := @head_of_answer x
  have hend : ¬ EndsInClose (upstreamConnection head.headers) := by
    rw [← saidClose_iff x.conf,← hf,hsc]
    exact Bool.false_ne_true
  obtain ⟨hge,hu,hw⟩ := h.kept hk n hn hle head hp hend
  refine ⟨hc,⟨hn.chunked,n,hn.len,?_⟩,?_,?_⟩
  · have hb := x.parses _ _ hp
    unfold Answer.pre at hle hge
    rw [List.length_drop] at hle hge
    omega
  · intro head' hp'
    rw [hp] at hp'
    cases hp'
    exact hu
  · rw [fieldValues_connection,hk]
    exact not_asksClose_append hw not_asksClose_keepalive

theorem reply_of_counted {n : ℕ} (h : x.Counted n) {reply : Reply} (hr : answerReply x.ctx x.answer = .ok reply) :
    reply = frameAnswer (answerResp x.ctx x.answer) x.answer := by
  simp only [answerReply,if_neg h.answers] at hr
  cases hr
  rfl

/-- A counted answer in hand is bytes, another a stream of its length. -/
theorem body_of_counted {n : ℕ} (h : x.Counted n) {resp : Resp} :
    (n ≤ x.answer.pre.length ∧ (frameAnswer resp x.answer).body = .bytes x.answer.pre) ∨
      (x.answer.pre.length < n ∧
        (frameAnswer resp x.answer).body = .stream x.answer.pre (.socket x.answer.rest) (some n)) := by
  rcases Nat.lt_or_ge x.answer.pre.length n with hl | hl
  · right
    rw [frameAnswer_stream h.chunked h.len hl]
    exact ⟨hl,rfl⟩
  · left
    rw [frameAnswer_bytes h.chunked h.len hl]
    exact ⟨hl,rfl⟩

theorem bodiless_body {resp : Resp} (hs : resp.status = answerStatus x.answer) (hb : x.bodiless = true) :
    (if x.headOnly then .empty else ((frameAnswer resp x.answer).frame true).body) = Body.empty := by
  cases hh : x.headOnly with
  | true => rfl
  | false =>
    unfold bodiless at hb
    rw [hh,Bool.false_or] at hb
    have hst : isBodyless (frameAnswer resp x.answer).resp.status = true := by
      rw [frameAnswer_status,hs]
      exact hb
    exact (Reply.frame_body_of_bodyless (frameAnswer_not_upgraded _ _) hst).1

theorem Upright.http1 (h : x.Upright) {n : ℕ} (hn : x.Counted n) {e : Exchange} (s : Sink)
    (hr : e.reply = frameAnswer (answerResp x.ctx x.answer) x.answer) (hh : e.headOnly = x.headOnly) :
    (e.written s).length ≤ n := by
  apply Exchange.written_length_le
  have hst : e.reply.resp.status = answerStatus x.answer := by
    rw [hr,frameAnswer_status]
    rfl
  have hbod : e.bodiless = x.bodiless := by
    rw [Exchange.bodiless,hh,hst]
    rfl
  cases hb : x.bodiless with
  | true =>
    have hu : e.reply.body.isUpgraded = false := by
      rw [hr]
      exact frameAnswer_not_upgraded _ _
    rw [Exchange.framed_of_bodiless hu (hbod.trans hb)]
    exact .empty
  | false =>
    have hle := (h.sent n hn hb).1
    rw [Exchange.framed_body (hbod.trans hb),hr]
    rcases body_of_counted hn with ⟨-,hbody⟩ | ⟨-,hbody⟩
    · rw [hbody]
      exact .bytes _ hle
    · rw [hbody]
      exact .stream _ _ hle

theorem contents_socket {cap : ℕ} (hc : 0 < cap) (s : Source) :
    (delivery cap (Io.socket s)).1 = (Source.contents s).1 := by
  rw [Io.delivery_socket hc]

theorem Upright.http2 (h : x.Upright) {n : ℕ} (hn : x.Counted n) (hv : x.version = .http2) (t : ℕ)
    (checks : List Http2.Check) :
    (Http2.sendResponse t checks (frameAnswer (answerResp x.ctx x.answer) x.answer) x.headOnly).1.flatten.length ≤ n := by
  cases hb : x.bodiless with
  | true =>
    have he := @bodiless_body x (answerResp x.ctx x.answer) rfl hb
    simp only [Http2.sendResponse,he]
    exact Nat.zero_le _
  | false =>
    obtain ⟨hle,hwire⟩ := h.sent n hn hb
    unfold bodiless at hb
    rw [Bool.or_eq_false_iff] at hb
    have hst : isBodyless (frameAnswer (answerResp x.ctx x.answer) x.answer).resp.status = false := by
      rw [frameAnswer_status]
      exact hb.2
    rw [hb.1,http2_send hst]
    split
    · exact Nat.zero_le _
    · rcases body_of_counted hn with ⟨-,hbody⟩ | ⟨hlt,hbody⟩
      · rw [hbody]
        exact Nat.le_trans (http2_bytes_length_le t checks _) hle
      · rw [hbody]
        refine Nat.le_trans (http2_stream_length_le t checks _ _ _) ?_
        rw [contents_socket (by decide),← List.length_append]
        rcases hwire with hw | hw | hw
        · rw [hv] at hw
          cases hw
        · omega
        · exact hw

theorem Upright.http3 (h : x.Upright) {n : ℕ} (hn : x.Counted n) (hv : x.version = .http3) (t : ℕ) (ok : ℕ → Bool) :
    (Http3.writeResponse t ok (frameAnswer (answerResp x.ctx x.answer) x.answer) x.headOnly).1.flatten.length ≤ n := by
  cases hb : x.bodiless with
  | true =>
    have he := @bodiless_body x (answerResp x.ctx x.answer) rfl hb
    simp only [Http3.writeResponse,he]
    exact Nat.zero_le _
  | false =>
    obtain ⟨hle,hwire⟩ := h.sent n hn hb
    unfold bodiless at hb
    rw [Bool.or_eq_false_iff] at hb
    have hst : isBodyless (frameAnswer (answerResp x.ctx x.answer) x.answer).resp.status = false := by
      rw [frameAnswer_status]
      exact hb.2
    rw [hb.1,http3_send hst]
    rcases body_of_counted hn with ⟨-,hbody⟩ | ⟨hlt,hbody⟩
    · rw [hbody]
      exact Nat.le_trans (data_length_le ok _) hle
    · rw [hbody]
      refine Nat.le_trans (http3_stream_length_le t ok _ _ _) ?_
      rw [contents_socket (by decide),← List.length_append]
      rcases hwire with hw | hw | hw
      · rw [hv] at hw
        cases hw
      · omega
      · exact hw

/-- An upright exchange returns its connection clean or not at all, and its client
gets no more than was announced. -/
theorem Upright.sound (h : x.Upright) : x.Sound where
  clean := h.clean
  surplus := by
    intro n hn hlt
    by_contra hr
    obtain ⟨-,m,hm,hlen⟩ := (h.clean (by simpa using hr)).complete
    rw [hn.len] at hm
    cases hm
    unfold Answer.pre at hlt
    rw [List.length_drop] at hlt
    omega
  client := by
    rintro n hn b ⟨reply,hr,hd⟩
    rw [reply_of_counted hn hr] at hd
    cases hv : x.version with
    | http1 =>
      rw [hv] at hd
      obtain ⟨e,s,he,hh,hb⟩ := hd
      rw [hb]
      exact h.http1 hn s he hh
    | http2 =>
      rw [hv] at hd
      obtain ⟨t,checks,hb⟩ := hd
      rw [hb]
      exact h.http2 hn hv t checks
    | http3 =>
      rw [hv] at hd
      obtain ⟨t,ok,hb⟩ := hd
      rw [hb]
      exact h.http3 hn hv t ok

/-- The exchange in which an HTTP/1 client is answered. -/
def written (x : Exchanged) (reply : Reply) : Exchange where
  req := x.ctx.req
  requests := 0
  core := defaultCore
  bodyStatus := none
  reply := reply
  date := []
  tcp := false
  clock := 0

/-- A client that takes everything. -/
def openSink : Sink := ⟨[],none,true⟩

theorem written_all {reply : Reply} (hu : reply.body.isUpgraded = false) (hb : (x.written reply).bodiless = false)
    (hok : (x.written reply).source.2 = true) :
    (x.written reply).written openSink = (x.written reply).source.1 := by
  have hs := Exchange.supply_eq_source hb
  rw [← hs]
  rw [← hs] at hok
  exact Exchange.written_eq (Exchange.framed_isUpgraded hu) hok rfl

/-- What came with the head reaches the client in full when all of it was in hand. -/
theorem delivers_pre {n : ℕ} (hn : x.Counted n) (hb : x.bodiless = false) (hle : n < x.answer.pre.length) :
    x.Delivers x.answer.pre := by
  refine ⟨_,by rw [answerReply,if_neg hn.answers],?_⟩
  have hbody : (frameAnswer (answerResp x.ctx x.answer) x.answer).body = .bytes x.answer.pre := by
    rw [frameAnswer_bytes hn.chunked hn.len (Nat.le_of_lt hle)]
  have hst : (frameAnswer (answerResp x.ctx x.answer) x.answer).resp.status = answerStatus x.answer := by
    rw [frameAnswer_status]
    rfl
  have hu := frameAnswer_not_upgraded (answerResp x.ctx x.answer) x.answer
  generalize frameAnswer (answerResp x.ctx x.answer) x.answer = reply at hbody hst hu ⊢
  have hsplit := hb
  unfold bodiless at hsplit
  rw [Bool.or_eq_false_iff,← hst] at hsplit
  cases x.version with
  | http1 =>
    refine ⟨x.written reply,openSink,rfl,rfl,?_⟩
    have hsrc : (x.written reply).source = (x.answer.pre,true) := by
      rw [Exchange.source]
      change reply.body.supply _ _ _ = _
      rw [hbody]
      rfl
    have hbl : (x.written reply).bodiless = false := by
      rw [Exchange.bodiless,Bool.or_eq_false_iff]
      exact hsplit
    rw [written_all hu hbl (by rw [hsrc]),hsrc]
  | http2 =>
    obtain ⟨checks,hc⟩ := http2_bytes_completes 0 x.answer.pre
    refine ⟨0,checks,?_⟩
    have hne : reply.body.isEmpty = false := by
      rw [hbody]
      simp only [Body.isEmpty,Body.knownLen]
      refine beq_eq_false_iff_ne.mpr (fun h => ?_)
      have := Option.some.inj h
      omega
    rw [hsplit.1,http2_send hsplit.2,hne,if_neg Bool.false_ne_true,hbody]
    exact hc.symm
  | http3 =>
    refine ⟨0,fun _ => true,?_⟩
    rw [hsplit.1,http3_send hsplit.2,hbody]
    exact (Http3.data_payload (Http3.data_done x.answer.pre)).symm

/-- A stream over HTTP/2 or HTTP/3 reaches the client as far as the upstream sends. -/
theorem delivers_wire {n : ℕ} (hn : x.Counted n) (hb : x.bodiless = false) (hlt : x.answer.pre.length < n)
    (hv : x.version ≠ .http1) : x.Delivers x.answer.wire := by
  refine ⟨_,by rw [answerReply,if_neg hn.answers],?_⟩
  have hbody : (frameAnswer (answerResp x.ctx x.answer) x.answer).body =
      .stream x.answer.pre (.socket x.answer.rest) (some n) := by
    rw [frameAnswer_stream hn.chunked hn.len hlt]
  have hst : (frameAnswer (answerResp x.ctx x.answer) x.answer).resp.status = answerStatus x.answer := by
    rw [frameAnswer_status]
    rfl
  generalize frameAnswer (answerResp x.ctx x.answer) x.answer = reply at hbody hst ⊢
  unfold bodiless at hb
  rw [Bool.or_eq_false_iff,← hst] at hb
  cases h : x.version with
  | http1 => exact absurd h hv
  | http2 =>
    obtain ⟨checks,hc⟩ := http2_stream_completes 0 x.answer.pre (.socket x.answer.rest) (some n)
    refine ⟨0,checks,?_⟩
    have hne : reply.body.isEmpty = false := by
      rw [hbody]
      simp only [Body.isEmpty,Body.knownLen]
      refine beq_eq_false_iff_ne.mpr (fun h => ?_)
      have := Option.some.inj h
      omega
    rw [hb.1,http2_send hb.2,hne,if_neg Bool.false_ne_true,hbody,hc,contents_socket (by decide)]
    rfl
  | http3 =>
    refine ⟨0,fun _ => true,?_⟩
    rw [hb.1,http3_send hb.2,hbody,Http3.writeBody_stream Http3.writeBody_stream_done,contents_socket (by decide)]
    rfl

theorem Sound.upright (h : x.Sound) : x.Upright where
  kept := by
    intro hk n hn hle head hp hend
    obtain ⟨head',hp',hlen,hf,-⟩ := @head_of_answer x
    rw [hp] at hp'
    cases hp'
    have hsc : x.answer.fields.saidClose = false := by
      rw [hf]
      exact Bool.eq_false_iff.mpr (fun hs => hend ((saidClose_iff x.conf _).mp hs))
    have hc := h.clean (returns_iff.mpr ⟨hk,⟨n,hn,hle⟩,hsc⟩)
    obtain ⟨-,m,hm,hbuf⟩ := hc.complete
    rw [hn.len] at hm
    cases hm
    refine ⟨?_,hc.upstreamKeeps head hp,?_⟩
    · unfold Answer.pre
      rw [List.length_drop]
      omega
    · rintro ⟨v,hv,t,ht⟩
      refine hc.weKeep ⟨v,?_,t,ht⟩
      rw [fieldValues_connection]
      exact List.mem_append_left _ hv
  sent := by
    intro n hn hb
    have hpre : x.answer.pre.length ≤ n := by
      by_contra hlt
      exact hlt (h.client n hn _ (delivers_pre hn hb (by omega)))
    refine ⟨hpre,?_⟩
    by_cases hv : x.version = .http1
    · exact Or.inl hv
    · rcases Nat.lt_or_ge x.answer.pre.length n with hlt | hge
      · exact Or.inr (Or.inr (h.client n hn _ (delivers_wire hn hb hlt hv)))
      · exact Or.inr (Or.inl (Nat.le_antisymm hpre hge))

theorem sound_iff_upright : x.Sound ↔ x.Upright := ⟨Sound.upright,Upright.sound⟩

end Exchanged

end OxiServe.Server
