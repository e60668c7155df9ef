import OxiServe.Http2.Body
import OxiServe.Http3.Body
import OxiServe.Server.KeepAlive
import OxiServe.Server.Proxy

/-! # One entity for every client

Three writers consume the body of a proxied reply. The entity is what a receiver
reads off the upstream's own framing, and each client has its own way of finding
the end of what it is sent.
-/
namespace OxiServe.Server
open Config Response Chunked

section Entities

/-- What a receiver takes a message body to be from the bytes behind its head.
Surplus behind a delimited body is not part of it. -/
def ReadsAs : Framing → Bytes → Bytes → Prop
  | .length n, wire, e => n ≤ wire.length ∧ e = wire.take n
  | .chunked, wire, e => ∃ w t, wire = w ++ t ∧ Coding w e
  | .untilClose, wire, e | .none, wire, e => e = wire

namespace Answer

def framing (a : Answer) : Framing :=
  if a.fields.chunked then .chunked
  else
    match a.fields.len with
    | some n => .length n
    | none => .untilClose

/-- All the upstream sends behind its head. -/
def wire (a : Answer) : Bytes := a.pre ++ (Source.contents a.rest).1

/-- The entity of a complete upstream response. A protocol switch has none. -/
structure Entity (a : Answer) (headOnly : Bool) (e : Bytes) : Prop where
  answers : answerStatus a ≠ 101
  ended : a.framing = .untilClose → (Source.contents a.rest).2 = true
  reads : if headOnly || isBodyless (answerStatus a) then e = [] else ReadsAs a.framing a.wire e

/-- No body is due, or the upstream does not chunk its body and sends no more
than it announced, unless all of it came with the head. -/
inductive Plain (a : Answer) (headOnly : Bool) : Prop
  | bodiless : (headOnly || isBodyless (answerStatus a)) = true → Plain a headOnly
  | counted (n : ℕ) : a.fields.chunked = false → a.fields.len = some n →
      a.pre.length = n ∨ a.wire.length ≤ n → Plain a headOnly
  | untilClose : a.fields.chunked = false → a.fields.len = none → Plain a headOnly

end Answer

/-- An HTTP/1.0 client does not know the chunked coding. -/
def Exchange.Receives (x : Exchange) (wire e : Bytes) : Prop :=
  if x.bodiless then e = []
  else
    match x.framed.resp.framing with
    | .length n => ReadsAs (.length n) wire e
    | .chunked => if x.req.minor = 1 then ReadsAs .chunked wire e else e = wire
    | .untilClose | .none => e = wire

/-- Every client of a completed response receives `e`: no coding is left in a
DATA payload and none is sent to an HTTP/1.0 client. -/
structure SameEntity (reply : Reply) (headOnly : Bool) (e : Bytes) : Prop where
  http1 : ∀ (x : Exchange) (s : Sink), x.reply = reply → x.headOnly = headOnly → x.responded s = true →
    x.Receives (x.written s) e
  http10 : ∀ x : Exchange, x.reply = reply → x.headOnly = headOnly → x.bodiless = false →
    x.req.minor = 0 → x.framed.resp.framing ≠ .chunked
  http2 : ∀ t checks, (Http2.sendResponse t checks reply headOnly).2 = true →
    (Http2.sendResponse t checks reply headOnly).1.flatten = e
  http3 : ∀ t ok, (Http3.writeResponse t ok reply headOnly).2 = true →
    (Http3.writeResponse t ok reply headOnly).1.flatten = e

end Entities

section Writers
variable {reply : Reply} {headOnly : Bool}

/-- The body both stream transports write. -/
theorem http2_send (hs : isBodyless reply.resp.status = false) (t : ℕ) (checks : List Http2.Check) :
    Http2.sendResponse t checks reply false =
      if reply.body.isEmpty then ([],true) else Http2.writeBody t checks reply.body := by
  simp only [Http2.sendResponse,Reply.frame_body hs,Bool.false_eq_true,if_false]

theorem http3_send (hs : isBodyless reply.resp.status = false) (t : ℕ) (ok : ℕ → Bool) :
    Http3.writeResponse t ok reply false = Http3.writeBody t ok reply.body := by
  simp only [Http3.writeResponse,Reply.frame_body hs,Bool.false_eq_true,if_false]

/-- Without a body every client receives nothing. -/
theorem sameEntity_of_bodiless (hu : reply.body.isUpgraded = false)
    (hb : (headOnly || isBodyless reply.resp.status) = true) : SameEntity reply headOnly [] := by
  have hempty : (if headOnly then .empty else (reply.frame true).body) = Body.empty := by
    cases headOnly with
    | true => rfl
    | false => exact (Reply.frame_body_of_bodyless hu hb).1
  constructor
  · intro x s hx hh _
    subst hx
    have hxb : x.bodiless = true := by
      rw [Exchange.bodiless,hh]
      exact hb
    rw [Exchange.Receives,if_pos hxb]
  · intro x hx hh hn _
    subst hx
    rw [Exchange.bodiless,hh,hb] at hn
    cases hn
  · intro t checks _
    simp only [Http2.sendResponse,hempty]
    rfl
  · intro t ok _
    simp only [Http3.writeResponse,hempty]
    rfl

end Writers

section Proxied
variable {ctx : Ctx} {a : Answer} {headOnly : Bool} {e : Bytes}

theorem frameAnswer_status (resp : Resp) (a : Answer) : (frameAnswer resp a).resp.status = resp.status := by
  unfold frameAnswer
  split
  · rfl
  · split
    · split
      · rfl
      · rfl
    · rfl

theorem frameAnswer_not_upgraded (resp : Resp) (a : Answer) :
    (frameAnswer resp a).body.isUpgraded = false := by
  unfold frameAnswer
  split
  · rfl
  · split
    · split
      · rfl
      · rfl
    · rfl

/-- Everything came with the head. -/
theorem frameAnswer_bytes {resp : Resp} {n : ℕ} (hc : a.fields.chunked = false) (hn : a.fields.len = some n)
    (hp : n ≤ a.pre.length) : frameAnswer resp a = ⟨{ resp with framing := .length n },.bytes a.pre⟩ := by
  simp only [frameAnswer,hc,hn,Bool.false_eq_true,if_false]
  rw [if_pos (by omega)]

theorem frameAnswer_stream {resp : Resp} {n : ℕ} (hc : a.fields.chunked = false) (hn : a.fields.len = some n)
    (hp : a.pre.length < n) :
    frameAnswer resp a = ⟨{ resp with framing := .length n },.stream a.pre (.socket a.rest) (some n)⟩ := by
  simp only [frameAnswer,hc,hn,Bool.false_eq_true,if_false]
  rw [if_neg (by omega)]

end Proxied

end OxiServe.Server
