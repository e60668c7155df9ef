import OxiServe.Lib.Chunked
import OxiServe.Server.BodyWriter

/-! # The bytes after a response head

The keep-alive decision is taken before the body is written and no copy loop
compares what it sent with what the head announced. The conditions under which
both agree are conditions on the reply's own body source.
-/
namespace OxiServe.Server
open Config Response Chunked

namespace Exchange

/-- The framing the head announces for a reply that may carry a body. -/
def announced (x : Exchange) : Framing :=
  if x.reply.resp.framing ≠ .none then x.reply.resp.framing else x.reply.body.framing (x.req.minor == 1)

/-- What the handler's body source hands over. -/
def source (x : Exchange) : Bytes × Bool := x.reply.body.supply x.core x.tcp x.clock

/-- A status or a method that rules a response body out. -/
def bodiless (x : Exchange) : Bool := x.headOnly || isBodyless x.reply.resp.status

section Framed
variable {x : Exchange}

theorem framed_hdrs (x : Exchange) : x.framed.resp.hdrs = x.reply.resp.hdrs := by
  unfold framed
  split
  · exact Reply.frame_hdrs _ _
  · exact Reply.frame_hdrs _ _

theorem framed_keepAlive (x : Exchange) :
    x.framed.resp.keepAlive = (x.keepAlive && !x.reply.body.isUpgraded) := by
  unfold framed
  split
  · exact Reply.frame_keepAlive _ _
  · exact Reply.frame_keepAlive _ _

theorem framed_of_bodiless (hu : x.reply.body.isUpgraded = false) (hb : x.bodiless = true) :
    x.framed.body = .empty := by
  simp only [bodiless,Bool.or_eq_true] at hb
  by_cases hh : x.headOnly = true
  · exact framed_body_of_headOnly hh
  · have hs := hb.resolve_left hh
    have hf := @Reply.frame_body_of_bodyless
      { x.reply with resp := { x.reply.resp with keepAlive := x.keepAlive } } (x.req.minor == 1) hu hs
    simp only [framed,hh]
    exact hf.1

theorem framed_body (hb : x.bodiless = false) : x.framed.body = x.reply.body := by
  simp only [bodiless,Bool.or_eq_false_iff] at hb
  simp only [framed,hb.1]
  exact Reply.frame_body hb.2

theorem framed_framing (hu : x.reply.body.isUpgraded = false)
    (hs : isBodyless x.reply.resp.status = false) : x.framed.resp.framing = x.announced := by
  have hf := @Reply.frame_framing
    { x.reply with resp := { x.reply.resp with keepAlive := x.keepAlive } } (x.req.minor == 1) hu hs
  unfold framed
  split
  · exact hf
  · exact hf

theorem framed_framing_of_bodyless (hu : x.reply.body.isUpgraded = false)
    (hs : isBodyless x.reply.resp.status = true) : x.framed.resp.framing = .none := by
  have hf := @Reply.frame_body_of_bodyless
    { x.reply with resp := { x.reply.resp with keepAlive := x.keepAlive } } (x.req.minor == 1) hu hs
  unfold framed
  split
  · exact hf.2
  · exact hf.2

theorem framed_isUpgraded (hu : x.reply.body.isUpgraded = false) : x.framed.body.isUpgraded = false := by
  cases hb : x.bodiless with
  | true =>
    rw [framed_of_bodiless hu hb]
    rfl
  | false => rw [framed_body hb,hu]

theorem supply_of_bodiless (hu : x.reply.body.isUpgraded = false) (hb : x.bodiless = true) :
    x.supply = ([],true) := by
  rw [supply,framed_of_bodiless hu hb]
  rfl

theorem supply_eq_source (hb : x.bodiless = false) : x.supply = x.source := by
  rw [supply,source,framed_body hb]

end Framed

section Reuse

/-- A body a client can tell the end of: counted, or one complete chunked coding. -/
def Delimits (b : Bytes) : Framing → Prop
  | .length n => b.length = n
  | .chunked => ∃ e, Coding b e
  | .untilClose | .none => False

/-- The bytes after the head are what the head announced, and none where a body
is ruled out. -/
def Complete (x : Exchange) (b : Bytes) : Prop :=
  if x.bodiless then b = [] else Delimits b x.framed.resp.framing

/-- The connection closes, no body is due, the response breaks off with an I/O
error, the body comes to the announced number of bytes, or it is one complete
chunked coding already. -/
inductive Sound (x : Exchange) (s : Sink) : Prop
  | closes : x.keepAlive = false → Sound x s
  | switches : x.reply.body.isUpgraded = true → Sound x s
  | nothing : x.bodiless = true → Sound x s
  | fails : x.source.2 = false → Sound x s
  | refused : x.peerTakes s = false → Sound x s
  | counted (n : ℕ) : x.announced = .length n → x.reply.body.Holds x.core x.tcp x.clock n → Sound x s
  | coded (e : Bytes) : x.announced = .chunked → Coding x.source.1 e → Sound x s

/-- The announced delimiter fits the body source. -/
theorem delimits_source_iff {x : Exchange} (hu : x.reply.body.isUpgraded = false) (hok : x.source.2 = true) :
    Delimits x.source.1 x.announced ↔
      (∃ n, x.announced = .length n ∧ x.reply.body.Holds x.core x.tcp x.clock n) ∨
        (x.announced = .chunked ∧ ∃ e, Coding x.source.1 e) := by
  have hl := fun n => @supply_length_iff x.core x.tcp x.clock n x.reply.body hu hok
  cases ha : x.announced with
  | length n =>
    constructor
    · intro h
      exact .inl ⟨n,rfl,(hl n).mp h⟩
    · rintro (⟨k,hk,h⟩ | ⟨h,-⟩)
      · cases hk
        exact (hl n).mpr h
      · cases h
  | chunked =>
    constructor
    · intro h
      exact .inr ⟨rfl,h⟩
    · rintro (⟨k,hk,-⟩ | ⟨-,h⟩)
      · cases hk
      · exact h
  | untilClose => simp [Delimits]
  | none => simp [Delimits]

/-- The connection loop goes on only after a complete response exactly when the
exchange is sound. -/
theorem reused_only_after_complete_iff (x : Exchange) (s : Sink) :
    ((x.respond s).2 = true → x.Complete (x.written s)) ↔ x.Sound s := by
  cases hu : x.reply.body.isUpgraded with
  | true =>
    have hoff : (x.respond s).2 = false := by
      have hk : x.framed.resp.keepAlive = false := by
        rw [framed_keepAlive,hu,Bool.not_true,Bool.and_false]
      simp only [respond,hk]
      split
      · rfl
      · rfl
    constructor
    · intro _
      exact .switches hu
    · intro _ h
      rw [hoff] at h
      cases h
  | false =>
    have hfu := framed_isUpgraded hu
    have hresp := @respond_snd x s hfu
    rw [framed_keepAlive,hu,Bool.not_false,Bool.and_true] at hresp
    cases hb : x.bodiless with
    | true =>
      have hsup := supply_of_bodiless hu hb
      constructor
      · intro _
        exact .nothing hb
      · intro _ hg
        rw [hresp] at hg
        simp only [Bool.and_eq_true] at hg
        have hw := written_eq hfu hg.1.2 hg.2
        rw [Complete,if_pos hb,hw,hsup]
    | false =>
      have hsup := supply_eq_source hb
      have hs : isBodyless x.reply.resp.status = false := by
        simp only [bodiless,Bool.or_eq_false_iff] at hb
        exact hb.2
      have hfr := framed_framing hu hs
      have hc : ∀ b, x.Complete b ↔ Delimits b x.announced := by
        intro b
        simp only [Complete,hb,Bool.false_eq_true,if_false,hfr]
      constructor
      · intro h
        cases hk : x.keepAlive with
        | false => exact .closes hk
        | true =>
          cases ho : x.source.2 with
          | false => exact .fails ho
          | true =>
            cases ht : x.peerTakes s with
            | false => exact .refused ht
            | true =>
              have hg := h (by rw [hresp,hk,hsup,ho,ht]; rfl)
              rw [written_eq hfu (by rw [hsup]; exact ho) ht,hsup] at hg
              rcases (delimits_source_iff hu ho).mp ((hc _).mp hg) with ⟨n,ha,hn⟩ | ⟨ha,e,he⟩
              · exact .counted n ha hn
              · exact .coded e ha he
      · intro h hg
        rw [hresp] at hg
        simp only [Bool.and_eq_true] at hg
        obtain ⟨⟨hk,ho⟩,ht⟩ := hg
        rw [written_eq hfu ho ht,hsup]
        cases h with
        | closes h => exact absurd (hk.symm.trans h) (by decide)
        | switches h => exact absurd (h.symm.trans hu) (by decide)
        | nothing h => exact absurd (h.symm.trans hb) (by decide)
        | fails h =>
          rw [hsup,h] at ho
          cases ho
        | refused h => exact absurd (ht.symm.trans h) (by decide)
        | counted n ha hn =>
          rw [hsup] at ho
          exact (hc _).mpr ((delimits_source_iff hu ho).mpr (.inl ⟨n,ha,hn⟩))
        | coded e ha he =>
          rw [hsup] at ho
          exact (hc _).mpr ((delimits_source_iff hu ho).mpr (.inr ⟨ha,e,he⟩))

/-- An upstream that announces ten bytes and closes after five. -/
def truncatedUpstream : Exchange where
  req := Request.Req.new
  requests := 1
  core := defaultCore
  bodyStatus := none
  reply := ⟨{ Resp.new with framing := .length 10 },.stream (lit "hello") (.socket []) (some 10)⟩
  date := lit "Thu, 01 Jan 1970 00:00:00 GMT"
  tcp := true
  clock := 0

example : truncatedUpstream.date.length = 29 := by decide +kernel

theorem truncatedUpstream_reused :
    ¬ ((truncatedUpstream.respond ⟨[],none,true⟩).2 = true →
      truncatedUpstream.Complete (truncatedUpstream.written ⟨[],none,true⟩)) := by
  intro h
  have hg : (truncatedUpstream.respond ⟨[],none,true⟩).2 = true := by decide +kernel
  have hw : truncatedUpstream.written ⟨[],none,true⟩ = lit "hello" := by decide +kernel
  have hf : truncatedUpstream.framed.resp.framing = .length 10 := by decide +kernel
  have hb : truncatedUpstream.bodiless = false := by decide +kernel
  have hc := h hg
  rw [hw,Complete,hb,hf] at hc
  have hl : (lit "hello").length = 10 := hc
  exact absurd hl (by decide +kernel)

end Reuse

section Coded

/-- The bytes that stand for the reply on the wire were all written. -/
def responded (x : Exchange) (s : Sink) : Bool :=
  (writeReply x.core x.date x.tcp x.clock s x.framed x.headOnly).2.isSome

/-- The entity the handler produced: a handler that chose chunked framing hands
over a body already coded, any other the entity itself. -/
def Entity (x : Exchange) (e : Bytes) : Prop :=
  if x.reply.resp.framing = .chunked then Coding x.source.1 e else e = x.source.1

/-- A head that says chunked is followed by a coding of the entity. A `HEAD`
response has no body, and past a protocol switch there is no response. -/
def CodedWhenSaid (x : Exchange) (s : Sink) : Prop :=
  x.reply.body.isUpgraded = false → x.responded s = true →
    x.framed.resp.saysChunked x.core.serverTokens x.date = true →
      if x.headOnly then x.written s = [] else ∃ e, x.Entity e ∧ Coding (x.written s) e

/-- The head says chunked, by its framing or through a stored field. -/
def saysChunked (x : Exchange) : Bool :=
  (!isBodyless x.reply.resp.status && decide (x.announced = .chunked)) ||
    x.reply.resp.hdrs.any Resp.isChunkedField

/-- The head does not say chunked, no body is due, the response breaks off, or
the handler framed a body that is one complete coding. -/
inductive PassesCoding (x : Exchange) (s : Sink) : Prop
  | silent : x.saysChunked = false → PassesCoding x s
  | headOnly : x.headOnly = true → PassesCoding x s
  | switches : x.reply.body.isUpgraded = true → PassesCoding x s
  | fails : x.source.2 = false → isBodyless x.reply.resp.status = false → PassesCoding x s
  | refused : x.peerTakes s = false → PassesCoding x s
  | coded (e : Bytes) : x.reply.resp.framing = .chunked → isBodyless x.reply.resp.status = false →
      Coding x.source.1 e → PassesCoding x s

theorem framed_saysChunked {x : Exchange} (hu : x.reply.body.isUpgraded = false) :
    x.framed.resp.saysChunked x.core.serverTokens x.date = x.saysChunked := by
  rw [Resp.saysChunked_eq,framed_hdrs,saysChunked]
  cases hs : isBodyless x.reply.resp.status with
  | true =>
    rw [framed_framing_of_bodyless hu hs]
    rfl
  | false =>
    rw [framed_framing hu hs]
    rfl

theorem responded_eq {x : Exchange} {s : Sink} (hu : x.reply.body.isUpgraded = false) :
    x.responded s = (x.supply.2 && x.peerTakes s) := by
  have hs := @writeBody_framed x s (framed_isUpgraded hu)
  simp only [responded,writeReply_framed,hs.flushOk,hs.result,peerTakes]
  cases s.flushOk <;> cases s.takes (x.head ++ x.supply.1).length <;> cases x.supply.2 <;> simp

/-- What follows a head that says chunked is a coding of the handler's entity
exactly when the handler itself passed a coding on. -/
theorem codedWhenSaid_iff (x : Exchange) (s : Sink) : x.CodedWhenSaid s ↔ x.PassesCoding s := by
  cases hu : x.reply.body.isUpgraded with
  | true =>
    constructor
    · intro _
      exact .switches hu
    · intro _ h
      rw [hu] at h
      cases h
  | false =>
    have hfu := framed_isUpgraded hu
    rw [CodedWhenSaid,framed_saysChunked hu,responded_eq hu]
    cases hh : x.headOnly with
    | true =>
      have hsup := supply_of_bodiless hu (by rw [bodiless,hh]; rfl)
      constructor
      · intro _
        exact .headOnly hh
      · intro _ _ hr _
        simp only [Bool.and_eq_true] at hr
        simp only [↓reduceIte]
        rw [written_eq hfu hr.1 hr.2,hsup]
    | false =>
      simp only [Bool.false_eq_true,if_false]
      cases hs : isBodyless x.reply.resp.status with
      | true =>
        have hsup := supply_of_bodiless hu (by rw [bodiless,hs,Bool.or_true])
        constructor
        · intro h
          cases hsay : x.saysChunked with
          | false => exact .silent hsay
          | true =>
            cases ht : x.peerTakes s with
            | false => exact .refused ht
            | true =>
              obtain ⟨e,-,hc⟩ := h hu (by rw [hsup,ht]; rfl) hsay
              rw [written_eq hfu (by rw [hsup]) ht,hsup] at hc
              exact absurd rfl hc.ne_nil
        · intro h _ hr hsay
          simp only [Bool.and_eq_true] at hr
          cases h with
          | silent h => exact absurd (hsay.symm.trans h) (by decide)
          | headOnly h => exact absurd (h.symm.trans hh) (by decide)
          | switches h => exact absurd (h.symm.trans hu) (by decide)
          | fails _ h => exact absurd (hs.symm.trans h) (by decide)
          | refused h => exact absurd (hr.2.symm.trans h) (by decide)
          | coded _ _ h _ => exact absurd (hs.symm.trans h) (by decide)
      | false =>
        have hb : x.bodiless = false := by rw [bodiless,hh,hs]; rfl
        have hsup := supply_eq_source hb
        constructor
        · intro h
          cases hsay : x.saysChunked with
          | false => exact .silent hsay
          | true =>
            cases ho : x.source.2 with
            | false => exact .fails ho hs
            | true =>
              cases ht : x.peerTakes s with
              | false => exact .refused ht
              | true =>
                obtain ⟨e,he,hc⟩ := h hu (by rw [hsup,ho,ht]; rfl) hsay
                rw [written_eq hfu (by rw [hsup]; exact ho) ht,hsup] at hc
                by_cases hf : x.reply.resp.framing = .chunked
                · exact .coded e hf hs hc
                · rw [Entity,if_neg hf] at he
                  rw [he] at hc
                  exact absurd rfl hc.ne
        · intro h _ hr hsay
          simp only [Bool.and_eq_true] at hr
          rw [written_eq hfu hr.1 hr.2,hsup]
          cases h with
          | silent h => exact absurd (hsay.symm.trans h) (by decide)
          | headOnly h => exact absurd (h.symm.trans hh) (by decide)
          | switches h => exact absurd (h.symm.trans hu) (by decide)
          | fails h _ =>
            rw [hsup,h] at hr
            cases hr.1
          | refused h => exact absurd (hr.2.symm.trans h) (by decide)
          | coded e hf _ hc => exact ⟨e,by rw [Entity,if_pos hf]; exact hc,hc⟩

/-- A FastCGI application that declares no length, streamed to an HTTP/1.1
client: one `STDOUT` record of five bytes, then `END_REQUEST`. -/
def streamedApplication : Exchange where
  req := Request.Req.new
  requests := 1
  core := defaultCore
  bodyStatus := none
  reply :=
    ⟨Resp.new,
      .stream (lit "hello ")
        (.fcgi (.new [.data ([1,6,0,1,0,5,3,0] ++ lit "world" ++ [0,0,0]),
          .data [1,3,0,1,0,8,0,0,0,0,0,0,0,0,0,0]])) none⟩
  date := lit "Thu, 01 Jan 1970 00:00:00 GMT"
  tcp := true
  clock := 0

theorem streamedApplication_uncoded : ¬ streamedApplication.CodedWhenSaid ⟨[],none,true⟩ := by
  intro h
  have hw : streamedApplication.written ⟨[],none,true⟩ = lit "hello world" := by decide +kernel
  have hs : streamedApplication.source.1 = lit "hello world" := by decide +kernel
  obtain ⟨e,he,hc⟩ := h rfl (by decide +kernel) (by decide +kernel)
  have he' : e = streamedApplication.source.1 := he
  rw [hw,he',hs] at hc
  exact absurd rfl hc.ne

end Coded

end Exchange

end OxiServe.Server
