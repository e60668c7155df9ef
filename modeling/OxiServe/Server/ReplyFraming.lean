import OxiServe.Server.Producers

/-! # Announced lengths

A length is fixed by the proxy and the cache before the filters run, and by
`frame` after them for every other reply. Whether it fits the body depends on
what was read with an upstream's head and on the compression of a counted body.
-/
namespace OxiServe.Server
open Config Response

/-- An announced length is the body's, and no more was read ahead of a stream. -/
def Reply.LengthMatches (r : Reply) : Prop :=
  ∀ n, r.resp.framing = .length n →
    r.body.knownLen = some n ∧ ∀ pre io len, r.body = .stream pre io len → pre.length ≤ n

/-- The same before the reply is framed. -/
def Reply.LengthReady (r : Reply) : Prop :=
  match r.resp.framing with
  | .length n => r.body.knownLen = some n ∧ ∀ pre io len, r.body = .stream pre io len → pre.length ≤ n
  | .none => ∀ pre io n, r.body = .stream pre io (some n) → pre.length ≤ n
  | _ => True

section Frame
variable {r : Reply} {http11 : Bool}

theorem lengthMatches_of_upgraded (hu : r.body.isUpgraded = true) : (r.frame http11).LengthMatches := by
  rcases r with ⟨resp,body⟩
  cases body with
  | upgraded pre io =>
    intro n hn
    cases hn
  | _ => cases hu

theorem lengthMatches_of_bodyless (hs : isBodyless r.resp.status = true) : (r.frame http11).LengthMatches := by
  cases hu : r.body.isUpgraded with
  | true => exact lengthMatches_of_upgraded hu
  | false =>
    intro n hn
    rw [(Reply.frame_body_of_bodyless hu hs).2] at hn
    cases hn

/-- Framing takes the length from the body unless the handler chose. -/
theorem lengthMatches_frame_iff (hu : r.body.isUpgraded = false) (hs : isBodyless r.resp.status = false) :
    (r.frame http11).LengthMatches ↔ r.LengthReady := by
  have hf := @Reply.frame_framing r http11 hu hs
  have hb := @Reply.frame_body r http11 hs
  unfold Reply.LengthMatches Reply.LengthReady
  rw [hb]
  cases hr : r.resp.framing with
  | length n =>
    rw [hr,if_pos (fun h => nomatch h)] at hf
    rw [hf]
    constructor
    · intro h
      exact h n rfl
    · intro h k hk
      cases hk
      exact h
  | chunked =>
    rw [hr,if_pos (fun h => nomatch h)] at hf
    rw [hf]
    exact ⟨fun _ => trivial,fun _ _ hk => nomatch hk⟩
  | untilClose =>
    rw [hr,if_pos (fun h => nomatch h)] at hf
    rw [hf]
    exact ⟨fun _ => trivial,fun _ _ hk => nomatch hk⟩
  | none =>
    rw [hr,if_neg (fun h => h rfl)] at hf
    rw [hf]
    unfold Body.framing
    constructor
    · intro h pre io n hbody
      have hk : r.body.knownLen = some n := by rw [hbody]; rfl
      rw [hk] at h
      exact (h n rfl).2 pre io (some n) hbody
    · intro h n hn
      cases hk : r.body.knownLen with
      | none =>
        rw [hk] at hn
        cases http11 with
        | true => cases hn
        | false => cases hn
      | some k =>
        rw [hk] at hn
        cases hn
        refine ⟨rfl,?_⟩
        intro pre io len hbody
        rw [hbody] at hk
        have hl : len = some n := hk
        rw [hl] at hbody
        exact h pre io n hbody

end Frame

namespace Handled

/-- No body is due; the reply is the server's own or a file's; an upstream
switched protocols, chunks its body or announces no length; it announces more
than came with its head; the whole counted body is in hand with just that length
and is not compressed, or to the same length; or an application declared no less
than was read of its body. -/
inductive Fits (env : Env) (h : Handled) : Prop
  | bodiless : isBodyless h.made.resp.status = true → Fits env h
  | page : h.producer = .page → Fits env h
  | files : h.producer = .files → Fits env h
  | cached (e : Decoded) : h.producer = .cache e →
      (∀ out, gzipped env h.ctx h.made = some out → out.length = e.body.length) → Fits env h
  | switched : h.made.body.isUpgraded = true → Fits env h
  | chunked (a : Answer) : h.producer = .upstream a → a.fields.chunked = true → Fits env h
  | untilClose (a : Answer) : h.producer = .upstream a → a.fields.len = none → Fits env h
  | streamed (a : Answer) (n : ℕ) : h.producer = .upstream a → a.fields.chunked = false →
      a.fields.len = some n → a.pre.length < n → Fits env h
  | counted (a : Answer) (n : ℕ) : h.producer = .upstream a → a.fields.chunked = false →
      a.fields.len = some n → n ≤ a.pre.length →
      ((gzipped env h.ctx h.made).getD a.pre).length = n → Fits env h
  | buffered : h.producer = .application none → Fits env h
  | declared (pre : Bytes) (len : Option ℕ) : h.producer = .application (some (pre,len)) →
      (∀ n, len = some n → pre.length ≤ n) → Fits env h

end Handled

section Handled
variable {env : Env} {h : Handled}

/-- What decoration leaves of the reply, before it is framed. -/
theorem reply_ready_iff :
    (h.reply env).LengthReady ↔
      Reply.LengthReady ⟨h.made.resp,((gzipped env h.ctx h.made).map Body.bytes).getD h.made.body⟩ := by
  obtain ⟨-,hf,hb⟩ := @decorate_kept env h.ctx h.made
  unfold Reply.LengthReady Handled.reply
  rw [hf,hb]

theorem reply_not_upgraded (hu : h.made.body.isUpgraded = false) : (h.reply env).body.isUpgraded = false := by
  obtain ⟨-,-,hb⟩ := @decorate_kept env h.ctx h.made
  rw [Handled.reply,hb]
  cases gzipped env h.ctx h.made with
  | none => exact hu
  | some out => rfl

/-- A body that cannot be compressed stays. -/
theorem reply_ready_of_raw (hr : h.made.body.raw h.ctx.clock = none) :
    (h.reply env).LengthReady ↔ h.made.LengthReady := by
  rw [reply_ready_iff,gzipped_eq_none hr]
  rfl

/-- With the framing open, compression is accounted for when the reply is framed. -/
theorem reply_ready_of_none (hf : h.made.resp.framing = .none) :
    (h.reply env).LengthReady ↔ ∀ pre io n, h.made.body = .stream pre io (some n) → pre.length ≤ n := by
  rw [reply_ready_iff]
  simp only [Reply.LengthReady,hf]
  cases hg : gzipped env h.ctx h.made with
  | none => rfl
  | some out =>
    constructor
    · intro _ pre io n hb
      have hraw : h.made.body.raw h.ctx.clock = none := by rw [hb]; rfl
      rw [gzipped_eq_none hraw] at hg
      cases hg
    · intro _ pre io n hb
      cases hb

/-- A counted body in memory must still have its length after compression. -/
theorem reply_ready_of_bytes {n : ℕ} {b : Bytes} (hf : h.made.resp.framing = .length n)
    (hb : h.made.body = .bytes b) :
    (h.reply env).LengthReady ↔ ((gzipped env h.ctx h.made).getD b).length = n := by
  rw [reply_ready_iff]
  simp only [Reply.LengthReady,hf,hb]
  cases gzipped env h.ctx h.made with
  | none =>
    simp only [Option.map_none,Option.getD_none,Body.knownLen,Option.some.injEq]
    exact ⟨fun h => h.1,fun h => ⟨h,fun _ _ _ hk => nomatch hk⟩⟩
  | some out =>
    simp only [Option.map_some,Option.getD_some,Body.knownLen,Option.some.injEq]
    exact ⟨fun h => h.1,fun h => ⟨h,fun _ _ _ hk => nomatch hk⟩⟩

/-- The framing a proxied reply takes over from its upstream. -/
theorem upstream_ready_iff {a : Answer} (hu : h.made.body.isUpgraded = false)
    (hm : (Producer.upstream a).Makes false h.made) :
    (h.reply env).LengthReady ↔
      (a.fields.chunked = false → ∀ n, a.fields.len = some n →
        a.pre.length < n ∨ (n ≤ a.pre.length ∧ ((gzipped env h.ctx h.made).getD a.pre).length = n)) := by
  obtain ⟨resp,hf,hb⟩ := hm.resolve_left (by rw [hu]; decide)
  unfold frameAnswer at hf hb
  cases hc : a.fields.chunked with
  | true =>
    rw [hc] at hf hb
    have hraw : h.made.body.raw h.ctx.clock = none := by rw [hb]; rfl
    have hfr : h.made.resp.framing = .chunked := hf
    rw [reply_ready_of_raw hraw]
    simp only [Reply.LengthReady,hfr]
    exact ⟨fun _ hk => (nomatch hk),fun _ => trivial⟩
  | false =>
    rw [hc] at hf hb
    cases hl : a.fields.len with
    | none =>
      rw [hl] at hf hb
      have hraw : h.made.body.raw h.ctx.clock = none := by rw [hb]; rfl
      have hfr : h.made.resp.framing = .untilClose := hf
      rw [reply_ready_of_raw hraw]
      simp only [Reply.LengthReady,hfr]
      exact ⟨fun _ _ _ hk => (nomatch hk),fun _ => trivial⟩
    | some n =>
      rw [hl] at hf hb
      dsimp only at hf hb
      by_cases hz : n - a.pre.length = 0
      · rw [if_pos hz] at hf hb
        rw [reply_ready_of_bytes hf hb]
        constructor
        · intro hlen _ k hk
          cases hk
          exact .inr ⟨by omega,hlen⟩
        · intro hlen
          rcases hlen rfl n rfl with hlt | ⟨_,hlen⟩
          · omega
          · exact hlen
      · rw [if_neg hz] at hf hb
        have hraw : h.made.body.raw h.ctx.clock = none := by rw [hb]; rfl
        have hfr : h.made.resp.framing = .length n := hf
        rw [reply_ready_of_raw hraw]
        simp only [Reply.LengthReady,hfr,hb]
        constructor
        · intro _ _ k hk
          cases hk
          exact .inl (by omega)
        · intro _
          refine ⟨rfl,?_⟩
          intro pre io len hk
          cases hk
          omega

/-- A handled request other than `HEAD` announces the length of its body exactly
when it fits. -/
theorem lengthMatches_iff_fits {http11 : Bool} (hm : h.producer.Makes false h.made) :
    ((h.reply env).frame http11).LengthMatches ↔ h.Fits env := by
  have hst : (h.reply env).resp.status = h.made.resp.status := (@decorate_kept env h.ctx h.made).1
  cases hu : h.made.body.isUpgraded with
  | true =>
    have hraw : h.made.body.raw h.ctx.clock = none := by
      cases hb : h.made.body with
      | upgraded pre io => rfl
      | _ => rw [hb] at hu; cases hu
    have hb : (h.reply env).body = h.made.body := by
      rw [Handled.reply,(@decorate_kept env h.ctx h.made).2.2,gzipped_eq_none hraw]
      rfl
    exact ⟨fun _ => .switched hu,fun _ => lengthMatches_of_upgraded (by rw [hb]; exact hu)⟩
  | false =>
    cases hs : isBodyless h.made.resp.status with
    | true => exact ⟨fun _ => .bodiless hs,fun _ => lengthMatches_of_bodyless (by rw [hst]; exact hs)⟩
    | false =>
      rw [lengthMatches_frame_iff (reply_not_upgraded hu) (by rw [hst]; exact hs)]
      have hnb : ¬ isBodyless h.made.resp.status = true := by rw [hs]; decide
      have hnu : ¬ h.made.body.isUpgraded = true := by rw [hu]; decide
      cases hp : h.producer with
      | page =>
        rw [hp] at hm
        refine ⟨fun _ => .page hp,fun _ => (reply_ready_of_none hm.framing).mpr ?_⟩
        intro pre io n hb
        have hst := hm.stored
        rw [hb] at hst
        cases hst
      | files =>
        rw [hp] at hm
        refine ⟨fun _ => .files hp,fun _ => (reply_ready_of_none (hm.2 rfl)).mpr ?_⟩
        intro pre io n hb
        have hst := hm.1
        rw [hb] at hst
        cases hst
      | cache e =>
        rw [hp] at hm
        rw [reply_ready_of_bytes hm.1 hm.2]
        constructor
        · intro hl
          refine .cached e hp ?_
          intro out ho
          rw [ho] at hl
          exact hl
        · intro hf
          cases hf with
          | bodiless k => exact absurd k hnb
          | switched k => exact absurd k hnu
          | cached f k hl =>
            rw [hp] at k
            cases k
            cases hg : gzipped env h.ctx h.made with
            | none => rfl
            | some out => exact hl out hg
          | _ => simp_all
      | upstream a =>
        rw [hp] at hm
        rw [upstream_ready_iff hu hm]
        constructor
        · intro hl
          cases hc : a.fields.chunked with
          | true => exact .chunked a hp hc
          | false =>
            cases hn : a.fields.len with
            | none => exact .untilClose a hp hn
            | some n =>
              rcases hl hc n hn with hlt | ⟨hle,hlen⟩
              · exact .streamed a n hp hc hn hlt
              · exact .counted a n hp hc hn hle hlen
        · intro hf hc n hn
          cases hf with
          | bodiless k => exact absurd k hnb
          | switched k => exact absurd k hnu
          | chunked b k hk =>
            rw [hp] at k
            cases k
            rw [hc] at hk
            cases hk
          | untilClose b k hk =>
            rw [hp] at k
            cases k
            rw [hn] at hk
            cases hk
          | streamed b m k _ hk hlt =>
            rw [hp] at k
            cases k
            rw [hn] at hk
            cases hk
            exact .inl hlt
          | counted b m k _ hk hle hlen =>
            rw [hp] at k
            cases k
            rw [hn] at hk
            cases hk
            exact .inr ⟨hle,hlen⟩
          | _ => simp_all
      | application s =>
        rw [hp] at hm
        rw [reply_ready_of_none hm.1]
        have hstr := hm.2.2
        constructor
        · intro hl
          cases s with
          | none => exact .buffered hp
          | some p =>
            obtain ⟨pre,len⟩ := p
            refine .declared pre len hp ?_
            intro n hn
            subst hn
            cases hb : h.made.body with
            | stream pre' io len' =>
              rw [hb] at hstr
              cases hstr
              exact hl pre io n hb
            | _ => rw [hb] at hstr; cases hstr
        · intro hf pre io n hb
          rw [hb] at hstr
          cases hstr
          cases hf with
          | bodiless k => exact absurd k hnb
          | switched k => exact absurd k hnu
          | declared pre' len k hl =>
            rw [hp] at k
            cases k
            exact hl n rfl
          | buffered k =>
            rw [hp] at k
            cases k
          | _ => simp_all

/-- Every reply of the handler to a request other than `HEAD` announces the
length of its body exactly when it fits. -/
theorem handle_lengthMatches_iff {ctx : Ctx} (env : Env) (http11 : Bool) (hm : ctx.req.method ≠ .head) :
    (((handle env ctx).reply env).frame http11).LengthMatches ↔ (handle env ctx).Fits env := by
  have hk := @handleInner_makes env (handleSub env) ctx
  have hh : (ctx.req.method == .head) = false := beq_eq_false_iff_ne.mpr hm
  rw [hh] at hk
  exact lengthMatches_iff_fits hk

theorem notFound_lengthMatches :
    (getCtx (lit "/")).req.method ≠ .head ∧
      (((handle .idle (getCtx (lit "/"))).reply .idle).frame true).LengthMatches :=
  ⟨by decide,(handle_lengthMatches_iff .idle true (by decide)).mpr (.page rfl)⟩

/-- A server that proxies everything to one address. -/
def proxyLocation : Location := .bare (.pfx (lit "/")) (.proxy ⟨.addr (lit "app") 80,none,false⟩)

def proxyServer : ServerConf := { ServerConf.bare with locations := ⟨[],[proxyLocation],[],[]⟩ }

/-- An upstream that announces two bytes and sends five with its head. -/
def surplusUpstream : Env :=
  { Env.idle with
    peer := fun _ _ _ =>
      ⟨false,true,true,true,[.data (lit "HTTP/1.1 200 OK\r\nContent-Length: 2\r\n\r\nhello")],false,false⟩
    parseResponse := fun _ => .ok (some ⟨38,some 200,[(lit "Content-Length",lit "2")]⟩) }

def proxyCtx : Ctx := { getCtx (lit "/") with server := proxyServer }

theorem proxyServer_locate : proxyServer.locate (lit "/") = some (proxyLocation,none) := by
  have hf : proxyServer.locations.find (lit "/") = some (proxyLocation,none) := rfl
  rw [ServerConf.locate,hf,Option.map_some,Location.descend_leaf rfl]

/-- The only pass of the request, its location in place. -/
def surplusPass : Pass :=
  dispatch surplusUpstream (handleSub surplusUpstream) { proxyCtx with matched := some proxyLocation }
    proxyLocation false

def surplusHandled : Handled :=
  match (Routing.start proxyCtx).after surplusUpstream surplusPass with
  | .finished h => h
  | .jump c _ => .error c 500

theorem surplusUpstream_handled : handle surplusUpstream proxyCtx = surplusHandled := by
  have hl : proxyCtx.server.locate proxyCtx.uri = some (proxyLocation,none) := proxyServer_locate
  have hpass : (Routing.start proxyCtx).pass surplusUpstream (handleSub surplusUpstream) = surplusPass := by
    have hr : (Routing.start proxyCtx).pass surplusUpstream (handleSub surplusUpstream) =
        route surplusUpstream (handleSub surplusUpstream) proxyCtx false := rfl
    rw [hr,route,hl]
    rfl
  have hh : handle surplusUpstream proxyCtx =
      Routing.run surplusUpstream (handleSub surplusUpstream) 10 (.start proxyCtx) := rfl
  rw [hh,Routing.run,Routing.next,hpass]
  rfl

theorem surplusUpstream_mismatch :
    proxyCtx.req.method ≠ .head ∧
      ¬ (((handle surplusUpstream proxyCtx).reply surplusUpstream).frame true).LengthMatches := by
  refine ⟨by decide,?_⟩
  rw [surplusUpstream_handled]
  intro h
  have hk := (h 2 (by decide +kernel)).1
  exact absurd hk (by decide +kernel)

end Handled

end OxiServe.Server
