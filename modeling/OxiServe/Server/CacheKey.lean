import OxiServe.Server.Entering

/-! # Cache keys and the host they stand for

The default key names the proxied host, but it is rendered where the action of the
location starts. There `$proxy_host` is the peer that an earlier pass of the same
request connected to, and is empty for a request that has made no such pass.
-/
namespace OxiServe.Server
open Config Response

/-- The host that `proxy_pass` names. -/
def proxyHost (env : Env) (ctx : Ctx) (pp : ProxyPass) : Bytes :=
  match pp.target with
  | .upstream name => name
  | .addr host port => host ++ lit ":" ++ decimal port
  | .unix path => lit "unix:" ++ path
  | .dynamic t =>
    let rendered := ctx.render env t
    let rest := (stripPrefix (lit "https://") rendered).getD (trimStartMatches (lit "http://") rendered)
    (split 47 rest).headD []

/-- The use a proxied request makes of a cache, with the context it is made in. -/
structure CacheUse where
  ctx : Ctx
  pass : ProxyPass
  cache : CacheCtx

def CacheUse.host (env : Env) (u : CacheUse) : Bytes := proxyHost env u.ctx u.pass

def CacheUse.HasDefaultKey (u : CacheUse) : Prop := u.cache.conf.key = ProxyCacheConf.default.key

def Routing.cacheUse (env : Env) (sub : Ctx → Reply) (r : Routing) : Option CacheUse :=
  match r.entered env sub with
  | some (c,loc) =>
    match loc.action with
    | .proxy pp => (cacheContext env c loc).map (fun cc => ⟨c,pp,cc⟩)
    | _ => none
  | none => none

/-- A request or subrequest, the world it runs in and how its subrequests are answered. -/
structure Arrival where
  env : Env
  sub : Ctx → Reply
  ctx : Ctx

namespace Arrival

def passes (a : Arrival) : List Routing := passesOf a.env a.sub a.ctx

/-- The default key of a pass that starts with `peer` left behind by an earlier one. -/
def keyAfter (a : Arrival) (peer : Bytes) : Bytes := a.ctx.scheme ++ peer ++ a.ctx.req.targetStr a.ctx.buf

/-- A pass of each request uses the same zone under the default key, for different hosts. -/
structure Shares (a b : Arrival) (r s : Routing) (u v : CacheUse) : Prop where
  left : r ∈ a.passes
  right : s ∈ b.passes
  usesLeft : r.cacheUse a.env a.sub = some u
  usesRight : s.cacheUse b.env b.sub = some v
  keyLeft : u.HasDefaultKey
  keyRight : v.HasDefaultKey
  zone : u.cache.zone = v.cache.zone
  hosts : u.host a.env ≠ v.host b.env

/-- Requests that are proxied to different hosts never share a cache entry. -/
def Isolated (a b : Arrival) : Prop :=
  ∀ r s u v, a.Shares b r s u v → u.cache.key ≠ v.cache.key

end Arrival

section Keys
variable {env : Env} {sub : Ctx → Reply} {ctx : Ctx} {r : Routing} {u : CacheUse}

theorem render_defaultKey (env : Env) (ctx : Ctx) : ctx.render env ProxyCacheConf.default.key =
    ctx.scheme ++ ctx.upstreamAddr ++ ctx.req.targetStr ctx.buf := by
  have hr : ctx.render env ProxyCacheConf.default.key =
      ctx.scheme ++ (ctx.upstreamAddr ++ (ctx.req.targetStr ctx.buf ++ [])) := rfl
  rw [hr,List.append_nil,List.append_assoc]

theorem cacheContext_some {loc : Location} {cc : CacheCtx} (h : cacheContext env ctx loc = some cc) :
    cc.conf = loc.core.proxyCache ∧ cc.key = ctx.render env cc.conf.key := by
  unfold cacheContext at h
  dsimp only at h
  split at h
  · cases h
  · split at h
    · cases h
    · split at h
      · cases h
      · cases h
        exact ⟨rfl,rfl⟩

/-- Every pass of a request is about the same request. -/
theorem passes_ctx {left : ℕ} {s : Routing} (h : s ∈ r.passes env sub left) : r.ctx.Same s.ctx := by
  induction left generalizing r with
  | zero =>
    cases List.mem_singleton.mp h
    exact .refl _
  | succ left ih =>
    simp only [Routing.passes] at h
    split at h
    · cases List.mem_singleton.mp h
      exact .refl _
    · rename_i heq
      rcases List.mem_cons.mp h with rfl | h
      · exact .refl _
      · exact (next_same heq).trans (ih h)

theorem passesOf_ctx (h : r ∈ passesOf env sub ctx) : ctx.Same r.ctx := by
  have hs := (@serverPhase_rephrased env ctx).same
  unfold passesOf at h
  split at h
  · cases h
  · rename_i heq
    rw [heq] at hs
    exact hs.trans (passes_ctx h)

theorem cacheUse_key (h : r.cacheUse env sub = some u) (hd : u.HasDefaultKey) :
    u.cache.key = r.ctx.scheme ++ r.ctx.upstreamAddr ++ r.ctx.req.targetStr r.ctx.buf := by
  unfold Routing.cacheUse at h
  rcases Routing.pass_ends env sub r with ⟨c,loc,auth,he,hs,ha,-⟩ | ⟨he,-,-⟩
  · simp only [he] at h
    split at h
    · obtain ⟨cc,hc,rfl⟩ := Option.map_eq_some_iff.mp h
      have hk : cc.key = c.render env cc.conf.key := (cacheContext_some hc).2
      have hd : cc.conf.key = ProxyCacheConf.default.key := hd
      rw [hk,hd,render_defaultKey,ha,hs.scheme,hs.keeps.req,hs.keeps.buf]
    · cases h
  · simp only [he] at h
    cases h

end Keys

namespace Arrival
variable {a b : Arrival} {r s : Routing} {u v : CacheUse}

theorem key_of_use (hr : r ∈ a.passes) (h : r.cacheUse a.env a.sub = some u) (hd : u.HasDefaultKey) :
    u.cache.key = a.keyAfter r.ctx.upstreamAddr := by
  have hs := passesOf_ctx hr
  rw [cacheUse_key h hd,hs.scheme,hs.keeps.req,hs.keeps.buf]
  rfl

/-- Before the first pass that connects, no peer has been left behind. -/
theorem peer_first {pre post : List Routing} (h : a.passes = pre ++ r :: post)
    (hq : ∀ q ∈ pre, q.connects a.env a.sub = false) : r.ctx.upstreamAddr = a.ctx.upstreamAddr := by
  have hs := (@serverPhase_rephrased a.env a.ctx).upstreamAddr
  unfold passes passesOf at h
  split at h
  · simp at h
  · rename_i heq
    rw [heq] at hs
    exact (Routing.passes_upstreamAddr h hq).trans hs

/-- Two requests are isolated exactly as far as what is left behind and the
request URI tell them apart: the hosts they are proxied to do not enter the key.
Nothing is left behind before the first pass that connects. -/
theorem isolated_iff (a b : Arrival) :
    (a.Isolated b ↔ ∀ r s u v, a.Shares b r s u v →
      a.keyAfter r.ctx.upstreamAddr ≠ b.keyAfter s.ctx.upstreamAddr) ∧
    ∀ pre r post, a.passes = pre ++ r :: post → (∀ q ∈ pre, q.connects a.env a.sub = false) →
      r.ctx.upstreamAddr = a.ctx.upstreamAddr := by
  refine ⟨⟨?_,?_⟩,fun pre r post => peer_first⟩
  · intro h r s u v hs
    rw [← key_of_use hs.left hs.usesLeft hs.keyLeft,← key_of_use hs.right hs.usesRight hs.keyRight]
    exact h r s u v hs
  · intro h r s u v hs
    rw [key_of_use hs.left hs.usesLeft hs.keyLeft,key_of_use hs.right hs.usesRight hs.keyRight]
    exact h r s u v hs

end Arrival

section Sites

/-- A location for every URI that proxies to one host, with the cache on. -/
def cachedLocation (host : Bytes) (valid : List CacheValid) : Location :=
  { Location.bare (.pfx (lit "/")) (.proxy ⟨.addr host 80,none,false⟩) with
    core := { defaultCore with
      proxyCache := { ProxyCacheConf.default with zone := some (lit "z"), valid := valid } } }

def cachedSite (host : Bytes) (valid : List CacheValid) : ServerConf :=
  { ServerConf.bare with locations := { LocSet.empty with prefixes := [cachedLocation host valid] } }

/-- A request for `/`, whose head starts with `GET / HTTP/1.1`. -/
def siteCtx (head host : Bytes) (valid : List CacheValid) : Ctx :=
  Ctx.new head { Request.Req.new with methodRaw := ⟨0,3⟩, target := ⟨4,5⟩ } [] { Http.bare with cacheZones := [lit "z"] }
    (cachedSite host valid) (lit "/") none none (lit "http") 1 1

/-- The context in which the action of its location runs. -/
def siteAction (head host : Bytes) (valid : List CacheValid) : Ctx :=
  { siteCtx head host valid with matched := some (cachedLocation host valid) }

variable {env : Env} {sub : Ctx → Reply} {head host : Bytes} {valid : List CacheValid}

theorem siteCtx_entered : (Routing.start (siteCtx head host valid)).entered env sub =
    some (siteAction head host valid,cachedLocation host valid) := by
  have hf : (cachedSite host valid).locations.find (lit "/") = some (cachedLocation host valid,none) := rfl
  have hd : (cachedLocation host valid).descend (lit "/") none = (cachedLocation host valid,none) :=
    Location.descend_leaf rfl _ _
  have hl : (siteCtx head host valid).server.locate (siteCtx head host valid).uri =
      some (cachedLocation host valid,none) := by
    have hl : (cachedSite host valid).locate (lit "/") = some (cachedLocation host valid,none) := by
      rw [ServerConf.locate,hf,Option.map_some,hd]
    exact hl
  simp only [Routing.entered,Routing.start,hl,Option.bind_some]
  rfl

theorem siteCtx_use : ∃ cc, (Routing.start (siteCtx head host valid)).cacheUse env sub =
    some ⟨siteAction head host valid,⟨.addr host 80,none,false⟩,cc⟩ ∧
      cc.conf.key = ProxyCacheConf.default.key ∧ cc.zone = lit "z" := by
  have hc : ∃ cc, cacheContext env (siteAction head host valid) (cachedLocation host valid) = some cc ∧
      cc.conf.key = ProxyCacheConf.default.key ∧ cc.zone = lit "z" := ⟨_,rfl,rfl,rfl⟩
  obtain ⟨cc,hc,hk,hz⟩ := hc
  refine ⟨cc,?_,hk,hz⟩
  simp only [Routing.cacheUse,siteCtx_entered]
  exact congrArg (Option.map _) hc

theorem siteCtx_first : Routing.start (siteCtx head host valid) ∈ passesOf env sub (siteCtx head host valid) := by
  have hp : serverPhase env (siteCtx head host valid) = (siteCtx head host valid,none) := rfl
  unfold passesOf
  rw [hp]
  simp only [maxInternalRedirects,Routing.passes]
  split
  · exact List.mem_singleton.mpr rfl
  · exact List.mem_cons_self

def siteArrival (host : Bytes) : Arrival := ⟨.idle,handleSub .idle,siteCtx (lit "GET / HTTP/1.1") host []⟩

/-- Two sites in one zone get each other's pages. -/
theorem sites_share : ¬ ∀ a b : Arrival, a.Isolated b := by
  intro h
  obtain ⟨u,hu,hk,hz⟩ := @siteCtx_use .idle (handleSub .idle) (lit "GET / HTTP/1.1") (lit "a") []
  obtain ⟨v,hv,hk',hz'⟩ := @siteCtx_use .idle (handleSub .idle) (lit "GET / HTTP/1.1") (lit "b") []
  have hne : lit "a" ++ lit ":" ++ decimal 80 ≠ lit "b" ++ lit ":" ++ decimal 80 := by decide +kernel
  have hs : (siteArrival (lit "a")).Shares (siteArrival (lit "b")) _ _ _ _ :=
    ⟨siteCtx_first,siteCtx_first,hu,hv,hk,hk',hz.trans hz'.symm,hne⟩
  apply h _ _ _ _ _ _ hs
  rw [Arrival.key_of_use hs.left hs.usesLeft hs.keyLeft,Arrival.key_of_use hs.right hs.usesRight hs.keyRight]
  rfl

end Sites

end OxiServe.Server
