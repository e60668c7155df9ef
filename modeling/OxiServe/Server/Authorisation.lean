import OxiServe.Server.Producers

/-! # Authorisation fails closed

`auth_request` is checked where a location is dispatched to. A URI that matches
no location is served from the server's own root without passing that point.
-/
namespace OxiServe.Server
open Config Response

namespace Routing

/-- The location the next pass enters. -/
def target (r : Routing) : Option Location :=
  match r.named with
  | some n => r.ctx.server.locations.named.lookup n
  | none => (r.ctx.server.locate r.ctx.uri).map Prod.fst

/-- The `auth_request` in effect: the location's, or the server's without one. -/
def authRequest (r : Routing) : Option Bytes :=
  match r.target with
  | some l => l.core.authRequest
  | none => r.ctx.server.core.authRequest

/-- The subrequest of the pass was made and answered with a 2xx status. -/
def Authorised (env : Env) (sub : Ctx → Reply) (r : Routing) : Prop :=
  ∃ uri c, r.authRequest = some uri ∧ subCtx r.ctx uri = some c ∧
    (r.pass env sub).auth = some (sub c).resp.status ∧
      200 ≤ (sub c).resp.status ∧ (sub c).resp.status ≤ 299

/-- Where authorisation is asked for, content is produced only with it. -/
def FailsClosed (env : Env) (sub : Ctx → Reply) (r : Routing) : Prop :=
  ∀ reply producer, (r.pass env sub).step = .done reply producer → producer.isContent = true →
    r.authRequest ≠ none → r.Authorised env sub

/-- The pass falls back to the server's root: no location matches although the
server sets `auth_request`, the limits admit the request, the server has no
`return`, and the static handler has something to answer. -/
structure Unguarded (env : Env) (r : Routing) : Prop where
  unnamed : r.named = none
  unmatched : r.ctx.server.locate r.ctx.uri = none
  wanted : r.ctx.server.core.authRequest ≠ none
  admitted : limitsFor env { r.ctx with matched := none } r.ctx.server.core r.internal = none
  served : ∃ reply, (serve env { r.ctx with matched := none } none).2 = .reply reply
  plain : ∀ status body, r.ctx.server.action ≠ .ret status body

end Routing

section Passes
variable {env : Env} {sub : Ctx → Reply}

/-- An authorisation that lets a request through was asked and said yes. -/
theorem authorise_ok {ctx ctx' : Ctx} {core : CoreConf} {auth : Option ℕ} {uri : Bytes}
    (hu : core.authRequest = some uri) (h : authorise env sub ctx core = (ctx',auth,.ok ())) :
    ∃ c, subCtx ctx uri = some c ∧ auth = some (sub c).resp.status ∧
      200 ≤ (sub c).resp.status ∧ (sub c).resp.status ≤ 299 := by
  simp only [authorise,hu,runAuthRequest] at h
  split at h
  · cases h
  · split at h
    · cases h
    · rename_i c hc
      simp only [Prod.mk.injEq] at h
      obtain ⟨-,ha,hv⟩ := h
      split at hv
      · rename_i hs
        exact ⟨c,hc,ha.symm,hs.1,hs.2⟩
      · split at hv
        · cases hv
        · cases hv

/-- A dispatched pass answers only after the location's check. -/
theorem dispatch_done {ctx : Ctx} {loc : Location} {internal : Bool} {reply : Reply} {producer : Producer}
    {uri : Bytes} (hu : loc.core.authRequest = some uri)
    (h : (dispatch env sub ctx loc internal).step = .done reply producer) :
    ∃ c, subCtx ctx uri = some c ∧ (dispatch env sub ctx loc internal).auth = some (sub c).resp.status ∧
      200 ≤ (sub c).resp.status ∧ (sub c).resp.status ≤ 299 := by
  unfold dispatch at h ⊢
  split at h
  · cases h
  · rename_i hi
    rw [if_neg hi]
    split at h
    · cases h
    · split at h
      · cases h
      · rename_i hm
        simp only [if_neg hm]
        split at h
        · cases h
        · rename_i heq
          exact authorise_ok hu heq

/-- The check of a pass that enters a location. -/
theorem failsClosed_of_target {r : Routing} {loc : Location} (ht : r.target = some loc) :
    r.FailsClosed env sub := by
  intro reply producer hstep _ hauth
  have hr : r.authRequest = loc.core.authRequest := by rw [Routing.authRequest,ht]
  obtain ⟨uri,hu⟩ := Option.ne_none_iff_exists'.mp hauth
  have hl : loc.core.authRequest = some uri := hr.symm.trans hu
  unfold Routing.target at ht
  unfold Routing.Authorised Routing.pass at *
  cases hn : r.named with
  | some n =>
    simp only [hn] at ht hstep ⊢
    simp only [ht] at hstep ⊢
    obtain ⟨c,hc,ha⟩ := dispatch_done hl hstep
    exact ⟨uri,c,hu,hc,ha⟩
  | none =>
    simp only [hn] at ht hstep ⊢
    obtain ⟨⟨l,caps⟩,hf,he⟩ := Option.map_eq_some_iff.mp ht
    have he' : l = loc := he
    subst he'
    simp only [route,hf] at hstep ⊢
    obtain ⟨c,hc,ha⟩ := dispatch_done hl hstep
    exact ⟨uri,c,hu,hc,ha⟩

/-- A fallback pass never asks, and answers with content only from the files. -/
theorem fallback_auth (ctx : Ctx) (internal : Bool) : (fallback env ctx internal).auth = none := by
  unfold fallback
  split
  · rfl
  · split
    · rfl
    · rfl

theorem fallback_done {ctx : Ctx} {internal : Bool} {reply : Reply} {producer : Producer}
    (h : (fallback env ctx internal).step = .done reply producer) (hp : producer.isContent = true) :
    limitsFor env ctx ctx.server.core internal = none ∧ (∀ s b, ctx.server.action ≠ .ret s b) ∧
      ∃ reply, (serve env ctx none).2 = .reply reply := by
  unfold fallback at h
  split at h
  · cases h
  · rename_i hl
    split at h
    · cases h
      cases hp
    · rename_i hne
      refine ⟨hl,fun s b he => hne s b he,?_⟩
      cases hs : (serve env ctx none).2 with
      | reply r => exact ⟨r,rfl⟩
      | internal uri =>
        have h' : servedToStep (serve env ctx none).2 = .done reply producer := h
        rw [hs] at h'
        cases h'
      | status c =>
        have h' : servedToStep (serve env ctx none).2 = .done reply producer := h
        rw [hs] at h'
        cases h'

theorem fallback_served {ctx : Ctx} {internal : Bool} {reply : Reply}
    (hl : limitsFor env ctx ctx.server.core internal = none) (hr : ∀ s b, ctx.server.action ≠ .ret s b)
    (hs : (serve env ctx none).2 = .reply reply) :
    (fallback env ctx internal).step = .done reply .files := by
  have hserve : ∀ p : Ctx × Served, p.2 = .reply reply → servedToStep p.2 = .done reply .files := by
    intro p hp
    rw [hp]
    rfl
  unfold fallback
  rw [hl]
  dsimp only
  split
  · rename_i s b he
    exact absurd he (hr s b)
  · exact hserve _ hs

/-- A pass fails closed exactly when it is not unguarded. -/
theorem failsClosed_pass_iff (r : Routing) : r.FailsClosed env sub ↔ ¬ r.Unguarded env := by
  have hpass : r.named = none → r.ctx.server.locate r.ctx.uri = none →
      r.pass env sub = fallback env { r.ctx with matched := none } r.internal := by
    intro hn hl
    simp only [Routing.pass,hn,route,hl]
  have htarget : r.named = none → r.ctx.server.locate r.ctx.uri = none →
      r.authRequest = r.ctx.server.core.authRequest := by
    intro hn hl
    simp only [Routing.authRequest,Routing.target,hn,hl,Option.map_none]
  constructor
  · intro hf hu
    obtain ⟨reply,hs⟩ := hu.served
    have hp := hpass hu.unnamed hu.unmatched
    have hstep : (r.pass env sub).step = .done reply .files := by
      rw [hp]
      exact fallback_served hu.admitted hu.plain hs
    obtain ⟨uri,c,-,-,ha,-⟩ := hf reply .files hstep rfl (by rw [htarget hu.unnamed hu.unmatched]; exact hu.wanted)
    rw [hp,fallback_auth] at ha
    cases ha
  · intro hu
    cases ht : r.target with
    | some loc => exact failsClosed_of_target ht
    | none =>
      intro reply producer hstep hcontent hauth
      cases hn : r.named with
      | some n =>
        have hl : r.ctx.server.locations.named.lookup n = none := by
          simpa only [Routing.target,hn] using ht
        simp only [Routing.pass,hn,hl] at hstep
        cases hstep
      | none =>
        have hl : r.ctx.server.locate r.ctx.uri = none := by
          simpa only [Routing.target,hn,Option.map_eq_none_iff] using ht
        rw [hpass hn hl] at hstep
        obtain ⟨h1,h2,h3⟩ := fallback_done hstep hcontent
        rw [htarget hn hl] at hauth
        exact absurd ⟨hn,hl,hauth,h1,h3,h2⟩ hu

end Passes

section Requests
variable {env : Env} {sub : Ctx → Reply}

/-- The states in front of every routing pass of a request. -/
def passesOf (env : Env) (sub : Ctx → Reply) (ctx : Ctx) : List Routing :=
  match serverPhase env ctx with
  | (_,some _) => []
  | (ctx,none) => Routing.passes env sub maxInternalRedirects (.start ctx)

/-- A reply with content was produced by one of the passes. -/
theorem handleInner_content {ctx : Ctx} (h : (handleInner env sub ctx).producer.isContent = true) :
    ∃ r ∈ passesOf env sub ctx, ∃ reply,
      (r.pass env sub).step = .done reply (handleInner env sub ctx).producer := by
  rcases hp : serverPhase env ctx with ⟨c,_ | k⟩
  · simp only [handleInner,passesOf,hp] at h ⊢
    exact run_content h
  · simp only [handleInner,hp,(serverPhase_page hp).1] at h
    cases h

/-- Over every pass of a request or subrequest, internal jumps included,
authorisation fails closed exactly when no pass is unguarded. -/
theorem failsClosed_iff (env : Env) (sub : Ctx → Reply) (ctx : Ctx) :
    (∀ r ∈ passesOf env sub ctx, r.FailsClosed env sub) ↔ ∀ r ∈ passesOf env sub ctx, ¬ r.Unguarded env := by
  constructor
  · intro h r hr
    exact (failsClosed_pass_iff r).mp (h r hr)
  · intro h r hr
    exact (failsClosed_pass_iff r).mpr (h r hr)

/-- Where no pass is unguarded, the pass that produced a content reply either
asks for no authorisation or was granted it. -/
theorem handle_authorised {ctx : Ctx} (hg : ∀ r ∈ passesOf env (handleSub env) ctx, ¬ r.Unguarded env)
    (hc : (handle env ctx).producer.isContent = true) :
    ∃ r ∈ passesOf env (handleSub env) ctx,
      (∃ reply, (r.pass env (handleSub env)).step = .done reply (handle env ctx).producer) ∧
        (r.authRequest = none ∨ r.Authorised env (handleSub env)) := by
  obtain ⟨r,hr,reply,hstep⟩ := handleInner_content hc
  refine ⟨r,hr,⟨reply,hstep⟩,?_⟩
  by_cases ha : r.authRequest = none
  · exact .inl ha
  · exact .inr ((failsClosed_pass_iff r).mpr (hg r hr) reply _ hstep hc ha)

/-- A server with `auth_request` and a root, but no location. -/
def rootOnlyServer : ServerConf :=
  { ServerConf.bare with core := { defaultCore with authRequest := some (lit "/auth") } }

/-- A world in which every path is the same small file. -/
def oneFile : Env := { Env.idle with lookup := fun _ _ => .file (.ofBytes (lit "secret")) 6 0 }

def rootOnlyCtx : Ctx := { getCtx (lit "/secret") with server := rootOnlyServer }

theorem rootOnlyServer_open :
    ¬ ∀ r ∈ passesOf oneFile (handleSub oneFile) rootOnlyCtx, r.FailsClosed oneFile (handleSub oneFile) := by
  intro h
  have hm : Routing.start rootOnlyCtx ∈ passesOf oneFile (handleSub oneFile) rootOnlyCtx := by
    have hp : serverPhase oneFile rootOnlyCtx = (rootOnlyCtx,none) := rfl
    simp only [passesOf,hp,maxInternalRedirects,Routing.passes]
    split
    · exact List.mem_singleton.mpr rfl
    · exact List.mem_cons_self
  exact (failsClosed_pass_iff _).mp (h _ hm)
    { unnamed := rfl
      unmatched := rfl
      wanted := (by intro hn; cases hn)
      admitted := rfl
      served := ⟨_,rfl⟩
      plain := (by intro _ _ hn; cases hn) }

end Requests

end OxiServe.Server
