import OxiServe.Server.Authorisation

/-! # Where the action of a location runs

A pass either reaches the action of its location or ends before it, with a page or
a jump. The context at that point differs from the one in front of the pass by
rewriting, conditions and authorisation only, so no peer has been chosen since.
-/
namespace OxiServe.Server
open Config Response

section Locations

/-- The context of the action, when no rewrite, condition or `try_files` ends the pass. -/
def actionCtx (env : Env) (ctx : Ctx) (loc : Location) : Option Ctx :=
  match runRewrites env loc.rewrites ctx with
  | (_,some _) => none
  | (ctx,none) =>
    match runIfs env loc.ifs ctx with
    | (_,some _) => none
    | (ctx,none) =>
      match loc.tryFiles with
      | none => some ctx
      | some tf =>
        match runTryFiles env ctx loc tf with
        | (_,some _) => none
        | (ctx,none) => some ctx

/-- The same behind the checks of a location. -/
def admittedCtx (env : Env) (sub : Ctx → Reply) (ctx : Ctx) (loc : Location) (internal : Bool) : Option Ctx :=
  if loc.core.internal && !internal then none
  else
    match limitsFor env ctx loc.core internal with
    | some _ => none
    | none =>
      if !methodAllowed loc ctx.req.method then none
      else
        match authorise env sub ctx loc.core with
        | (_,_,.error _) => none
        | (ctx,_,.ok _) => actionCtx env ctx loc

variable {env : Env} {sub : Ctx → Reply} {ctx : Ctx} {loc : Location}

theorem content_cases : (∃ c, actionCtx env ctx loc = some c ∧ ctx.Rephrased c ∧ content env ctx loc = act env c loc) ∨
    (actionCtx env ctx loc = none ∧ ctx.Rephrased (content env ctx loc).1 ∧ (content env ctx loc).2.FromPage env) := by
  have hr := @runRewrites_rephrased env ctx loc.rewrites
  have hrl := fun s => @runRewrites_fromPage env ctx loc.rewrites s
  unfold content actionCtx
  rcases hw : runRewrites env loc.rewrites ctx with ⟨c,_ | s⟩
  · rw [hw] at hr
    have hi := @runIfs_rephrased env c loc.ifs
    have hil := fun s => @runIfs_fromPage env c loc.ifs s
    dsimp only
    rcases hj : runIfs env loc.ifs c with ⟨d,_ | s⟩
    · rw [hj] at hi
      dsimp only
      cases htf : loc.tryFiles with
      | none => exact .inl ⟨d,rfl,hr.trans hi,rfl⟩
      | some tf =>
        have ht := @runTryFiles_rephrased env d loc tf
        have htl := fun s => @runTryFiles_fromPage env d loc tf s
        dsimp only
        rcases hk : runTryFiles env d loc tf with ⟨e,_ | s⟩
        · rw [hk] at ht
          exact .inl ⟨e,rfl,(hr.trans hi).trans ht,rfl⟩
        · rw [hk] at ht htl
          exact .inr ⟨rfl,(hr.trans hi).trans ht,htl s rfl⟩
    · rw [hj] at hi hil
      exact .inr ⟨rfl,hr.trans hi,hil s rfl⟩
  · rw [hw] at hr hrl
    exact .inr ⟨rfl,hr,hrl s rfl⟩

theorem dispatch_cases {internal : Bool} :
    (∃ c auth, admittedCtx env sub ctx loc internal = some c ∧ ctx.Rephrased c ∧
      dispatch env sub ctx loc internal = ⟨(act env c loc).1,auth,(act env c loc).2⟩) ∨
    (admittedCtx env sub ctx loc internal = none ∧ ctx.Rephrased (dispatch env sub ctx loc internal).ctx ∧
      (dispatch env sub ctx loc internal).step.FromPage env) := by
  have ha := @authorise_rephrased env sub ctx loc.core
  unfold dispatch admittedCtx
  by_cases hi : (loc.core.internal && !internal) = true
  · rw [if_pos hi,if_pos hi]
    exact .inr ⟨rfl,.refl _,trivial⟩
  · rw [if_neg hi,if_neg hi]
    cases hl : limitsFor env ctx loc.core internal with
    | some status => exact .inr ⟨rfl,.refl _,trivial⟩
    | none =>
      dsimp only
      by_cases hm : (!methodAllowed loc ctx.req.method) = true
      · rw [if_pos hm,if_pos hm]
        exact .inr ⟨rfl,.refl _,trivial⟩
      · rw [if_neg hm,if_neg hm]
        rcases hv : authorise env sub ctx loc.core with ⟨c,auth,e | u⟩
        · rw [hv] at ha
          exact .inr ⟨rfl,ha,trivial⟩
        · rw [hv] at ha
          dsimp only
          rcases @content_cases env c loc with ⟨d,hd,hs,he⟩ | ⟨hn,hs,hl⟩
          · exact .inl ⟨d,auth,hd,ha.trans hs,by rw [he]⟩
          · exact .inr ⟨hn,ha.trans hs,hl⟩

/-- Serving files chooses no peer. -/
theorem serve_upstreamAddr {loc : Option Location} : (serve env ctx loc).1.upstreamAddr = ctx.upstreamAddr := by
  simp only [serve]
  split
  · rfl
  · split
    · rfl
    · rfl
  · split
    · rfl
    · rfl

theorem servedToStep_done {s : Served} {reply : Reply} {p : Producer} (h : servedToStep s = .done reply p) :
    p = .files := by
  cases s with
  | reply r =>
    cases h
    rfl
  | internal uri => cases h
  | status code => cases h

theorem fallback_cases {internal : Bool} :
    (fallback env ctx internal).ctx.upstreamAddr = ctx.upstreamAddr ∧
      ∀ reply p, (fallback env ctx internal).step = .done reply p → p = .page ∨ p = .files := by
  unfold fallback
  split
  · exact ⟨rfl,fun _ _ h => nomatch h⟩
  · split
    · refine ⟨rfl,fun _ _ h => .inl ?_⟩
      cases h
      rfl
    · exact ⟨serve_upstreamAddr,fun reply p h => .inr (servedToStep_done h)⟩

end Locations

namespace Routing

/-- The location whose action the pass runs, with the context there. -/
def entered (env : Env) (sub : Ctx → Reply) (r : Routing) : Option (Ctx × Location) :=
  match r.named with
  | some n =>
    (r.ctx.server.locations.named.lookup n).bind (fun loc =>
      (admittedCtx env sub { r.ctx with matched := some loc } loc true).map (fun c => (c,loc)))
  | none =>
    (r.ctx.server.locate r.ctx.uri).bind (fun p =>
      (admittedCtx env sub { r.ctx with captures := p.2.getD r.ctx.captures, matched := some p.1 } p.1
        r.internal).map (fun c => (c,p.1)))

/-- The pass talks to an upstream or to an application. -/
def connects (env : Env) (sub : Ctx → Reply) (r : Routing) : Bool :=
  match r.entered env sub with
  | some (_,loc) =>
    match loc.action with
    | .proxy _ | .fastCgi _ => true
    | _ => false
  | none => false

variable {env : Env} {sub : Ctx → Reply} {r : Routing}

/-- A pass is the action of the location it enters, or ends without one. -/
def Ends (env : Env) (sub : Ctx → Reply) (r : Routing) : Prop :=
  (∃ c loc auth, r.entered env sub = some (c,loc) ∧ r.ctx.Same c ∧ c.upstreamAddr = r.ctx.upstreamAddr ∧
    r.pass env sub = ⟨(act env c loc).1,auth,(act env c loc).2⟩) ∨
  (r.entered env sub = none ∧ (r.pass env sub).ctx.upstreamAddr = r.ctx.upstreamAddr ∧
    ∀ reply p, (r.pass env sub).step = .done reply p → p = .page ∨ p = .files)

theorem ends_of_dispatch (c : Ctx) (loc : Location) (internal : Bool) (hs : r.ctx.Same c)
    (ha : c.upstreamAddr = r.ctx.upstreamAddr)
    (he : r.entered env sub = (admittedCtx env sub c loc internal).map (fun c => (c,loc)))
    (hp : r.pass env sub = dispatch env sub c loc internal) : r.Ends env sub := by
  unfold Ends
  rw [he,hp]
  rcases @dispatch_cases env sub c loc internal with ⟨d,auth,hd,hr,hq⟩ | ⟨hd,hr,hl⟩
  · exact .inl ⟨d,loc,auth,by rw [hd]; rfl,hs.trans hr.same,hr.upstreamAddr.trans ha,hq⟩
  · refine .inr ⟨by rw [hd]; rfl,hr.upstreamAddr.trans ha,?_⟩
    intro reply p hstep
    rw [hstep] at hl
    exact .inl hl.1

theorem pass_ends (env : Env) (sub : Ctx → Reply) (r : Routing) : r.Ends env sub := by
  cases hn : r.named with
  | some n =>
    cases hl : r.ctx.server.locations.named.lookup n with
    | none =>
      have hp : r.pass env sub = ⟨r.ctx,none,.fail 500⟩ := by simp only [pass,hn,hl]
      refine .inr ⟨by simp only [entered,hn,hl,Option.bind_none],by rw [hp],?_⟩
      rw [hp]
      intro _ _ h; cases h
    | some loc =>
      exact ends_of_dispatch { r.ctx with matched := some loc } loc true rfl rfl
        (by simp only [entered,hn,hl,Option.bind_some]) (by simp only [pass,hn,hl])
  | none =>
    cases hl : r.ctx.server.locate r.ctx.uri with
    | none =>
      have hp : r.pass env sub = fallback env { r.ctx with matched := none } r.internal := by
        simp only [pass,hn,route,hl]
      have hf := @fallback_cases env { r.ctx with matched := none } r.internal
      refine .inr ⟨by simp only [entered,hn,hl,Option.bind_none],?_,?_⟩
      · rw [hp]
        exact hf.1
      · rw [hp]
        exact hf.2
    | some p =>
      obtain ⟨loc,caps⟩ := p
      exact ends_of_dispatch { r.ctx with captures := caps.getD r.ctx.captures, matched := some loc } loc r.internal
        rfl rfl (by simp only [entered,hn,hl,Option.bind_some]) (by simp only [pass,hn,route,hl])

/-- A pass that enters neither proxying nor FastCGI leaves the peer as it was. -/
theorem pass_upstreamAddr (h : r.connects env sub = false) :
    (r.pass env sub).ctx.upstreamAddr = r.ctx.upstreamAddr := by
  rcases pass_ends env sub r with ⟨c,loc,auth,he,-,ha,hp⟩ | ⟨-,ha,-⟩
  · rw [hp,← ha]
    simp only [connects,he] at h
    unfold act
    split
    · rfl
    · rfl
    · rename_i heq
      simp only [heq] at h
      cases h
    · rename_i heq
      simp only [heq] at h
      cases h
    · rfl
    · exact serve_upstreamAddr
  · exact ha

theorem next_upstreamAddr {c : Ctx} {s : Routing} (h : r.next env sub = .jump c s) :
    s.ctx.upstreamAddr = (r.pass env sub).ctx.upstreamAddr := by
  unfold next after at h
  split at h
  · cases h
  · cases h
    rfl
  · cases h
    rfl
  · split at h
    · cases h
      rfl
    · cases h
      rfl
    · cases h
    · cases h

/-- Up to the first pass that connects, the peer is that of the start. -/
theorem passes_upstreamAddr {left : ℕ} {pre post : List Routing} {s : Routing}
    (h : r.passes env sub left = pre ++ s :: post) (hq : ∀ q ∈ pre, q.connects env sub = false) :
    s.ctx.upstreamAddr = r.ctx.upstreamAddr := by
  induction left generalizing r pre with
  | zero =>
    cases pre with
    | nil =>
      obtain ⟨rfl,-⟩ := List.cons_eq_cons.mp h
      rfl
    | cons q pre => simp [passes] at h
  | succ left ih =>
    cases pre with
    | nil =>
      simp only [passes] at h
      split at h
      · obtain ⟨rfl,-⟩ := List.cons_eq_cons.mp h
        rfl
      · obtain ⟨rfl,-⟩ := List.cons_eq_cons.mp h
        rfl
    | cons q pre =>
      simp only [passes] at h
      split at h
      · simp at h
      · rename_i c t heq
        obtain ⟨rfl,ht⟩ := List.cons_eq_cons.mp h
        rw [ih ht (fun q hm => hq q (List.mem_cons_of_mem _ hm)),next_upstreamAddr heq,
          pass_upstreamAddr (hq r List.mem_cons_self)]

end Routing

end OxiServe.Server
