import OxiServe.Server.Decorate
import OxiServe.Server.FastCgi
import OxiServe.Server.Files

/-! # Request routing

One routing pass selects a location, checks it, authorises the request and runs
the location's rewrites, conditions, `try_files` and action. The loop around it
follows internal redirects, named locations and error pages, at most ten of them.
-/
namespace OxiServe.Server
open Config Response

/-- What a reply was made from. -/
inductive Producer
  | page
  | files
  | cache (entry : Decoded)
  | upstream (a : Answer)
  | application (streamed : Option (Bytes × Option ℕ))

/-- Static files and listings, proxied and FastCGI responses. -/
def Producer.isContent : Producer → Bool
  | .page => false
  | _ => true

/-- Outcome of one routing pass. -/
inductive Step
  | done (r : Reply) (producer : Producer)
  | fail (code : ℕ)
  | internal (uri : Bytes)
  | named (name : Bytes)

section Rewriting

/-- A target with its own query replaces `$args`. -/
def takeArgs (ctx : Ctx) (target : Bytes) : Ctx × Bytes :=
  match splitOnce 63 target with
  | some (t,a) => ({ ctx with args := a },t)
  | none => (ctx,target)

def isAbsolute (target : Bytes) : Bool :=
  (lit "http://").isPrefixOf target || (lit "https://").isPrefixOf target

/-- The rules in order. An absolute replacement redirects whatever its flag. -/
def runRewrites (env : Env) : List Rewrite → Ctx → Ctx × Option Step
  | [], ctx => (ctx,none)
  | r :: rs, ctx =>
    match r.re.captures ctx.uri with
    | none => runRewrites env rs ctx
    | some caps =>
      let (ctx,target) := takeArgs (ctx.setCaptures caps) ((ctx.setCaptures caps).render env r.replacement)
      match r.flag with
      | .redirect => (ctx,some (.done (redirect ctx 302 target) .page))
      | .permanent => (ctx,some (.done (redirect ctx 301 target) .page))
      | .last =>
        if isAbsolute target then (ctx,some (.done (redirect ctx 302 target) .page))
        else ({ ctx with uri := target },some (.internal target))
      | .brk =>
        if isAbsolute target then (ctx,some (.done (redirect ctx 302 target) .page))
        else ({ ctx with uri := target },none)
      | .none =>
        if isAbsolute target then (ctx,some (.done (redirect ctx 302 target) .page))
        else runRewrites env rs { ctx with uri := target }

def evalCond (env : Env) (ctx : Ctx) : Cond → Bool
  | .always => true
  | .truthy v => truthy (ctx.var env v)
  | .eq v t => ctx.var env v == ctx.render env t
  | .ne v t => ctx.var env v != ctx.render env t
  | .matches v re negate => re.isMatch (ctx.var env v) != negate
  | .fileExists t negate => (env.fileMeta ctx.clock (ctx.render env t)).any FileMeta.isFile != negate
  | .dirExists t negate => (env.fileMeta ctx.clock (ctx.render env t)).any FileMeta.isDir != negate
  | .anyExists t negate => (env.fileMeta ctx.clock (ctx.render env t)).isSome != negate
  | .executable t negate => (env.fileMeta ctx.clock (ctx.render env t)).any FileMeta.executable != negate

/-- How the actions of one `if` ended; `break` leaves the whole phase. -/
inductive IfOutcome
  | goes
  | stops
  | step (s : Step)

def runActions (env : Env) : List IfAction → Ctx → Ctx × IfOutcome
  | [], ctx => (ctx,.goes)
  | .ret status body :: _, ctx => (ctx,.step (.done (returnReply env ctx status body) .page))
  | .set name value :: rest, ctx => runActions env rest (ctx.set name (ctx.render env value))
  | .rewrite r :: rest, ctx =>
    match runRewrites env [r] ctx with
    | (ctx,some s) => (ctx,.step s)
    | (ctx,none) => runActions env rest ctx
  | .addHeader _ :: rest, ctx => runActions env rest ctx
  | .brk :: _, ctx => (ctx,.stops)

def runIfs (env : Env) : List IfBlock → Ctx → Ctx × Option Step
  | [], ctx => (ctx,none)
  | b :: bs, ctx =>
    if evalCond env ctx b.cond then
      match runActions env b.actions ctx with
      | (ctx,.step s) => (ctx,some s)
      | (ctx,.stops) => (ctx,none)
      | (ctx,.goes) => runIfs env bs ctx
    else runIfs env bs ctx

/-- The first candidate that exists: a name ending in a slash must be a
directory, any other a regular file. -/
def findCandidate (env : Env) (ctx : Ctx) (root : Bytes) : List Template → Option Bytes
  | [] => none
  | t :: ts =>
    let candidate := ctx.render env t
    if candidate = [] then findCandidate env ctx root ts
    else
      let wantsDir := candidate.getLast? == some 47
      let path := root ++ (if candidate.head? = some 47 then [] else [47]) ++ candidate
      match env.fileMeta ctx.clock path with
      | some m =>
        if (wantsDir && m.isDir) || (!wantsDir && m.isFile) then some candidate
        else findCandidate env ctx root ts
      | none => findCandidate env ctx root ts

/-- A candidate that is the URI itself is served in place. -/
def runTryFiles (env : Env) (ctx : Ctx) (loc : Location) (tf : TryFiles) : Ctx × Option Step :=
  match findCandidate env ctx (ctx.render env (loc.core.aliasTo.getD loc.core.root)) tf.items with
  | some candidate => if candidate = ctx.uri then (ctx,none) else (ctx,some (.internal candidate))
  | none =>
    match tf.fallback with
    | .status s => (ctx,some (.fail s))
    | .named n => (ctx,some (.named n))
    | .uri u =>
      let (ctx,target) := takeArgs ctx (ctx.render env u)
      (ctx,some (.internal target))

end Rewriting

section Limits

/-- A zone's key for this request; none when it is to be passed over. -/
def zoneKey (env : Env) (ctx : Ctx) (zones : List Bytes) (keys : List (Bytes × Template)) (zone : Bytes) :
    Option Bytes :=
  if zones.contains zone then
    match keys.lookup zone with
    | none => none
    | some t => if ctx.render env t = [] then none else some (ctx.render env t)
  else none

def applyLimitConn (env : Env) (ctx : Ctx) (core : CoreConf) : ℕ → List LimitConn → Option ℕ
  | _, [] => none
  | i, l :: ls =>
    match zoneKey env ctx ctx.http.limitConnZones ctx.http.limitConnKeys l.zone with
    | none => applyLimitConn env ctx core (i + 1) ls
    | some key =>
      if env.acquireConn ctx.clock i l.zone key l.limit || core.limitConnDryRun then
        applyLimitConn env ctx core (i + 1) ls
      else some core.limitConnStatus

/-- A delay only holds the request; any rejection wins. -/
def applyLimitReq (env : Env) (ctx : Ctx) (core : CoreConf) : ℕ → List LimitReq → Option ℕ
  | _, [] => none
  | i, l :: ls =>
    match zoneKey env ctx ctx.http.limitReqZones ctx.http.limitReqKeys l.zone with
    | none => applyLimitReq env ctx core (i + 1) ls
    | some key =>
      match env.checkReq ctx.clock i l.zone key l.burst l.nodelay l.delayAfter with
      | .reject => some core.limitReqStatus
      | _ => applyLimitReq env ctx core (i + 1) ls

def applyLimits (env : Env) (ctx : Ctx) (core : CoreConf) : Option ℕ :=
  (applyLimitConn env ctx core 0 core.limitConns).or (applyLimitReq env ctx core 0 core.limitReqs)

/-- Only the client's own request is charged, not an internal redirect of it. -/
def limitsFor (env : Env) (ctx : Ctx) (core : CoreConf) (internal : Bool) : Option ℕ :=
  if internal then none else applyLimits env ctx core

end Limits

section Authorisation

/-- Fields of a body that is not sent along. -/
def framingFields : List Bytes := [lit "content-length",lit "transfer-encoding",lit "expect"]

def subHeaders (ctx : Ctx) : List (Bytes × Bytes) :=
  (ctx.req.headers.map (fun h => (Request.Req.slice ctx.buf h.name,Request.Req.slice ctx.buf h.value))).filter
    (fun h => !framingFields.contains (toAsciiLowercase h.1))

/-- The subrequest: a fresh `GET` with the client's headers and no body. -/
def subCtx (ctx : Ctx) (uri : Bytes) : Option Ctx :=
  let (buf,req) := Request.Req.fromParts (lit "GET") uri (subHeaders ctx)
  match Uri.normalize (req.pathStr buf) with
  | .error _ => none
  | .ok normalised =>
    some { Ctx.new buf req [] ctx.http ctx.server normalised ctx.remote ctx.localAddr ctx.scheme ctx.connId
      ctx.connRequests with
      authDepth := ctx.authDepth + 1
      clock := ctx.clock + 1 }

/-- The status of the subrequest, when it was made, and the verdict. `sub` is how
a subrequest is answered; a nested one is refused. -/
def runAuthRequest (env : Env) (sub : Ctx → Reply) (ctx : Ctx) (uri : Bytes) (core : CoreConf) :
    Ctx × Option ℕ × Except ℕ Unit :=
  if 0 < ctx.authDepth then (ctx,none,.error 500)
  else
    match subCtx ctx uri with
    | none => (ctx,none,.error 500)
    | some c =>
      let reply := sub c
      let status := reply.resp.status
      let ctx := { ctx with upstreamHeaders := reply.resp.hdrs }
      let ctx := core.authRequestSet.foldl (fun ctx p => ctx.set p.1 (ctx.render env p.2)) ctx
      (ctx,some status,
        if 200 ≤ status ∧ status ≤ 299 then .ok ()
        else if status = 401 ∨ status = 403 then .error status
        else .error 500)

/-- The check of a location; without `auth_request` there is none. -/
def authorise (env : Env) (sub : Ctx → Reply) (ctx : Ctx) (core : CoreConf) : Ctx × Option ℕ × Except ℕ Unit :=
  match core.authRequest with
  | none => (ctx,none,.ok ())
  | some uri => runAuthRequest env sub ctx uri core

end Authorisation

section Dispatch

def servedToStep : Served → Step
  | .reply r => .done r .files
  | .internal uri => .internal uri
  | .status c => .fail c

def Proxied.producer : Proxied → Producer
  | .cached entry => .cache entry
  | .answered a _ => .upstream a

/-- The bytes in hand and the length of a body still arriving. -/
def Body.streamed : Body → Option (Bytes × Option ℕ)
  | .stream pre _ len => some (pre,len)
  | _ => none

def statusPage (env : Env) (ctx : Ctx) (json : Bool) : Reply :=
  let (body,ctype) :=
    if json then (env.statusJson ctx.clock,lit "application/json")
    else (env.stubStatus ctx.clock,lit "text/plain")
  ⟨(Resp.new.header (lit "Content-Type") ctype).header (lit "Cache-Control") (lit "no-cache, no-store"),
    .bytes body⟩

/-- The location's action. -/
def act (env : Env) (ctx : Ctx) (loc : Location) : Ctx × Step :=
  match loc.action with
  | .ret status body => (ctx,.done (returnReply env ctx status body) .page)
  | .none => (ctx,.fail 404)
  | .proxy p =>
    match proxy env ctx loc p with
    | (ctx,.ok r) => (ctx,.done r.reply r.producer)
    | (ctx,.error c) => (ctx,.fail c)
  | .fastCgi f =>
    match fastcgi env ctx loc f with
    | (ctx,.ok r) => (ctx,.done r (.application r.body.streamed))
    | (ctx,.error c) => (ctx,.fail c)
  | .stubStatus json => (ctx,.done (statusPage env ctx json) .page)
  | .static =>
    match serve env ctx (some loc) with
    | (ctx,s) => (ctx,servedToStep s)

/-- `limit_except` names the methods that stay unrestricted; `GET` implies `HEAD`. -/
def methodAllowed (loc : Location) (m : Request.Method) : Bool :=
  match loc.allowedMethods with
  | none => true
  | some allowed => allowed.any (fun a => a == m.asStr || (a == lit "GET" && m == .head))

/-- Everything after the checks. -/
def content (env : Env) (ctx : Ctx) (loc : Location) : Ctx × Step :=
  match runRewrites env loc.rewrites ctx with
  | (ctx,some step) => (ctx,step)
  | (ctx,none) =>
    match runIfs env loc.ifs ctx with
    | (ctx,some step) => (ctx,step)
    | (ctx,none) =>
      match loc.tryFiles with
      | none => act env ctx loc
      | some tf =>
        match runTryFiles env ctx loc tf with
        | (ctx,some step) => (ctx,step)
        | (ctx,none) => act env ctx loc

/-- One routing pass: the context after it, the status of its authorisation
subrequest if one was made, and its outcome. -/
structure Pass where
  ctx : Ctx
  auth : Option ℕ
  step : Step

def dispatch (env : Env) (sub : Ctx → Reply) (ctx : Ctx) (loc : Location) (internal : Bool) : Pass :=
  if loc.core.internal && !internal then ⟨ctx,none,.fail 404⟩
  else
    match limitsFor env ctx loc.core internal with
    | some status => ⟨ctx,none,.fail status⟩
    | none =>
      if !methodAllowed loc ctx.req.method then ⟨ctx,none,.fail 405⟩
      else
        match authorise env sub ctx loc.core with
        | (ctx,auth,.error c) => ⟨ctx,auth,.fail c⟩
        | (ctx,auth,.ok _) =>
          match content env ctx loc with
          | (ctx,step) => ⟨ctx,auth,step⟩

/-- No location matched: the server's limits, its `return`, or its own root. -/
def fallback (env : Env) (ctx : Ctx) (internal : Bool) : Pass :=
  match limitsFor env ctx ctx.server.core internal with
  | some status => ⟨ctx,none,.fail status⟩
  | none =>
    match ctx.server.action with
    | .ret status body => ⟨ctx,none,.done (returnReply env ctx status body) .page⟩
    | _ =>
      match serve env ctx none with
      | (ctx,s) => ⟨ctx,none,servedToStep s⟩

/-- Selects a location and dispatches to it. -/
def route (env : Env) (sub : Ctx → Reply) (ctx : Ctx) (internal : Bool) : Pass :=
  match ctx.server.locate ctx.uri with
  | some (loc,caps) =>
    dispatch env sub { ctx with captures := caps.getD ctx.captures, matched := some loc } loc internal
  | none => fallback env { ctx with matched := none } internal

end Dispatch

section Loop

def maxInternalRedirects : ℕ := 10

inductive ErrorRoute
  | uri (uri : Bytes) (replace : Option ℕ)
  | named (name : Bytes) (replace : Option ℕ)
  | redirect (url : Bytes) (replace : Option ℕ)

/-- Without a replacement the code stands, zero takes whatever the target makes. -/
def replaceStatus (ep : ErrorPage) (code : ℕ) : Option ℕ :=
  match ep.replaceStatus with
  | none => some code
  | some 0 => none
  | some n => some n

/-- The location's own list stands in for the server's unless it is empty. -/
def errorPages (ctx : Ctx) : List ErrorPage :=
  match ctx.matched with
  | some l => if l.errorPages = [] then ctx.server.errorPages else l.errorPages
  | none => ctx.server.errorPages

def errorPageFor (env : Env) (ctx : Ctx) (code : ℕ) : Option ErrorRoute :=
  match (errorPages ctx).find? (fun p => p.codes.contains code) with
  | none => none
  | some ep =>
    match ep.target with
    | .uri t =>
      if ctx.render env t = ctx.uri then none else some (.uri (ctx.render env t) (replaceStatus ep code))
    | .named n => some (.named n (replaceStatus ep code))
    | .redirect t => some (.redirect (ctx.render env t) (replaceStatus ep code))

/-- The state in front of a routing pass. -/
structure Routing where
  ctx : Ctx
  named : Option Bytes
  internal : Bool
  statusOverride : Option ℕ

/-- A finished request: the context, the reply before it is decorated, and what
the reply was made from. -/
structure Handled where
  ctx : Ctx
  made : Reply
  producer : Producer

def Handled.reply (env : Env) (h : Handled) : Reply := decorate env h.ctx h.made

def Handled.error (ctx : Ctx) (code : ℕ) : Handled := ⟨ctx,errorReply ctx code,.page⟩

/-- Another pass, with the context at the point of the jump, or the end. -/
inductive Next
  | jump (ctx : Ctx) (r : Routing)
  | finished (h : Handled)

/-- Answers of the environment are numbered: a subrequest has its own numbers
between those of two passes. -/
def tick (ctx : Ctx) : Ctx := { ctx with clock := ctx.clock + (if 0 < ctx.authDepth then 1 else 16) }

def withStatus (r : Reply) (status : Option ℕ) : Reply :=
  { r with resp := { r.resp with status := status.getD r.resp.status } }

namespace Routing

def pass (env : Env) (sub : Ctx → Reply) (r : Routing) : Pass :=
  match r.named with
  | none => route env sub r.ctx r.internal
  | some n =>
    match r.ctx.server.locations.named.lookup n with
    | some loc => dispatch env sub { r.ctx with matched := some loc } loc true
    | none => ⟨r.ctx,none,.fail 500⟩

/-- What follows a pass; a status override stays until another error page sets it. -/
def after (env : Env) (r : Routing) (p : Pass) : Next :=
  match p.step with
  | .done reply producer => .finished ⟨p.ctx,withStatus reply r.statusOverride,producer⟩
  | .internal uri => .jump p.ctx ⟨{ tick p.ctx with uri := uri },none,true,r.statusOverride⟩
  | .named n => .jump p.ctx ⟨tick p.ctx,some n,true,r.statusOverride⟩
  | .fail code =>
    match errorPageFor env p.ctx code with
    | some (.uri uri replace) => .jump p.ctx ⟨{ tick p.ctx with uri := uri },none,true,replace⟩
    | some (.named n replace) => .jump p.ctx ⟨tick p.ctx,some n,true,replace⟩
    | some (.redirect url replace) =>
      .finished ⟨p.ctx,⟨({ Resp.new with status := replace.getD 302 }).header (lit "Location") url,.empty⟩,.page⟩
    | none => .finished (.error p.ctx code)

def next (env : Env) (sub : Ctx → Reply) (r : Routing) : Next := r.after env (r.pass env sub)

/-- The routing loop; the number is how many more jumps are allowed. -/
def run (env : Env) (sub : Ctx → Reply) : ℕ → Routing → Handled
  | 0, r =>
    match r.next env sub with
    | .finished h => h
    | .jump ctx _ => .error ctx 500
  | left + 1, r =>
    match r.next env sub with
    | .finished h => h
    | .jump _ s => run env sub left s

/-- The states in front of every pass of a run. -/
def passes (env : Env) (sub : Ctx → Reply) : ℕ → Routing → List Routing
  | 0, r => [r]
  | left + 1, r =>
    match r.next env sub with
    | .finished _ => [r]
    | .jump _ s => r :: passes env sub left s

end Routing

/-- Turns the outcome of a server-level phase into a final reply, or lets routing go on. -/
def finish (p : Ctx × Option Step) : Ctx × Option Handled :=
  match p with
  | (ctx,none) => (ctx,none)
  | (ctx,some (.done r producer)) => (ctx,some ⟨ctx,r,producer⟩)
  | (ctx,some (.fail c)) => (ctx,some (.error ctx c))
  | (ctx,some (.internal uri)) => ({ ctx with uri := uri },none)
  | (ctx,some (.named _)) => (ctx,none)

/-- Server-level rewrites and conditions. -/
def serverPhase (env : Env) (ctx : Ctx) : Ctx × Option Handled :=
  match finish (runRewrites env ctx.server.rewrites ctx) with
  | (ctx,some h) => (ctx,some h)
  | (ctx,none) => finish (runIfs env ctx.server.ifs ctx)

/-- Where routing starts; a subrequest counts as internal from its first pass. -/
def Routing.start (ctx : Ctx) : Routing := ⟨ctx,none,decide (0 < ctx.authDepth),none⟩

def handleInner (env : Env) (sub : Ctx → Reply) (ctx : Ctx) : Handled :=
  match serverPhase env ctx with
  | (_,some h) => h
  | (ctx,none) => Routing.run env sub maxInternalRedirects (.start ctx)

/-- How an authorisation subrequest is answered. A subrequest makes none itself. -/
def handleSub (env : Env) (ctx : Ctx) : Reply :=
  (handleInner env (fun c => errorReply c 500) ctx).reply env

def handle (env : Env) (ctx : Ctx) : Handled := handleInner env (handleSub env) ctx

end Loop

section Keeps
variable {env : Env} {sub : Ctx → Reply} {ctx : Ctx}

theorem takeArgs_rephrased (ctx : Ctx) (target : Bytes) : ctx.Rephrased (takeArgs ctx target).1 := by
  unfold takeArgs
  split
  · rfl
  · exact .refl _

theorem runRewrites_rephrased {rs : List Rewrite} : ctx.Rephrased (runRewrites env rs ctx).1 := by
  have hu : ∀ (c : Ctx) (uri : Bytes), c.Rephrased { c with uri := uri } := fun _ _ => rfl
  induction rs generalizing ctx with
  | nil => exact .refl _
  | cons r rs ih =>
    simp only [runRewrites]
    split
    · exact ih
    · rename_i caps _
      have hc : ctx.Rephrased (ctx.setCaptures caps) := rfl
      have ha := hc.trans (takeArgs_rephrased (ctx.setCaptures caps) ((ctx.setCaptures caps).render env r.replacement))
      split
      · exact ha
      · exact ha
      · split
        · exact ha
        · exact ha.trans (hu _ _)
      · split
        · exact ha
        · exact ha.trans (hu _ _)
      · split
        · exact ha
        · exact (ha.trans (hu _ _)).trans ih

theorem runActions_rephrased {as : List IfAction} : ctx.Rephrased (runActions env as ctx).1 := by
  induction as generalizing ctx with
  | nil => exact .refl _
  | cons a as ih =>
    cases a with
    | ret status body => exact .refl _
    | set name value =>
      have hs : ctx.Rephrased (ctx.set name (ctx.render env value)) := rfl
      exact hs.trans ih
    | rewrite r =>
      have hr := @runRewrites_rephrased env ctx [r]
      simp only [runActions]
      split
      · rename_i heq
        rw [heq] at hr
        exact hr
      · rename_i heq
        rw [heq] at hr
        exact hr.trans ih
    | addHeader h => exact ih
    | brk => exact .refl _

theorem runIfs_rephrased {bs : List IfBlock} : ctx.Rephrased (runIfs env bs ctx).1 := by
  induction bs generalizing ctx with
  | nil => exact .refl _
  | cons b bs ih =>
    have ha := @runActions_rephrased env ctx b.actions
    simp only [runIfs]
    split
    · split
      all_goals
        rename_i heq
        rw [heq] at ha
      · exact ha
      · exact ha
      · exact ha.trans ih
    · exact ih

theorem runTryFiles_rephrased {loc : Location} {tf : TryFiles} : ctx.Rephrased (runTryFiles env ctx loc tf).1 := by
  unfold runTryFiles
  split
  · split
    · exact .refl _
    · exact .refl _
  · split
    · exact .refl _
    · exact .refl _
    · exact takeArgs_rephrased _ _

theorem authRequestSet_rephrased (ps : List (Bytes × Template)) :
    ctx.Rephrased (ps.foldl (fun ctx p => ctx.set p.1 (ctx.render env p.2)) ctx) := by
  induction ps generalizing ctx with
  | nil => exact .refl _
  | cons p ps ih =>
    have hs : ctx.Rephrased (ctx.set p.1 (ctx.render env p.2)) := rfl
    exact hs.trans ih

theorem authorise_rephrased {core : CoreConf} : ctx.Rephrased (authorise env sub ctx core).1 := by
  unfold authorise
  split
  · exact .refl _
  · unfold runAuthRequest
    split
    · exact .refl _
    · split
      · exact .refl _
      · rename_i c _
        have hu : ctx.Rephrased { ctx with upstreamHeaders := (sub c).resp.hdrs } := rfl
        exact hu.trans (authRequestSet_rephrased _)

theorem act_acted {loc : Location} : ctx.Acted (act env ctx loc).1 := by
  unfold act
  split
  · exact .refl _
  · exact .refl _
  · rename_i p _
    have hp := @proxy_acted env ctx loc p
    split
    all_goals
      rename_i heq
      rw [heq] at hp
      exact hp
  · rename_i f _
    have hf := @fastcgi_acted env ctx loc f
    split
    all_goals
      rename_i heq
      rw [heq] at hf
      exact hf
  · exact .refl _
  · exact serve_acted

theorem content_same {loc : Location} : ctx.Same (content env ctx loc).1 := by
  have hr := (@runRewrites_rephrased env ctx loc.rewrites).same
  unfold content
  split
  · rename_i heq
    rw [heq] at hr
    exact hr
  · rename_i c heq
    rw [heq] at hr
    have hi := (@runIfs_rephrased env c loc.ifs).same
    split
    · rename_i heq
      rw [heq] at hi
      exact hr.trans hi
    · rename_i d heq
      rw [heq] at hi
      split
      · exact (hr.trans hi).trans act_acted.same
      · rename_i tf _
        have ht := (@runTryFiles_rephrased env d loc tf).same
        split
        · rename_i heq
          rw [heq] at ht
          exact (hr.trans hi).trans ht
        · rename_i heq
          rw [heq] at ht
          exact ((hr.trans hi).trans ht).trans act_acted.same

theorem dispatch_same {loc : Location} {internal : Bool} :
    ctx.Same (dispatch env sub ctx loc internal).ctx := by
  have ha := (@authorise_rephrased env sub ctx loc.core).same
  unfold dispatch
  split
  · exact .refl _
  · split
    · exact .refl _
    · split
      · exact .refl _
      · split
        · rename_i heq
          rw [heq] at ha
          exact ha
        · rename_i heq
          rw [heq] at ha
          exact ha.trans content_same

theorem pass_same {r : Routing} : r.ctx.Same (r.pass env sub).ctx := by
  unfold Routing.pass
  split
  · unfold route
    split
    · rename_i loc caps _
      have hm : r.ctx.Same { r.ctx with captures := caps.getD r.ctx.captures, matched := some loc } :=
        rfl
      exact hm.trans dispatch_same
    · have hm : r.ctx.Same { r.ctx with matched := none } := rfl
      unfold fallback
      split
      · exact hm
      · split
        · exact hm
        · exact hm.trans serve_acted.same
  · split
    · rename_i loc _
      have hm : r.ctx.Same { r.ctx with matched := some loc } := rfl
      exact hm.trans dispatch_same
    · exact .refl _

/-- The next pass is about the same request. -/
theorem next_same {r s : Routing} {c : Ctx} (h : r.next env sub = .jump c s) : r.ctx.Same s.ctx := by
  have hp := @pass_same env sub r
  have ht : ∀ c : Ctx, c.Same (tick c) := fun _ => rfl
  have hu : ∀ (c : Ctx) (uri : Bytes), c.Same { tick c with uri := uri } := fun _ _ => rfl
  unfold Routing.next Routing.after at h
  split at h
  · cases h
  · cases h
    exact hp.trans (hu _ _)
  · cases h
    exact hp.trans (ht _)
  · split at h
    · cases h
      exact hp.trans (hu _ _)
    · cases h
      exact hp.trans (ht _)
    · cases h
    · cases h

theorem finish_rephrased {p : Ctx × Option Step} : p.1.Rephrased (finish p).1 := by
  rcases p with ⟨c,_ | s⟩
  · exact .refl _
  · cases s with
    | done r producer => exact .refl _
    | fail code => exact .refl _
    | internal uri => rfl
    | named n => exact .refl _

theorem serverPhase_rephrased : ctx.Rephrased (serverPhase env ctx).1 := by
  have hr := (@runRewrites_rephrased env ctx ctx.server.rewrites).trans finish_rephrased
  unfold serverPhase
  split
  · rename_i heq
    rw [heq] at hr
    exact hr
  · rename_i c heq
    rw [heq] at hr
    exact hr.trans ((@runIfs_rephrased env c c.server.ifs).trans finish_rephrased)

end Keeps

section Subrequests
variable {env : Env} {sub sub' : Ctx → Reply}

/-- Below the first level no subrequest is made. -/
theorem authorise_nested {ctx : Ctx} {core : CoreConf} (h : 0 < ctx.authDepth) :
    authorise env sub ctx core = authorise env sub' ctx core := by
  unfold authorise runAuthRequest
  simp only [if_pos h]

theorem dispatch_nested {ctx : Ctx} {loc : Location} {internal : Bool} (h : 0 < ctx.authDepth) :
    dispatch env sub ctx loc internal = dispatch env sub' ctx loc internal := by
  unfold dispatch
  rw [@authorise_nested env sub sub' ctx loc.core h]

theorem pass_nested {r : Routing} (h : 0 < r.ctx.authDepth) : r.pass env sub = r.pass env sub' := by
  unfold Routing.pass
  split
  · unfold route
    split
    · exact dispatch_nested h
    · rfl
  · split
    · exact dispatch_nested h
    · rfl

theorem run_nested {left : ℕ} {r : Routing} (h : 0 < r.ctx.authDepth) :
    r.run env sub left = r.run env sub' left := by
  have hn : ∀ r : Routing, 0 < r.ctx.authDepth → r.next env sub = r.next env sub' := by
    intro r hr
    rw [Routing.next,Routing.next,@pass_nested env sub sub' r hr]
  induction left generalizing r with
  | zero => simp only [Routing.run,hn r h]
  | succ left ih =>
    simp only [Routing.run,hn r h]
    split
    · rfl
    · rename_i s heq
      have hk := next_same heq
      exact ih (by rw [hk.keeps.authDepth]; exact h)

/-- A subrequest is answered the same however its own subrequests would be. -/
theorem handleInner_nested {ctx : Ctx} (h : 0 < ctx.authDepth) :
    handleInner env sub ctx = handleInner env sub' ctx := by
  have hk := @serverPhase_rephrased env ctx
  unfold handleInner
  split
  · rfl
  · rename_i c heq
    rw [heq] at hk
    exact run_nested (by rw [Routing.start,hk.same.keeps.authDepth]; exact h)

end Subrequests

end OxiServe.Server
