import OxiServe.Server.ProxyHead

/-! # Proxying

Cache lookup, the attempts over the peers of an upstream, the response head and
the framing the reply takes over from it. Nothing past the response head is
retried.
-/
namespace OxiServe.Server
open Config Response

section Cache

/-- What the cache needs for one request. -/
structure CacheCtx where
  zone : Bytes
  key : Bytes
  bypassed : Bool
  conf : ProxyCacheConf

/-- Neither empty nor "0". -/
def truthy (s : Bytes) : Bool := s ≠ [] && s ≠ lit "0"

def cacheContext (env : Env) (ctx : Ctx) (loc : Location) : Option CacheCtx :=
  let c := loc.core.proxyCache
  match c.zone with
  | none => none
  | some z =>
    if !ctx.http.cacheZones.contains z then none
    else if !c.methods.contains ctx.req.method.asStr then none
    else some ⟨z,ctx.render env c.key,c.bypass.any (fun t => truthy (ctx.render env t)),c⟩

/-- Framing is decided from the body in hand. -/
def cachedReply (entry : Decoded) : Reply :=
  let hs := entry.headers.filter (fun h =>
    !(eqIgnoreAsciiCase h.1 (lit "content-length") || eqIgnoreAsciiCase h.1 (lit "transfer-encoding")))
  ⟨{ status := entry.status, hdrs := hs, framing := .length entry.body.length, keepAlive := true },
    .bytes entry.body⟩

def staleAllowed (conds : List StaleWhen) (outcome : StaleWhen) : Bool := conds.contains outcome

/-- The retained entry, when the configuration lets it answer this outcome. -/
def tryStale (cache : Option CacheCtx) (stale : Option Decoded) (outcome : StaleWhen) : Option Decoded :=
  match cache with
  | none => none
  | some cc => if staleAllowed cc.conf.useStale outcome then stale else none

/-- Before a connection is considered: an answer from the cache, or the expired
entry to keep in hand and the status to record. -/
inductive Lookup
  | answer (entry : Decoded) (status : CacheStatus)
  | fetch (stale : Option Decoded) (status : CacheStatus)

def cacheLookup (env : Env) (ctx : Ctx) (cc : CacheCtx) : Lookup :=
  if cc.bypassed then .fetch none .bypass
  else
    let locked := cc.conf.lock && !env.cacheLock ctx.clock cc.zone cc.key
    let waited := if locked then env.cacheWait ctx.clock cc.zone cc.key else none
    match env.cacheLoad ctx.clock cc.zone cc.key with
    | some (entry,.hit) => .answer entry .hit
    | some (entry,_) =>
      if locked && staleAllowed cc.conf.useStale .updating then .answer entry .stale
      else
        match waited with
        | some e => .answer e .hit
        | none => .fetch (some entry) .expired
    | none =>
      match waited with
      | some e => .answer e .hit
      | none => .fetch none .miss

end Cache

section Answer

/-- The fields of an upstream head: those to forward, and the ones that describe
its framing and connection. -/
structure UpstreamFields where
  headers : List (Bytes × Bytes)
  chunked : Bool
  len : Option ℕ
  saidClose : Bool
  upgrade : Option Bytes

def UpstreamFields.new : UpstreamFields := ⟨[],false,none,false,none⟩

def UpstreamFields.add (conf : ProxyConf) (u : UpstreamFields) (h : Bytes × Bytes) : UpstreamFields :=
  let lower := toAsciiLowercase h.1
  let value := utf8Lossy h.2
  if lower = lit "transfer-encoding" then { u with chunked := eqIgnoreAsciiCase value (lit "chunked") }
  else if lower = lit "content-length" then { u with len := parseUnsigned 64 (trim value) }
  else if lower = lit "connection" then { u with saidClose := eqIgnoreAsciiCase value (lit "close") }
  else if lower = lit "upgrade" then { u with upgrade := some value }
  else if hopByHop.contains lower then u
  else if conf.hideHeaders.contains lower then u
  else { u with headers := u.headers ++ [(h.1,value)] }

/-- The header loop stops at an empty name. -/
def upstreamFields (conf : ProxyConf) (hs : List (Bytes × Bytes)) : UpstreamFields :=
  (hs.takeWhile (fun h => !h.1.isEmpty)).foldl (UpstreamFields.add conf) .new

inductive HeadOutcome
  | ended
  | failed
  | tooLong
  | invalid
  | complete (buf : Bytes) (head : UpstreamHead) (rest : Source)

/-- Reads until the response head is complete. -/
def readHead (env : Env) : ℕ → Source → Bytes → HeadOutcome
  | 0, _, _ => .failed
  | fuel + 1, src, buf =>
    match Source.read 8192 src with
    | (.failed,_) => .failed
    | (.data b,src) =>
      if b = [] then .ended
      else
        match env.parseResponse (buf ++ b) with
        | .error _ => .invalid
        | .ok (some head) => .complete (buf ++ b) head src
        | .ok none => if 64 * 1024 < (buf ++ b).length then .tooLong else readHead env fuel src (buf ++ b)

/-- One peer's answer up to and including its response head. -/
structure Answer where
  chosen : Option (Upstream × UpstreamServer)
  rest : Source
  buf : Bytes
  headLen : ℕ
  status : ℕ
  fields : UpstreamFields

/-- What arrived behind the head. -/
def Answer.pre (a : Answer) : Bytes := a.buf.drop a.headLen

end Answer

section Attempts

structure Retry where
  tried : List ℕ
  firstError : Option ℕ

/-- Whether a failure is worth another peer, and the record of it. -/
def nextPeer (conf : ProxyConf) (mayRetry : Bool) (chosen : Option (Upstream × ℕ)) (enabled past : Bool)
    (code : ℕ) (r : Retry) : Bool × Retry :=
  let r := { r with firstError := r.firstError.or (some code) }
  match chosen with
  | none => (false,r)
  | some (up,idx) =>
    if !mayRetry || !enabled then (false,r)
    else if 0 < conf.nextUpstreamTimeout ∧ past = true then (false,r)
    else if r.tried.contains idx then (false,r)
    else
      let r := { r with tried := r.tried ++ [idx] }
      if 0 < conf.nextUpstreamTries ∧ conf.nextUpstreamTries ≤ r.tried.length then (false,r)
      else (decide (r.tried.length < up.servers.length),r)

/-- The address an attempt connects to. -/
inductive Dest
  | refused (code : ℕ)
  | exhausted
  | to (addr : Bytes) (tls : Bool) (chosen : Option (Upstream × ℕ))

def peerAddr (addr : Bytes) : Bytes :=
  if (lit "unix:").isPrefixOf addr || addr.contains 58 then addr else addr ++ lit ":80"

def destination (env : Env) (ctx : Ctx) (pp : ProxyPass) (k : ℕ) (r : Retry) : Dest :=
  match pp.target with
  | .addr host port => .to (host ++ lit ":" ++ decimal port) pp.tls none
  | .unix path => .to (lit "unix:" ++ path) false none
  | .dynamic t =>
    let rendered := ctx.render env t
    let (tls,rest) :=
      match stripPrefix (lit "https://") rendered with
      | some r => (true,r)
      | none => (false,trimStartMatches (lit "http://") rendered)
    let authority := (split 47 rest).headD []
    if authority = [] then .refused 502
    else if authority.contains 58 then .to authority tls none
    else .to (authority ++ lit ":" ++ decimal (if tls then 443 else 80)) tls none
  | .upstream name =>
    match ctx.http.upstreams.lookup name with
    | none => .refused 502
    | some up =>
      match env.selectPeer ctx.clock k name r.tried with
      | none => .exhausted
      | some idx =>
        match up.servers[idx]? with
        | none => .exhausted
        | some s => .to (peerAddr s.addr) pp.tls (some (up,idx))

/-- How a request to the upstream ended, before its answer is turned into a reply. -/
inductive Attempted
  | status (code : ℕ)
  | stale (entry : Decoded)
  | answered (a : Answer)

/-- One attempt: its failure names the switch that allows another peer, the
status to report and the outcome a stale entry may answer. -/
inductive Outcome
  | fails (enabled : Bool) (code : ℕ) (stale : Option StaleWhen)
  | answers (a : Answer)

def chosenServer (chosen : Option (Upstream × ℕ)) : Option (Upstream × UpstreamServer) :=
  match chosen with
  | none => none
  | some (up,idx) => (up.servers[idx]?).map (fun s => (up,s))

def exchangeHead (env : Env) (ctx : Ctx) (conf : ProxyConf) (chosen : Option (Upstream × ℕ)) (p : Peer) :
    Outcome :=
  let nu := conf.nextUpstream
  if !p.reused && !p.connects then .fails nu.error 502 (some .error)
  else if !p.takesHead then .fails nu.error 502 none
  else if ctx.body ≠ [] && !p.takesBody then .fails nu.error 502 none
  else
    match readHead env (Source.size p.reads + 1) p.reads [] with
    | .ended => .fails nu.error 502 (some .error)
    | .failed =>
      if p.timesOut then .fails nu.timeout 504 (some .timeout) else .fails nu.error 502 (some .error)
    | .tooLong => .fails nu.invalidHeader 502 none
    | .invalid => .fails nu.invalidHeader 502 (some .invalidHeader)
    | .complete buf head rest =>
      .answers ⟨chosenServer chosen,rest,buf,head.len,head.code.getD 502,upstreamFields conf head.headers⟩

/-- The loop over the peers; `k` counts the attempts. -/
def attempts (env : Env) (loc : Location) (pp : ProxyPass) (mayRetry : Bool) (cache : Option CacheCtx)
    (stale : Option Decoded) : ℕ → ℕ → Ctx → Retry → Ctx × Attempted
  | 0, _, ctx, _ => (ctx,.status 502)
  | fuel + 1, k, ctx, r =>
    let conf := loc.core.proxy
    match destination env ctx pp k r with
    | .refused code => (ctx,.status code)
    | .exhausted => (ctx,.status (r.firstError.getD 502))
    | .to addr tls chosen =>
      if tls then (ctx,.status 502)
      else
        let ctx := { ctx with upstreamAddr := addr }
        let p := env.peer ctx.clock k addr
        match exchangeHead env ctx conf chosen p with
        | .fails enabled code staleWhen =>
          match nextPeer conf mayRetry chosen enabled p.pastDeadline code r with
          | (true,r) => attempts env loc pp mayRetry cache stale fuel (k + 1) ctx r
          | (false,_) =>
            match staleWhen.bind (tryStale cache stale) with
            | some entry => ({ ctx with cacheStatus := some .stale },.stale entry)
            | none => (ctx,.status code)
        | .answers a =>
          if conf.nextUpstream.statuses.contains a.status then
            match nextPeer conf mayRetry chosen true p.pastDeadline a.status r with
            | (true,r) => attempts env loc pp mayRetry cache stale fuel (k + 1) ctx r
            | (false,_) => (ctx,.answered a)
          else (ctx,.answered a)

/-- One attempt for each peer of the group, and one for a single address. -/
def attemptFuel (ctx : Ctx) (pp : ProxyPass) : ℕ :=
  match pp.target with
  | .upstream name =>
    match ctx.http.upstreams.lookup name with
    | some up => up.servers.length + 1
    | none => 1
  | _ => 1

end Attempts

section Reply

/-- One cookie of the request; an element without an equals sign is passed over. -/
def requestCookie (ctx : Ctx) (name : Bytes) : Option Bytes :=
  match ctx.req.hotValue ctx.buf .cookie with
  | none => none
  | some header =>
    (split 59 header).findSome? (fun part =>
      match splitOnce 61 (trim part) with
      | some (k,v) => if trim k = name then some (trim v) else none
      | none => none)

/-- Set only when the client is not already pinned where it landed. -/
def stickyHeaders (ctx : Ctx) (chosen : Option (Upstream × UpstreamServer)) : List (Bytes × Bytes) :=
  match chosen with
  | none => []
  | some (u,s) =>
    match u.sticky with
    | none => []
    | some sc =>
      if requestCookie ctx sc.name = some s.stickyId then []
      else [(lit "Set-Cookie",sc.setCookie s.stickyId)]

/-- The framing and body a proxied reply takes from the upstream's head. -/
def frameAnswer (resp : Resp) (a : Answer) : Reply :=
  if a.fields.chunked then ⟨{ resp with framing := .chunked },.stream a.pre (.socket a.rest) none⟩
  else
    match a.fields.len with
    | some n =>
      if n - a.pre.length = 0 then ⟨{ resp with framing := .length n },.bytes a.pre⟩
      else ⟨{ resp with framing := .length n },.stream a.pre (.socket a.rest) (some n)⟩
    | none =>
      ⟨{ resp with framing := .untilClose, keepAlive := false },.stream a.pre (.socket a.rest) none⟩

/-- A client only gets the switch it asked for. -/
def switchProtocols (ctx : Ctx) (resp : Resp) (a : Answer) : Except ℕ Reply :=
  if (ctx.req.hotValue ctx.buf .upgrade).isNone then .error 502
  else
    let hs := resp.hdrs ++
      (match a.fields.upgrade with
        | some proto => [(lit "Upgrade",proto)]
        | none => []) ++ [(lit "Connection",lit "Upgrade")]
    .ok ⟨{ Resp.new with status := 101, hdrs := hs },.upgraded a.pre a.rest⟩

def answerStatus (a : Answer) : ℕ := if a.status = 0 then 502 else a.status

def answerResp (ctx : Ctx) (a : Answer) : Resp :=
  { Resp.new with status := answerStatus a, hdrs := a.fields.headers ++ stickyHeaders ctx a.chosen }

/-- The reply to an answer that is not replaced by a stale entry. -/
def answerReply (ctx : Ctx) (a : Answer) : Except ℕ Reply :=
  if answerStatus a = 101 then switchProtocols ctx (answerResp ctx a) a
  else .ok (frameAnswer (answerResp ctx a) a)

def isIdempotent (m : Request.Method) : Bool :=
  m == .get || m == .head || m == .put || m == .delete || m == .options || m == .trace

/-- A reply of the proxy, with what it was made from. -/
inductive Proxied
  | cached (entry : Decoded)
  | answered (a : Answer) (reply : Reply)

def Proxied.reply : Proxied → Reply
  | .cached entry => cachedReply entry
  | .answered _ r => r

/-- Asks the upstream and turns its answer into a reply. -/
def fetch (env : Env) (ctx : Ctx) (loc : Location) (pp : ProxyPass) (cache : Option CacheCtx)
    (stale : Option Decoded) : Ctx × Except ℕ Proxied :=
  let nu := loc.core.proxy.nextUpstream
  let mayRetry := !nu.off && (isIdempotent ctx.req.method || nu.nonIdempotent)
  match attempts env loc pp mayRetry cache stale (attemptFuel ctx pp) 0 ctx ⟨[],none⟩ with
  | (ctx,.status code) => (ctx,.error code)
  | (ctx,.stale entry) => (ctx,.ok (.cached entry))
  | (ctx,.answered a) =>
    let ctx := { ctx with upstreamStatus := answerStatus a }
    match (if 400 ≤ answerStatus a then tryStale cache stale (.status (answerStatus a)) else none) with
    | some entry => ({ ctx with cacheStatus := some .stale },.ok (.cached entry))
    | none =>
      let ctx := { ctx with upstreamTime := env.requestTime ctx.clock }
      (ctx,(answerReply ctx a).map (.answered a))

def proxy (env : Env) (ctx : Ctx) (loc : Location) (pp : ProxyPass) : Ctx × Except ℕ Proxied :=
  let cache := cacheContext env ctx loc
  match cache with
  | none => fetch env ctx loc pp cache none
  | some cc =>
    match cacheLookup env ctx cc with
    | .answer entry status => ({ ctx with cacheStatus := some status },.ok (.cached entry))
    | .fetch stale status => fetch env { ctx with cacheStatus := some status } loc pp cache stale

/-- A proxied reply made from an answer is the answer's own. -/
theorem fetch_answered {env : Env} {ctx ctx' : Ctx} {loc : Location} {pp : ProxyPass}
    {cache : Option CacheCtx} {stale : Option Decoded} {a : Answer} {r : Reply}
    (h : fetch env ctx loc pp cache stale = (ctx',.ok (.answered a r))) : ∃ c, answerReply c a = .ok r := by
  simp only [fetch] at h
  split at h
  · cases h
  · cases h
  · split at h
    · cases h
    · have hm := (Prod.mk.inj h).2
      revert hm
      generalize hb : answerReply _ _ = b
      intro hm
      cases b with
      | error e => cases hm
      | ok r' =>
        cases hm
        exact ⟨_,hb⟩

theorem proxy_answered {env : Env} {ctx ctx' : Ctx} {loc : Location} {pp : ProxyPass} {a : Answer} {r : Reply}
    (h : proxy env ctx loc pp = (ctx',.ok (.answered a r))) : ∃ c, answerReply c a = .ok r := by
  simp only [proxy] at h
  split at h
  · exact fetch_answered h
  · split at h
    · cases h
    · exact fetch_answered h

theorem attempts_acted {env : Env} {loc : Location} {pp : ProxyPass} {mayRetry : Bool}
    {cache : Option CacheCtx} {stale : Option Decoded} {fuel k : ℕ} {ctx : Ctx} {r : Retry} :
    ctx.Acted (attempts env loc pp mayRetry cache stale fuel k ctx r).1 := by
  induction fuel generalizing k ctx r with
  | zero => exact .refl _
  | succ fuel ih =>
    simp only [attempts]
    split
    · exact .refl _
    · exact .refl _
    · rename_i addr tls chosen _
      have ha : ctx.Acted { ctx with upstreamAddr := addr } := rfl
      split
      · exact .refl _
      · split
        · split
          · exact ha.trans ih
          · split
            · exact ha.trans rfl
            · exact ha
        · split
          · split
            · exact ha.trans ih
            · exact ha
          · exact ha

theorem fetch_acted {env : Env} {ctx : Ctx} {loc : Location} {pp : ProxyPass} {cache : Option CacheCtx}
    {stale : Option Decoded} : ctx.Acted (fetch env ctx loc pp cache stale).1 := by
  simp only [fetch]
  split
  all_goals
    rename_i heq
    have hk := congrArg (fun p => ctx.Acted p.1) heq
    have ha := hk.mp attempts_acted
  · exact ha
  · exact ha
  · split
    · exact ha.trans rfl
    · exact ha.trans rfl

theorem proxy_acted {env : Env} {ctx : Ctx} {loc : Location} {pp : ProxyPass} :
    ctx.Acted (proxy env ctx loc pp).1 := by
  simp only [proxy]
  split
  · exact fetch_acted
  · split
    · rfl
    · rename_i status _
      have hc : ctx.Acted { ctx with cacheStatus := some status } := rfl
      exact hc.trans fetch_acted

end Reply

end OxiServe.Server
