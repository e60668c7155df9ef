import OxiServe.Config.Model
import OxiServe.Http.Request
import OxiServe.Server.Env

/-! # Request context and variable resolution

The mutable view of a request: URI and arguments, which rewrites and internal
redirects change, and what the handlers record for the variables.
-/
namespace OxiServe.Server
open Config Response

inductive Ip
  | v4 (a b c d : UInt8)
  | v6 (text : Bytes)
deriving DecidableEq, Repr

structure SocketAddr where
  ip : Ip
  port : ℕ
deriving DecidableEq, Repr

structure Ctx where
  buf : Bytes
  req : Request.Req
  body : Bytes
  http : Http
  server : ServerConf
  uri : Bytes
  args : Bytes
  captures : List Bytes
  setVars : List (Bytes × Bytes)
  remote : Option SocketAddr
  localAddr : Option SocketAddr
  scheme : Bytes
  connId : ℕ
  connRequests : ℕ
  documentRoot : Bytes
  filename : Bytes
  fastcgiScriptName : Bytes
  fastcgiPathInfo : Bytes
  upstreamAddr : Bytes
  upstreamStatus : ℕ
  cacheStatus : Option CacheStatus
  upstreamTime : ℕ
  upstreamHeaders : List (Bytes × Bytes)
  authDepth : ℕ
  matched : Option Location
  clock : ℕ

namespace Ctx

def new (buf : Bytes) (req : Request.Req) (body : Bytes) (http : Http) (server : ServerConf) (uri : Bytes)
    (remote localAddr : Option SocketAddr) (scheme : Bytes) (connId connRequests : ℕ) : Ctx where
  buf := buf
  req := req
  body := body
  http := http
  server := server
  uri := uri
  args := req.queryStr buf
  captures := []
  setVars := []
  remote := remote
  localAddr := localAddr
  scheme := scheme
  connId := connId
  connRequests := connRequests
  documentRoot := []
  filename := []
  fastcgiScriptName := []
  fastcgiPathInfo := []
  upstreamAddr := []
  upstreamStatus := 0
  cacheStatus := none
  upstreamTime := 0
  upstreamHeaders := []
  authDepth := 0
  matched := none
  clock := 0

/-- Assigns a variable in place, or appends it. -/
def set (self : Ctx) (name value : Bytes) : Ctx :=
  { self with
    setVars :=
      if self.setVars.any (fun p => p.1 == name) then
        self.setVars.map (fun p => if p.1 == name then (p.1,value) else p)
      else self.setVars ++ [(name,value)] }

def setCaptures (self : Ctx) (c : List Bytes) : Ctx := { self with captures := c }

/-- The directives in force: the matched location's, else the server's. -/
def matchedCore (self : Ctx) : CoreConf :=
  match self.matched with
  | some l => l.core
  | none => self.server.core

/-- What no step of handling a request changes. -/
structure Keeps (c d : Ctx) : Prop where
  req : d.req = c.req
  buf : d.buf = c.buf
  http : d.http = c.http
  server : d.server = c.server
  authDepth : d.authDepth = c.authDepth

theorem Keeps.refl (c : Ctx) : c.Keeps c := ⟨rfl,rfl,rfl,rfl,rfl⟩

theorem Keeps.trans {c d e : Ctx} (h : c.Keeps d) (k : d.Keeps e) : c.Keeps e :=
  ⟨k.req.trans h.req,k.buf.trans h.buf,k.http.trans h.http,k.server.trans h.server,
    k.authDepth.trans h.authDepth⟩

/-- Nothing changes but what rewriting and authorisation may set. -/
def Rephrased (c d : Ctx) : Prop :=
  d = { c with
    uri := d.uri
    args := d.args
    captures := d.captures
    setVars := d.setVars
    upstreamHeaders := d.upstreamHeaders }

theorem Rephrased.refl (c : Ctx) : c.Rephrased c := rfl

theorem Rephrased.trans {c d e : Ctx} (h : c.Rephrased d) (k : d.Rephrased e) : c.Rephrased e :=
  Eq.trans k (congrArg (fun x : Ctx => { x with
    uri := e.uri
    args := e.args
    captures := e.captures
    setVars := e.setVars
    upstreamHeaders := e.upstreamHeaders }) h)

/-- Nothing changes but what the action of a location may set. -/
def Acted (c d : Ctx) : Prop :=
  d = { c with
    documentRoot := d.documentRoot
    filename := d.filename
    fastcgiScriptName := d.fastcgiScriptName
    fastcgiPathInfo := d.fastcgiPathInfo
    upstreamAddr := d.upstreamAddr
    upstreamStatus := d.upstreamStatus
    cacheStatus := d.cacheStatus
    upstreamTime := d.upstreamTime
    upstreamHeaders := d.upstreamHeaders }

theorem Acted.refl (c : Ctx) : c.Acted c := rfl

theorem Acted.trans {c d e : Ctx} (h : c.Acted d) (k : d.Acted e) : c.Acted e :=
  Eq.trans k (congrArg (fun x : Ctx => { x with
    documentRoot := e.documentRoot
    filename := e.filename
    fastcgiScriptName := e.fastcgiScriptName
    fastcgiPathInfo := e.fastcgiPathInfo
    upstreamAddr := e.upstreamAddr
    upstreamStatus := e.upstreamStatus
    cacheStatus := e.cacheStatus
    upstreamTime := e.upstreamTime
    upstreamHeaders := e.upstreamHeaders }) h)

theorem Acted.uri {c d : Ctx} (h : c.Acted d) : d.uri = c.uri := (congrArg Ctx.uri h).trans rfl

/-- Nothing changes but what handling a request may set. -/
def Same (c d : Ctx) : Prop :=
  d = { c with
    uri := d.uri
    args := d.args
    captures := d.captures
    setVars := d.setVars
    documentRoot := d.documentRoot
    filename := d.filename
    fastcgiScriptName := d.fastcgiScriptName
    fastcgiPathInfo := d.fastcgiPathInfo
    upstreamAddr := d.upstreamAddr
    upstreamStatus := d.upstreamStatus
    cacheStatus := d.cacheStatus
    upstreamTime := d.upstreamTime
    upstreamHeaders := d.upstreamHeaders
    matched := d.matched
    clock := d.clock }

theorem Same.refl (c : Ctx) : c.Same c := rfl

theorem Same.trans {c d e : Ctx} (h : c.Same d) (k : d.Same e) : c.Same e :=
  Eq.trans k (congrArg (fun x : Ctx => { x with
    uri := e.uri
    args := e.args
    captures := e.captures
    setVars := e.setVars
    documentRoot := e.documentRoot
    filename := e.filename
    fastcgiScriptName := e.fastcgiScriptName
    fastcgiPathInfo := e.fastcgiPathInfo
    upstreamAddr := e.upstreamAddr
    upstreamStatus := e.upstreamStatus
    cacheStatus := e.cacheStatus
    upstreamTime := e.upstreamTime
    upstreamHeaders := e.upstreamHeaders
    matched := e.matched
    clock := e.clock }) h)

theorem Same.keeps {c d : Ctx} (h : c.Same d) : c.Keeps d :=
  ⟨(congrArg Ctx.req h).trans rfl,(congrArg Ctx.buf h).trans rfl,(congrArg Ctx.http h).trans rfl,
    (congrArg Ctx.server h).trans rfl,(congrArg Ctx.authDepth h).trans rfl⟩

theorem Same.scheme {c d : Ctx} (h : c.Same d) : d.scheme = c.scheme := (congrArg Ctx.scheme h).trans rfl

theorem Rephrased.same {c d : Ctx} (h : c.Rephrased d) : c.Same d := by
  have hf : ∀ uri args captures setVars upstreamHeaders, c.Same { c with
      uri := uri
      args := args
      captures := captures
      setVars := setVars
      upstreamHeaders := upstreamHeaders } := fun _ _ _ _ _ => rfl
  exact (congrArg c.Same h).mpr (hf _ _ _ _ _)

theorem Acted.same {c d : Ctx} (h : c.Acted d) : c.Same d := by
  have hf : ∀ root file script info addr status cache time headers, c.Same { c with
      documentRoot := root
      filename := file
      fastcgiScriptName := script
      fastcgiPathInfo := info
      upstreamAddr := addr
      upstreamStatus := status
      cacheStatus := cache
      upstreamTime := time
      upstreamHeaders := headers } := fun _ _ _ _ _ _ _ _ _ => rfl
  exact (congrArg c.Same h).mpr (hf _ _ _ _ _ _ _ _ _)

theorem Rephrased.upstreamAddr {c d : Ctx} (h : c.Rephrased d) : d.upstreamAddr = c.upstreamAddr :=
  (congrArg Ctx.upstreamAddr h).trans rfl

end Ctx

/-- The context of a `GET` for the given URI without arguments. -/
def getCtx (uri : Bytes) : Ctx :=
  Ctx.new (lit "GET") { Request.Req.new with methodRaw := ⟨0,3⟩ } [] .bare .bare uri none none
    (lit "http") 1 1

section Rendering

def pushAddr : Option SocketAddr → Bytes
  | none => lit "unix:"
  | some ⟨.v4 a b c d,_⟩ =>
    decimal a.toNat ++ lit "." ++ decimal b.toNat ++ lit "." ++ decimal c.toNat ++ lit "." ++ decimal d.toNat
  | some ⟨.v6 text,_⟩ => text

def portOf (a : Option SocketAddr) : ℕ := (a.map SocketAddr.port).getD 0

/-- Seconds with three decimals. -/
def pushSecs (ms : ℕ) : Bytes :=
  decimal (ms / 1000) ++ lit "." ++ (if ms % 1000 < 100 then lit "0" else []) ++
    (if ms % 1000 < 10 then lit "0" else []) ++ decimal (ms % 1000)

/-- Gives up at the first element without an equals sign. -/
def cookieValue (header name : Bytes) : Option Bytes :=
  go (split 59 header)
where
  go : List Bytes → Option Bytes
    | [] => none
    | part :: rest =>
      match splitOnce 61 (trimStart part) with
      | none => none
      | some (k,v) => if k = name then some (trim v) else go rest

def base64Value (c : UInt8) : Option ℕ :=
  if isAsciiUppercase c then some (c.toNat - 65)
  else if 97 ≤ c && c ≤ 122 then some (c.toNat - 71)
  else if isAsciiDigit c then some (c.toNat + 4)
  else if c = 43 then some 62
  else if c = 47 then some 63
  else none

/-- Six bits at a time; stops at the padding. -/
def base64Decode (s : Bytes) : Option Bytes := go s 0 0
where
  go : Bytes → ℕ → ℕ → Option Bytes
    | [], _, _ => some []
    | c :: r, acc, bits =>
      if c = 61 then some []
      else
        match base64Value c with
        | none => none
        | some v =>
          let acc := (acc * 64 + v) % 2 ^ 32
          if 8 ≤ bits + 6 then
            (go r acc (bits - 2)).map (fun t => (acc / 2 ^ (bits - 2)).toUInt8 :: t)
          else go r acc (bits + 6)

def firstServerName (s : ServerConf) : Bytes :=
  go s.names
where
  go : List ServerName → Bytes
    | [] => []
    | .exact e :: rest => if e ≠ [] then e else go rest
    | .leadingWildcard x :: _ => lit "*." ++ x
    | .trailingWildcard x :: _ => x ++ lit ".*"
    | _ :: rest => go rest

def wildcardHit (k : Bytes) (w : Bytes × Template × Bool) : Bool :=
  if w.2.2 then
    decide (w.1.length < k.length) && k[k.length - w.1.length - 1]? == some 46 && w.1.isSuffixOf k
  else decide (w.1.length < k.length) && k[w.1.length]? == some 46 && w.1.isPrefixOf k

/-- The longest wildcard that matches, the first among equals. -/
def bestWildcard (k : Bytes) (ws : List (Bytes × Template × Bool)) : Option (Bytes × Template × Bool) :=
  ws.foldl (fun best w =>
    if wildcardHit k w then
      match best with
      | none => some w
      | some b => if b.1.length < w.1.length then some w else some b
    else best) none

def mapLookup (m : MapConf) (key : Bytes) : Option Template :=
  let k := if m.hostnames || key.any isAsciiUppercase then toAsciiLowercase key else key
  match m.exact.lookup k with
  | some t => some t
  | none =>
    match bestWildcard k m.wildcards with
    | some w => some w.2.1
    | none =>
      match m.regexes.find? (fun p => p.1.isMatch key) with
      | some p => some p.2
      | none => m.default

/-- Levels of nesting a variable can reach: a `map` cycle is cut off at depth 8. A
root naming `$document_root` itself has no value here; the source never returns. -/
def varFuel : ℕ := 16

/-- The user of an `Authorization: Basic` header. -/
def remoteUser (authorization : Option Bytes) : Bytes :=
  match authorization with
  | none => []
  | some a =>
    match stripPrefix (lit "Basic ") a with
    | none => []
    | some rest =>
      match base64Decode (trim rest) with
      | none => []
      | some d =>
        match splitOnce 58 d with
        | some (u,_) => utf8Lossy u
        | none => []

def varDepth (env : Env) (ctx : Ctx) : ℕ → Var → ℕ → Bytes
  | 0, _, _ => []
  | fuel + 1, v, depth =>
    match v with
    | .uri | .documentUri => ctx.uri
    | .requestUri => ctx.req.targetStr ctx.buf
    | .args => ctx.args
    | .isArgs => if ctx.args ≠ [] then lit "?" else []
    | .arg name => (Uri.queryParam ctx.args name).getD []
    | .host =>
      let h := ctx.req.host ctx.buf
      if h = [] then firstServerName ctx.server else toAsciiLowercase h
    | .hostname => env.hostname
    | .scheme => ctx.scheme
    | .requestMethod => Request.Req.slice ctx.buf ctx.req.methodRaw
    | .request =>
      Request.Req.slice ctx.buf ctx.req.methodRaw ++ lit " " ++ ctx.req.targetStr ctx.buf ++
        (if ctx.req.minor = 0 then lit " HTTP/1.0" else lit " HTTP/1.1")
    | .serverProtocol => if ctx.req.minor = 0 then lit "HTTP/1.0" else lit "HTTP/1.1"
    | .serverName => firstServerName ctx.server
    | .serverPort => decimal (portOf ctx.localAddr)
    | .serverAddr => pushAddr ctx.localAddr
    | .remoteAddr | .binaryRemoteAddr => pushAddr ctx.remote
    | .remotePort => decimal (portOf ctx.remote)
    | .remoteUser => remoteUser (ctx.req.hotValue ctx.buf .authorization)
    | .requestLength => decimal ctx.req.headLen
    | .requestTime => pushSecs (env.requestTime ctx.clock)
    | .msec => pushSecs (env.msec ctx.clock)
    | .timeLocal => env.timeLocal ctx.clock
    | .timeIso8601 => env.timeIso8601 ctx.clock
    | .documentRoot =>
      if ctx.documentRoot ≠ [] then ctx.documentRoot
      else
        (ctx.matchedCore.aliasTo.getD ctx.matchedCore.root).render
          (fun v => varDepth env ctx fuel v (depth + 1))
    | .requestFilename => ctx.filename
    | .contentType => (ctx.req.hotValue ctx.buf .contentType).getD []
    | .contentLength => (ctx.req.hotValue ctx.buf .contentLength).getD []
    | .connection => decimal ctx.connId
    | .connectionRequests => decimal ctx.connRequests
    | .pid => decimal env.pid
    | .nginxVersion => version
    | .http name => (ctx.req.header ctx.buf name).getD []
    | .cookie name =>
      match ctx.req.hotValue ctx.buf .cookie with
      | some c => (cookieValue c name).getD []
      | none => []
    | .capture i => if i = 0 then [] else (ctx.captures[i - 1]?).getD []
    | .fastcgiScriptName => ctx.fastcgiScriptName
    | .fastcgiPathInfo => ctx.fastcgiPathInfo
    | .https => if ctx.scheme = lit "https" then lit "on" else []
    | .proxyHost => ctx.upstreamAddr
    | .proxyPort => (split 58 ctx.upstreamAddr).getLastD []
    | .proxyAddXForwardedFor =>
      (match ctx.req.header ctx.buf (lit "x-forwarded-for") with
        | some existing => existing ++ lit ", "
        | none => []) ++ pushAddr ctx.remote
    | .upstreamAddr => ctx.upstreamAddr
    | .upstreamCacheStatus => (ctx.cacheStatus.map CacheStatus.asStr).getD []
    | .upstreamStatus => if 0 < ctx.upstreamStatus then decimal ctx.upstreamStatus else []
    | .upstreamResponseTime | .upstreamConnectTime =>
      if 0 < ctx.upstreamStatus then pushSecs ctx.upstreamTime else []
    | .sslPrereadServerName | .sslPrereadAlpnProtocols | .sslPrereadProtocol => []
    | .upstreamHttp name =>
      ((ctx.upstreamHeaders.find? (fun h => eqIgnoreAsciiCase h.1 name)).map Prod.snd).getD []
    | .user name =>
      if 8 < depth then []
      else
        match ctx.setVars.lookup name with
        | some v => v
        | none =>
          match ctx.http.maps.find? (fun m => m.target == name) with
          | none => []
          | some m =>
            match mapLookup m (varDepth env ctx fuel m.source (depth + 1)) with
            | none => []
            | some t => t.render (fun v => varDepth env ctx fuel v (depth + 1))
    | .status | .bodyBytesSent | .bytesSent | .sentHttp _ => []

def Ctx.var (env : Env) (ctx : Ctx) (v : Var) : Bytes := varDepth env ctx varFuel v 0

/-- A template against the request. -/
def Ctx.render (env : Env) (ctx : Ctx) (t : Template) : Bytes := t.render (ctx.var env)

@[simp] theorem Ctx.render_uri (env : Env) (ctx : Ctx) : ctx.render env ⟨[.var .uri]⟩ = ctx.uri := by
  have hr : ctx.render env ⟨[.var .uri]⟩ = ctx.uri ++ [] := rfl
  rw [hr,List.append_nil]

end Rendering

end OxiServe.Server
