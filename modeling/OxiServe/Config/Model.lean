import OxiServe.Config.Vars
import OxiServe.Lib.BinarySearch
import OxiServe.Http.Response

/-! # The runtime configuration

Everything inherited is already resolved into each location. A compiled regular
expression is the function from a subject to its capture groups; a group that
did not take part is empty.
-/
namespace OxiServe.Config
open Response

/-- A compiled expression: the groups from the first on, when it matches. -/
structure Regex where
  captures : Bytes → Option (List Bytes)

def Regex.isMatch (re : Regex) (s : Bytes) : Bool := (re.captures s).isSome

section Settings

structure AddHeader where
  name : Bytes
  value : Template
  always : Bool

inductive Expires
  | off | epoch | max
  | secs (s : Int)
  | daily (s : Int)
deriving DecidableEq, Repr

structure GzipConf where
  enabled : Bool
  level : ℕ
  minLength : ℕ
  types : List Bytes
  vary : Bool
  httpVersion10 : Bool

def GzipConf.default : GzipConf := ⟨false,1,20,[lit "text/html"],false,false⟩

/-- Which upstream failures justify trying the next peer. -/
structure NextUpstream where
  error : Bool
  timeout : Bool
  invalidHeader : Bool
  statuses : List ℕ
  nonIdempotent : Bool
  off : Bool

def NextUpstream.default : NextUpstream := ⟨true,true,false,[],false,false⟩

structure ProxyConf where
  setHeaders : List (Bytes × Template)
  hideHeaders : List Bytes
  httpVersion11 : Bool
  nextUpstream : NextUpstream
  nextUpstreamTries : ℕ
  nextUpstreamTimeout : ℕ

def ProxyConf.default : ProxyConf := ⟨[],[],false,.default,0,0⟩

/-- When an expired entry beats an error. -/
inductive StaleWhen
  | error | timeout | invalidHeader | updating
  | status (code : ℕ)
deriving DecidableEq, Repr

structure CacheValid where
  codes : List ℕ
  ttl : ℕ

structure ProxyCacheConf where
  zone : Option Bytes
  key : Template
  valid : List CacheValid
  methods : List Bytes
  minUses : ℕ
  bypass : List Template
  noCache : List Template
  useStale : List StaleWhen
  lock : Bool
  lockTimeout : ℕ

def ProxyCacheConf.default : ProxyCacheConf where
  zone := none
  key := ⟨[.var .scheme,.var .proxyHost,.var .requestUri]⟩
  valid := []
  methods := [lit "GET",lit "HEAD"]
  minUses := 1
  bypass := []
  noCache := []
  useStale := []
  lock := false
  lockTimeout := 5000

structure FastCgiConf where
  index : Option Bytes
  splitPathInfo : Option Regex
  hideHeaders : List Bytes
  buffering : Bool
  bufferBudget : ℕ

def FastCgiConf.default : FastCgiConf := ⟨none,none,[],true,64 * 1024⟩

structure LimitReq where
  zone : Bytes
  burst : ℕ
  nodelay : Bool
  delayAfter : ℕ
deriving DecidableEq, Repr

structure LimitConn where
  zone : Bytes
  limit : ℕ
deriving DecidableEq, Repr

inductive IfModifiedSince
  | off | exact | before
deriving DecidableEq, Repr

/-- Directives that inherit from `http` over `server` to `location`. -/
structure CoreConf where
  root : Template
  aliasTo : Option Template
  index : List Template
  autoindex : Bool
  defaultType : Bytes
  charset : Option Bytes
  sendfile : Bool
  keepaliveTimeout : ℕ
  keepaliveRequests : ℕ
  clientMaxBodySize : ℕ
  serverTokens : ServerTokens
  etag : Bool
  gzip : GzipConf
  addHeaders : List AddHeader
  expires : Option Expires
  proxy : ProxyConf
  outputBufferSize : ℕ
  absoluteRedirect : Bool
  portInRedirect : Bool
  ifModifiedSince : IfModifiedSince
  maxRanges : Option ℕ
  internal : Bool
  authRequest : Option Bytes
  authRequestSet : List (Bytes × Template)
  fastcgi : FastCgiConf
  proxyCache : ProxyCacheConf
  limitReqs : List LimitReq
  limitReqStatus : ℕ
  limitConns : List LimitConn
  limitConnStatus : ℕ
  limitConnDryRun : Bool

def defaultCore : CoreConf where
  root := .literal (lit "html")
  aliasTo := none
  index := [.literal (lit "index.html")]
  autoindex := false
  defaultType := lit "text/plain"
  charset := none
  sendfile := false
  keepaliveTimeout := 75000
  keepaliveRequests := 1000
  clientMaxBodySize := 1024 * 1024
  serverTokens := .on
  etag := true
  gzip := .default
  addHeaders := []
  expires := none
  proxy := .default
  outputBufferSize := 32768
  absoluteRedirect := true
  portInRedirect := true
  ifModifiedSince := .exact
  maxRanges := none
  internal := false
  authRequest := none
  authRequestSet := []
  fastcgi := .default
  proxyCache := .default
  limitReqs := []
  limitReqStatus := 503
  limitConns := []
  limitConnStatus := 503
  limitConnDryRun := false

end Settings

section Actions

inductive ProxyTarget
  | upstream (name : Bytes)
  | addr (host : Bytes) (port : ℕ)
  | unix (path : Bytes)
  | dynamic (t : Template)

/-- `uri` is the URI part of the directive; without one the request URI passes through. -/
structure ProxyPass where
  target : ProxyTarget
  uri : Option Template
  tls : Bool

structure FastCgiPass where
  target : ProxyTarget

inductive Action
  | static
  | ret (status : ℕ) (body : Option Template)
  | proxy (p : ProxyPass)
  | fastCgi (f : FastCgiPass)
  | stubStatus (json : Bool)
  | none

inductive TryFallback
  | status (code : ℕ)
  | uri (t : Template)
  | named (name : Bytes)

structure TryFiles where
  items : List Template
  fallback : TryFallback

inductive RewriteFlag
  | none | last | brk | redirect | permanent
deriving DecidableEq, Repr

structure Rewrite where
  re : Regex
  replacement : Template
  flag : RewriteFlag

inductive Cond
  | always
  | truthy (v : Var)
  | eq (v : Var) (t : Template)
  | ne (v : Var) (t : Template)
  | matches (v : Var) (re : Regex) (negate : Bool)
  | fileExists (t : Template) (negate : Bool)
  | dirExists (t : Template) (negate : Bool)
  | anyExists (t : Template) (negate : Bool)
  | executable (t : Template) (negate : Bool)

inductive IfAction
  | ret (status : ℕ) (body : Option Template)
  | rewrite (r : Rewrite)
  | set (name : Bytes) (value : Template)
  | addHeader (h : AddHeader)
  | brk

structure IfBlock where
  cond : Cond
  actions : List IfAction

inductive ErrorTarget
  | uri (t : Template)
  | named (name : Bytes)
  | redirect (t : Template)

structure ErrorPage where
  codes : List ℕ
  replaceStatus : Option ℕ
  target : ErrorTarget

/-- Where an `access_log` writes. -/
inductive LogSink
  | file (path : Bytes)
  | oxiDb (addr : Bytes) (db : Option Bytes)
deriving DecidableEq, Repr

/-- The time a line may be buffered is in milliseconds. -/
structure AccessLogConf where
  sink : LogSink
  format : Template
  buffer : ℕ
  flush : Option ℕ
deriving DecidableEq, Repr

end Actions

section Locations

inductive LocMatch
  | exact (p : Bytes)
  | pfx (p : Bytes)
  | pfxNoRegex (p : Bytes)
  | regex (re : Regex)
  | named (name : Bytes)

def LocMatch.prefixOf : LocMatch → Option Bytes
  | .exact p | .pfx p | .pfxNoRegex p => some p
  | _ => none

def LocMatch.isNoRegex : LocMatch → Bool
  | .pfxNoRegex _ => true
  | _ => false

/-- Locations grouped by match kind: prefixes longest first, expressions in
configuration order. -/
structure LocSet (L : Type) where
  exact : List L
  prefixes : List L
  regex : List L
  named : List (Bytes × L)

structure Location where
  matcher : LocMatch
  core : CoreConf
  action : Action
  tryFiles : Option TryFiles
  rewrites : List Rewrite
  ifs : List IfBlock
  errorPages : List ErrorPage
  accessLogs : List AccessLogConf
  nested : Option (LocSet Location)
  allowedMethods : Option (List Bytes)

/-- A location with default directives. -/
def Location.bare (matcher : LocMatch) (action : Action) : Location where
  matcher := matcher
  core := defaultCore
  action := action
  tryFiles := none
  rewrites := []
  ifs := []
  errorPages := []
  accessLogs := []
  nested := none
  allowedMethods := none

namespace LocSet

def empty {L : Type} : LocSet L := ⟨[],[],[],[]⟩

/-- `str::cmp`, by bytes. -/
def textCmp (s t : Bytes) : Ordering := if s < t then .lt else if s = t then .eq else .gt

/-- The first expression that matches, with its groups. -/
def findRegex (uri : Bytes) : List Location → Option (Location × List Bytes)
  | [] => none
  | l :: ls =>
    match l.matcher with
    | .regex re =>
      match re.captures uri with
      | some c => some (l,c)
      | none => findRegex uri ls
    | _ => findRegex uri ls

/-- An exact match ends the search; the longest prefix is remembered and beats
the expressions only when it says so. -/
def find (self : LocSet Location) (uri : Bytes) : Option (Location × Option (List Bytes)) :=
  match searchBy self.exact (fun l => textCmp (l.matcher.prefixOf.getD []) uri) with
  | some l => some (l,none)
  | none =>
    let best := self.prefixes.find? (fun l => (l.matcher.prefixOf.getD []).isPrefixOf uri)
    match best with
    | some l =>
      if l.matcher.isNoRegex then some (l,none)
      else
        match findRegex uri self.regex with
        | some (r,c) => some (r,some c)
        | none => some (l,none)
    | none => (findRegex uri self.regex).map (fun p => (p.1,some p.2))

theorem findRegex_mem {uri : Bytes} {ls : List Location} {l : Location} {c : List Bytes}
    (h : findRegex uri ls = some (l,c)) : l ∈ ls := by
  induction ls with
  | nil => cases h
  | cons k ks ih =>
    simp only [findRegex] at h
    split at h
    · split at h
      · cases h
        exact List.mem_cons_self
      · exact List.mem_cons_of_mem _ (ih h)
    · exact List.mem_cons_of_mem _ (ih h)

theorem find_mem {s : LocSet Location} {uri : Bytes} {l : Location} {c : Option (List Bytes)}
    (h : s.find uri = some (l,c)) : l ∈ s.exact ∨ l ∈ s.prefixes ∨ l ∈ s.regex := by
  simp only [find] at h
  split at h
  · rename_i k hk
    cases h
    exact Or.inl (searchBy_some hk).1
  · split at h
    · rename_i k hk
      have hm := List.mem_of_find?_eq_some hk
      split at h
      · cases h
        exact Or.inr (Or.inl hm)
      · split at h
        · rename_i hr
          cases h
          exact Or.inr (Or.inr (findRegex_mem hr))
        · cases h
          exact Or.inr (Or.inl hm)
    · obtain ⟨p,hp,he⟩ := Option.map_eq_some_iff.mp h
      cases he
      exact Or.inr (Or.inr (findRegex_mem hp))

end LocSet

theorem Location.sizeOf_lt_of_find {cur inner : Location} {s : LocSet Location} {uri : Bytes}
    {c : Option (List Bytes)} (hn : cur.nested = some s) (hf : s.find uri = some (inner,c)) :
    sizeOf inner < sizeOf cur := by
  rcases cur with ⟨m,core,action,tf,rw,ifs,ep,al,nested,am⟩
  rcases s with ⟨ex,pf,rx,nm⟩
  cases hn
  simp only [Location.mk.sizeOf_spec,Option.some.sizeOf_spec,LocSet.mk.sizeOf_spec]
  rcases LocSet.find_mem hf with h | h | h
  · have hl := List.sizeOf_lt_of_mem h
    dsimp only at hl
    omega
  · have hl := List.sizeOf_lt_of_mem h
    dsimp only at hl
    omega
  · have hl := List.sizeOf_lt_of_mem h
    dsimp only at hl
    omega

/-- Nested locations are searched only within the matched parent; the groups of
the innermost expression stand. -/
def Location.descend (uri : Bytes) (cur : Location) (caps : Option (List Bytes)) :
    Location × Option (List Bytes) :=
  match hn : cur.nested with
  | none => (cur,caps)
  | some s =>
    match hf : s.find uri with
    | none => (cur,caps)
    | some (inner,c) =>
      have _h := Location.sizeOf_lt_of_find hn hf
      Location.descend uri inner (c.or caps)
termination_by sizeOf cur

theorem Location.descend_leaf {cur : Location} (h : cur.nested = none) (uri : Bytes)
    (caps : Option (List Bytes)) : cur.descend uri caps = (cur,caps) := by
  rw [Location.descend]
  split
  · rfl
  · rename_i s hs
    rw [h] at hs
    cases hs

end Locations

section Servers

inductive ServerName
  | exact (s : Bytes)
  | leadingWildcard (suffix : Bytes)
  | trailingWildcard (pre : Bytes)
  | regex (re : Regex)
  | empty

/-- Where a server's certificate and its key are kept. -/
structure TlsConf where
  cert : Bytes
  key : Bytes
deriving DecidableEq, Repr

structure ServerConf where
  names : List ServerName
  core : CoreConf
  locations : LocSet Location
  rewrites : List Rewrite
  ifs : List IfBlock
  errorPages : List ErrorPage
  accessLogs : List AccessLogConf
  action : Action
  tls : Option TlsConf
  altSvc : Option Bytes

/-- A server with default directives and no location. -/
def ServerConf.bare : ServerConf where
  names := []
  core := defaultCore
  locations := .empty
  rewrites := []
  ifs := []
  errorPages := []
  accessLogs := []
  action := .none
  tls := none
  altSvc := none

/-- The location a URI selects, nested ones included, and the groups it sets. -/
def ServerConf.locate (self : ServerConf) (uri : Bytes) : Option (Location × Option (List Bytes)) :=
  (self.locations.find uri).map (fun p => p.1.descend uri p.2)

structure UpstreamServer where
  addr : Bytes
  stickyId : Bytes

structure StickyCookie where
  name : Bytes
  expires : Option ℕ
  domain : Option Bytes
  path : Option Bytes
  httponly : Bool
  secure : Bool
  samesite : Option Bytes

def StickyCookie.setCookie (self : StickyCookie) (id : Bytes) : Bytes :=
  self.name ++ lit "=" ++ id ++ lit "; Path=" ++ self.path.getD (lit "/") ++
    (match self.domain with
      | some d => lit "; Domain=" ++ d
      | none => []) ++
    (match self.expires with
      | some e => lit "; Max-Age=" ++ decimal e
      | none => []) ++
    (match self.samesite with
      | some s => lit "; SameSite=" ++ s
      | none => []) ++
    (if self.secure then lit "; Secure" else []) ++
    (if self.httponly then lit "; HttpOnly" else [])

structure Upstream where
  servers : List UpstreamServer
  keepalive : ℕ
  sticky : Option StickyCookie

/-- A compiled `map`; a wildcard entry says whether its star leads. -/
structure MapConf where
  source : Var
  target : Bytes
  exact : List (Bytes × Template)
  wildcards : List (Bytes × Template × Bool)
  regexes : List (Regex × Template)
  default : Option Template
  hostnames : Bool

/-- Extensions are stored in lower case. -/
structure MimeTypes where
  byExt : List (Bytes × Bytes)

/-- The text after the last dot, when there is one. -/
def MimeTypes.lookup (self : MimeTypes) (path : Bytes) : Option Bytes :=
  let ext := (split 46 path).getLastD []
  if ext.length = path.length then none else self.byExt.lookup (toAsciiLowercase ext)

structure Http where
  cacheZones : List Bytes
  limitReqZones : List Bytes
  limitReqKeys : List (Bytes × Template)
  limitConnZones : List Bytes
  limitConnKeys : List (Bytes × Template)
  upstreams : List (Bytes × Upstream)
  maps : List MapConf
  mime : MimeTypes

def Http.bare : Http := ⟨[],[],[],[],[],[],[],⟨[]⟩⟩

end Servers

end OxiServe.Config
