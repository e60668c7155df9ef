import OxiServe.Server.Proxy

/-! # FastCGI responses

The application's output is collected until the request ends or the body is too
large to hold, and its CGI header block is mapped onto a response head.
-/
namespace OxiServe.Server
open Config Response Fcgi

namespace FastCgi

/-- Fields that describe our hop. -/
def hopByHop : List Bytes :=
  [lit "connection",lit "keep-alive",lit "transfer-encoding",lit "upgrade",lit "content-length"]

def maxResponse : ℕ := 64 * 1024 * 1024
def maxHeaders : ℕ := 256 * 1024

section Head

/-- Where the header block ends and where the body starts. A line end in the last
position counts. -/
def findHeaderEnd (b : Bytes) : Option (ℕ × ℕ) :=
  go 0 b
where
  go : ℕ → Bytes → Option (ℕ × ℕ)
    | _, [] => none
    | i, 10 :: r =>
      match r with
      | 10 :: _ => some (i,i + 2)
      | 13 :: 10 :: _ => some (i,i + 3)
      | [] => some (i,i + 1)
      | _ => go (i + 1) r
    | i, _ :: r => go (i + 1) r

def stripCr (l : Bytes) : Bytes := if l.getLast? = some 13 then l.dropLast else l

def splitLines (b : Bytes) : List Bytes := ((split 10 b).map stripCr).filter (· ≠ [])

def splitHeader (line : Bytes) : Option (Bytes × Bytes) :=
  match splitOnce 58 line with
  | none => none
  | some (n,v) =>
    if utf8Valid n && utf8Valid v then
      if trim n = [] then none else some (trim n,trim v)
    else none

/-- The text up to the first whitespace. -/
def firstWord : Bytes → Bytes
  | [] => []
  | c :: r => if trimStart (c :: r) = c :: r then c :: firstWord r else []

/-- The first word of a `Status` value, 200 when it is not a number. -/
def statusOf (value : Bytes) : ℕ := (parseUnsigned 16 (firstWord (trimStart value))).getD 200

structure CgiHead where
  hdrs : List (Bytes × Bytes)
  status : ℕ
  location : Bool
  declaredLen : Option ℕ

def CgiHead.new : CgiHead := ⟨[],200,false,none⟩

/-- One header line; the declared length is noted before its field is dropped. -/
def CgiHead.add (conf : FastCgiConf) (h : CgiHead) (line : Bytes) : CgiHead :=
  match splitHeader line with
  | none => h
  | some (name,value) =>
    let lname := toAsciiLowercase name
    let h := if lname = lit "content-length" then { h with declaredLen := parseUnsigned 64 (trim value) } else h
    if lname = lit "status" then { h with status := statusOf value }
    else if hopByHop.contains lname || conf.hideHeaders.contains lname then h
    else
      { h with location := h.location || lname == lit "location"
               hdrs := h.hdrs ++ [(name,value)] }

/-- The response head and the length the application declared; a `Location`
without a status is a redirect. -/
def parseCgiHeaders (conf : FastCgiConf) (head : Bytes) : Resp × Option ℕ :=
  let h := (splitLines head).foldl (CgiHead.add conf) .new
  let status := if h.location && h.status == 200 then 302 else h.status
  ({ Resp.new with status := status, hdrs := h.hdrs },h.declaredLen)

end Head

section Collect

inductive Collected
  | complete (stdout : Bytes) (appStatus : ℕ)
  | streaming (head pre : Bytes) (reader : FcgiBody)

/-- Reads until the request ended, or the headers are in and the body exceeds
what is to be buffered. The position of the body is found once. -/
def readResponse (conf : FastCgiConf) (timeout : Bool) : ℕ → FcgiBody → Bytes → Option ℕ → Except ℕ Collected
  | 0, _, _, _ => .error 502
  | fuel + 1, r, stdout, headEnd =>
    match r.pump timeout stdout with
    | (_,.error c) => .error c
    | ((r,stdout),.ok .ended) => .ok (.complete stdout r.appStatus)
    | ((r,stdout),.ok .more) =>
      match headEnd.or ((findHeaderEnd stdout).map Prod.snd) with
      | none => if maxHeaders < stdout.length then .error 502 else readResponse conf timeout fuel r stdout none
      | some at_ =>
        if !conf.buffering || decide (conf.bufferBudget < stdout.length - at_) then
          .ok (.streaming (stdout.take at_) (stdout.drop at_) r)
        else if maxResponse < stdout.length then .error 502
        else readResponse conf timeout fuel r stdout (some at_)

end Collect

end FastCgi

open FastCgi

section Reply

def buildReply (ctx : Ctx) (conf : FastCgiConf) (stdout : Bytes) : Ctx × Except ℕ Reply :=
  match findHeaderEnd stdout with
  | none => (ctx,.error 502)
  | some (headLen,bodyAt) =>
    let (resp,_) := parseCgiHeaders conf (stdout.take headLen)
    ({ ctx with upstreamStatus := resp.status },.ok ⟨resp,.bytes (stdout.drop bodyAt)⟩)

/-- The declared length is taken at its word. -/
def buildStreamingReply (ctx : Ctx) (conf : FastCgiConf) (head pre : Bytes) (reader : FcgiBody) :
    Ctx × Except ℕ Reply :=
  match findHeaderEnd head with
  | none => (ctx,.error 502)
  | some (headLen,_) =>
    let (resp,len) := parseCgiHeaders conf (head.take headLen)
    ({ ctx with upstreamStatus := resp.status },.ok ⟨resp,.stream pre (.fcgi reader) len⟩)

/-- `fastcgi_index` completes a script path that names a directory. -/
def appendIndexIfDirectory (conf : FastCgiConf) (ctx : Ctx) : Ctx :=
  match conf.index with
  | none => ctx
  | some idx =>
    if ctx.fastcgiScriptName.getLast? = some 47 then
      { ctx with fastcgiScriptName := ctx.fastcgiScriptName ++ idx }
    else ctx

/-- Without a split expression, or when it does not match, the URI is the script. -/
def splitScriptAndPathInfo (ctx : Ctx) (conf : FastCgiConf) : Ctx :=
  appendIndexIfDirectory conf
    (match conf.splitPathInfo.bind (fun re => re.captures ctx.uri) with
      | some groups => { ctx with fastcgiScriptName := groups.getD 0 [], fastcgiPathInfo := groups.getD 1 [] }
      | none => { ctx with fastcgiScriptName := ctx.uri, fastcgiPathInfo := [] })

def fastCgiAddr (env : Env) (ctx : Ctx) (pass : FastCgiPass) : Except ℕ Bytes :=
  match pass.target with
  | .addr host port => .ok (host ++ lit ":" ++ decimal port)
  | .unix path => .ok (lit "unix:" ++ path)
  | .upstream name =>
    match ctx.http.upstreams.lookup name with
    | none => .error 502
    | some up =>
      match (env.selectPeer ctx.clock 0 name []).bind (fun i => up.servers[i]?) with
      | none => .error 502
      | some s => .ok (peerAddr s.addr)
  | .dynamic t =>
    let a := ctx.render env t
    if a = [] then .error 502
    else if a.contains 58 then .ok a
    else .ok (a ++ lit ":9000")

/-- The whole exchange with the application. -/
def fastcgi (env : Env) (ctx : Ctx) (loc : Location) (pass : FastCgiPass) : Ctx × Except ℕ Reply :=
  let conf := loc.core.fastcgi
  match fastCgiAddr env ctx pass with
  | .error c => (ctx,.error c)
  | .ok addr =>
    let ctx := splitScriptAndPathInfo { ctx with upstreamAddr := addr } conf
    let p := env.fcgiPeer ctx.clock addr
    match p.dial with
    | .failed => (ctx,.error 502)
    | .timedOut => (ctx,.error 504)
    | .ok =>
      if !p.takesRequest then (ctx,.error 502)
      else
        match readResponse conf p.timesOut (Source.size p.reads + 1) (.new p.reads) [] none with
        | .error c => (ctx,.error c)
        | .ok (.complete stdout appStatus) =>
          let ctx := { ctx with upstreamTime := env.requestTime ctx.clock }
          if stdout = [] then
            if appStatus ≠ 0 then (ctx,.error 502)
            else ({ ctx with upstreamStatus := 200 },.ok ⟨Resp.new,.empty⟩)
          else buildReply ctx conf stdout
        | .ok (.streaming head pre reader) =>
          buildStreamingReply { ctx with upstreamTime := env.requestTime ctx.clock } conf head pre reader

theorem splitScriptAndPathInfo_acted (ctx : Ctx) (conf : FastCgiConf) :
    ctx.Acted (splitScriptAndPathInfo ctx conf) := by
  have ha : ∀ c : Ctx, ctx.Acted c → ctx.Acted (appendIndexIfDirectory conf c) := by
    intro c hc
    unfold appendIndexIfDirectory
    split
    · exact hc
    · split
      · exact hc.trans rfl
      · exact hc
  apply ha
  split
  · rfl
  · rfl

theorem buildReply_acted {ctx : Ctx} {conf : FastCgiConf} {stdout : Bytes} :
    ctx.Acted (buildReply ctx conf stdout).1 := by
  unfold buildReply
  split
  · exact .refl _
  · rfl

theorem buildStreamingReply_acted {ctx : Ctx} {conf : FastCgiConf} {head pre : Bytes} {reader : FcgiBody} :
    ctx.Acted (buildStreamingReply ctx conf head pre reader).1 := by
  unfold buildStreamingReply
  split
  · exact .refl _
  · rfl

theorem fastcgi_acted {env : Env} {ctx : Ctx} {loc : Location} {pass : FastCgiPass} :
    ctx.Acted (fastcgi env ctx loc pass).1 := by
  simp only [fastcgi]
  split
  · exact .refl _
  · rename_i addr _
    have hc : ctx.Acted { ctx with upstreamAddr := addr } := rfl
    have hs := hc.trans (splitScriptAndPathInfo_acted { ctx with upstreamAddr := addr } loc.core.fastcgi)
    have ht := hs.trans (e := { splitScriptAndPathInfo { ctx with upstreamAddr := addr } loc.core.fastcgi with
      upstreamTime := env.requestTime
        (splitScriptAndPathInfo { ctx with upstreamAddr := addr } loc.core.fastcgi).clock })
      rfl
    split
    · exact hs
    · exact hs
    · split
      · exact hs
      · split
        · exact hs
        · split
          · split
            · exact ht
            · exact ht.trans rfl
          · exact ht.trans buildReply_acted
        · exact ht.trans buildStreamingReply_acted

/-- A FastCGI reply leaves the framing open and never switches protocols. -/
theorem fastcgi_reply {env : Env} {ctx ctx' : Ctx} {loc : Location} {pass : FastCgiPass} {r : Reply}
    (h : fastcgi env ctx loc pass = (ctx',.ok r)) : r.resp.framing = .none ∧ r.body.isUpgraded = false := by
  simp only [fastcgi] at h
  split at h
  · cases h
  · split at h
    · cases h
    · cases h
    · split at h
      · cases h
      · split at h
        · cases h
        · split at h
          · split at h
            · cases h
            · cases h
              exact ⟨rfl,rfl⟩
          · unfold buildReply at h
            split at h
            · cases h
            · cases h
              exact ⟨rfl,rfl⟩
        · unfold buildStreamingReply at h
          split at h
          · cases h
          · cases h
            exact ⟨rfl,rfl⟩

end Reply

end OxiServe.Server
