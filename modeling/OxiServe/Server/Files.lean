import OxiServe.Server.Ctx

/-! # Static files

Path resolution, directory listings, conditional requests and ranges. An index
file is answered by an internal redirect, never served in place.
-/
namespace OxiServe.Server
open Config Response

section Paths

/-- With `alias` the matched prefix is replaced, with `root` the URI is appended. -/
def mapPath (env : Env) (ctx : Ctx) (core : CoreConf) (matcher : Option LocMatch) : Bytes :=
  match core.aliasTo with
  | some t =>
    let base := ctx.render env t
    let prefixLen := ((matcher.bind LocMatch.prefixOf).map List.length).getD ctx.uri.length
    let rest := (textFrom ctx.uri prefixLen).getD []
    if rest = [] then base
    else if base.getLast? = some 47 ∧ rest.head? = some 47 then base.dropLast ++ rest
    else if base.getLast? ≠ some 47 ∧ rest.head? ≠ some 47 then base ++ [47] ++ rest
    else base ++ rest
  | none => ctx.render env core.root ++ ctx.uri

/-- A path or URI ending in one slash, followed by a name without leading ones. -/
def joinSlash (base name : Bytes) : Bytes :=
  (if base.getLast? = some 47 then base else base ++ [47]) ++ name.dropWhile (· == 47)

end Paths

/-- What the static handler decided. -/
inductive Served
  | reply (r : Reply)
  | internal (uri : Bytes)
  | status (code : ℕ)

section Autoindex

def nameWidth : ℕ := 50

def bytesLe : Bytes → Bytes → Bool
  | [], _ => true
  | _ :: _, [] => false
  | a :: r, b :: t => if a = b then bytesLe r t else a ≤ b

/-- Directories first, then by name. -/
def entryLe (a b : DirEntry) : Bool :=
  if a.isDir = b.isDir then bytesLe a.name b.name else a.isDir

def charCount (s : Bytes) : ℕ := s.countP (fun c => !isCont c)

/-- The first `n` characters. -/
def takeChars : ℕ → Bytes → Bytes
  | _, [] => []
  | n, c :: r =>
    if isCont c then c :: takeChars n r
    else
      match n with
      | 0 => []
      | n + 1 => c :: takeChars n r

def removeGmt : Bytes → Bytes
  | 71 :: 77 :: 84 :: r => removeGmt r
  | c :: r => c :: removeGmt r
  | [] => []

def autoindexEntry (env : Env) (e : DirEntry) : Bytes :=
  let slash := if e.isDir then lit "/" else []
  let display := Uri.escapeHtml e.name ++ slash
  lit "<a href=\"" ++ Uri.encodePath e.name ++ slash ++ lit "\">" ++
    (if nameWidth < charCount display then takeChars (nameWidth - 3) display ++ lit "..&gt;" else display) ++
    lit "</a>" ++ List.replicate (nameWidth + 1 - min (charCount display) nameWidth) 32 ++
    trimEnd (removeGmt (env.httpDate e.mtime)) ++ lit "  " ++
    (if e.isDir then lit "                   -"
      else List.replicate (20 - (decimal e.size).length) 32 ++ decimal e.size) ++ lit "\r\n"

/-- The listing of a directory, without its dotfiles. -/
def autoindex (env : Env) (ctx : Ctx) (dir : Bytes) : Except ℕ Reply :=
  match env.readDir ctx.clock dir with
  | .error c => .error c
  | .ok found =>
    let entries := (found.filter (fun e => e.name.head? ≠ some 46)).mergeSort entryLe
    let title := Uri.escapeHtml ctx.uri
    let body := lit "<html>\r\n<head><title>Index of " ++ title ++
      lit "</title></head>\r\n<body>\r\n<h1>Index of " ++ title ++
      lit "</h1><hr><pre><a href=\"../\">../</a>\r\n" ++ entries.flatMap (autoindexEntry env) ++
      lit "</pre><hr></body>\r\n</html>\r\n"
    .ok ⟨Resp.new.header (lit "Content-Type")
      (lit "text/html; charset=" ++ ctx.server.core.charset.getD (lit "utf-8")),.bytes body⟩

end Autoindex

section Directories

/-- The first index file that exists. -/
def findIndex (env : Env) (ctx : Ctx) (dir : Bytes) : List Template → Option Bytes
  | [] => none
  | t :: ts =>
    let name := ctx.render env t
    if name = [] then findIndex env ctx dir ts
    else
      match env.lookup ctx.clock (joinSlash dir name) with
      | .file _ _ _ => some (joinSlash ctx.uri name)
      | _ => findIndex env ctx dir ts

def serveDirectory (env : Env) (ctx : Ctx) (core : CoreConf) (dir : Bytes) : Served :=
  match findIndex env ctx dir core.index with
  | some uri => .internal uri
  | none =>
    if core.autoindex then
      match autoindex env ctx dir with
      | .ok r => .reply r
      | .error c => .status c
    else .status 403

/-- Scheme and authority of a redirect. -/
def redirectBase (ctx : Ctx) (core : CoreConf) : Bytes :=
  if core.absoluteRedirect then
    let host := ctx.req.host ctx.buf
    let port := portOf ctx.localAddr
    ctx.scheme ++ lit "://" ++ (if host = [] then lit "localhost" else host) ++
      (if core.portInRedirect && port ≠ (if ctx.scheme = lit "https" then 443 else 80) then
        lit ":" ++ decimal port else [])
  else []

def dirRedirect (ctx : Ctx) (core : CoreConf) : Reply :=
  let location := redirectBase ctx core ++ Uri.encodePath ctx.uri ++ lit "/" ++
    (if ctx.args ≠ [] then lit "?" ++ ctx.args else [])
  ⟨(({ Resp.new with status := 301 }).header (lit "Location") location).header (lit "Content-Type")
    (lit "text/html"),.bytes (errorPage 301 (Resp.signature core.serverTokens))⟩

end Directories

section Conditional

/-- Seconds since the epoch, zero before it. -/
def truncateSecs (t : Int) : ℕ := t.toNat / 1000000000

def hexDigitsOf (n : ℕ) : Bytes := (Nat.toDigits 16 n).map (fun c => c.val.toUInt8)

def makeEtag (mtime : Int) (size : ℕ) : Bytes :=
  lit "\"" ++ hexDigitsOf (truncateSecs mtime) ++ lit "-" ++ hexDigitsOf size ++ lit "\""

/-- A comma-separated list of tags; weak comparison ignores the weakness mark. -/
def etagListMatches (list etag : Bytes) (weak : Bool) : Bool :=
  (split 44 list).any (fun c =>
    (if weak then trimStartMatches (lit "W/") (trim c) else trim c) == trimStartMatches (lit "W/") etag)

/-- `If-Match`, or else `If-Unmodified-Since`, may refuse the request. -/
def preconditionFailed (env : Env) (ctx : Ctx) (etag : Bytes) (mtime : Int) : Bool :=
  match ctx.req.hotValue ctx.buf .ifMatch with
  | some v => trim v ≠ lit "*" && !etagListMatches v etag false
  | none =>
    match (ctx.req.hotValue ctx.buf .ifUnmodifiedSince).bind env.parseHttpDate with
    | some t => decide (t < mtime)
    | none => false

/-- The status that ends the request before the body is considered. -/
def evaluatePreconditions (env : Env) (ctx : Ctx) (core : CoreConf) (etag : Bytes) (mtime : Int) : Option ℕ :=
  if preconditionFailed env ctx etag mtime then some 412
  else
    match ctx.req.hotValue ctx.buf .ifNoneMatch with
    | some v => if trim v = lit "*" || etagListMatches v etag true then some 304 else none
    | none =>
      if core.ifModifiedSince = .off then none
      else
        match (ctx.req.hotValue ctx.buf .ifModifiedSince).bind env.parseHttpDate with
        | none => none
        | some t =>
          let unmodified := if core.ifModifiedSince = .before then decide (mtime < t) else decide (mtime ≤ t)
          if unmodified || truncateSecs mtime == truncateSecs t then some 304 else none

def ifRangeMatches (env : Env) (ctx : Ctx) (etag : Bytes) (mtime : Int) : Bool :=
  match ctx.req.hotValue ctx.buf .ifRange with
  | none => true
  | some v =>
    if (lit "\"").isPrefixOf (trim v) || (lit "W/").isPrefixOf (trim v) then trim v == etag
    else
      match env.parseHttpDate (trim v) with
      | some t => truncateSecs mtime == truncateSecs t
      | none => false

end Conditional

section Ranges

inductive RangeSpec
  | none
  | unsatisfiable
  | one (start stop : ℕ)
deriving DecidableEq, Repr

/-- Only a single range is honoured. The last position is inclusive on the wire;
its successor is a 64-bit sum. -/
def parseRange (h : Bytes) (size : ℕ) : RangeSpec :=
  match stripPrefix (lit "bytes=") (trim h) with
  | none => .none
  | some spec =>
    match split 44 spec with
    | [first] =>
      match splitOnce 45 (trim first) with
      | none => .none
      | some (a,b) =>
        if a = [] then
          match parseUnsigned 64 b with
          | none => .none
          | some n => if n = 0 then .unsatisfiable else .one (size - n) size
        else
          match parseUnsigned 64 a with
          | none => .none
          | some start =>
            if size ≤ start then .unsatisfiable
            else
              let stop := if b = [] then some size
                else (parseUnsigned 64 b).map (fun n => min ((n + 1) % 2 ^ 64) size)
              match stop with
              | none => .none
              | some stop => if stop ≤ start then .unsatisfiable else .one start stop
    | _ => .none

end Ranges

section Serving

def inlineMax : ℕ := 64 * 1024
def mmapMax : ℕ := 256 * 1024

/-- How an open file goes on the wire. -/
def makeBody (env : Env) (ctx : Ctx) (path : Bytes) (file : File) (start len : ℕ) (sendfile : Bool) : Body :=
  if len = 0 then .empty
  else if len ≤ inlineMax then .inline file start len
  else if !sendfile && decide (len ≤ mmapMax) then
    match env.mmap ctx.clock path with
    | none => .file file start len
    | some map =>
      if h : start + len ≤ map.length then .mmap ⟨map,⟨start,start + len⟩,Nat.le_add_right _ _,h⟩
      else .file file start len
  else .file file start len

def contentTypeOf (ctx : Ctx) (core : CoreConf) (path : Bytes) : Bytes :=
  let base := (ctx.http.mime.lookup path).getD core.defaultType
  match core.charset with
  | some cs =>
    if (lit "text/").isPrefixOf base || base = lit "application/javascript" then base ++ lit "; charset=" ++ cs
    else base
  | none => base

/-- The head of a file response before ranges are looked at. -/
def fileHead (env : Env) (ctx : Ctx) (core : CoreConf) (path etag : Bytes) (mtime : Int) : Resp :=
  { Resp.new with
    hdrs := [(lit "Content-Type",contentTypeOf ctx core path),(lit "Last-Modified",env.httpDate mtime)] ++
      (if core.etag then [(lit "ETag",etag)] else []) ++ [(lit "Accept-Ranges",lit "bytes")] }

/-- A `304` repeats the validators. -/
def shortReply (env : Env) (core : CoreConf) (etag : Bytes) (mtime : Int) (status : ℕ) : Reply :=
  ⟨{ Resp.new with
      status := status
      hdrs :=
        if status = 304 then
          (if core.etag then [(lit "ETag",etag)] else []) ++ [(lit "Last-Modified",env.httpDate mtime)]
        else [] },.empty⟩

/-- The range that applies to the request. -/
def rangeOf (env : Env) (ctx : Ctx) (core : CoreConf) (etag : Bytes) (mtime : Int) (size : ℕ) : RangeSpec :=
  match ctx.req.hotValue ctx.buf .rangeH with
  | none => .none
  | some h =>
    if core.maxRanges ≠ some 0 && ifRangeMatches env ctx etag mtime then parseRange h size else .none

def contentRange (start stop size : ℕ) : Bytes :=
  lit "bytes " ++ decimal start ++ lit "-" ++ decimal ((stop + 2 ^ 64 - 1) % 2 ^ 64) ++ lit "/" ++ decimal size

/-- `HEAD` gets every header and the length, but no body. -/
def fileReply (env : Env) (ctx : Ctx) (core : CoreConf) (path : Bytes) (file : File) (resp : Resp)
    (start len : ℕ) : Reply :=
  if ctx.req.method = .head then ⟨{ resp with framing := .length len },.empty⟩
  else ⟨resp,makeBody env ctx path file start len core.sendfile⟩

def serveFile (env : Env) (ctx : Ctx) (core : CoreConf) (path : Bytes) (file : File) (size : ℕ)
    (mtime : Int) : Except ℕ Reply :=
  if !ctx.req.method.isSafe && ctx.req.method ≠ .options then .error 405
  else
    let etag := makeEtag mtime size
    match evaluatePreconditions env ctx core etag mtime with
    | some status => .ok (shortReply env core etag mtime status)
    | none =>
      let resp := fileHead env ctx core path etag mtime
      match rangeOf env ctx core etag mtime size with
      | .none => .ok (fileReply env ctx core path file resp 0 size)
      | .unsatisfiable =>
        .ok ⟨({ resp with status := 416 }).header (lit "Content-Range") (lit "bytes */" ++ decimal size),.empty⟩
      | .one start stop =>
        .ok (fileReply env ctx core path file
          (({ resp with status := 206 }).header (lit "Content-Range") (contentRange start stop size))
          start (stop - start))

/-- Serves a file or directory for the matched location, or the server's own root. -/
def serve (env : Env) (ctx : Ctx) (loc : Option Location) : Ctx × Served :=
  let core := (loc.map Location.core).getD ctx.server.core
  let ctx := { ctx with documentRoot := ctx.render env (core.aliasTo.getD core.root) }
  let path := mapPath env ctx core (loc.map Location.matcher)
  let ctx := { ctx with filename := path }
  match env.lookup ctx.clock path with
  | .error c => (ctx,.status c)
  | .dir =>
    if ctx.uri.getLast? ≠ some 47 then (ctx,.reply (dirRedirect ctx core))
    else (ctx,serveDirectory env ctx core path)
  | .file f size mtime =>
    match serveFile env ctx core path f size mtime with
    | .ok r => (ctx,.reply r)
    | .error c => (ctx,.status c)

theorem serve_acted {env : Env} {ctx : Ctx} {loc : Option Location} : ctx.Acted (serve env ctx loc).1 := by
  simp only [serve]
  split
  · rfl
  · split
    · rfl
    · rfl
  · split
    · rfl
    · rfl

end Serving

end OxiServe.Server
