import OxiServe.Http.Uri

/-! # Requests as ranges into the read buffer

A parsed request holds byte ranges into the connection's buffer. Hot headers
have an index side-table that keeps the first occurrence of each name. The head
itself is split by the `httparse` crate, which is a parameter here.
-/
namespace OxiServe.Request

inductive Method
  | get | head | post | put | delete | options | patch | connect | trace | other
deriving DecidableEq, Repr

def Method.parse (s : Bytes) : Method :=
  if s = lit "GET" then .get
  else if s = lit "HEAD" then .head
  else if s = lit "POST" then .post
  else if s = lit "PUT" then .put
  else if s = lit "DELETE" then .delete
  else if s = lit "OPTIONS" then .options
  else if s = lit "PATCH" then .patch
  else if s = lit "CONNECT" then .connect
  else if s = lit "TRACE" then .trace
  else .other

def Method.asStr : Method → Bytes
  | .get => lit "GET"
  | .head => lit "HEAD"
  | .post => lit "POST"
  | .put => lit "PUT"
  | .delete => lit "DELETE"
  | .options => lit "OPTIONS"
  | .patch => lit "PATCH"
  | .connect => lit "CONNECT"
  | .trace => lit "TRACE"
  | .other => []

def Method.isSafe (m : Method) : Bool := m == .get || m == .head

/-- Headers with a slot of their own in the index table. -/
inductive Hot
  | host | connection | contentLength | transferEncoding | acceptEncoding | ifNoneMatch
  | ifModifiedSince | ifMatch | ifUnmodifiedSince | ifRange | rangeH | userAgent | referer
  | cookie | expect | xForwardedFor | contentType | upgrade | authorization
deriving DecidableEq, Repr

def hotOf (name : Bytes) : Option Hot :=
  match name.length with
  | 4 => if eqIgnoreAsciiCase name (lit "host") then some .host else none
  | 5 => if eqIgnoreAsciiCase name (lit "range") then some .rangeH else none
  | 6 =>
    if eqIgnoreAsciiCase name (lit "cookie") then some .cookie
    else if eqIgnoreAsciiCase name (lit "expect") then some .expect else none
  | 7 =>
    if eqIgnoreAsciiCase name (lit "referer") then some .referer
    else if eqIgnoreAsciiCase name (lit "upgrade") then some .upgrade else none
  | 8 =>
    if eqIgnoreAsciiCase name (lit "if-match") then some .ifMatch
    else if eqIgnoreAsciiCase name (lit "if-range") then some .ifRange else none
  | 10 =>
    if eqIgnoreAsciiCase name (lit "connection") then some .connection
    else if eqIgnoreAsciiCase name (lit "user-agent") then some .userAgent else none
  | 12 => if eqIgnoreAsciiCase name (lit "content-type") then some .contentType else none
  | 13 =>
    if eqIgnoreAsciiCase name (lit "if-none-match") then some .ifNoneMatch
    else if eqIgnoreAsciiCase name (lit "authorization") then some .authorization else none
  | 14 => if eqIgnoreAsciiCase name (lit "content-length") then some .contentLength else none
  | 15 =>
    if eqIgnoreAsciiCase name (lit "accept-encoding") then some .acceptEncoding
    else if eqIgnoreAsciiCase name (lit "x-forwarded-for") then some .xForwardedFor else none
  | 17 =>
    if eqIgnoreAsciiCase name (lit "if-modified-since") then some .ifModifiedSince
    else if eqIgnoreAsciiCase name (lit "transfer-encoding") then some .transferEncoding else none
  | 19 => if eqIgnoreAsciiCase name (lit "if-unmodified-since") then some .ifUnmodifiedSince else none
  | _ => none

structure HeaderRef where
  name : Range
  value : Range
deriving DecidableEq, Repr

inductive Body
  | none
  | length (n : ℕ)
  | chunked
deriving DecidableEq, Repr

/-- The sentinel of an empty slot of the index table. -/
def noHeader : UInt16 := 65535

/-- Upper bound on the header fields of a request. -/
def maxHeaders : ℕ := 96

structure Req where
  method : Method
  methodRaw : Range
  target : Range
  path : Range
  query : Range
  minor : ℕ
  headers : List HeaderRef
  hot : Hot → UInt16
  headLen : ℕ
  body : Body
  keepAlive : Bool

inductive ParseResult
  | incomplete
  | complete
  | error (status : ℕ)
deriving DecidableEq, Repr

section Httparse

inductive HttparseError
  | tooManyHeaders | version | other
deriving DecidableEq, Repr

/-- What `httparse::Request` holds after a parse; its slices point into the buffer. -/
structure Head where
  len : ℕ
  method : Option Range
  path : Option Range
  version : Option ℕ
  headers : List HeaderRef

/-- The `httparse` crate: `Ok(None)` is `Status::Partial`. A field name is a
non-empty token and at most `maxHeaders` fields fit the scratch array. -/
structure Httparse where
  parse : Bytes → Except HttparseError (Option Head)
  name_ne_nil : ∀ buf p, parse buf = .ok (some p) → ∀ h ∈ p.headers, slice buf h.name ≠ []
  headers_le : ∀ buf p, parse buf = .ok (some p) → p.headers.length ≤ maxHeaders

/-- The name and value fields of the head, in order. -/
def Httparse.fields (hp : Httparse) (buf : Bytes) : List (Bytes × Bytes) :=
  match hp.parse buf with
  | .ok (some p) => p.headers.map (fun h => (slice buf h.name,slice buf h.value))
  | _ => []

end Httparse

namespace Req

def new : Req where
  method := .get
  methodRaw := ⟨0,0⟩
  target := ⟨0,0⟩
  path := ⟨0,0⟩
  query := ⟨0,0⟩
  minor := 1
  headers := []
  hot := fun _ => noHeader
  headLen := 0
  body := .none
  keepAlive := true

def reset (self : Req) : Req :=
  { self with headers := [], hot := fun _ => noHeader, headLen := 0, body := .none, keepAlive := true }

/-- Bytes that are not UTF-8 are passed through as the empty string. -/
def slice (buf : Bytes) (r : Range) : Bytes :=
  let s := OxiServe.slice buf r
  if utf8Valid s then s else []

/-- Appends a header; the index table keeps the first occurrence of a hot name. -/
def pushHeader (self : Req) (buf : Bytes) (h : HeaderRef) : Req :=
  { self with
    headers := self.headers ++ [h]
    hot := fun slot =>
      if hotOf (OxiServe.slice buf h.name) = some slot ∧ self.hot slot = noHeader
      then self.headers.length.toUInt16 else self.hot slot }

def hotValue (self : Req) (buf : Bytes) (h : Hot) : Option Bytes :=
  if self.hot h = noHeader then none
  else (self.headers[(self.hot h).toNat]?).map (fun hr => slice buf hr.value)

/-- Case-insensitive lookup; a hot name goes through its slot. -/
def header (self : Req) (buf name : Bytes) : Option Bytes :=
  match hotOf name with
  | some h => self.hotValue buf h
  | none =>
    (self.headers.find? (fun h => eqIgnoreAsciiCase (OxiServe.slice buf h.name) name)).map
      (fun h => slice buf h.value)

def pathStr (self : Req) (buf : Bytes) : Bytes := slice buf self.path
def queryStr (self : Req) (buf : Bytes) : Bytes := slice buf self.query
def targetStr (self : Req) (buf : Bytes) : Bytes := slice buf self.target

/-- The `Host` header with any port stripped. -/
def host (self : Req) (buf : Bytes) : Bytes :=
  let h := (self.hotValue buf .host).getD []
  if h.head? = some 91 then
    match h.findIdx? (· == 93) with
    | some i => h.take (i + 1)
    | none => h
  else
    match h.reverse.findIdx? (· == 58) with
    | some i => h.take (h.length - 1 - i)
    | none => h

end Req

/-- A comma-separated header value contains `token` as an element. -/
def headerHasToken (value token : Bytes) : Bool :=
  (split 44 value).any (fun p => eqIgnoreAsciiCase (trim ((split 59 p).headD [])) token)

namespace Req

def acceptsGzip (self : Req) (buf : Bytes) : Bool :=
  match self.hotValue buf .acceptEncoding with
  | some v => headerHasToken v (lit "gzip")
  | none => false

def expectsContinue (self : Req) (buf : Bytes) : Bool :=
  match self.hotValue buf .expect with
  | some v => eqIgnoreAsciiCase v (lit "100-continue")
  | none => false

/-- HTTP/1.1 defaults to keep-alive and 1.0 to close; `Connection` overrides both. -/
def keepAliveOf (minor : ℕ) (connection : Option Bytes) : Bool :=
  match connection with
  | none => minor == 1
  | some v =>
    if headerHasToken v (lit "close") then false
    else if headerHasToken v (lit "keep-alive") then true
    else minor == 1

/-- The framing match of `parse`; `dups` counts the Content-Length fields. -/
def framing (te cl : Option Bytes) (dups : ℕ) : Except ℕ Body :=
  match te, cl with
  | some te, cl =>
    if !eqIgnoreAsciiCase te (lit "chunked") then .error 400
    else if cl.isSome then .error 400
    else .ok .chunked
  | none, some cl =>
    if 1 < dups then .error 400
    else
      match parseUnsigned 64 (trim cl) with
      | some n => .ok (.length n)
      | none => .error 400
  | none, none => .ok .none

/-- The request line of a complete head. -/
def withRequestLine (self : Req) (buf : Bytes) (m t : Range) : Req :=
  let (path,query) := Uri.splitQuery (OxiServe.slice buf t)
  { self with
    method := Method.parse (OxiServe.slice buf m)
    methodRaw := m
    target := t
    path := ⟨t.start,t.start + path.length⟩
    query :=
      if query = [] then ⟨t.stop,t.stop⟩
      else ⟨t.start + path.length + 1,t.start + path.length + 1 + query.length⟩ }

/-- The header loop stops at an empty name. -/
def withHeaders (self : Req) (buf : Bytes) (hs : List HeaderRef) : Req :=
  (hs.takeWhile (fun h => !(OxiServe.slice buf h.name).isEmpty)).foldl (fun r h => r.pushHeader buf h) self

def contentLengths (self : Req) (buf : Bytes) : ℕ :=
  self.headers.countP (fun h => eqIgnoreAsciiCase (OxiServe.slice buf h.name) (lit "content-length"))

/-- Connection persistence, framing and the `Host` check, once the fields are in. -/
def finishHead (self : Req) (buf : Bytes) : Req × ParseResult :=
  let self := { self with keepAlive := keepAliveOf self.minor (self.hotValue buf .connection) }
  match framing (self.hotValue buf .transferEncoding) (self.hotValue buf .contentLength)
      (self.contentLengths buf) with
  | .error code => (self,.error code)
  | .ok body =>
    let self := { self with body := body }
    if self.minor = 1 ∧ self.hot .host = noHeader then (self,.error 400) else (self,.complete)

/-- Parses a request head out of `buf`. -/
def parse (hp : Httparse) (self : Req) (buf : Bytes) : Req × ParseResult :=
  let self := self.reset
  match hp.parse buf with
  | .error .tooManyHeaders => (self,.error 431)
  | .error .version => (self,.error 505)
  | .error .other => (self,.error 400)
  | .ok none => (self,.incomplete)
  | .ok (some p) =>
    match p.method, p.path with
    | none, _ => (self,.error 400)
    | some _, none => (self,.error 400)
    | some m, some t =>
      let self := self.withRequestLine buf m t
      match p.version with
      | some 0 => ({ self with minor := 0, headLen := p.len }.withHeaders buf p.headers).finishHead buf
      | some 1 => ({ self with minor := 1, headLen := p.len }.withHeaders buf p.headers).finishHead buf
      | _ => (self,.error 505)

/-- Builds a request and its buffer from separate parts, as HTTP/2 and HTTP/3
carry them. -/
def fromParts (method target : Bytes) (headers : List (Bytes × Bytes)) : Bytes × Req :=
  let m : Range := ⟨0,method.length⟩
  let t : Range := ⟨method.length,method.length + target.length⟩
  let (p,q) := Uri.splitQuery target
  let req : Req :=
    { Req.new with
      methodRaw := m
      method := Method.parse method
      target := t
      path := ⟨t.start,t.start + p.length⟩
      query := if q = [] then ⟨t.start,t.start⟩ else ⟨t.start + p.length + 1,t.start + target.length⟩ }
  headers.foldl (fun (acc : Bytes × Req) h =>
    let n : Range := ⟨acc.1.length,acc.1.length + h.1.length⟩
    let v : Range := ⟨n.stop,n.stop + h.2.length⟩
    let buf := acc.1 ++ h.1 ++ h.2
    (buf,acc.2.pushHeader buf ⟨n,v⟩)) (method ++ target,req)

end Req

end OxiServe.Request
