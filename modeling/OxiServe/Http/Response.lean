import OxiServe.Lib.Bytes

/-! # Response heads

Status codes, the header list of a response and its serialisation. `Date`,
`Server`, the framing field and `Connection` are written by `writeHead` and are
not part of the stored list.
-/
namespace OxiServe.Response

section Status

def reason (code : ℕ) : Bytes :=
  match code with
  | 100 => lit "Continue"
  | 101 => lit "Switching Protocols"
  | 102 => lit "Processing"
  | 200 => lit "OK"
  | 201 => lit "Created"
  | 202 => lit "Accepted"
  | 204 => lit "No Content"
  | 206 => lit "Partial Content"
  | 207 => lit "Multi-Status"
  | 301 => lit "Moved Permanently"
  | 302 => lit "Found"
  | 303 => lit "See Other"
  | 304 => lit "Not Modified"
  | 307 => lit "Temporary Redirect"
  | 308 => lit "Permanent Redirect"
  | 400 => lit "Bad Request"
  | 401 => lit "Unauthorized"
  | 402 => lit "Payment Required"
  | 403 => lit "Forbidden"
  | 404 => lit "Not Found"
  | 405 => lit "Not Allowed"
  | 406 => lit "Not Acceptable"
  | 407 => lit "Proxy Authentication Required"
  | 408 => lit "Request Time-out"
  | 409 => lit "Conflict"
  | 410 => lit "Gone"
  | 411 => lit "Length Required"
  | 412 => lit "Precondition Failed"
  | 413 => lit "Request Entity Too Large"
  | 414 => lit "Request-URI Too Large"
  | 415 => lit "Unsupported Media Type"
  | 416 => lit "Requested Range Not Satisfiable"
  | 421 => lit "Misdirected Request"
  | 422 => lit "Unprocessable Entity"
  | 429 => lit "Too Many Requests"
  | 431 => lit "Request Header Fields Too Large"
  | 451 => lit "Unavailable For Legal Reasons"
  | 500 => lit "Internal Server Error"
  | 501 => lit "Not Implemented"
  | 502 => lit "Bad Gateway"
  | 503 => lit "Service Temporarily Unavailable"
  | 504 => lit "Gateway Time-out"
  | 505 => lit "HTTP Version Not Supported"
  | 507 => lit "Insufficient Storage"
  | _ =>
    match code / 100 with
    | 1 => lit "Informational"
    | 2 => lit "OK"
    | 3 => lit "Redirection"
    | 4 => lit "Client Error"
    | _ => lit "Internal Server Error"

/-- The pre-rendered lines of the source spell this same text for their codes. -/
def statusLine (code : ℕ) : Bytes :=
  lit "HTTP/1.1 " ++ decimal code ++ lit " " ++ reason code ++ lit "\r\n"

/-- A response with this status must not carry a body. -/
def isBodyless (code : ℕ) : Bool := code == 204 || code == 304 || (100 ≤ code && code < 200)

/-- The default error page. -/
def errorPage (code : ℕ) (signature : Option Bytes) : Bytes :=
  lit "<html>\r\n<head><title>" ++ decimal code ++ lit " " ++ reason code ++
    lit "</title></head>\r\n<body>\r\n<center><h1>" ++ decimal code ++ lit " " ++ reason code ++
    lit "</h1></center>\r\n" ++
    (match signature with
      | some sig => lit "<hr><center>" ++ sig ++ lit "</center>\r\n"
      | none => []) ++
    lit "</body>\r\n</html>\r\n"

end Status

/-- What frames the response body on the wire. -/
inductive Framing
  | length (n : ℕ)
  | chunked
  | untilClose
  | none
deriving DecidableEq, Repr

inductive ServerTokens
  | on | off | build
deriving DecidableEq, Repr

def serverName : Bytes := lit "oxiserve"
def version : Bytes := lit "0.2.38"

structure Resp where
  status : ℕ
  hdrs : List (Bytes × Bytes)
  framing : Framing
  keepAlive : Bool
deriving DecidableEq, Repr

namespace Resp

def new : Resp where
  status := 200
  hdrs := []
  framing := .none
  keepAlive := true

def header (self : Resp) (name value : Bytes) : Resp := { self with hdrs := self.hdrs ++ [(name,value)] }

def get (self : Resp) (name : Bytes) : Option Bytes :=
  (self.hdrs.find? (fun h => eqIgnoreAsciiCase h.1 name)).map Prod.snd

def has (self : Resp) (name : Bytes) : Bool := (self.get name).isSome

def remove (self : Resp) (name : Bytes) : Resp :=
  { self with hdrs := self.hdrs.filter (fun h => !eqIgnoreAsciiCase h.1 name) }

/-- Replaces a header if present, otherwise appends it. -/
def set (self : Resp) (name value : Bytes) : Resp := (self.remove name).header name value

/-- The banner of error pages. -/
def signature : ServerTokens → Option Bytes
  | .on => some (serverName ++ lit "/" ++ version)
  | .build => some serverName
  | .off => none

def serverField (self : Resp) (tokens : ServerTokens) : List (Bytes × Bytes) :=
  if self.has (lit "server") then []
  else
    match tokens with
    | .on => [(lit "Server",serverName ++ lit "/" ++ version)]
    | .build | .off => [(lit "Server",serverName)]

def dateField (self : Resp) (date : Bytes) : List (Bytes × Bytes) :=
  if self.has (lit "date") then [] else [(lit "Date",date)]

def framingField (self : Resp) : List (Bytes × Bytes) :=
  match self.framing with
  | .length n => [(lit "Content-Length",decimal n)]
  | .chunked => [(lit "Transfer-Encoding",lit "chunked")]
  | .untilClose | .none => []

/-- A protocol switch names its own `Connection`. -/
def connectionField (self : Resp) : List (Bytes × Bytes) :=
  if self.status = 101 then []
  else [(lit "Connection",if self.keepAlive then lit "keep-alive" else lit "close")]

/-- Every field of the head in the order it is written; `date` is the cached clock. -/
def fields (self : Resp) (tokens : ServerTokens) (date : Bytes) : List (Bytes × Bytes) :=
  self.serverField tokens ++ self.dateField date ++ self.framingField ++ self.connectionField ++ self.hdrs

def fieldLine (f : Bytes × Bytes) : Bytes := f.1 ++ lit ": " ++ f.2 ++ lit "\r\n"

/-- The status line, all fields and the empty line. -/
def writeHead (self : Resp) (tokens : ServerTokens) (date : Bytes) : Bytes :=
  statusLine self.status ++ (self.fields tokens date).flatMap fieldLine ++ lit "\r\n"

section Fields
variable (r : Resp) (n v : Bytes)

@[simp] theorem header_status : (r.header n v).status = r.status := rfl
@[simp] theorem header_framing : (r.header n v).framing = r.framing := rfl
@[simp] theorem header_keepAlive : (r.header n v).keepAlive = r.keepAlive := rfl
@[simp] theorem set_status : (r.set n v).status = r.status := rfl
@[simp] theorem set_framing : (r.set n v).framing = r.framing := rfl
@[simp] theorem set_keepAlive : (r.set n v).keepAlive = r.keepAlive := rfl

end Fields

/-- A field of the head that announces the chunked coding. -/
def isChunkedField (f : Bytes × Bytes) : Bool :=
  eqIgnoreAsciiCase f.1 (lit "transfer-encoding") && eqIgnoreAsciiCase f.2 (lit "chunked")

def saysChunked (self : Resp) (tokens : ServerTokens) (date : Bytes) : Bool :=
  (self.fields tokens date).any isChunkedField

/-- Apart from the stored list only the framing decides whether the head says chunked. -/
theorem saysChunked_eq (self : Resp) (tokens : ServerTokens) (date : Bytes) :
    self.saysChunked tokens date = (decide (self.framing = .chunked) || self.hdrs.any isChunkedField) := by
  have hs : (self.serverField tokens).any isChunkedField = false := by
    unfold serverField
    split
    · rfl
    · cases tokens <;> decide +kernel
  have hd : (self.dateField date).any isChunkedField = false := by
    unfold dateField
    split
    · rfl
    · have hn : eqIgnoreAsciiCase (lit "Date") (lit "transfer-encoding") = false := by decide +kernel
      simp only [List.any_cons,List.any_nil,isChunkedField,hn,Bool.false_and,Bool.or_false]
  have hc : self.connectionField.any isChunkedField = false := by
    unfold connectionField
    split
    · rfl
    · cases self.keepAlive <;> decide +kernel
  have hf : self.framingField.any isChunkedField = decide (self.framing = .chunked) := by
    unfold framingField
    cases self.framing with
    | length n =>
      have hn : eqIgnoreAsciiCase (lit "Content-Length") (lit "transfer-encoding") = false := by
        decide +kernel
      simp [isChunkedField,hn]
    | chunked => decide +kernel
    | untilClose => decide +kernel
    | none => decide +kernel
  simp only [saysChunked,fields,List.any_append,hs,hd,hc,hf,Bool.false_or,Bool.or_false]

end Resp

end OxiServe.Response
