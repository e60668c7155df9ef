import OxiServe.Lib.Bytes

/-! # Variables and templates

A template is compiled at load time into literal and variable segments and is
rendered against whatever resolves variables. An unset variable renders empty.
-/
namespace OxiServe.Config

inductive Var
  | uri | documentUri | requestUri | args | isArgs
  | arg (name : Bytes)
  | host | hostname | scheme | requestMethod | request | serverProtocol | serverName | serverPort
  | serverAddr | remoteAddr | binaryRemoteAddr | remotePort | remoteUser | status | bodyBytesSent
  | bytesSent | requestLength | requestTime | msec | timeLocal | timeIso8601 | documentRoot
  | requestFilename | contentType | contentLength | connection | connectionRequests | pid
  | nginxVersion
  | http (name : Bytes)
  | sentHttp (name : Bytes)
  | fastcgiScriptName | fastcgiPathInfo | https | proxyHost | proxyPort | proxyAddXForwardedFor
  | upstreamHttp (name : Bytes)
  | upstreamAddr | upstreamStatus | upstreamCacheStatus | upstreamResponseTime | upstreamConnectTime
  | cookie (name : Bytes)
  | sslPrereadServerName | sslPrereadAlpnProtocols | sslPrereadProtocol
  | capture (i : ℕ)
  | user (name : Bytes)
deriving DecidableEq, Repr

inductive Seg
  | text (s : Bytes)
  | var (v : Var)
deriving DecidableEq, Repr

/-- A compiled string with variables. -/
structure Template where
  segs : List Seg
deriving DecidableEq, Repr

namespace Template

/-- A template without variables. -/
def literal (s : Bytes) : Template := ⟨[.text s]⟩

def render (self : Template) (src : Var → Bytes) : Bytes :=
  self.segs.flatMap (fun s =>
    match s with
    | .text t => t
    | .var v => src v)

@[simp] theorem render_literal (s : Bytes) (src : Var → Bytes) : (literal s).render src = s := by
  simp [literal,render]

end Template

section Compile

/-- A header name as variables spell it: lower case, dashes for underscores. -/
def headerName (s : Bytes) : Bytes := s.map (fun c => if c = 95 then 45 else asciiLower c)

/-- The variables with a name of their own. -/
def varNames : List (Bytes × Var) := [
  (lit "uri",.uri),
  (lit "document_uri",.documentUri),
  (lit "request_uri",.requestUri),
  (lit "args",.args),
  (lit "query_string",.args),
  (lit "is_args",.isArgs),
  (lit "host",.host),
  (lit "hostname",.hostname),
  (lit "scheme",.scheme),
  (lit "request_method",.requestMethod),
  (lit "request",.request),
  (lit "server_protocol",.serverProtocol),
  (lit "server_name",.serverName),
  (lit "server_port",.serverPort),
  (lit "server_addr",.serverAddr),
  (lit "remote_addr",.remoteAddr),
  (lit "binary_remote_addr",.binaryRemoteAddr),
  (lit "remote_port",.remotePort),
  (lit "remote_user",.remoteUser),
  (lit "status",.status),
  (lit "body_bytes_sent",.bodyBytesSent),
  (lit "bytes_sent",.bytesSent),
  (lit "request_length",.requestLength),
  (lit "request_time",.requestTime),
  (lit "msec",.msec),
  (lit "time_local",.timeLocal),
  (lit "time_iso8601",.timeIso8601),
  (lit "document_root",.documentRoot),
  (lit "request_filename",.requestFilename),
  (lit "content_type",.contentType),
  (lit "content_length",.contentLength),
  (lit "connection",.connection),
  (lit "connection_requests",.connectionRequests),
  (lit "pid",.pid),
  (lit "nginx_version",.nginxVersion),
  (lit "fastcgi_script_name",.fastcgiScriptName),
  (lit "fastcgi_path_info",.fastcgiPathInfo),
  (lit "https",.https),
  (lit "proxy_host",.proxyHost),
  (lit "proxy_port",.proxyPort),
  (lit "proxy_add_x_forwarded_for",.proxyAddXForwardedFor),
  (lit "upstream_addr",.upstreamAddr),
  (lit "upstream_status",.upstreamStatus),
  (lit "upstream_cache_status",.upstreamCacheStatus),
  (lit "upstream_response_time",.upstreamResponseTime),
  (lit "upstream_connect_time",.upstreamConnectTime),
  (lit "ssl_preread_server_name",.sslPrereadServerName),
  (lit "ssl_preread_alpn_protocols",.sslPrereadAlpnProtocols),
  (lit "ssl_preread_protocol",.sslPrereadProtocol)]

def Var.parse (name : Bytes) : Var :=
  match stripPrefix (lit "http_") name with
  | some rest => .http (headerName rest)
  | none =>
    match stripPrefix (lit "upstream_http_") name with
    | some rest => .upstreamHttp (headerName rest)
    | none =>
      match stripPrefix (lit "sent_http_") name with
      | some rest => .sentHttp (headerName rest)
      | none =>
        match stripPrefix (lit "arg_") name with
        | some rest => .arg rest
        | none =>
          match stripPrefix (lit "cookie_") name with
          | some rest => .cookie rest
          | none => (varNames.lookup name).getD (.user name)

namespace Template

/-- The name behind a `$`, in braces or not, and what follows it; none for a
dollar sign that stands for itself. -/
def nameAfter : Bytes → Option (Bytes × Bytes)
  | 123 :: r => splitOnce 125 r
  | r =>
    let name := r.takeWhile (fun c => isAsciiAlphanumeric c || c == 95)
    if name = [] then none else some (name,r.drop name.length)

/-- A bare digit is a capture group. -/
def varOf (name : Bytes) : Var :=
  match name with
  | [d] => if isAsciiDigit d then .capture (d.toNat - 48) else .parse name
  | _ => .parse name

def flush (text : Bytes) : List Seg := if text = [] then [] else [.text (utf8Lossy text)]

/-- Each turn takes at least one byte, so the length of the source is fuel enough. -/
def compileFrom : ℕ → Bytes → Bytes → List Seg
  | 0, _, text => flush text
  | _ + 1, [], text => flush text
  | fuel + 1, c :: r, text =>
    if c = 36 then
      match nameAfter r with
      | none => compileFrom fuel r (text ++ [36])
      | some (name,next) => flush text ++ .var (varOf name) :: compileFrom fuel next []
    else compileFrom fuel r (text ++ [c])

def compile (src : Bytes) : Template := ⟨compileFrom src.length src []⟩

end Template

end Compile

end OxiServe.Config
