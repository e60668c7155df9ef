import OxiServe.Http2.Hpack

/-! # QPACK field sections

The static table of RFC 9204 and the decoding of a complete field section. There
is no dynamic table: the server announces a capacity of zero, so a reference to
one is an error.
-/
namespace OxiServe.Qpack
open Hpack (Header HpackError int)

/-- The codes a field section is refused with. -/
inductive QpackError
  | decompressionFailed
  | excessiveLoad
deriving DecidableEq, Repr

def maxString : ℕ := 32 * 1024

def fieldOverhead : ℕ := 32

/-- Appendix A of the RFC, indexed from zero. -/
def staticTable : List (Bytes × Bytes) := [
  (lit ":authority",lit ""),
  (lit ":path",lit "/"),
  (lit "age",lit "0"),
  (lit "content-disposition",lit ""),
  (lit "content-length",lit "0"),
  (lit "cookie",lit ""),
  (lit "date",lit ""),
  (lit "etag",lit ""),
  (lit "if-modified-since",lit ""),
  (lit "if-none-match",lit ""),
  (lit "last-modified",lit ""),
  (lit "link",lit ""),
  (lit "location",lit ""),
  (lit "referer",lit ""),
  (lit "set-cookie",lit ""),
  (lit ":method",lit "CONNECT"),
  (lit ":method",lit "DELETE"),
  (lit ":method",lit "GET"),
  (lit ":method",lit "HEAD"),
  (lit ":method",lit "OPTIONS"),
  (lit ":method",lit "POST"),
  (lit ":method",lit "PUT"),
  (lit ":scheme",lit "http"),
  (lit ":scheme",lit "https"),
  (lit ":status",lit "103"),
  (lit ":status",lit "200"),
  (lit ":status",lit "304"),
  (lit ":status",lit "404"),
  (lit ":status",lit "503"),
  (lit "accept",lit "*/*"),
  (lit "accept",lit "application/dns-message"),
  (lit "accept-encoding",lit "gzip, deflate, br"),
  (lit "accept-ranges",lit "bytes"),
  (lit "access-control-allow-headers",lit "cache-control"),
  (lit "access-control-allow-headers",lit "content-type"),
  (lit "access-control-allow-origin",lit "*"),
  (lit "cache-control",lit "max-age=0"),
  (lit "cache-control",lit "max-age=2592000"),
  (lit "cache-control",lit "max-age=604800"),
  (lit "cache-control",lit "no-cache"),
  (lit "cache-control",lit "no-store"),
  (lit "cache-control",lit "public, max-age=31536000"),
  (lit "content-encoding",lit "br"),
  (lit "content-encoding",lit "gzip"),
  (lit "content-type",lit "application/dns-message"),
  (lit "content-type",lit "application/javascript"),
  (lit "content-type",lit "application/json"),
  (lit "content-type",lit "application/x-www-form-urlencoded"),
  (lit "content-type",lit "image/gif"),
  (lit "content-type",lit "image/jpeg"),
  (lit "content-type",lit "image/png"),
  (lit "content-type",lit "text/css"),
  (lit "content-type",lit "text/html; charset=utf-8"),
  (lit "content-type",lit "text/plain"),
  (lit "content-type",lit "text/plain;charset=utf-8"),
  (lit "range",lit "bytes=0-"),
  (lit "strict-transport-security",lit "max-age=31536000"),
  (lit "strict-transport-security",lit "max-age=31536000; includesubdomains"),
  (lit "strict-transport-security",lit "max-age=31536000; includesubdomains; preload"),
  (lit "vary",lit "accept-encoding"),
  (lit "vary",lit "origin"),
  (lit "x-content-type-options",lit "nosniff"),
  (lit "x-xss-protection",lit "1; mode=block"),
  (lit ":status",lit "100"),
  (lit ":status",lit "204"),
  (lit ":status",lit "206"),
  (lit ":status",lit "302"),
  (lit ":status",lit "400"),
  (lit ":status",lit "403"),
  (lit ":status",lit "421"),
  (lit ":status",lit "425"),
  (lit ":status",lit "500"),
  (lit "accept-language",lit ""),
  (lit "access-control-allow-credentials",lit "FALSE"),
  (lit "access-control-allow-credentials",lit "TRUE"),
  (lit "access-control-allow-headers",lit "*"),
  (lit "access-control-allow-methods",lit "get"),
  (lit "access-control-allow-methods",lit "get, post, options"),
  (lit "access-control-allow-methods",lit "options"),
  (lit "access-control-expose-headers",lit "content-length"),
  (lit "access-control-request-headers",lit "content-type"),
  (lit "access-control-request-method",lit "get"),
  (lit "access-control-request-method",lit "post"),
  (lit "alt-svc",lit "clear"),
  (lit "authorization",lit ""),
  (lit "content-security-policy",lit "script-src 'none'; object-src 'none'; base-uri 'none'"),
  (lit "early-data",lit "1"),
  (lit "expect-ct",lit ""),
  (lit "forwarded",lit ""),
  (lit "if-range",lit ""),
  (lit "origin",lit ""),
  (lit "purpose",lit "prefetch"),
  (lit "server",lit ""),
  (lit "timing-allow-origin",lit "*"),
  (lit "upgrade-insecure-requests",lit "1"),
  (lit "user-agent",lit ""),
  (lit "x-forwarded-for",lit ""),
  (lit "x-frame-options",lit "deny"),
  (lit "x-frame-options",lit "sameorigin")]

def ofHpack {α : Type} : Except HpackError α → Except QpackError α
  | .ok a => .ok a
  | .error _ => .error .decompressionFailed

/-- The section prefix; a required insert count other than zero names the dynamic
table, the base is read and dropped. -/
def readPrefix (buf : Bytes) : Except QpackError Bytes := do
  let (required,rest) ← ofHpack (int buf 8)
  if required ≠ 0 then throw .decompressionFailed
  let (_,rest) ← ofHpack (int rest 7)
  pure rest

def staticAt (i : ℕ) : Except QpackError (Bytes × Bytes) :=
  match staticTable[i]? with
  | some e => .ok e
  | none => .error .decompressionFailed

def readString (buf : Bytes) (bits : ℕ) : Except QpackError (Bytes × Bytes) :=
  match buf with
  | [] => .error .decompressionFailed
  | first :: _ => do
    let (len,rest) ← ofHpack (int buf bits)
    if rest.length < len then throw .decompressionFailed
    let raw := rest.take len
    let decoded := if first.toNat / 2 ^ bits % 2 = 1 then Huffman.decode raw maxString else some raw
    match decoded with
    | none => throw .decompressionFailed
    | some s => if utf8Valid s then pure (s,rest.drop len) else throw .decompressionFailed

/-- One field line, on its first byte. -/
def fieldLine (rest : Bytes) (b : UInt8) : Except QpackError (Header × Bytes) :=
  if b &&& 0x80 ≠ 0 then
    if b &&& 0x40 = 0 then .error .decompressionFailed
    else do
      let (i,rest) ← ofHpack (int rest 6)
      let (name,value) ← staticAt i
      pure (⟨name,value⟩,rest)
  else if b &&& 0x40 ≠ 0 then
    if b &&& 0x10 = 0 then .error .decompressionFailed
    else do
      let (i,rest) ← ofHpack (int rest 4)
      let (name,_) ← staticAt i
      let (value,rest) ← readString rest 7
      pure (⟨name,value⟩,rest)
  else if b &&& 0x20 ≠ 0 then do
    let (name,rest) ← readString rest 3
    let (value,rest) ← readString rest 7
    pure (⟨name,value⟩,rest)
  else .error .decompressionFailed

def fieldSize (h : Header) : ℕ := h.name.length + h.value.length + fieldOverhead

/-- A field line takes at least one byte, so the length of the section is fuel enough. -/
def decodeLoop (maxSection : ℕ) : ℕ → Bytes → ℕ → List Header → Except QpackError (List Header)
  | 0, _, _, out => .ok out
  | _, [], _, out => .ok out
  | fuel + 1, b :: rest, size, out =>
    match fieldLine (b :: rest) b with
    | .error e => .error e
    | .ok (h,rest) =>
      if maxSection < size + fieldSize h then .error .excessiveLoad
      else decodeLoop maxSection fuel rest (size + fieldSize h) (out ++ [h])

/-- Decodes a complete field section. -/
def decode (buf : Bytes) (maxSection : ℕ) : Except QpackError (List Header) :=
  match readPrefix buf with
  | .error e => .error e
  | .ok rest => decodeLoop maxSection rest.length rest 0 []

example : decode [0x00,0x00,0xc0 ||| 17] 1048576 = .ok [⟨lit ":method",lit "GET"⟩] := by decide +kernel

end OxiServe.Qpack
