import OxiServe.Http2.Huffman
import OxiServe.Lib.BoundedFifo

/-! # HPACK

Header compression as the connection uses it: the static table, the decoder
with its dynamic table and limits, and the encoder that keeps no table. A
decoding error leaves behind whatever the fields before it did to the table.
-/
namespace OxiServe.Hpack

structure Header where
  name : Bytes
  value : Bytes
deriving DecidableEq, Repr

/-- RFC 7541 Appendix A; index `i` is entry `i - 1`. -/
def staticTable : List (Bytes × Bytes) := [
  (lit ":authority",lit ""),
  (lit ":method",lit "GET"),
  (lit ":method",lit "POST"),
  (lit ":path",lit "/"),
  (lit ":path",lit "/index.html"),
  (lit ":scheme",lit "http"),
  (lit ":scheme",lit "https"),
  (lit ":status",lit "200"),
  (lit ":status",lit "204"),
  (lit ":status",lit "206"),
  (lit ":status",lit "304"),
  (lit ":status",lit "400"),
  (lit ":status",lit "404"),
  (lit ":status",lit "500"),
  (lit "accept-charset",lit ""),
  (lit "accept-encoding",lit "gzip, deflate"),
  (lit "accept-language",lit ""),
  (lit "accept-ranges",lit ""),
  (lit "accept",lit ""),
  (lit "access-control-allow-origin",lit ""),
  (lit "age",lit ""),
  (lit "allow",lit ""),
  (lit "authorization",lit ""),
  (lit "cache-control",lit ""),
  (lit "content-disposition",lit ""),
  (lit "content-encoding",lit ""),
  (lit "content-language",lit ""),
  (lit "content-length",lit ""),
  (lit "content-location",lit ""),
  (lit "content-range",lit ""),
  (lit "content-type",lit ""),
  (lit "cookie",lit ""),
  (lit "date",lit ""),
  (lit "etag",lit ""),
  (lit "expect",lit ""),
  (lit "expires",lit ""),
  (lit "from",lit ""),
  (lit "host",lit ""),
  (lit "if-match",lit ""),
  (lit "if-modified-since",lit ""),
  (lit "if-none-match",lit ""),
  (lit "if-range",lit ""),
  (lit "if-unmodified-since",lit ""),
  (lit "last-modified",lit ""),
  (lit "link",lit ""),
  (lit "location",lit ""),
  (lit "max-forwards",lit ""),
  (lit "proxy-authenticate",lit ""),
  (lit "proxy-authorization",lit ""),
  (lit "range",lit ""),
  (lit "referer",lit ""),
  (lit "refresh",lit ""),
  (lit "retry-after",lit ""),
  (lit "server",lit ""),
  (lit "set-cookie",lit ""),
  (lit "strict-transport-security",lit ""),
  (lit "transfer-encoding",lit ""),
  (lit "user-agent",lit ""),
  (lit "vary",lit ""),
  (lit "via",lit ""),
  (lit "www-authenticate",lit "")]

def entryOverhead : ℕ := 32

def maxString : ℕ := 64 * 1024

inductive HpackError
  | compression
  | tooLarge
deriving DecidableEq, Repr

def entrySize (h : Header) : ℕ := h.name.length + h.value.length + entryOverhead

section Wire

/-- The continuation bytes of a prefixed integer. -/
def intLoop : Bytes → ℕ → ℕ → Except HpackError (ℕ × Bytes)
  | [], _, _ => .error .compression
  | b :: rest, value, shift =>
    if 63 ≤ shift then .error .compression
    else if 2 ^ 64 ≤ value + b.toNat % 128 * 2 ^ shift then .error .compression
    else if b.toNat < 128 then .ok (value + b.toNat % 128 * 2 ^ shift,rest)
    else intLoop rest (value + b.toNat % 128 * 2 ^ shift) (shift + 7)

def int (buf : Bytes) (prefixBits : ℕ) : Except HpackError (ℕ × Bytes) :=
  match buf with
  | [] => .error .compression
  | b :: rest =>
    if b.toNat % 2 ^ prefixBits < 2 ^ prefixBits - 1 then .ok (b.toNat % 2 ^ prefixBits,rest)
    else intLoop rest (2 ^ prefixBits - 1) 0

/-- A length-prefixed string, raw or Huffman coded; it has to be UTF-8. -/
def string (buf : Bytes) : Except HpackError (Bytes × Bytes) :=
  match buf with
  | [] => .error .compression
  | b :: _ =>
    match int buf 7 with
    | .error e => .error e
    | .ok (len,rest) =>
      if rest.length < len then .error .compression
      else
        let raw := rest.take len
        let decoded := if 128 ≤ b.toNat then Huffman.decode raw maxString else some raw
        match decoded with
        | none => .error .compression
        | some s => if utf8Valid s then .ok (s,rest.drop len) else .error .compression

end Wire

structure Decoder where
  dynamic : List Header
  size : ℕ
  maxSize : ℕ
  settingsMax : ℕ
deriving DecidableEq, Repr

/-- Adds a header to the running list total, refusing once it passes the cap. -/
def charge (listed : ℕ) (h : Header) (max : ℕ) : Except HpackError ℕ :=
  if max < listed + entrySize h then .error .tooLarge else .ok (listed + entrySize h)

/-- What `decode` holds between two fields. -/
structure Progress where
  dec : Decoder
  buf : Bytes
  listed : ℕ
  seenField : Bool
  out : List Header

namespace Decoder

def new (maxSize : ℕ) : Decoder := ⟨[],0,maxSize,maxSize⟩

def evict (self : Decoder) : Decoder :=
  let (d,size) := BoundedFifo.popWhile entrySize self.maxSize self.dynamic.reverse self.size
  { self with dynamic := d.reverse, size := size }

def setMaxSize (self : Decoder) (n : ℕ) : Decoder :=
  let self := { self with settingsMax := n }
  if n < self.maxSize then { self with maxSize := n }.evict else self

def insert (self : Decoder) (h : Header) : Decoder :=
  if self.maxSize < entrySize h then { self with dynamic := [], size := 0 }
  else { self with size := self.size + entrySize h, dynamic := h :: self.dynamic }.evict

/-- Resolves an index across the static table and then the dynamic one. -/
def lookup (self : Decoder) (idx : ℕ) : Except HpackError Header :=
  if idx = 0 then .error .compression
  else if idx ≤ staticTable.length then
    match staticTable[idx - 1]? with
    | some (n,v) => .ok ⟨n,v⟩
    | none => .error .compression
  else
    match self.dynamic[idx - staticTable.length - 1]? with
    | some h => .ok h
    | none => .error .compression

def literal (self : Decoder) (idx : ℕ) (buf : Bytes) : Except HpackError (Header × Bytes) := do
  let (name,buf) ← if idx = 0 then string buf else do
    let h ← self.lookup idx
    pure (h.name,buf)
  let (value,buf) ← string buf
  pure (⟨name,value⟩,buf)

/-- One turn of the loop of `decode`, on the first byte of a field. -/
def field (maxList : ℕ) (p : Progress) (first : UInt8) : Except HpackError Progress :=
  if first &&& 0x80 ≠ 0 then do
    let (idx,rest) ← int p.buf 7
    let h ← p.dec.lookup idx
    let listed ← charge p.listed h maxList
    pure { p with buf := rest, listed := listed, out := p.out ++ [h], seenField := true }
  else if first &&& 0x40 ≠ 0 then do
    let (idx,rest) ← int p.buf 6
    let (h,rest) ← p.dec.literal idx rest
    let listed ← charge p.listed h maxList
    pure { p with
      dec := p.dec.insert h, buf := rest, listed := listed, out := p.out ++ [h], seenField := true }
  else if first &&& 0x20 ≠ 0 then do
    if p.seenField then throw .compression
    let (n,rest) ← int p.buf 5
    if p.dec.settingsMax < n then throw .compression
    pure { p with dec := { p.dec with maxSize := n }.evict, buf := rest }
  else do
    let (idx,rest) ← int p.buf 4
    let (h,rest) ← p.dec.literal idx rest
    let listed ← charge p.listed h maxList
    pure { p with buf := rest, listed := listed, out := p.out ++ [h], seenField := true }

/-- A field takes at least one byte, so the length of the block is fuel enough. -/
def decodeLoop (maxList : ℕ) : ℕ → Progress → Progress × Except HpackError Unit
  | 0, p => (p,.ok ())
  | fuel + 1, p =>
    match p.buf with
    | [] => (p,.ok ())
    | first :: _ =>
      match field maxList p first with
      | .error e => (p,.error e)
      | .ok q => decodeLoop maxList fuel q

def decode (self : Decoder) (buf : Bytes) (maxList : ℕ) : Decoder × List Header × Except HpackError Unit :=
  let (p,r) := decodeLoop maxList buf.length ⟨self,buf,0,false,[]⟩
  (p.dec,p.out,r)

end Decoder

section Encode

/-- The seven-bit groups of a prefixed integer; `fuel` bounds their number. -/
def writeIntLoop : ℕ → ℕ → Bytes
  | 0, _ => []
  | fuel + 1, v => if 0x80 ≤ v then (v % 128 + 128).toUInt8 :: writeIntLoop fuel (v / 128) else [v.toUInt8]

def writeInt (v prefixBits : ℕ) (flags : UInt8) : Bytes :=
  if v < 2 ^ prefixBits - 1 then [flags ||| v.toUInt8]
  else (flags ||| (2 ^ prefixBits - 1).toUInt8) :: writeIntLoop 10 (v - (2 ^ prefixBits - 1))

def writeString (s : Bytes) : Bytes :=
  if Huffman.encodedLen s < s.length then writeInt (Huffman.encodedLen s) 7 0x80 ++ Huffman.encode s
  else writeInt s.length 7 0x00 ++ s

structure Encoder where
  peerMax : ℕ
  announced : Bool
deriving DecidableEq, Repr

namespace Encoder

def new (peerMax : ℕ) : Encoder := ⟨peerMax,false⟩

def beginBlock (self : Encoder) : Encoder × Bytes :=
  if !self.announced then ({ self with announced := true },writeInt 0 5 0x20) else (self,[])

def encode (name value : Bytes) : Bytes :=
  match staticTable.findIdx? (fun e => e.1 == name && e.2 == value) with
  | some i => writeInt (i + 1) 7 0x80
  | none =>
    (match staticTable.findIdx? (fun e => e.1 == name) with
      | some i => writeInt (i + 1) 4 0x00
      | none => 0x00 :: writeString name) ++ writeString value

end Encoder

end Encode

end OxiServe.Hpack
