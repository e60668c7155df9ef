import OxiServe.Lib.Cursor

/-! # Reading a ClientHello

The first handshake message of a TLS connection, taken together from the records it is
split over. Where bytes are missing the answer is to ask again; what cannot become a
ClientHello is refused.
-/
namespace OxiServe.Server
open Cursor

structure Hello where
  serverName : Bytes
  alpn : List Bytes
  protocol : Bytes
deriving DecidableEq, Repr

inductive Preread
  | hello (h : Hello)
  | incomplete
  | notTls
deriving DecidableEq, Repr

namespace Preread

def recHandshake : UInt8 := 0x16
def msgClientHello : UInt8 := 0x01
def extServerName : ℕ := 0x0000
def extAlpn : ℕ := 0x0010
def extSupportedVersions : ℕ := 0x002b

def maxRecord : ℕ := 16384

section Extensions

def versionName (v : ℕ) : Bytes :=
  match v with
  | 0x0300 => lit "SSLv3"
  | 0x0301 => lit "TLSv1"
  | 0x0302 => lit "TLSv1.1"
  | 0x0303 => lit "TLSv1.2"
  | 0x0304 => lit "TLSv1.3"
  | _ => []

/-- The sixteen reserved values `0x0a0a`, `0x1a1a` up to `0xfafa`. -/
def isGrease (v : ℕ) : Bool := v &&& 0x0f0f == 0x0a0a && v >>> 8 == v &&& 0xff

/-- The name of the first entry of type zero, unless it is empty or no text. -/
def hostName : ℕ → Bytes → Option Bytes
  | 0, _ => none
  | fuel + 1, c =>
    if c = [] then none
    else do
      let (ty,c) ← u8 c
      let (len,c) ← u16 c
      let (name,c) ← take len c
      if ty = 0 then (if utf8Valid name && name ≠ [] then some name else none) else hostName fuel c

def serverName (data : Bytes) : Option Bytes := do
  let (listLen,c) ← u16 data
  let (list,_) ← take listLen c
  hostName (list.length + 1) list

/-- The names that are texts; an empty one is passed over. -/
def protocolNames : ℕ → Bytes → Option (List Bytes)
  | 0, _ => none
  | fuel + 1, c =>
    if c = [] then some []
    else do
      let (len,c) ← u8 c
      let (p,c) ← take len.toNat c
      let rest ← protocolNames fuel c
      some (if p ≠ [] && utf8Valid p then p :: rest else rest)

def alpn (data : Bytes) : Option (List Bytes) := do
  let (listLen,c) ← u16 data
  let (list,_) ← take listLen c
  protocolNames (list.length + 1) list

/-- The greatest version of the list that is not reserved. -/
def maxVersion : ℕ → Bytes → ℕ → Option ℕ
  | 0, _, _ => none
  | fuel + 1, c, best =>
    if c = [] then some best
    else do
      let (v,c) ← u16 c
      maxVersion fuel c (if isGrease v then best else max v best)

def bestVersion (data : Bytes) : Option Bytes := do
  let (len,c) ← u8 data
  if len.toNat % 2 ≠ 0 then none
  else do
    let (list,_) ← take len.toNat c
    let best ← maxVersion (list.length + 1) list 0
    if versionName best = [] then none else some (versionName best)

/-- What one extension adds; a malformed one adds nothing. -/
def extend (out : Hello) (ty : ℕ) (data : Bytes) : Hello :=
  if ty = extServerName then { out with serverName := (serverName data).getD out.serverName }
  else if ty = extAlpn then { out with alpn := (alpn data).getD out.alpn }
  else if ty = extSupportedVersions then { out with protocol := (bestVersion data).getD out.protocol }
  else out

def extensions : ℕ → Bytes → Hello → Option Hello
  | 0, _, _ => none
  | fuel + 1, c, out =>
    if c = [] then some out
    else do
      let (ty,c) ← u16 c
      let (len,c) ← u16 c
      let (data,c) ← take len c
      extensions fuel c (extend out ty data)

end Extensions

section Message

/-- The extensions are optional, and what follows them is not looked at. -/
def extensionBlock (c : Bytes) (out : Hello) : Option Preread :=
  if c = [] then some (.hello out)
  else do
    let (extLen,c) ← u16 c
    let (exts,_) ← take extLen c
    let out ← extensions (exts.length + 1) exts out
    some (.hello out)

/-- The body of the message; an odd length of the cipher suites is refused at once. -/
def clientHello (body : Bytes) : Option Preread := do
  let (legacy,c) ← u16 body
  let (_,c) ← take 32 c
  let (sidLen,c) ← u8 c
  let (_,c) ← take sidLen.toNat c
  let (csLen,c) ← u16 c
  if csLen % 2 ≠ 0 then some .notTls
  else do
    let (_,c) ← take csLen c
    let (compLen,c) ← u8 c
    let (_,c) ← take compLen.toNat c
    extensionBlock c ⟨[],[],versionName legacy⟩

/-- None asks for more bytes. -/
def handshake (b : Bytes) : Option Preread := do
  let (kind,c) ← u8 b
  if kind ≠ msgClientHello then some .notTls
  else do
    let (len,c) ← u24 c
    let (body,_) ← take len c
    clientHello body

end Message

section Records

/-- The payload of one record and what follows the record. -/
def record (c : Bytes) : Except Preread (Bytes × Bytes) :=
  match u8 c with
  | none => .error .incomplete
  | some (kind,c) =>
    if kind ≠ recHandshake then .error .notTls
    else
      match u8 c with
      | none => .error .incomplete
      | some (major,c) =>
        match u8 c with
        | none => .error .incomplete
        | some (_,c) =>
          if major ≠ 3 then .error .notTls
          else
            match u16 c with
            | none => .error .incomplete
            | some (len,c) =>
              if len = 0 ∨ maxRecord < len then .error .notTls
              else
                match take len c with
                | none => .error .incomplete
                | some (payload,c) => .ok (payload,c)

/-- What the message claims to occupy, with its header, whose four bytes may be split
over any of the payloads. -/
def declaredLen (parts : List Bytes) : Option ℕ :=
  match parts.flatten with
  | _ :: a :: b :: c :: _ => some (ofBe [a,b,c] + 4)
  | _ => none

/-- The message is all here. -/
def isWhole (parts : List Bytes) : Bool :=
  match declaredLen parts with
  | some need => need ≤ (parts.map List.length).sum
  | none => false

/-- The payloads up to a whole message. -/
def records : ℕ → Bytes → List Bytes → Except Preread (List Bytes)
  | 0, _, _ => .error .incomplete
  | fuel + 1, c, parts =>
    match record c with
    | .error e => .error e
    | .ok (payload,c) =>
      if isWhole (parts ++ [payload]) then .ok (parts ++ [payload])
      else if c = [] then .error .incomplete
      else records fuel c (parts ++ [payload])

end Records

/-- Everything read so far as the start of a TLS connection. -/
def parse (buf : Bytes) : Preread :=
  match buf with
  | [] => .incomplete
  | b :: _ =>
    if b ≠ recHandshake then .notTls
    else
      match records (buf.length + 1) buf [] with
      | .error e => e
      | .ok parts => (handshake parts.flatten).getD .incomplete

end Preread

end OxiServe.Server
