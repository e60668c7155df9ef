import Mathlib.Data.Int.Notation
import OxiServe.Lib.Numerals

/-! # HTTP/2 framing

Frame headers, padding and the small fixed-shape frames of RFC 9113 sections 4
to 6. A frame value carries the proof that its declared length is the length of
its payload, which is how the reader loop obtains one.
-/
namespace OxiServe.Http2

def headerLen : ℕ := 9
def defaultMaxFrame : ℕ := 16384
def maxFrameLimit : ℕ := 16777215
def defaultWindow : ℤ := 65535
def maxWindow : ℤ := 2147483647

namespace Kind
def data : UInt8 := 0x0
def headers : UInt8 := 0x1
def priority : UInt8 := 0x2
def rstStream : UInt8 := 0x3
def settings : UInt8 := 0x4
def pushPromise : UInt8 := 0x5
def ping : UInt8 := 0x6
def goaway : UInt8 := 0x7
def windowUpdate : UInt8 := 0x8
def continuation : UInt8 := 0x9
end Kind

namespace Flag
def endStream : UInt8 := 0x1
def ack : UInt8 := 0x1
def endHeaders : UInt8 := 0x4
def padded : UInt8 := 0x8
def priority : UInt8 := 0x20
end Flag

namespace Setting
def headerTableSize : ℕ := 0x1
def enablePush : ℕ := 0x2
def maxConcurrentStreams : ℕ := 0x3
def initialWindowSize : ℕ := 0x4
def maxFrameSize : ℕ := 0x5
def maxHeaderListSize : ℕ := 0x6
end Setting

inductive Code
  | noError | protocol | internal | flowControl | settingsTimeout | streamClosed | frameSize
  | refusedStream | cancel | compression | connect | enhanceYourCalm | inadequateSecurity | http11Required
deriving DecidableEq, Repr

def Code.toNat : Code → ℕ
  | .noError => 0x0
  | .protocol => 0x1
  | .internal => 0x2
  | .flowControl => 0x3
  | .settingsTimeout => 0x4
  | .streamClosed => 0x5
  | .frameSize => 0x6
  | .refusedStream => 0x7
  | .cancel => 0x8
  | .compression => 0x9
  | .connect => 0xa
  | .enhanceYourCalm => 0xb
  | .inadequateSecurity => 0xc
  | .http11Required => 0xd

def preface : Bytes := lit "PRI * HTTP/2.0\r\n\r\nSM\r\n\r\n"

structure Head where
  len : ℕ
  kind : UInt8
  flags : UInt8
  stream : ℕ
deriving DecidableEq, Repr

namespace Head

/-- The top bit of the stream id is reserved and dropped. -/
def parse (b : Bytes) : Head where
  len := ofBe (b.take 3)
  kind := b.getD 3 0
  flags := b.getD 4 0
  stream := ofBe ((b.drop 5).take 4) % 2 ^ 31

def has (self : Head) (f : UInt8) : Bool := self.flags &&& f != 0

def write (self : Head) : Bytes := toBe 3 self.len ++ [self.kind,self.flags] ++ toBe 4 self.stream

end Head

def writeFrame (kind flags : UInt8) (stream : ℕ) (payload : Bytes) : Bytes :=
  Head.write { len := payload.length, kind := kind, flags := flags, stream := stream } ++ payload

/-- A pad length that would eat its own length byte is refused. -/
def unpad (payload : Bytes) (padded : Bool) : Option Bytes :=
  if !padded then some payload
  else match payload with
    | [] => none
    | pad :: rest => if rest.length < pad.toNat then none else some (rest.take (rest.length - pad.toNat))

def goaway (lastStream : ℕ) (code : Code) (debug : Bytes) : Bytes :=
  writeFrame Kind.goaway 0 0 (toBe 4 lastStream ++ toBe 4 code.toNat ++ debug)

def rst (stream : ℕ) (code : Code) : Bytes := writeFrame Kind.rstStream 0 stream (toBe 4 code.toNat)

def windowUpdate (stream increment : ℕ) : Bytes :=
  writeFrame Kind.windowUpdate 0 stream (toBe 4 increment)

def settings (pairs : List (ℕ × ℕ)) : Bytes :=
  writeFrame Kind.settings 0 0 (pairs.flatMap (fun p => toBe 2 p.1 ++ toBe 4 p.2))

def settingsAck : Bytes := writeFrame Kind.settings Flag.ack 0 []

def u32At (b : Bytes) (off : ℕ) : Option ℕ :=
  if off + 4 ≤ b.length then some (ofBe ((b.drop off).take 4)) else none

/-- A frame as the reader loop hands it on: the payload has the declared length. -/
structure Frame where
  head : Head
  payload : Bytes
  len_eq : payload.length = head.len

namespace Frame

def of (kind flags : UInt8) (stream : ℕ) (payload : Bytes) : Frame where
  head := { len := payload.length, kind := kind, flags := flags, stream := stream }
  payload := payload
  len_eq := rfl

/-- The 31-bit number a WINDOW_UPDATE, PRIORITY or priority field starts with. -/
def first31 (b : Bytes) : ℕ := (u32At b 0).getD 0 % 2 ^ 31

end Frame

end OxiServe.Http2
