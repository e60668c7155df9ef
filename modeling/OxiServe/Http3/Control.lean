import OxiServe.Http3.Reader

/-! # The control stream

A unidirectional stream starts with its type. On the control stream SETTINGS come
first and once; every payload is collected before the frame is looked at.
-/
namespace OxiServe.Http3

namespace StreamType
def control : ℕ := 0x00
end StreamType

namespace Setting
def qpackMaxTableCapacity : ℕ := 0x01
def maxFieldSectionSize : ℕ := 0x06
def qpackBlockedStreams : ℕ := 0x07
end Setting

namespace Code
def settingsError : ℕ := 0x0109
def missingSettings : ℕ := 0x010a
end Code

structure Settings where
  qpackMaxTableCapacity : ℕ
  qpackBlockedStreams : ℕ
  maxFieldSectionSize : ℕ
deriving DecidableEq, Repr

namespace Settings

def default : Settings := ⟨0,0,64 * 1024⟩

/-- The identifiers of HTTP/2 are reserved; any other unknown one is ignored. -/
def set (s : Settings) (id v : ℕ) : Except ℕ Settings :=
  if 0x02 ≤ id ∧ id ≤ 0x05 then .error Code.settingsError
  else if id = Setting.qpackMaxTableCapacity then .ok { s with qpackMaxTableCapacity := v }
  else if id = Setting.qpackBlockedStreams then .ok { s with qpackBlockedStreams := v }
  else if id = Setting.maxFieldSectionSize then .ok { s with maxFieldSectionSize := v }
  else .ok s

/-- A setting takes at least two bytes, so the length of the payload is fuel enough. -/
def decodeLoop : ℕ → Bytes → Settings → Except ℕ Settings
  | 0, _, s => .ok s
  | _, [], s => .ok s
  | fuel + 1, buf, s =>
    match getVarint buf with
    | none => .error Code.settingsError
    | some (id,n) =>
      match getVarint (buf.drop n) with
      | none => .error Code.settingsError
      | some (v,m) =>
        match s.set id v with
        | .error e => .error e
        | .ok s => decodeLoop fuel (buf.drop (n + m)) s

/-- Decodes a complete SETTINGS payload. -/
def decode (buf : Bytes) : Except ℕ Settings := decodeLoop buf.length buf default

example : decode [0x06,0x40,0x64,0x21,0x00] = .ok ⟨0,0,100⟩ := by decide +kernel

end Settings

namespace Reader

def varintFrom : ℕ → Reader → Option (ℕ × Reader)
  | 0, _ => none
  | fuel + 1, r =>
    match getVarint r.buf with
    | some (v,n) => some (v,r.drain n)
    | none =>
      match r.fill with
      | (true,r) => varintFrom fuel r
      | (false,_) => none

/-- Reads a leading integer, waiting for as many bytes as it needs. -/
def varint (r : Reader) : Option (ℕ × Reader) := r.varintFrom (r.recv.chunks.length + 1)

/-- The frames of a control stream after the first, and what is not one of them. -/
def controlFrame (kind : ℕ) (payload : Bytes) : Except ℕ Unit :=
  if kind = Kind.settings then (Settings.decode payload).map (fun _ => ())
  else if kind = Kind.goaway ∨ kind = Kind.maxPushId ∨ kind = Kind.cancelPush then .ok ()
  else if kind = Kind.data ∨ kind = Kind.headers then .error Code.frameUnexpected
  else if kind = Kind.pushPromise then .error Code.frameUnexpected
  else .ok ()

/-- The loop of `control_stream`. A frame takes at least two bytes. -/
def control : ℕ → Reader → Bool → Except ℕ Unit
  | 0, _, _ => .error Code.frameError
  | fuel + 1, r, first =>
    match r.head with
    | (.error e,_) => .error e
    | (.ok none,_) => .ok ()
    | (.ok (some h),r) =>
      if first = true ∧ h.kind ≠ Kind.settings then .error Code.missingSettings
      else if first = false ∧ h.kind = Kind.settings then .error Code.frameUnexpected
      else
        match r.exact h.len with
        | none => .error Code.frameError
        | some (payload,r) =>
          match controlFrame h.kind payload with
          | .error e => .error e
          | .ok () => control fuel r false

end Reader

/-- Reads a unidirectional stream, when it says it is the control stream, for as
long as it lives. -/
def Recv.controlStream (recv : Recv) : Except ℕ Unit :=
  match (Reader.new recv).varint with
  | none => .ok ()
  | some (t,r) => if t = StreamType.control then r.control (r.pending.length + 1) true else .ok ()

end OxiServe.Http3
