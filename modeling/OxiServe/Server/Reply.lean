import OxiServe.Http.Response
import OxiServe.Server.FcgiBody

/-! # Replies

A handler produces a response head and a body the connection knows how to put
on the wire. `frame` fixes how the body is delimited unless the handler already
chose.
-/
namespace OxiServe.Server
open Response Fcgi

/-- An open file. A positional read is numbered by the clock, since the file may
change between two reads; it never returns more than was asked for. -/
structure File where
  readAt : ℕ → ℕ → ℕ → Option Bytes
  length_le : ∀ {t off want b}, readAt t off want = some b → b.length ≤ want

/-- A file that never changes and is read in full. -/
def File.ofBytes (content : Bytes) : File where
  readAt := fun _ off want => some ((content.drop off).take want)
  length_le := by
    intro t off want b h
    cases h
    exact List.length_take_le _ _

/-- A window into a memory map. -/
structure Mapped where
  map : Bytes
  range : Range
  start_le : range.start ≤ range.stop
  stop_le : range.stop ≤ map.length

def Mapped.bytes (w : Mapped) : Bytes := slice w.map w.range

@[simp] theorem Mapped.length_bytes (w : Mapped) : w.bytes.length = w.range.len := by
  have hs := w.start_le
  have ht := w.stop_le
  simp only [Mapped.bytes,slice,Range.len,List.length_take,List.length_drop]
  omega

/-- The reading half of an upstream: the socket itself, or the FastCGI decoder over one. -/
inductive Io
  | socket (s : Source)
  | fcgi (b : FcgiBody)

namespace Io

def read (cap : ℕ) : Io → ReadResult × Io
  | .socket s => ((Source.read cap s).1,.socket (Source.read cap s).2)
  | .fcgi b => ((b.pollRead cap).1,.fcgi (b.pollRead cap).2)

def size : Io → ℕ
  | .socket s => Source.size s
  | .fcgi b => b.size

instance : Reader Io where
  read := Io.read
  size := Io.size
  size_lt := by
    intro cap r b r' h hb
    cases r with
    | socket s =>
      simp only [Io.read,Prod.mk.injEq] at h
      obtain ⟨h1,rfl⟩ := h
      exact Source.size_lt (Prod.ext h1 rfl) hb
    | fcgi s =>
      simp only [Io.read,Prod.mk.injEq] at h
      obtain ⟨h1,rfl⟩ := h
      have hr : Reader.read cap s = (.data b,(s.pollRead cap).2) := Prod.ext h1 rfl
      exact Reader.size_lt hr hb
  length_le := by
    intro cap r b r' h
    cases r with
    | socket s =>
      simp only [Io.read,Prod.mk.injEq] at h
      exact Source.length_le (Prod.ext h.1 rfl)
    | fcgi s =>
      simp only [Io.read,Prod.mk.injEq] at h
      have hr : Reader.read cap s = (.data b,(s.pollRead cap).2) := Prod.ext h.1 rfl
      exact Reader.length_le hr

/-- A plain upstream socket delivers its segments whatever the buffer size. -/
theorem delivery_socket {cap : ℕ} (hc : 0 < cap) (s : Source) :
    delivery cap (Io.socket s) = Source.contents s := by
  rw [← Source.delivery_eq_contents hc s]
  suffices hf : ∀ n (s : Source), drain cap n (Io.socket s) = drain cap n s from hf _ s
  intro n
  induction n with
  | zero => intro s; rfl
  | succ n ih =>
    intro s
    simp only [drain,Reader.read,Io.read]
    rcases Source.read cap s with ⟨b | _,s'⟩
    · simp only [ih]
    · rfl

end Io

inductive Body
  | empty
  | bytes (b : Bytes)
  | mmap (w : Mapped)
  | inline (file : File) (offset len : ℕ)
  | file (file : File) (offset len : ℕ)
  | stream (pre : Bytes) (io : Io) (len : Option ℕ)
  | upgraded (pre : Bytes) (io : Source)

namespace Body

/-- Byte length when known up front. -/
def knownLen : Body → Option ℕ
  | .empty => some 0
  | .bytes b => some b.length
  | .mmap w => some w.range.len
  | .inline _ _ len => some len
  | .file _ _ len => some len
  | .stream _ _ len => len
  | .upgraded _ _ => none

def isEmpty (b : Body) : Bool := b.knownLen == some 0

def isUpgraded : Body → Bool
  | .upgraded _ _ => true
  | _ => false

/-- How a reply without a framing of its own is delimited. -/
def framing (b : Body) (http11 : Bool) : Framing :=
  match b.knownLen with
  | some n => .length n
  | none => if http11 then .chunked else .untilClose

end Body

structure Reply where
  resp : Resp
  body : Body

namespace Reply

def new (resp : Resp) (body : Body) : Reply := ⟨resp,body⟩

/-- `Content-Length` from the body when its length is known, else chunked. A
protocol switch comes before the bodyless rule, and a framing the handler chose
is kept. -/
def frame (self : Reply) (http11 : Bool) : Reply :=
  match self.body with
  | .upgraded _ _ => { self with resp := { self.resp with framing := .none, keepAlive := false } }
  | _ =>
    if isBodyless self.resp.status then { resp := { self.resp with framing := .none }, body := .empty }
    else if self.resp.framing ≠ .none then self
    else { self with resp := { self.resp with framing := self.body.framing http11 } }

section Frame
variable (r : Reply) (http11 : Bool)

@[simp] theorem frame_status : (r.frame http11).resp.status = r.resp.status := by
  unfold frame
  split
  · rfl
  · split
    · rfl
    · split
      · rfl
      · rfl

@[simp] theorem frame_hdrs : (r.frame http11).resp.hdrs = r.resp.hdrs := by
  unfold frame
  split
  · rfl
  · split
    · rfl
    · split
      · rfl
      · rfl

theorem frame_keepAlive :
    (r.frame http11).resp.keepAlive = (r.resp.keepAlive && !r.body.isUpgraded) := by
  rcases r with ⟨resp,body⟩
  cases body <;> simp only [frame,Body.isUpgraded,Bool.not_true,Bool.not_false,Bool.and_true,Bool.and_false]
  all_goals
    split
    · rfl
    · split
      · rfl
      · rfl

theorem frame_body_of_bodyless {r : Reply} {http11 : Bool} (hu : r.body.isUpgraded = false)
    (hs : isBodyless r.resp.status = true) :
    (r.frame http11).body = .empty ∧ (r.frame http11).resp.framing = .none := by
  rcases r with ⟨resp,body⟩
  cases body <;> simp_all [frame,Body.isUpgraded]

theorem frame_body {r : Reply} {http11 : Bool} (hs : isBodyless r.resp.status = false) :
    (r.frame http11).body = r.body := by
  rcases r with ⟨resp,body⟩
  have hs' : isBodyless resp.status = false := hs
  cases body <;> simp only [frame,hs',Bool.false_eq_true,if_false]
  all_goals
    split
    · rfl
    · rfl

theorem frame_framing {r : Reply} {http11 : Bool} (hu : r.body.isUpgraded = false)
    (hs : isBodyless r.resp.status = false) :
    (r.frame http11).resp.framing =
      if r.resp.framing ≠ .none then r.resp.framing else r.body.framing http11 := by
  rcases r with ⟨resp,body⟩
  have hs' : isBodyless resp.status = false := hs
  cases body with
  | upgraded pre io => cases hu
  | _ =>
    simp only [frame,hs',Bool.false_eq_true,if_false]
    split
    · rfl
    · rfl

end Frame

end Reply

end OxiServe.Server
