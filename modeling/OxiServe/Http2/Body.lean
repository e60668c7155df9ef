import OxiServe.Server.Reply

/-! # Response bodies over HTTP/2

A body is cut into DATA frames as the flow-control windows allow. The stream
itself ends the body, so a stream body is read until its source ends, whatever
length it carries.
-/
namespace OxiServe.Http2
open Server

/-- What a stream task finds each time it looks at its flow state: the stream
reset or the connection closed, or how many bytes the windows and the frame size
allow, zero meaning that it waits. -/
inductive Check
  | gone
  | allows (n : ℕ)
deriving DecidableEq, Repr

/-- A finished stream stays finished: no check follows `gone`. -/
def look : List Check → Bool × List Check
  | .allows _ :: rest => (true,rest)
  | _ => (false,[])

/-- The payloads of the DATA frames, the checks that are left, and whether all of
the data went out. -/
def pump : List Check → Bytes → List Bytes × List Check × Bool
  | checks, [] => ([],checks,true)
  | .allows 0 :: checks, c :: r => pump checks (c :: r)
  | .allows (n + 1) :: checks, c :: r =>
    let (fs,checks,ok) := pump checks ((c :: r).drop (n + 1))
    ((c :: r).take (n + 1) :: fs,checks,ok)
  | _, _ :: _ => ([],[],false)

def chunkLen : ℕ := 64 * 1024

/-- A read that fails or yields nothing ends the body as if it were complete. -/
def fileFrames (f : File) : ℕ → ℕ → List Check → ℕ → ℕ → List Bytes × Bool
  | 0, _, _, _, _ => ([],false)
  | fuel + 1, t, checks, off, left =>
    if left = 0 then ([[]],true)
    else
      match f.readAt t off (min left chunkLen) with
      | none => ([[]],true)
      | some b =>
        if b = [] then ([[]],true)
        else
          let (fs,checks,_) := pump checks b
          match look checks with
          | (false,_) => (fs,false)
          | (true,checks) =>
            let (gs,done) := fileFrames f fuel (t + 1) checks (off + b.length) (left - b.length)
            (fs ++ gs,done)

def streamFrames : ℕ → List Check → Io → List Bytes × Bool
  | 0, _, _ => ([],false)
  | fuel + 1, checks, io =>
    match look checks with
    | (false,_) => ([],false)
    | (true,checks) =>
      match Reader.read chunkLen io with
      | (.failed,_) => ([[]],true)
      | (.data b,io) =>
        if b = [] then ([[]],true)
        else
          let (fs,checks,_) := pump checks b
          let (gs,done) := streamFrames fuel checks io
          (fs ++ gs,done)

/-- Frames a body into DATA; the flag says that all of it went out. The last frame
is empty and ends the stream. -/
def writeBody (t : ℕ) (checks : List Check) : Body → List Bytes × Bool
  | .empty => ([[]],true)
  | .bytes b =>
    let (fs,_,ok) := pump checks b
    (fs ++ [[]],ok)
  | .mmap w =>
    let (fs,_,ok) := pump checks w.bytes
    (fs ++ [[]],ok)
  | .inline f off len | .file f off len => fileFrames f (len + 1) t checks off len
  | .upgraded _ _ => ([[]],true)
  | .stream pre io _ =>
    let (fs,checks,_) := pump checks pre
    let (gs,done) := streamFrames (Reader.size io + 1) checks io
    (fs ++ gs,done)

/-- The DATA frames of a response. An empty body ends the stream with its HEADERS. -/
def sendResponse (t : ℕ) (checks : List Check) (reply : Reply) (headOnly : Bool) : List Bytes × Bool :=
  let reply := reply.frame true
  let body := if headOnly then .empty else reply.body
  if body.isEmpty then ([],true) else writeBody t checks body

section Payload

theorem pump_spec (checks : List Check) (b : Bytes) :
    ((pump checks b).2.2 = true → (pump checks b).1.flatten = b) ∧
      ((pump checks b).2.2 = false → (pump checks b).2.1 = []) := by
  fun_induction pump checks b with
  | case1 => simp
  | case2 checks c r ih => exact ih
  | case3 n checks c r fs checks' ok hp ih =>
    rw [hp] at ih
    refine ⟨?_,ih.2⟩
    intro hk
    rw [List.flatten_cons,ih.1 hk,List.take_append_drop]
  | case4 => simp

/-- Once the stream is gone nothing completes. -/
theorem streamFrames_nil (fuel : ℕ) (io : Io) : (streamFrames fuel [] io).2 = false := by
  cases fuel with
  | zero => rfl
  | succ fuel => rfl

/-- A stream body that went out completely is all its source hands over. -/
theorem streamFrames_payload {fuel : ℕ} {checks : List Check} {io : Io}
    (h : (streamFrames fuel checks io).2 = true) :
    (streamFrames fuel checks io).1.flatten = (drain chunkLen fuel io).1 := by
  induction fuel generalizing checks io with
  | zero => cases h
  | succ fuel ih =>
    simp only [streamFrames,drain] at h ⊢
    rcases hl : look checks with ⟨_ | _,rest⟩
    · rw [hl] at h
      cases h
    · rw [hl] at h
      rcases hr : Reader.read chunkLen io with ⟨b | _,io'⟩
      · rw [hr] at h
        by_cases hb : b = []
        · simp only [if_pos hb,List.flatten_cons,List.flatten_nil,List.append_nil]
        · simp only [if_neg hb] at h ⊢
          have hp := pump_spec rest b
          have hk : (pump rest b).2.2 = true := by
            by_contra hne
            rw [hp.2 (Bool.eq_false_iff.mpr hne),streamFrames_nil] at h
            cases h
          rw [List.flatten_append,hp.1 hk,ih h]
      · simp only [List.flatten_cons,List.flatten_nil,List.append_nil]

theorem writeBody_stream {t : ℕ} {checks : List Check} {pre : Bytes} {io : Io} {len : Option ℕ}
    (h : (writeBody t checks (.stream pre io len)).2 = true) :
    (writeBody t checks (.stream pre io len)).1.flatten = pre ++ (delivery chunkLen io).1 := by
  simp only [writeBody] at h ⊢
  have hp := pump_spec checks pre
  have hk : (pump checks pre).2.2 = true := by
    by_contra hne
    rw [hp.2 (Bool.eq_false_iff.mpr hne),streamFrames_nil] at h
    cases h
  rw [List.flatten_append,hp.1 hk,streamFrames_payload h]
  rfl

theorem writeBody_bytes {t : ℕ} {checks : List Check} {b : Bytes}
    (h : (writeBody t checks (.bytes b)).2 = true) :
    (writeBody t checks (.bytes b)).1.flatten = b := by
  simp only [writeBody] at h ⊢
  rw [List.flatten_append,(pump_spec checks b).1 h,List.flatten_cons,List.flatten_nil,List.append_nil,
    List.append_nil]

end Payload

end OxiServe.Http2
