import OxiServe.Server.Reply

/-! # Response bodies over HTTP/3

QUIC does the flow control, so a write either goes out whole or fails. The
stream's end is the body's end and a stream body's own length is not looked at.
-/
namespace OxiServe.Http3
open Server

def chunkLen : ℕ := 64 * 1024

/-- The answer to the `k`-th DATA frame tells whether it could be written. -/
def fileFrames (ok : ℕ → Bool) (f : File) : ℕ → ℕ → ℕ → ℕ → ℕ → List Bytes × Bool
  | 0, _, _, _, _ => ([],false)
  | fuel + 1, t, k, off, left =>
    if left = 0 then ([],true)
    else
      match f.readAt t off (min left chunkLen) with
      | none => ([],true)
      | some b =>
        if b = [] then ([],true)
        else if ok k then
          let (fs,done) := fileFrames ok f fuel (t + 1) (k + 1) (off + b.length) (left - b.length)
          (b :: fs,done)
        else ([],false)

def streamFrames (ok : ℕ → Bool) : ℕ → ℕ → Io → List Bytes × Bool
  | 0, _, _ => ([],false)
  | fuel + 1, k, io =>
    match Reader.read chunkLen io with
    | (.failed,_) => ([],true)
    | (.data b,io) =>
      if b = [] then ([],true)
      else if ok k then
        let (fs,done) := streamFrames ok fuel (k + 1) io
        (b :: fs,done)
      else ([],false)

/-- One DATA frame; nothing is written for no bytes. -/
def data (ok : ℕ → Bool) (b : Bytes) : List Bytes × Bool :=
  if b = [] then ([],true) else if ok 0 then ([b],true) else ([],false)

/-- Frames a body into DATA; the flag says that every write succeeded. -/
def writeBody (t : ℕ) (ok : ℕ → Bool) : Body → List Bytes × Bool
  | .empty => ([],true)
  | .bytes b => data ok b
  | .mmap w => data ok w.bytes
  | .inline f off len | .file f off len => fileFrames ok f (len + 1) t 0 off len
  | .stream pre io _ =>
    match data ok pre with
    | (fs,false) => (fs,false)
    | (fs,true) =>
      let (gs,done) := streamFrames ok (Reader.size io + 1) fs.length io
      (fs ++ gs,done)
  | .upgraded _ _ => ([],true)

/-- The DATA frames of a response. -/
def writeResponse (t : ℕ) (ok : ℕ → Bool) (reply : Reply) (headOnly : Bool) : List Bytes × Bool :=
  let reply := reply.frame true
  writeBody t ok (if headOnly then .empty else reply.body)

section Payload

theorem streamFrames_payload {ok : ℕ → Bool} {fuel k : ℕ} {io : Io}
    (h : (streamFrames ok fuel k io).2 = true) :
    (streamFrames ok fuel k io).1.flatten = (drain chunkLen fuel io).1 := by
  induction fuel generalizing k io with
  | zero => cases h
  | succ fuel ih =>
    simp only [streamFrames,drain] at h ⊢
    rcases hr : Reader.read chunkLen io with ⟨b | _,io'⟩
    · rw [hr] at h
      by_cases hb : b = []
      · simp only [if_pos hb,List.flatten_nil]
      · simp only [if_neg hb] at h ⊢
        by_cases hk : ok k = true
        · simp only [if_pos hk] at h ⊢
          rw [List.flatten_cons,ih h]
        · simp only [if_neg hk] at h
          cases h
    · rfl

theorem streamFrames_done {fuel k : ℕ} {io : Io} (h : Reader.size io < fuel) :
    (streamFrames (fun _ => true) fuel k io).2 = true := by
  induction fuel generalizing k io with
  | zero => omega
  | succ fuel ih =>
    simp only [streamFrames]
    rcases hr : Reader.read chunkLen io with ⟨b | _,io'⟩
    · by_cases hb : b = []
      · simp only [if_pos hb]
      · have hlt := Reader.size_lt hr hb
        simp only [if_neg hb,↓reduceIte]
        exact ih (by omega)
    · rfl

theorem data_payload {ok : ℕ → Bool} {b : Bytes} (h : (data ok b).2 = true) : (data ok b).1.flatten = b := by
  unfold data at h ⊢
  by_cases hb : b = []
  · rw [if_pos hb,hb]
    rfl
  · simp only [if_neg hb] at h ⊢
    by_cases hk : ok 0 = true
    · simp only [if_pos hk,List.flatten_cons,List.flatten_nil,List.append_nil]
    · simp only [if_neg hk] at h
      cases h

theorem data_done (b : Bytes) : (data (fun _ => true) b).2 = true := by
  unfold data
  by_cases hb : b = []
  · simp only [if_pos hb]
  · simp only [if_neg hb,↓reduceIte]

theorem writeBody_stream {t : ℕ} {ok : ℕ → Bool} {pre : Bytes} {io : Io} {len : Option ℕ}
    (h : (writeBody t ok (.stream pre io len)).2 = true) :
    (writeBody t ok (.stream pre io len)).1.flatten = pre ++ (delivery chunkLen io).1 := by
  simp only [writeBody] at h ⊢
  have hd := @data_payload ok pre
  rcases hp : data ok pre with ⟨fs,_ | _⟩
  · rw [hp] at h
    cases h
  · rw [hp] at h hd
    rw [List.flatten_append,hd rfl,streamFrames_payload h]
    rfl

theorem writeBody_stream_done {t : ℕ} {pre : Bytes} {io : Io} {len : Option ℕ} :
    (writeBody t (fun _ => true) (.stream pre io len)).2 = true := by
  simp only [writeBody]
  have hd := data_done pre
  rcases hp : data (fun _ => true) pre with ⟨fs,_ | _⟩
  · rw [hp] at hd
    cases hd
  · exact streamFrames_done (Nat.lt_succ_self _)

end Payload

end OxiServe.Http3
