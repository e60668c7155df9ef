import OxiServe.Http3.Control

/-! # What a stream makes the server hold

The bytes of a stream that were received and not yet discarded: what the reader
has buffered, the field section and the body. A byte counts once, however often
it is copied. Only two kinds of frames are checked before they are collected.
-/
namespace OxiServe.Http3
open Hpack (Header)
open Http2 (Parsed parseHeaders)

/-- One read of a stream brings at most this much. -/
def readLen : ℕ := 4096

/-- A stream as the reads of the server see it. -/
structure Arrival extends Recv where
  sized : ∀ c ∈ chunks, c.length ≤ readLen

namespace Reader

/-- The most the buffer holds while it is filled until `ready`. -/
def fillHeld (ready : Bytes → Bool) : ℕ → Reader → ℕ
  | 0, r => r.buf.length
  | fuel + 1, r =>
    if ready r.buf then r.buf.length
    else
      match r.fill with
      | (true,s) => max r.buf.length (fillHeld ready fuel s)
      | (false,_) => r.buf.length

def hasHead (buf : Bytes) : Bool :=
  match parseHead buf with
  | .ok none => false
  | _ => true

def hasVarint (buf : Bytes) : Bool := (getVarint buf).isSome

def hasLen (n : ℕ) (buf : Bytes) : Bool := decide (n ≤ buf.length)

def headHeld (r : Reader) : ℕ := r.fillHeld hasHead (r.recv.chunks.length + 1)

def varintHeld (r : Reader) : ℕ := r.fillHeld hasVarint (r.recv.chunks.length + 1)

def exactHeld (r : Reader) (n : ℕ) : ℕ := r.fillHeld (hasLen n) (r.recv.chunks.length + 1)

/-- The most that is held in the body loop, the field section apart. -/
def bodyHeld (maxBody : ℕ) : ℕ → Reader → Bytes → ℕ
  | 0, _, body => body.length
  | fuel + 1, r, body =>
    max (body.length + r.headHeld)
      (match r.head with
        | (.ok (some h),s) =>
          if h.kind = Kind.data then
            if maxBody < body.length + h.len then 0
            else
              max (body.length + s.exactHeld h.len)
                (match s.exact h.len with
                  | none => 0
                  | some (chunk,t) => bodyHeld maxBody fuel t (body ++ chunk))
          else if isControl h.kind then 0
          else
            max (body.length + s.exactHeld h.len)
              (match s.exact h.len with
                | none => 0
                | some (_,t) => bodyHeld maxBody fuel t body)
        | _ => 0)

def controlHeld : ℕ → Reader → Bool → ℕ
  | 0, _, _ => 0
  | fuel + 1, r, first =>
    max r.headHeld
      (match r.head with
        | (.ok (some h),s) =>
          if first = decide (h.kind = Kind.settings) then
            max (s.exactHeld h.len)
              (match s.exact h.len with
                | none => 0
                | some (payload,t) =>
                  match controlFrame h.kind payload with
                  | .error _ => 0
                  | .ok () => controlHeld fuel t false)
          else 0
        | _ => 0)

end Reader

/-- The most that is held while a request is read off its stream. -/
def Recv.requestHeld (maxBody : ℕ) (recv : Recv) : ℕ :=
  max (Reader.new recv).headHeld
    (match (Reader.new recv).head with
      | (.ok (some h),r) =>
        if h.kind = Kind.headers ∧ h.len ≤ maxFieldSection then
          max (r.exactHeld h.len)
            (match r.exact h.len with
              | none => 0
              | some (block,s) =>
                match (Qpack.decode block maxFieldSection).toOption.map parseHeaders with
                | some (.ok _) => block.length + s.bodyHeld maxBody (s.pending.length + 1) []
                | _ => block.length)
        else 0
      | _ => 0)

/-- The most that is held for a control stream. -/
def Recv.controlStreamHeld (recv : Recv) : ℕ :=
  max (Reader.new recv).varintHeld
    (match (Reader.new recv).varint with
      | none => 0
      | some (t,r) => if t = StreamType.control then r.controlHeld (r.pending.length + 1) true else 0)

section Filling
variable {r s t : Reader} {ready : Bytes → Bool} {fuel n : ℕ}

theorem Reader.fill_grows (h : r.fill = (true,s)) : ∃ c ∈ r.recv.chunks, s.buf = r.buf ++ c ∧
    ∀ d ∈ s.recv.chunks, d ∈ r.recv.chunks := by
  obtain ⟨buf,eof,⟨chunks,finished⟩,hs⟩ := r
  cases eof with
  | true => cases h
  | false =>
    cases chunks with
    | nil => cases h
    | cons chunk chunks =>
      cases h
      exact ⟨chunk,List.mem_cons_self,rfl,fun d hd => List.mem_cons_of_mem _ hd⟩

theorem Reader.buf_le_fillHeld : r.buf.length ≤ r.fillHeld ready fuel := by
  cases fuel with
  | zero => exact Nat.le_refl _
  | succ fuel =>
    rw [Reader.fillHeld]
    split
    · exact Nat.le_refl _
    · split
      · exact Nat.le_max_left _ _
      · exact Nat.le_refl _

/-- A buffer that is not ready while it has at most `bound` bytes grows past that by one read. -/
theorem Reader.fillHeld_le {bound : ℕ} (hr : ∀ b, ready b = false → b.length ≤ r.pending.length → b.length ≤ bound)
    (hc : ∀ c ∈ r.recv.chunks, c.length ≤ readLen) :
    r.fillHeld ready fuel ≤ max r.buf.length (bound + readLen) := by
  induction fuel generalizing r with
  | zero => exact Nat.le_max_left _ _
  | succ fuel ih =>
    rw [Reader.fillHeld]
    by_cases hb : ready r.buf = true
    · rw [if_pos hb]
      exact Nat.le_max_left _ _
    · rw [if_neg hb]
      rcases hf : r.fill with ⟨_ | _,s⟩
      · exact Nat.le_max_left _ _
      · obtain ⟨c,hm,hs,hsub⟩ := Reader.fill_grows hf
        obtain ⟨hp,-⟩ := Reader.fill_true hf
        have hlen : r.buf.length ≤ r.pending.length := by
          rw [Reader.pending,List.length_append]
          omega
        have hbound := hr r.buf (Bool.eq_false_iff.mpr hb) hlen
        have hi := ih (r := s) (by rw [hp]; exact hr) (fun d hd => hc d (hsub d hd))
        have hcl := hc c hm
        rw [hs,List.length_append] at hi
        dsimp only
        omega

theorem parseHead_none_length {b : Bytes} (h : parseHead b = .ok none) : b.length ≤ 15 := by
  have hpow (x : UInt8) : 2 ^ (x.toNat / 64) ≤ 8 := by
    have hx := x.toNat_lt
    have hd : x.toNat / 64 ≤ 3 := by omega
    calc 2 ^ (x.toNat / 64) ≤ 2 ^ 3 := Nat.pow_le_pow_right (by omega) hd
      _ = 8 := rfl
  have hnone {c : Bytes} (hg : getVarint c = none) : c.length ≤ 7 := by
    unfold getVarint at hg
    split at hg
    · exact Nat.zero_le _
    · rename_i first rest
      dsimp only at hg
      split at hg
      · rename_i hl
        have h8 := hpow first
        omega
      · cases hg
  unfold parseHead at h
  split at h
  · rename_i hg
    have h7 := hnone hg
    omega
  · rename_i kind a ha
    have h8 : a ≤ 8 := by
      unfold getVarint at ha
      split at ha
      · cases ha
      · dsimp only at ha
        split at ha
        · cases ha
        · cases ha
          exact hpow _
    split at h
    · rename_i hg
      have h7 := hnone hg
      rw [List.length_drop] at h7
      omega
    · split at h
      · cases h
      · cases h

/-- What a header or an integer may leave in the buffer. -/
def slack : ℕ := 15 + readLen

theorem Reader.headHeld_le (hc : ∀ c ∈ r.recv.chunks, c.length ≤ readLen) : r.headHeld ≤ max r.buf.length slack := by
  apply Reader.fillHeld_le _ hc
  intro b hb _
  apply parseHead_none_length
  unfold hasHead at hb
  split at hb
  · assumption
  · cases hb

theorem Reader.varintHeld_le (hc : ∀ c ∈ r.recv.chunks, c.length ≤ readLen) :
    r.varintHeld ≤ max r.buf.length slack := by
  apply Reader.fillHeld_le _ hc
  intro b hb _
  apply parseHead_none_length
  have hg : getVarint b = none := by simpa [hasVarint] using hb
  rw [parseHead,hg]

theorem Reader.exactHeld_le (hc : ∀ c ∈ r.recv.chunks, c.length ≤ readLen) :
    r.exactHeld n ≤ max r.buf.length (min n r.pending.length + readLen) := by
  apply Reader.fillHeld_le _ hc
  intro b hb hl
  have hn : ¬ n ≤ b.length := by simpa [hasLen] using hb
  omega

/-- All that is there of a payload gets into the buffer. -/
theorem Reader.min_le_exactFrom (h : r.recv.chunks.length < fuel) :
    min n r.pending.length ≤ r.fillHeld (hasLen n) fuel := by
  induction fuel generalizing r with
  | zero => omega
  | succ fuel ih =>
    rw [Reader.fillHeld]
    by_cases hn : n ≤ r.buf.length
    · have hb : hasLen n r.buf = true := decide_eq_true hn
      rw [if_pos hb]
      omega
    · have hb : ¬ hasLen n r.buf = true := by simpa [hasLen] using hn
      rw [if_neg hb]
      rcases hf : r.fill with ⟨_ | _,s⟩
      · obtain ⟨-,hall⟩ := Reader.fill_false hf
        dsimp only
        rw [hall]
        omega
      · obtain ⟨hp,hl⟩ := Reader.fill_true hf
        have hi := ih (r := s) (by omega)
        rw [hp] at hi
        dsimp only
        omega

theorem Reader.min_le_exactHeld : min n r.pending.length ≤ r.exactHeld n :=
  Reader.min_le_exactFrom (Nat.lt_succ_self _)

/-- What is left of a reader that went on from another. -/
structure Reader.After (r s : Reader) (held : ℕ) : Prop where
  buf : s.buf.length ≤ held
  chunks : ∀ c ∈ s.recv.chunks, c ∈ r.recv.chunks

theorem Reader.fill_after {held : ℕ} (hf : r.fill = (true,s)) (h : s.After t held) :
    r.After t (max r.buf.length held) := by
  obtain ⟨c,-,-,hsub⟩ := Reader.fill_grows hf
  exact ⟨h.buf.trans (Nat.le_max_right _ _),fun d hd => hsub d (h.chunks d hd)⟩

theorem Reader.drain_after : r.After (r.drain n) r.buf.length := by
  refine ⟨?_,fun _ h => h⟩
  rw [Reader.drain,List.length_drop]
  exact Nat.sub_le _ _

theorem Reader.fill_stuck (hf : r.fill = (false,s)) : r.After s r.buf.length := by
  obtain ⟨buf,eof,⟨chunks,finished⟩,hs⟩ := r
  cases eof with
  | true =>
    cases hf
    exact ⟨Nat.le_refl _,fun _ h => h⟩
  | false =>
    cases chunks with
    | nil =>
      cases hf
      exact ⟨Nat.le_refl _,fun _ h => h⟩
    | cons chunk chunks => cases hf

theorem Reader.headFrom_after : r.After (r.headFrom fuel).2 (r.fillHeld hasHead fuel) := by
  induction fuel generalizing r with
  | zero => exact ⟨Nat.le_refl _,fun _ h => h⟩
  | succ fuel ih =>
    cases hp : parseHead r.buf with
    | error e =>
      have hb : hasHead r.buf = true := by simp [hasHead,hp]
      simp only [Reader.headFrom,Reader.fillHeld,hp,hb,if_true]
      exact ⟨Nat.le_refl _,fun _ h => h⟩
    | ok o =>
      cases o with
      | some hd =>
        have hb : hasHead r.buf = true := by simp [hasHead,hp]
        simp only [Reader.headFrom,Reader.fillHeld,hp,hb,if_true]
        exact Reader.drain_after
      | none =>
        have hb : ¬ hasHead r.buf = true := by simp [hasHead,hp]
        rw [Reader.headFrom,Reader.fillHeld,if_neg hb]
        simp only [hp]
        rcases hf : r.fill with ⟨_ | _,s⟩
        · exact Reader.fill_stuck hf
        · exact Reader.fill_after hf ih

theorem Reader.varintFrom_after {v : ℕ} (h : r.varintFrom fuel = some (v,s)) :
    r.After s (r.fillHeld hasVarint fuel) := by
  induction fuel generalizing r with
  | zero => cases h
  | succ fuel ih =>
    rw [Reader.varintFrom] at h
    rw [Reader.fillHeld]
    cases hg : getVarint r.buf with
    | some p =>
      have hb : hasVarint r.buf = true := by simp [hasVarint,hg]
      rw [hg] at h
      cases h
      rw [if_pos hb]
      exact Reader.drain_after
    | none =>
      have hb : ¬ hasVarint r.buf = true := by simp [hasVarint,hg]
      rw [hg] at h
      rw [if_neg hb]
      rcases hf : r.fill with ⟨_ | _,t⟩
      · rw [hf] at h
        cases h
      · rw [hf] at h
        exact Reader.fill_after hf (ih h)

/-- The payload is taken off the buffer. -/
theorem Reader.exactFrom_after {b : Bytes} (h : r.exactFrom fuel n = some (b,s)) :
    s.buf.length + n ≤ r.fillHeld (hasLen n) fuel ∧ ∀ c ∈ s.recv.chunks, c ∈ r.recv.chunks := by
  induction fuel generalizing r with
  | zero => cases h
  | succ fuel ih =>
    rw [Reader.exactFrom] at h
    rw [Reader.fillHeld]
    by_cases hn : r.buf.length < n
    · have hb : ¬ hasLen n r.buf = true := by simpa [hasLen] using hn
      rw [if_pos hn] at h
      rw [if_neg hb]
      rcases hf : r.fill with ⟨_ | _,t⟩
      · rw [hf] at h
        cases h
      · rw [hf] at h
        obtain ⟨c,-,-,hsub⟩ := Reader.fill_grows hf
        obtain ⟨hi,hc⟩ := ih h
        exact ⟨hi.trans (Nat.le_max_right _ _),fun d hd => hsub d (hc d hd)⟩
    · have hle : n ≤ r.buf.length := Nat.not_lt.mp hn
      have hb : hasLen n r.buf = true := decide_eq_true hle
      rw [if_neg hn] at h
      cases h
      rw [if_pos hb]
      refine ⟨?_,fun _ h => h⟩
      rw [Reader.drain,List.length_drop]
      omega

/-- A reader whose buffer and whose pieces to come are small. -/
structure Reader.Slim (r : Reader) : Prop where
  buf : r.buf.length ≤ slack
  sized : ∀ c ∈ r.recv.chunks, c.length ≤ readLen

theorem Arrival.slim_new (a : Arrival) : (Reader.new a.toRecv).Slim := ⟨Nat.zero_le _,a.sized⟩

theorem Reader.Slim.after {held : ℕ} (h : r.Slim) (ha : r.After s held) (hs : held ≤ max r.buf.length slack) :
    s.Slim := by
  have hb := h.buf
  have hl := ha.buf
  exact ⟨by omega,fun c hc => h.sized c (ha.chunks c hc)⟩

theorem Reader.Slim.head (h : r.Slim) : r.head.2.Slim := h.after Reader.headFrom_after (Reader.headHeld_le h.sized)

theorem Reader.Slim.varint {v : ℕ} (h : r.Slim) (hv : r.varint = some (v,s)) : s.Slim :=
  h.after (Reader.varintFrom_after hv) (Reader.varintHeld_le h.sized)

theorem Reader.Slim.exact {b : Bytes} (h : r.Slim) (he : r.exact n = some (b,s)) : s.Slim := by
  obtain ⟨hl,hc⟩ := Reader.exactFrom_after he
  have hb := h.buf
  have hx : r.exactHeld n ≤ max r.buf.length (min n r.pending.length + readLen) := Reader.exactHeld_le h.sized
  unfold Reader.exactHeld at hx
  refine ⟨?_,fun c hm => h.sized c (hc c hm)⟩
  unfold slack at hb ⊢
  omega

theorem Reader.Slim.headHeld (h : r.Slim) : r.headHeld ≤ slack := by
  have hl := Reader.headHeld_le h.sized
  have hb := h.buf
  omega

theorem Reader.Slim.varintHeld (h : r.Slim) : r.varintHeld ≤ slack := by
  have hl := Reader.varintHeld_le h.sized
  have hb := h.buf
  omega

theorem Reader.Slim.exactHeld (h : r.Slim) : r.exactHeld n ≤ min n r.pending.length + slack := by
  have hl : r.exactHeld n ≤ max r.buf.length (min n r.pending.length + readLen) := Reader.exactHeld_le h.sized
  have hb := h.buf
  unfold slack at hb ⊢
  omega

end Filling

section Frames
variable {r s : Reader} {b rest rest' payload : Bytes} {h : Head} {fs : List (ℕ × Bytes)}

theorem Reader.head_ok (hr : r.head = (.ok (some h),s)) : Http3.head r.pending = .ok (some (h,s.pending)) := by
  rw [Reader.head_eq,hr]
  rfl

theorem Reader.exact_ok {n : ℕ} (hr : r.exact n = some (payload,s)) :
    Http3.exact r.pending n = some (payload,s.pending) := by
  rw [Reader.exact_eq,hr]
  rfl

end Frames

end OxiServe.Http3
