import OxiServe.Http3.Request

/-! # The incremental frame reader

A request stream arrives in pieces, and even a frame header can be cut. What is
read off it depends on the bytes alone: not on the cuts, and not on whether the
stream was finished or broken off after them.
-/
namespace OxiServe.Http3
open Hpack (Header)
open Http2 (Handed Parsed parseHeaders)

/-- What a receive stream gives: pieces, then its end. A stream that is not
finished was reset by the peer, or lost. -/
structure Recv where
  chunks : List Bytes
  finished : Bool
deriving DecidableEq, Repr

def Recv.bytes (recv : Recv) : Bytes := recv.chunks.flatten

/-- A buffer of what is not consumed yet, and the stream it is filled from. -/
structure Reader where
  buf : Bytes
  eof : Bool
  recv : Recv
  spent : eof = true → recv.chunks = []

namespace Reader

/-- All that is still to be read. -/
def pending (r : Reader) : Bytes := r.buf ++ r.recv.bytes

def new (recv : Recv) : Reader := ⟨[],false,recv,fun h => nomatch h⟩

/-- Pulls more bytes in. The end of the stream and a failure are the same here. -/
def fill (r : Reader) : Bool × Reader :=
  if r.eof then (false,r)
  else
    match r.recv with
    | ⟨chunk :: chunks,finished⟩ => (true,⟨r.buf ++ chunk,false,⟨chunks,finished⟩,fun h => nomatch h⟩)
    | ⟨[],finished⟩ => (false,⟨r.buf,true,⟨[],finished⟩,fun _ => rfl⟩)

/-- Takes bytes off the buffer. -/
def drain (r : Reader) (n : ℕ) : Reader := ⟨r.buf.drop n,r.eof,r.recv,r.spent⟩

/-- Each round takes a piece of the stream, so more rounds than pieces are enough. -/
def headFrom : ℕ → Reader → Except ℕ (Option Head) × Reader
  | 0, r => (.error Code.frameError,r)
  | fuel + 1, r =>
    match parseHead r.buf with
    | .error e => (.error e,r)
    | .ok (some h) => (.ok (some h),r.drain h.headLen)
    | .ok none =>
      match r.fill with
      | (true,r) => headFrom fuel r
      | (false,r) => (if r.buf = [] then .ok none else .error Code.frameError,r)

/-- Reads a frame header; none is the end of the stream between two frames. -/
def head (r : Reader) : Except ℕ (Option Head) × Reader := r.headFrom (r.recv.chunks.length + 1)

def exactFrom : ℕ → Reader → ℕ → Option (Bytes × Reader)
  | 0, _, _ => none
  | fuel + 1, r, n =>
    if r.buf.length < n then
      match r.fill with
      | (true,r) => exactFrom fuel r n
      | (false,_) => none
    else some (r.buf.take n,r.drain n)

/-- Reads exactly `n` bytes of payload. -/
def exact (r : Reader) (n : ℕ) : Option (Bytes × Reader) := r.exactFrom (r.recv.chunks.length + 1) n

/-- The body loop, up to the end of the stream. -/
def body (maxBody : ℕ) : ℕ → Reader → Bytes → Except Refusal Bytes
  | 0, _, _ => .error (.closed Code.frameError)
  | fuel + 1, r, body =>
    match r.head with
    | (.error e,_) => .error (.closed e)
    | (.ok none,_) => .ok body
    | (.ok (some h),r) =>
      if h.kind = Kind.data then
        if maxBody < body.length + h.len then .error (.bare 413)
        else
          match r.exact h.len with
          | none => .error (.closed Code.frameError)
          | some (chunk,r) => Reader.body maxBody fuel r (body ++ chunk)
      else if h.kind = Kind.settings ∨ h.kind = Kind.goaway ∨ h.kind = Kind.maxPushId ∨ h.kind = Kind.cancelPush then
        .error (.closed Code.frameUnexpected)
      else
        match r.exact h.len with
        | none => .error (.closed Code.frameError)
        | some (_,r) => Reader.body maxBody fuel r body

end Reader

/-- Reads one request off a stream as it arrives, up to the call of the handler. -/
def Recv.request (maxBody : ℕ) (recv : Recv) : Outcome :=
  match (Reader.new recv).head with
  | (.error e,_) => .refused (.closed e)
  | (.ok none,_) => .nothing
  | (.ok (some h),r) =>
    if h.kind ≠ Kind.headers then .refused (.closed Code.frameUnexpected)
    else if maxFieldSection < h.len then .refused (.closed Code.excessiveLoad)
    else
      match r.exact h.len with
      | none => .refused (.closed Code.frameError)
      | some (block,r) =>
        match Qpack.decode block maxFieldSection with
        | .error e => .refused (.closed (qpackCode e))
        | .ok fields =>
          match parseHeaders fields with
          | .error _ => .refused (.bare 400)
          | .ok parsed =>
            match r.body maxBody (r.pending.length + 1) [] with
            | .error e => .refused e
            | .ok body =>
              match parsed.handOver body with
              | none => .refused (.bare 400)
              | some r => .handed fields r

section Cuts
variable {buf x : Bytes}

/-- A whole integer does not depend on what comes after it. -/
theorem getVarint_append {v n : ℕ} (h : getVarint buf = some (v,n)) : getVarint (buf ++ x) = some (v,n) := by
  cases buf with
  | nil => cases h
  | cons first rest =>
    simp only [getVarint] at h
    split at h
    · cases h
    · rename_i hl
      cases h
      have hlen : ¬ (first :: rest ++ x).length < 2 ^ (first.toNat / 64) := by
        rw [List.length_append]
        omega
      have htake : (rest ++ x).take (2 ^ (first.toNat / 64) - 1) = rest.take (2 ^ (first.toNat / 64) - 1) := by
        rw [List.length_cons] at hl
        exact List.take_append_of_le_length (by omega)
      simp only [List.cons_append] at hlen ⊢
      simp only [getVarint,if_neg hlen,htake]

theorem parseHead_append {r : Except ℕ (Option Head)} (h : parseHead buf = r) (hr : r ≠ .ok none) :
    parseHead (buf ++ x) = r := by
  unfold parseHead at h
  split at h
  · exact absurd h.symm hr
  · rename_i kind a ha
    split at h
    · exact absurd h.symm hr
    · rename_i len b hb
      have hd : (buf ++ x).drop a = buf.drop a ++ x := List.drop_append_of_le_length (getVarint_pos ha).2
      rw [parseHead,getVarint_append ha]
      simp only [hd,getVarint_append hb]
      exact h

theorem parseHead_headLen {h : Head} (hp : parseHead buf = .ok (some h)) : h.headLen ≤ buf.length := by
  unfold parseHead at hp
  split at hp
  · cases hp
  · rename_i kind a ha
    split at hp
    · cases hp
    · rename_i len b hb
      split at hp
      · cases hp
      · cases hp
        have h1 := getVarint_pos ha
        have h2 := getVarint_pos hb
        rw [List.length_drop] at h2
        dsimp only
        omega

end Cuts

namespace Reader
variable {r : Reader}

@[simp] theorem pending_new (recv : Recv) : (new recv).pending = recv.bytes := rfl

theorem pending_drain {n : ℕ} (h : n ≤ r.buf.length) : (r.drain n).pending = r.pending.drop n := by
  simp only [pending,drain]
  rw [List.drop_append_of_le_length h]

theorem fill_true {s : Reader} (h : r.fill = (true,s)) :
    s.pending = r.pending ∧ r.recv.chunks.length = s.recv.chunks.length + 1 := by
  obtain ⟨buf,eof,⟨chunks,finished⟩,hs⟩ := r
  cases eof with
  | true => cases h
  | false =>
    cases chunks with
    | nil => cases h
    | cons chunk chunks =>
      cases h
      simp [pending,Recv.bytes]

theorem fill_false {s : Reader} (h : r.fill = (false,s)) : s.buf = r.buf ∧ r.pending = r.buf := by
  have hn : r.recv.chunks = [] := by
    obtain ⟨buf,eof,⟨chunks,finished⟩,hs⟩ := r
    cases eof with
    | true => exact hs rfl
    | false =>
      cases chunks with
      | nil => rfl
      | cons chunk chunks => cases h
  refine ⟨?_,by rw [pending,Recv.bytes,hn,List.flatten_nil,List.append_nil]⟩
  obtain ⟨buf,eof,⟨chunks,finished⟩,hs⟩ := r
  obtain rfl : chunks = [] := hn
  cases eof with
  | true =>
    cases h
    rfl
  | false =>
    cases h
    rfl

/-- The reader's header is that of the pending bytes. -/
theorem headFrom_eq {fuel : ℕ} (h : r.recv.chunks.length < fuel) :
    Http3.head r.pending = (r.headFrom fuel).1.map (Option.map (fun h => (h,(r.headFrom fuel).2.pending))) := by
  induction fuel generalizing r with
  | zero => omega
  | succ fuel ih =>
    cases hp : parseHead r.buf with
    | error e =>
      have ha : parseHead r.pending = .error e := parseHead_append hp (fun h => nomatch h)
      simp only [headFrom,hp,Http3.head,ha]
      rfl
    | ok o =>
      cases o with
      | some hd =>
        have ha : parseHead r.pending = .ok (some hd) := parseHead_append hp (fun h => nomatch h)
        simp only [headFrom,hp,Http3.head,ha,← pending_drain (parseHead_headLen hp)]
        rfl
      | none =>
        rcases hf : r.fill with ⟨_ | _,s⟩
        · obtain ⟨hb,hall⟩ := fill_false hf
          simp only [headFrom,hp,hf,hb,hall,Http3.head]
          split
          · rfl
          · rfl
        · obtain ⟨hall,hlen⟩ := fill_true hf
          have hs := ih (r := s) (by omega)
          simp only [headFrom,hp,hf]
          rw [← hall]
          exact hs

theorem exactFrom_eq {fuel n : ℕ} (h : r.recv.chunks.length < fuel) :
    Http3.exact r.pending n = (r.exactFrom fuel n).map (fun p => (p.1,p.2.pending)) := by
  induction fuel generalizing r with
  | zero => omega
  | succ fuel ih =>
    by_cases hn : r.buf.length < n
    · rcases hf : r.fill with ⟨_ | _,s⟩
      · obtain ⟨-,hall⟩ := fill_false hf
        simp only [exactFrom,if_pos hn,hf,hall,Http3.exact]
        rfl
      · obtain ⟨hall,hlen⟩ := fill_true hf
        have hs := ih (r := s) (by omega)
        simp only [exactFrom,if_pos hn,hf]
        rw [← hall]
        exact hs
    · have hle : n ≤ r.buf.length := Nat.not_lt.mp hn
      have hp : ¬ r.pending.length < n := by
        rw [pending,List.length_append]
        omega
      have ht : r.pending.take n = r.buf.take n := List.take_append_of_le_length hle
      simp only [exactFrom,if_neg hn,Http3.exact,if_neg hp,ht,← pending_drain hle,Option.map_some]

theorem head_eq : Http3.head r.pending = r.head.1.map (Option.map (fun h => (h,r.head.2.pending))) :=
  headFrom_eq (Nat.lt_succ_self _)

theorem exact_eq {n : ℕ} : Http3.exact r.pending n = (r.exact n).map (fun p => (p.1,p.2.pending)) :=
  exactFrom_eq (Nat.lt_succ_self _)

theorem exact_some {n : ℕ} {payload rest : Bytes} (hx : Http3.exact r.pending n = some (payload,rest)) :
    ∃ s, r.exact n = some (payload,s) ∧ s.pending = rest := by
  rw [exact_eq] at hx
  obtain ⟨⟨p,s⟩,hs,hp⟩ := Option.map_eq_some_iff.mp hx
  cases hp
  exact ⟨s,hs,rfl⟩

theorem body_eq {maxBody fuel : ℕ} {body : Bytes} :
    r.body maxBody fuel body = readBody maxBody fuel r.pending body := by
  induction fuel generalizing r body with
  | zero => rfl
  | succ fuel ih =>
    rw [Reader.body,readBody,head_eq]
    rcases r.head with ⟨e | _ | hd,s⟩
    · rfl
    · rfl
    · simp only [Except.map,Option.map_some,exact_eq]
      cases s.exact hd.len with
      | none => rfl
      | some p => simp only [Option.map_some,ih]

end Reader

/-- A request depends on the bytes of its stream alone. -/
theorem Recv.request_eq (maxBody : ℕ) (recv : Recv) : recv.request maxBody = Http3.request maxBody recv.bytes := by
  rw [Recv.request,Http3.request,← Reader.pending_new recv,Reader.head_eq]
  rcases (Reader.new recv).head with ⟨e | _ | hd,s⟩
  · rfl
  · rfl
  · simp only [Except.map,Option.map_some,Reader.exact_eq]
    cases s.exact hd.len with
    | none => rfl
    | some p =>
      simp only [Option.map_some,Reader.body_eq] <;> rfl

end OxiServe.Http3
