import OxiServe.Http2.Spawning

/-! # The limit on a body over HTTP/2

A DATA frame that would take the body of its stream past the limit resets the stream
with `ENHANCE_YOUR_CALM`. An upload whose frames find their stream open is given up
exactly when there is more data on the stream than the limit.
-/
namespace OxiServe.Http2
open Conn

section Refusals

def Frame.isDataOn (i : ℕ) (f : Frame) : Bool := f.head.kind = Kind.data && f.head.stream = i

/-- The loop takes the frame to its arm. -/
structure Conn.Admits (c : Conn) (f : Frame) : Prop where
  running : c.result = none
  size : f.head.len ≤ defaultMaxFrame
  between : c.expectContinuation = none

/-- The arm goes on after a reset with `ENHANCE_YOUR_CALM`. -/
def Conn.Calms (c : Conn) (f : Frame) : Prop :=
  (c.arm f).2 = .again ∧ (c.arm f).1.out.getLast? = some (rst f.head.stream .enhanceYourCalm)

/-- A DATA frame of the stream was answered so. -/
def RefusedForSize (maxBody i : ℕ) (es : List Event) : Prop :=
  ∃ ks f ls c, es = ks ++ .frame f :: ls ∧ Runs (stepRel Conn.next) (Conn.new maxBody) ks c ∧
    f.isDataOn i = true ∧ c.Admits f ∧ c.Calms f

/-- Until the upload is refused for its size, its DATA frames are well formed, come in
their place and find the stream open. -/
structure Uploads (maxBody i : ℕ) (es : List Event) : Prop where
  stream : i ≠ 0
  taken : ∀ ks f ls c, es = ks ++ .frame f :: ls → Runs (stepRel Conn.next) (Conn.new maxBody) ks c →
    f.isDataOn i = true → ¬ RefusedForSize maxBody i ks →
      c.Admits f ∧ c.stateOf i = .opened ∧ ∃ data, unpad f.payload (f.head.has Flag.padded) = some data

variable {maxBody i : ℕ} {es : List Event} {c : Conn} {f : Frame} {data : Bytes} {st : Stream}

theorem getLast_resetStream (c : Conn) (i : ℕ) (code : Code) :
    (c.resetStream i code).out.getLast? = some (rst i code) := by
  unfold resetStream
  dsimp only
  split
  · simp only [modifyFlow,modifyStream,emit,List.getLast?_append,List.getLast?_singleton,Option.some_or]
  · simp only [emit,List.getLast?_append,List.getLast?_singleton,Option.some_or]

theorem rst_streamClosed_ne (i : ℕ) : rst i .streamClosed ≠ rst i .enhanceYourCalm := by
  intro h
  have hc : toBe 4 Code.streamClosed.toNat = toBe 4 Code.enhanceYourCalm.toNat := List.append_cancel_left h
  exact absurd hc (by decide)

theorem isDataOn_iff : f.isDataOn i = true ↔ f.head.kind = Kind.data ∧ f.head.stream = i := by
  simp [Frame.isDataOn]

/-- On an open stream the answer depends on the length alone. -/
theorem calms_iff (hd : f.isDataOn i = true) (hi : i ≠ 0) (hp : unpad f.payload (f.head.has Flag.padded) = some data)
    (ho : c.stateOf i = .opened) (hst : c.streams.get? i = some st) :
    c.Calms f ↔ c.clientMaxBodySize < st.body.length + data.length := by
  obtain ⟨hk,rfl⟩ := isDataOn_iff.mp hd
  obtain ⟨out,w,hrep⟩ := replenish_eq { c with recvWindow := c.recvWindow - f.head.len }
  have hopen : ({ c with out := out, recvWindow := w } : Conn).stateOf f.head.stream = .opened := ho
  have harm : c.arm f = if c.clientMaxBodySize < st.body.length + data.length then
      (({ c with out := out, recvWindow := w } : Conn).resetStream f.head.stream .enhanceYourCalm,.again)
    else (({ c with out := out, recvWindow := w } : Conn).modifyStream f.head.stream (fun s =>
      { s with body := s.body ++ data, state := if f.head.has Flag.endStream then .halfClosedRemote else s.state }),
      .dispatch) := by
    rw [Conn.arm,if_pos hk,onData,if_neg hi]
    simp only [hp,hrep,hopen,hst]
  unfold Calms
  rw [harm]
  constructor
  · rintro ⟨hn,-⟩
    by_contra hle
    rw [if_neg hle] at hn
    cases hn
  · intro hlt
    rw [if_pos hlt]
    exact ⟨rfl,getLast_resetStream _ _ _⟩

/-- No other state of the stream gives this answer. -/
theorem Conn.Calms.opened (h : c.Calms f) (hd : f.isDataOn i = true) : i ≠ 0 ∧ c.stateOf i = .opened ∧
    ∃ data, unpad f.payload (f.head.has Flag.padded) = some data := by
  obtain ⟨hk,rfl⟩ := isDataOn_iff.mp hd
  obtain ⟨hn,hlast⟩ := h
  obtain ⟨out,w,hrep⟩ := replenish_eq { c with recvWindow := c.recvWindow - f.head.len }
  have hstate : ({ c with out := out, recvWindow := w } : Conn).stateOf f.head.stream = c.stateOf f.head.stream := rfl
  rw [Conn.arm,if_pos hk,onData] at hn hlast
  by_cases hi : f.head.stream = 0
  · rw [if_pos hi] at hn
    cases hn
  rw [if_neg hi] at hn hlast
  cases hp : unpad f.payload (f.head.has Flag.padded) with
  | none =>
    simp only [hp] at hn
    cases hn
  | some data =>
    refine ⟨hi,?_,data,rfl⟩
    simp only [hp,hrep,hstate] at hn hlast
    cases hs : c.stateOf f.head.stream with
    | opened => rfl
    | idle =>
      simp only [hs] at hn
      cases hn
    | closed =>
      simp only [hs] at hn
      cases hn
    | halfClosed =>
      simp only [hs,getLast_resetStream,Option.some.injEq] at hlast
      exact absurd hlast (rst_streamClosed_ne _)
    | reset =>
      simp only [hs,getLast_resetStream,Option.some.injEq] at hlast
      exact absurd hlast (rst_streamClosed_ne _)

end Refusals

section Uploads
variable {maxBody i : ℕ} {es : List Event} {e : Event} {c : Conn} {f : Frame}

theorem RefusedForSize.snoc (h : RefusedForSize maxBody i es) (e : Event) : RefusedForSize maxBody i (es ++ [e]) := by
  obtain ⟨ks,f,ls,c,rfl,hrest⟩ := h
  exact ⟨ks,f,ls ++ [e],c,by simp,hrest⟩

theorem Uploads.init (h : Uploads maxBody i (es ++ [e])) : Uploads maxBody i es where
  stream := h.stream
  taken := fun ks f ls c hes => h.taken ks f (ls ++ [e]) c (by simp [hes])

/-- What a DATA frame on an open stream adds to, and when it is refused. -/
theorem calms_iff_dataOf (hr : Runs (stepRel Conn.next) (Conn.new maxBody) es c) (hres : c.result = none)
    (hd : f.isDataOn i = true) (hi : i ≠ 0) (ho : c.stateOf i = .opened)
    (hp : ∃ data, unpad f.payload (f.head.has Flag.padded) = some data) :
    c.Calms f ↔ maxBody < (dataOf i (es ++ [.frame f])).length := by
  obtain ⟨data,hp⟩ := hp
  obtain ⟨hl,-,ha⟩ := run_assembled hr
  obtain ⟨st,hst,hs | hs | hs⟩ := stateOf_entry ho (by decide) (by decide)
  · have hdisp : st.dispatched = false := by
      by_contra hn
      exact (hl.lives i st hst).notOpen (by simpa [life] using hn) hs.2
    have hpend : st.isPending = true := by simp [Stream.isPending,hdisp,hs.2]
    have hadd : (Event.frame f).dataOn i = data := by
      simp [Event.dataOn,Frame.dataOn,isDataOn_iff.mp hd,hp]
    rw [calms_iff hd hi hp ho hst,(ha hres).limit,dataOf_snoc,hadd,List.length_append,
      ((ha hres).heard i st hst hpend).body]
  · cases hs.1
  · cases hs.1

theorem length_dataOf_le (ks ls : List Event) : (dataOf i ks).length ≤ (dataOf i (ks ++ ls)).length := by
  simp [dataOf]

/-- The run of an upload: what was not refused fits. -/
theorem Uploads.fits (hr : Runs (stepRel Conn.next) (Conn.new maxBody) es c) (h : Uploads maxBody i es)
    (hn : ¬ RefusedForSize maxBody i es) : (dataOf i es).length ≤ maxBody := by
  revert h hn
  refine hr.invariant (I := fun es _ => Uploads maxBody i es → ¬ RefusedForSize maxBody i es →
    (dataOf i es).length ≤ maxBody) ?_ ?_
  · intro _ _
    exact Nat.zero_le _
  · intro ks u e v hru ih _ h hn
    have hno : ¬ RefusedForSize maxBody i ks := fun hk => hn (hk.snoc e)
    have hle := ih h.init hno
    by_cases hd : ∃ f, e = .frame f ∧ f.isDataOn i = true
    · obtain ⟨f,rfl,hd⟩ := hd
      obtain ⟨hadm,ho,hp⟩ := h.taken ks f [] u rfl hru hd hno
      have hc : ¬ u.Calms f := fun hc => hn ⟨ks,f,[],u,rfl,hru,hd,hadm,hc⟩
      rw [calms_iff_dataOf hru hadm.running hd h.stream ho hp] at hc
      exact Nat.not_lt.mp hc
    · have hnone : e.dataOn i = [] := by
        cases e with
        | frame f =>
          have hf : ¬ (f.head.kind = Kind.data ∧ f.head.stream = i) := fun hf => hd ⟨f,rfl,isDataOn_iff.mpr hf⟩
          exact if_neg hf
        | hangUp r => rfl
        | send j data => rfl
        | finish j => rfl
      rw [dataOf_snoc,hnone,List.append_nil]
      exact hle

/-- An upload is refused for its size exactly when it is larger than the limit. -/
theorem refusedForSize_iff (hr : Runs (stepRel Conn.next) (Conn.new maxBody) es c) (h : Uploads maxBody i es) :
    RefusedForSize maxBody i es ↔ maxBody < (dataOf i es).length := by
  constructor
  · rintro ⟨ks,f,ls,d,rfl,hd,hf,hadm,hc⟩
    obtain ⟨hi,ho,hp⟩ := hc.opened hf
    have hlt := (calms_iff_dataOf hd hadm.running hf hi ho hp).mp hc
    have hle : (dataOf i (ks ++ [.frame f])).length ≤ (dataOf i (ks ++ [.frame f] ++ ls)).length := length_dataOf_le _ _
    rw [List.append_assoc,List.singleton_append] at hle
    omega
  · intro hlt
    by_contra hn
    have hle := Uploads.fits hr h hn
    omega

end Uploads

end OxiServe.Http2
