import OxiServe.Http2.Spawning
import OxiServe.Http2.Anchored

/-! # Trailers and the hand-over

A HEADERS frame on a live stream brings trailers. They end the stream at once, also
where their block goes on in CONTINUATION frames, and the dispatch step looks only at the
end of the stream: such a request is handed over before its trailers are read.
-/
namespace OxiServe.Http2
open Conn Runs

section History

/-- The stream waits for the rest of its request. -/
def Conn.isLive (c : Conn) (i : ℕ) : Bool := c.stateOf i = .opened || c.stateOf i = .halfClosed

/-- A HEADERS frame on a live stream, well formed and in its place. -/
def Conn.bringsTrailers (c : Conn) (f : Frame) : Bool :=
  f.head.kind = Kind.headers && c.isLive f.head.stream && f.head.len ≤ defaultMaxFrame && c.expectContinuation.isNone &&
    (unpad f.payload (f.head.has Flag.padded)).any (fun b => !f.head.has Flag.priority || 5 ≤ b.length)

/-- The trailers of a stream were begun. -/
def TrailersBegun (maxBody i : ℕ) (es : List Event) : Prop :=
  ∃ ks g ls c, es = ks ++ .frame g :: ls ∧ Runs (stepRel Conn.next) (Conn.new maxBody) ks c ∧ g.head.stream = i ∧
    c.bringsTrailers g = true

/-- They were received to the end and decoded, and none is a pseudo-header field. -/
def TrailersRead (maxBody i : ℕ) (es : List Event) : Prop :=
  ∃ ks g ls c block hs, es = ks ++ .frame g :: ls ∧ Runs (stepRel Conn.next) (Conn.new maxBody) ks c ∧
    g.head.stream = i ∧ (g.head.kind = Kind.headers ∨ g.head.kind = Kind.continuation) ∧
    g.head.has Flag.endHeaders = true ∧ TrailersBegun maxBody i (ks ++ [.frame g]) ∧
    (collectOn i (ks ++ [.frame g])).complete.getLast? = some block ∧
    (c.dec.decode block maxHeaderList).2 = (hs,.ok ()) ∧ hs.any isPseudo = false

/-- The body has another length than was declared. -/
def Stream.isMismatched (st : Stream) : Bool := st.contentLength.any (fun n => n ≠ st.body.length)

/-- The trailers a frame brings fit into it or are of no account: it does not depend on
its own stream, and it ends its block, leaves the stream open or finds a body of the
wrong length. -/
def Conn.trailersWhole (c : Conn) (f : Frame) : Bool :=
  !selfDependent f && (f.head.has Flag.endHeaders || !f.head.has Flag.endStream ||
    (c.streams.get? f.head.stream).any Stream.isMismatched)

def Conn.holdsTrailers (c : Conn) : Event → Prop
  | .frame f => c.bringsTrailers f = true → c.trailersWhole f = true
  | _ => True

instance (c : Conn) (e : Event) : Decidable (c.holdsTrailers e) := by
  unfold Conn.holdsTrailers
  cases e <;> infer_instance

variable {maxBody i : ℕ} {es : List Event} {c : Conn} {e : Event}

theorem trailersBegun_snoc (hr : Runs (stepRel Conn.next) (Conn.new maxBody) es c) :
    TrailersBegun maxBody i (es ++ [e]) ↔
      TrailersBegun maxBody i es ∨ ∃ f, e = .frame f ∧ f.head.stream = i ∧ c.bringsTrailers f = true := by
  constructor
  · rintro ⟨ks,g,ls,d,he,hd,hi,hb⟩
    rcases List.eq_nil_or_concat ls with rfl | ⟨ls,l,rfl⟩
    · obtain ⟨rfl,hlast⟩ := List.append_inj' he rfl
      obtain rfl : e = .frame g := by simpa using hlast
      have hcd : d = c := by
        have h1 := hd.runList_eq
        rw [hr.runList_eq] at h1
        exact (Option.some.inj h1).symm
      subst hcd
      exact Or.inr ⟨g,rfl,hi,hb⟩
    · have he : es ++ [e] = (ks ++ .frame g :: ls) ++ [l] := by simpa using he
      obtain ⟨rfl,-⟩ := List.append_inj' he rfl
      exact Or.inl ⟨ks,g,ls,d,rfl,hd,hi,hb⟩
  · rintro (⟨ks,g,ls,d,rfl,hd,hi,hb⟩ | ⟨f,rfl,hi,hb⟩)
    · exact ⟨ks,g,ls ++ [e],d,by simp,hd,hi,hb⟩
    · exact ⟨es,f,[],c,rfl,hr,hi,hb⟩

end History

section Entries
variable {b c d : Conn} {f : Frame} {i : ℕ} {n : Next} {st st' : Stream}

/-- Nothing is left to hand over: an entry that is pending has trailers and no headers. -/
def Stream.isOver (st : Stream) : Prop := st.isPending = true → st.pendingIsTrailers = true ∧ st.headersDone = false

def Conn.isOver (c : Conn) (i : ℕ) : Prop :=
  i ≤ c.highestClientStream ∧ ∀ st, c.streams.get? i = some st → st.isOver

/-- A block that was trailers leaves the headers of the request as they are. -/
theorem finishBlock_entry (hst : b.streams.get? i = some st) (hf : b.finishBlock i = (d,none))
    (hst' : d.streams.get? i = some st') (hp : st'.isPending = true) :
    st.isPending = true ∧ st'.pendingIsTrailers = st.pendingIsTrailers ∧ (st.pendingIsTrailers = true →
      st' = { st with pending := [] } ∧
        ∃ hs, (b.dec.decode st.pending maxHeaderList).2 = (hs,.ok ()) ∧ hs.any isPseudo = false) := by
  have hget : (b.feed i st.pending).streams.get? i = some { st with pending := [] } := by
    simp [feed,modifyStream,KeyMap.get?_modify,hst]
  have hreset {code : Code} (hd : (b.feed i st.pending).resetStream i code = d) : False := by
    rw [← hd,get?_resetStream,hget] at hst'
    cases hst'
    exact not_pending_of_reset rfl hp
  simp only [finishBlock,hst] at hf
  rcases hdec : b.dec.decode st.pending maxHeaderList with ⟨dec,hs,r⟩
  rw [hdec] at hf
  cases r with
  | error e =>
    cases e with
    | compression => cases hf
    | tooLarge =>
      simp only [Prod.mk.injEq,and_true] at hf
      exact (hreset hf).elim
  | ok u =>
    dsimp only at hf
    by_cases ht : st.pendingIsTrailers = true
    · rw [if_pos ht] at hf
      split at hf
      · simp only [Prod.mk.injEq,and_true] at hf
        exact (hreset hf).elim
      · rename_i hno
        cases hf
        rw [hget] at hst'
        cases hst'
        refine ⟨hp,rfl,fun _ => ⟨rfl,hs,rfl,?_⟩⟩
        simpa [isPseudo] using hno
    · rw [if_neg ht] at hf
      cases hf
      simp only [modifyStream,KeyMap.get?_modify,if_true] at hst'
      rw [hget] at hst'
      cases hst'
      exact ⟨hp,rfl,fun h => absurd h ht⟩

theorem openBlock_entry (hst : b.streams.get? f.head.stream = some st) (hn : n = .dispatch ∨ n = .again)
    (ho : b.openBlock f = (d,n)) (hst' : d.streams.get? f.head.stream = some st') (hp : st'.isPending = true) :
    st.isPending = true ∧ st'.pendingIsTrailers = st.pendingIsTrailers ∧ (st.pendingIsTrailers = true →
      (∃ p, st' = { st with pending := p }) ∧ (f.head.has Flag.endHeaders = true →
        ∃ hs, (b.dec.decode st.pending maxHeaderList).2 = (hs,.ok ()) ∧ hs.any isPseudo = false)) := by
  unfold openBlock at ho
  split at ho
  · obtain ⟨h1,h2,h3⟩ := finishBlock_entry hst (closeBlock_none hn ho) hst' hp
    exact ⟨h1,h2,fun ht => ⟨⟨_,(h3 ht).1⟩,fun _ => (h3 ht).2⟩⟩
  · rename_i hend
    cases ho
    have hst' : b.streams.get? f.head.stream = some st' := hst'
    rw [hst] at hst'
    cases hst'
    exact ⟨hp,rfl,fun _ => ⟨⟨st.pending,rfl⟩,fun h => absurd h hend⟩⟩

/-- An entry that still waits after trailers: they ended the stream, and if they ended
their block they were read. -/
theorem onTrailers_entry {block : Bytes} (hw : c.isLive f.head.stream = true) (hn : n = .dispatch ∨ n = .again)
    (h : c.onTrailers f block = (d,n)) (hst' : d.streams.get? f.head.stream = some st') (hp : st'.isPending = true) :
    f.head.has Flag.endStream = true ∧ ∃ st p, c.streams.get? f.head.stream = some st ∧ st.isPending = true ∧
      st' = { st with pending := p, pendingIsTrailers := true, state := .halfClosedRemote } ∧
        (f.head.has Flag.endHeaders = true →
          ∃ hs, (c.dec.decode block maxHeaderList).2 = (hs,.ok ()) ∧ hs.any isPseudo = false) := by
  unfold onTrailers at h
  split at h
  · cases h
    rw [get?_resetStream] at hst'
    obtain ⟨st,-,rfl⟩ := Option.map_eq_some_iff.mp hst'
    exact absurd hp (not_pending_of_reset rfl)
  rename_i hend
  refine ⟨by simpa using hend,?_⟩
  split at h
  · cases h
    rcases hn with hn | hn <;> cases hn
  rename_i st hst
  have hmod : (c.modifyStream f.head.stream (fun s =>
      { s with pending := block, pendingIsTrailers := true, state := .halfClosedRemote })).streams.get?
        f.head.stream = some { st with pending := block, pendingIsTrailers := true, state := .halfClosedRemote } := by
    simp [modifyStream,KeyMap.get?_modify,hst]
  have hlive : st.state ≠ .reset := by
    intro hreset
    simp [isLive,stateOf,hst,hreset] at hw
  obtain ⟨h1,-,h3⟩ := openBlock_entry hmod hn h hst' hp
  obtain ⟨⟨p,hp'⟩,hread⟩ := h3 rfl
  refine ⟨st,p,hst,?_,hp',hread⟩
  simp only [Stream.isPending,Bool.and_eq_true,Bool.not_eq_true',bne_iff_ne] at h1 ⊢
  exact ⟨h1.1,hlive⟩

theorem onBlock_over {block : Bytes} (h : c.isOver f.head.stream) (hn : n = .dispatch ∨ n = .again)
    (ho : c.onBlock f block = (d,n)) (hst' : d.streams.get? f.head.stream = some st') : st'.isOver := by
  have hfail {code : Code} {why : String} (h : c.fail code why = (d,n)) : False := by
    cases h
    rcases hn with hn | hn <;> cases hn
  have htrailers (hw : c.isLive f.head.stream = true) (ho : c.onTrailers f block = (d,n)) : st'.isOver := by
    intro hp
    obtain ⟨-,st,p,hst,hps,rfl,-⟩ := onTrailers_entry hw hn ho hst' hp
    exact ⟨rfl,(h.2 st hst hps).2⟩
  unfold onBlock at ho
  split at ho
  · rename_i hw
    exact htrailers (by simp [isLive,hw]) ho
  · rename_i hw
    exact htrailers (by simp [isLive,hw]) ho
  · exact (hfail ho).elim
  · exact (hfail ho).elim
  · rename_i hw
    have := (stateOf_idle hw).2
    have := h.1
    omega

theorem onContinuation_over (h : c.isOver f.head.stream) (hn : n = .dispatch ∨ n = .again)
    (ho : c.onContinuation f = (d,n)) (hst' : d.streams.get? f.head.stream = some st') : st'.isOver := by
  have hfail {code : Code} {why : String} (h : c.fail code why = (d,n)) : False := by
    cases h
    rcases hn with hn | hn <;> cases hn
  unfold onContinuation at ho
  split at ho
  · exact (hfail ho).elim
  split at ho
  · cases ho
    rcases hn with hn | hn <;> cases hn
  rename_i st hst
  split at ho
  · exact (hfail ho).elim
  have hmod : (c.modifyStream f.head.stream (fun s => { s with pending := s.pending ++ f.payload })).streams.get?
      f.head.stream = some { st with pending := st.pending ++ f.payload } := by
    simp [modifyStream,KeyMap.get?_modify,hst]
  have hover : ({ st with pending := st.pending ++ f.payload } : Stream).isOver := h.2 st hst
  dsimp only at ho
  split at ho
  · intro hp
    obtain ⟨h1,-,h3⟩ := finishBlock_entry (b := { c.modifyStream f.head.stream (fun s =>
      { s with pending := s.pending ++ f.payload }) with expectContinuation := none }) hmod (closeBlock_none hn ho) hst' hp
    obtain ⟨ht,hd⟩ := hover h1
    obtain ⟨rfl,-⟩ := h3 ht
    exact ⟨ht,hd⟩
  · cases ho
    rw [hmod] at hst'
    cases hst'
    exact hover

theorem onData_over (h : c.isOver f.head.stream) (hn : n = .dispatch ∨ n = .again) (ho : c.onData f = (d,n))
    (hst' : d.streams.get? f.head.stream = some st') : st'.isOver := by
  have hfail {c : Conn} {code : Code} {why : String} (h : c.fail code why = (d,n)) : False := by
    cases h
    rcases hn with hn | hn <;> cases hn
  have hreset {b : Conn} {code : Code} (hd : b.resetStream f.head.stream code = d) : st'.isOver := by
    intro hp
    rw [← hd,get?_resetStream] at hst'
    obtain ⟨st,-,rfl⟩ := Option.map_eq_some_iff.mp hst'
    exact absurd hp (not_pending_of_reset rfl)
  unfold onData at ho
  split at ho
  · exact (hfail ho).elim
  obtain ⟨out,w,he⟩ := replenish_eq { c with recvWindow := c.recvWindow - f.head.len }
  dsimp only at ho
  rw [he] at ho
  split at ho
  · exact (hfail ho).elim
  have hstate : ({ c with out := out, recvWindow := w } : Conn).stateOf f.head.stream = c.stateOf f.head.stream := rfl
  dsimp only at ho
  rw [hstate] at ho
  split at ho
  · exact (hfail ho).elim
  · exact (hfail ho).elim
  · cases ho
    exact hreset rfl
  · cases ho
    exact hreset rfl
  rename_i hopen
  split at ho
  · cases ho
    rcases hn with hn | hn <;> cases hn
  rename_i st hst
  split at ho
  · cases ho
    exact hreset rfl
  cases ho
  have hst : c.streams.get? f.head.stream = some st := hst
  have hop : st.state ≠ .reset := by
    intro hreset
    simp [stateOf,hst,hreset] at hopen
  simp only [modifyStream,KeyMap.get?_modify,if_true,hst,Option.map_some,Option.some.injEq] at hst'
  subst hst'
  intro hp
  simp only [Stream.isPending,Bool.and_eq_true,Bool.not_eq_true',bne_iff_ne] at hp
  exact h.2 st hst (by simp [Stream.isPending,hp.1,hop])

/-- What is over stays over, whatever frame comes. -/
theorem Conn.isOver.arm (h : c.isOver i) (hn : n = .dispatch ∨ n = .again) (ha : c.arm f = (d,n)) : d.isOver i := by
  have honly := Only.arm c f
  rw [ha] at honly
  refine ⟨Nat.le_trans h.1 honly.highest,fun st' hst' => ?_⟩
  by_cases hi : i = f.head.stream
  · subst hi
    by_cases hkd : f.head.kind = Kind.data
    · rw [Conn.arm,if_pos hkd] at ha
      exact onData_over h hn ha hst'
    by_cases hkh : f.head.kind = Kind.headers
    · rw [Conn.arm,if_neg hkd,if_pos hkh] at ha
      rcases onHeaders_cases ha with h1 | ⟨-,-,rfl⟩ | ⟨-,e,rfl⟩
      · exact onBlock_over h hn h1 hst'
      · exact h.2 st' hst'
      · rcases hn with hn | hn <;> cases hn
    by_cases hkc : f.head.kind = Kind.continuation
    · rw [Conn.arm,if_neg hkd,if_neg hkh,if_pos hkc] at ha
      exact onContinuation_over h hn ha hst'
    intro hp
    have hkeep := arm_pending hkd hkh hkc (by rw [ha]; exact hst') hp
    exact h.2 st' hkeep.1 hp
  · exact h.2 st' (honly.others i st' hi hst')

end Entries

section HandOver
variable {maxBody i : ℕ} {es : List Event} {c c' d : Conn} {e : Event} {f : Frame} {n : Next} {t : StreamTask}

theorem get?_foldl_dispatchOne {is : List ℕ} {st' : Stream} (h : (is.foldl dispatchOne c).streams.get? i = some st') :
    st'.dispatched = true ∨ i ∉ is ∧ c.streams.get? i = some st' := by
  induction is generalizing c with
  | nil => exact Or.inr ⟨List.not_mem_nil,h⟩
  | cons j is ih =>
    rcases ih h with hd | ⟨hni,hi⟩
    · exact Or.inl hd
    by_cases hij : i = j
    · subst hij
      cases hst : c.streams.get? i with
      | none =>
        simp only [dispatchOne,hst] at hi
        cases hi
      | some st =>
        left
        rcases dispatchOne_cases hst with ht | ⟨u,-,ht⟩
        all_goals
          obtain ⟨s,-,hlife⟩ := ht.get? hi
          rw [if_pos rfl] at hlife
          exact congrArg Life.dispatched hlife
    · rw [get?_dispatchOne_ne hij] at hi
      exact Or.inr ⟨by simp [hij,hni],hi⟩

/-- What the dispatch step leaves waiting was not ready. -/
theorem dispatch_pending {st' : Stream} (h : c.dispatch.streams.get? i = some st') (hp : st'.isPending = true) :
    c.streams.get? i = some st' ∧ isReady st' = false := by
  rcases get?_foldl_dispatchOne h with hd | ⟨hni,hi⟩
  · exact absurd hp (not_pending_of_dispatched hd)
  refine ⟨hi,?_⟩
  by_contra hr
  refine hni (List.mem_map.mpr ⟨(i,st'),List.mem_filter.mpr ⟨KeyMap.get?_eq_some_iff.mp hi,?_⟩,rfl⟩)
  simpa using hr

theorem Conn.isOver.dispatch (h : c.isOver i) : c.dispatch.isOver i := by
  refine ⟨Nat.le_trans h.1 (Nat.le_of_eq (highest_dispatch c).symm),fun st hst hp => ?_⟩
  exact h.2 st (dispatch_pending hst hp).1 hp

theorem Conn.isOver.other (h : c.isOver i) (hs : c'.streams = c.streams)
    (hh : c'.highestClientStream = c.highestClientStream) : c'.isOver i :=
  ⟨Nat.le_trans h.1 (Nat.le_of_eq hh.symm),fun st hst => h.2 st (hs ▸ hst)⟩

/-- A task is spawned by the dispatch step after an arm. -/
theorem spawnedBy_ready (ht : t ∈ c.spawnedBy e) : ∃ f d st, e = .frame f ∧ c.arm f = (d,.dispatch) ∧
    d.streams.get? t.id = some st ∧ isReady st = true ∧ st.isMismatched = false := by
  cases e with
  | frame f =>
    cases hn : c.next (.frame f) with
    | none => simp [spawnedBy,hn] at ht
    | some c' =>
      obtain ⟨-,⟨e,rfl⟩ | ⟨-,d,n,ha,hc⟩⟩ := next_frame hn
      · rw [spawnedBy_none hn (by simp [shutdown,emit])] at ht
        cases ht
      have htasks := arm_tasks ha
      rcases hc with ⟨rfl,rfl⟩ | ⟨-,rfl⟩ | ⟨r,-,rfl⟩
      · obtain ⟨ts,hs⟩ := dispatch_spawns d
        rw [spawnedBy_frame hn (hs.tasks.trans (by rw [htasks]))] at ht
        obtain ⟨st,hst,hr,-,hcl⟩ := hs.ready t ht
        refine ⟨f,d,st,rfl,ha,hst,hr,?_⟩
        rcases hcl with hcl | hcl
        · simp [Stream.isMismatched,hcl]
        · simp [Stream.isMismatched,hcl]
      · rw [spawnedBy_none hn (by simp [htasks])] at ht
        cases ht
      · rw [spawnedBy_none hn (by simp [shutdown,emit,htasks])] at ht
        cases ht
  | hangUp r => cases ht
  | send i data => cases ht
  | finish i => cases ht

theorem isPending_of_ready {st : Stream} (h : isReady st = true) : st.isPending = true := by
  simp only [isReady,Bool.and_eq_true,Bool.not_eq_true',beq_iff_eq] at h
  simp [Stream.isPending,h]

/-- Nothing is handed over for a stream that is over. -/
theorem Conn.isOver.not_spawned (h : c.isOver t.id) : t ∉ c.spawnedBy e := by
  intro ht
  obtain ⟨f,d,st,-,ha,hst,hr,-⟩ := spawnedBy_ready ht
  have hdone := ((h.arm (Or.inl rfl) ha).2 st hst (isPending_of_ready hr)).2
  simp [isReady,hdone] at hr

theorem Conn.isOver.next (h : c.isOver i) (hn : c.next e = some c') (hres : c'.result = none) : c'.isOver i := by
  cases e with
  | frame f =>
    obtain ⟨-,⟨e,rfl⟩ | ⟨-,d,n,ha,hc⟩⟩ := next_frame hn
    · cases hres
    rcases hc with ⟨rfl,rfl⟩ | ⟨rfl,rfl⟩ | ⟨r,-,rfl⟩
    · exact (h.arm (Or.inl rfl) ha).dispatch
    · exact h.arm (Or.inr rfl) ha
    · cases hres
  | hangUp r =>
    simp only [Conn.next] at hn
    split at hn
    · cases hn
    · cases hn
      cases hres
  | send j data =>
    obtain ⟨-,rfl⟩ := next_send hn
    exact h.other rfl rfl
  | finish j =>
    simp only [Conn.next] at hn
    split at hn
    · cases hn
      exact h.other rfl rfl
    · cases hn

theorem onTrailers_ne_again (c : Conn) (f : Frame) (block : Bytes) : (c.onTrailers f block).2 ≠ .again := by
  have hclose (b : Conn) : (b.closeBlock f).2 ≠ .again := by
    unfold closeBlock
    split <;> simp
  unfold onTrailers
  split
  · simp
  split
  · simp
  unfold openBlock
  split
  · exact hclose _
  · simp

/-- A live stream was not handed over. -/
theorem live_entry_waits (hl : Ledger c) (hw : c.isLive i = true) :
    ∃ st, c.streams.get? i = some st ∧ st.dispatched = false := by
  simp only [isLive,Bool.or_eq_true,decide_eq_true_eq] at hw
  rcases hw with hw | hw
  · obtain ⟨st,hst,hop⟩ := stateOf_entry hw (by simp) (by simp)
    refine ⟨st,hst,?_⟩
    have hopen : st.state = .opened := by simpa using hop
    cases hd : st.dispatched with
    | false => rfl
    | true => exact absurd hopen ((hl.lives i st hst).notOpen hd)
  · obtain ⟨st,hst,hop⟩ := stateOf_entry hw (by simp) (by simp)
    have hhalf : st.state = .halfClosedRemote ∧ st.dispatched = false := by simpa using hop
    exact ⟨st,hst,hhalf.2⟩

/-- The arm of a frame that brings trailers. -/
theorem arm_bringsTrailers (hb : c.bringsTrailers f = true) (hs : selfDependent f = false)
    (hn : n = .dispatch ∨ n = .again) (ha : c.arm f = (d,n)) : c.onTrailers f (fragment f) = (d,n) := by
  simp only [bringsTrailers,Bool.and_eq_true,decide_eq_true_eq] at hb
  obtain ⟨⟨⟨⟨hk,hlive⟩,-⟩,-⟩,-⟩ := hb
  rw [Conn.arm,hk,if_neg (by decide),if_pos rfl] at ha
  rcases onHeaders_cases ha with h1 | ⟨hp,hself,-⟩ | ⟨-,e,rfl⟩
  · simp only [isLive,Bool.or_eq_true,decide_eq_true_eq] at hlive
    unfold onBlock at h1
    rcases hlive with hw | hw
    · rw [hw] at h1
      exact h1
    · rw [hw] at h1
      exact h1
  · simp [selfDependent,hp,hself] at hs
  · rcases hn with hn | hn <;> cases hn

theorem trailers_over (hl : Ledger c) (hb : c.bringsTrailers f = true) (hs : selfDependent f = false)
    (hn : c.next (.frame f) = some c') (hres : c'.result = none) : c'.isOver f.head.stream := by
  have hlive : c.isLive f.head.stream = true := by
    simp only [bringsTrailers,Bool.and_eq_true] at hb
    exact hb.1.1.1.2
  have hknown : f.head.stream ≤ c.highestClientStream := by
    obtain ⟨st,hst,-⟩ := live_entry_waits hl hlive
    exact hl.known _ st hst
  obtain ⟨-,⟨e,rfl⟩ | ⟨-,d,n,ha,hc⟩⟩ := next_frame hn
  · cases hres
  have honly := Only.arm c f
  rw [ha] at honly
  have hhigh := Nat.le_trans hknown honly.highest
  rcases hc with ⟨rfl,rfl⟩ | ⟨rfl,rfl⟩ | ⟨r,-,rfl⟩
  · have h := arm_bringsTrailers hb hs (Or.inl rfl) ha
    refine ⟨Nat.le_trans hhigh (Nat.le_of_eq (highest_dispatch d).symm),fun st' hst' hp => ?_⟩
    obtain ⟨hd,hr⟩ := dispatch_pending hst' hp
    obtain ⟨-,st,p,-,hps,rfl,-⟩ := onTrailers_entry hlive (Or.inl rfl) h hd hp
    refine ⟨rfl,?_⟩
    simp only [Stream.isPending,Bool.and_eq_true,Bool.not_eq_true'] at hps
    simpa [isReady,hps.1] using hr
  · have h := arm_bringsTrailers hb hs (Or.inr rfl) ha
    exact absurd (congrArg Prod.snd h) (onTrailers_ne_again c f _)
  · cases hres

/-- Trailers that are whole are read before the request is handed over. -/
theorem trailers_read (hb : c.bringsTrailers f = true) (hs : c.trailersWhole f = true)
    (ht : t ∈ c.spawnedBy (.frame f)) (hid : t.id = f.head.stream) : f.head.has Flag.endHeaders = true ∧
      ∃ hs, (c.dec.decode (fragment f) maxHeaderList).2 = (hs,.ok ()) ∧ hs.any isPseudo = false := by
  obtain ⟨f',d,st',he,ha,hst',hr,hm⟩ := spawnedBy_ready ht
  cases he
  simp only [trailersWhole,Bool.and_eq_true,Bool.not_eq_true',Bool.or_eq_true] at hs
  obtain ⟨hself,hwhole⟩ := hs
  have hlive : c.isLive f.head.stream = true := by
    simp only [bringsTrailers,Bool.and_eq_true] at hb
    exact hb.1.1.1.2
  rw [hid] at hst'
  obtain ⟨hend,st,p,hst,-,rfl,hread⟩ :=
    onTrailers_entry hlive (Or.inl rfl) (arm_bringsTrailers hb hself (Or.inl rfl) ha) hst' (isPending_of_ready hr)
  have hm : st.isMismatched = false := hm
  have hclosed : f.head.has Flag.endHeaders = true := by
    rcases hwhole with (h | h) | h
    · exact h
    · rw [hend] at h
      cases h
    · simp [hst,hm] at h
  exact ⟨hclosed,hread hclosed⟩

/-- Every request handed over was handed over when its trailers, if it has any, had been
read. -/
def HandedWhole (maxBody : ℕ) (es : List Event) : Prop :=
  ∀ t ∈ spawned (Conn.new maxBody) es, ∃ ks e ls u, es = ks ++ e :: ls ∧
    Runs (stepRel Conn.next) (Conn.new maxBody) ks u ∧ t ∈ u.spawnedBy e ∧
      (TrailersBegun maxBody t.id es → TrailersRead maxBody t.id (ks ++ [e]))

theorem run_over (hr : Runs (guarded (stepRel Conn.next) Conn.holdsTrailers) (Conn.new maxBody) es c) :
    ∀ i, TrailersBegun maxBody i es → c.result = none → c.isOver i := by
  refine (hr.invariant (I := fun es c => Runs (stepRel Conn.next) (Conn.new maxBody) es c ∧
    ∀ i, TrailersBegun maxBody i es → c.result = none → c.isOver i) ⟨.nil,?_⟩ ?_).2
  · rintro i ⟨ks,g,ls,-,he,-⟩
    simp at he
  intro es c e c' _ ⟨hr,ih⟩ ⟨hg,hn⟩
  refine ⟨hr.snoc hn,fun i hi hres => ?_⟩
  have hnone : c.result = none := by
    cases hc : c.result with
    | none => rfl
    | some r =>
      cases e with
      | frame f =>
        have := (next_frame hn).1
        rw [hc] at this
        cases this
      | hangUp r => simp [stepRel,next,hc] at hn
      | send j data =>
        obtain ⟨-,rfl⟩ := next_send hn
        exact hc.symm.trans hres
      | finish j =>
        simp only [stepRel,next] at hn
        split at hn
        · cases hn
          exact hc.symm.trans hres
        · cases hn
  rcases (trailersBegun_snoc hr).mp hi with hi | ⟨f,rfl,rfl,hb⟩
  · exact (ih i hi hnone).next hn hres
  · have hwhole := hg hb
    simp only [trailersWhole,Bool.and_eq_true,Bool.not_eq_true'] at hwhole
    exact trailers_over (run_assembled hr).1 hb hwhole.1 hn hres

/-- As long as the trailers received are whole, every request is handed over after them. -/
theorem run_handedWhole (maxBody : ℕ) (es : List Event) (c : Conn)
    (hr : Runs (guarded (stepRel Conn.next) Conn.holdsTrailers) (Conn.new maxBody) es c) : HandedWhole maxBody es := by
  refine (hr.invariant (I := fun es c => Runs (guarded (stepRel Conn.next) Conn.holdsTrailers) (Conn.new maxBody) es c ∧
    HandedWhole maxBody es) ⟨.nil,fun t ht => nomatch ht⟩ ?_).2
  intro es c e c' _ ⟨hrg,ih⟩ ⟨hg,hn⟩
  refine ⟨hrg.snoc ⟨hg,hn⟩,?_⟩
  have hr := hrg.forget
  intro t ht
  rw [spawned_snoc hr] at ht
  rcases List.mem_append.mp ht with hold | hnew
  · obtain ⟨ks,k,ls,u,rfl,hru,hmem,hread⟩ := ih t hold
    refine ⟨ks,k,ls ++ [e],u,by simp,hru,hmem,fun hbegun => ?_⟩
    rcases (trailersBegun_snoc hr).mp hbegun with hb | ⟨f,rfl,hid,hb⟩
    · exact hread hb
    · simp only [bringsTrailers,Bool.and_eq_true] at hb
      obtain ⟨st,hst,hnot⟩ := live_entry_waits (run_assembled hr).1 hb.1.1.1.2
      rw [hid] at hst
      rw [(run_assembled hr).2.1.marked t hold st hst] at hnot
      cases hnot
  · refine ⟨es,e,[],c,rfl,hr,hnew,fun hbegun => ?_⟩
    rcases (trailersBegun_snoc hr).mp hbegun with hb | ⟨f,rfl,hid,hb⟩
    · have hnone : c.result = none := by
        obtain ⟨f,-,-,rfl,-⟩ := spawnedBy_ready hnew
        exact (next_frame hn).1
      exact absurd hnew (run_over hrg t.id hb hnone).not_spawned
    · obtain ⟨hend,hs,hdec,hps⟩ := trailers_read hb (hg hb) hnew hid.symm
      have hk : f.head.kind = Kind.headers := by
        simp only [bringsTrailers,Bool.and_eq_true,decide_eq_true_eq] at hb
        exact hb.1.1.1.1
      refine ⟨es,f,[],c,fragment f,hs,rfl,hr,hid,Or.inl hk,hend,hbegun,?_,hdec,hps⟩
      exact collectOn_complete hid hend (if_pos hk) rfl

def requestHead : Event := .frame (.of Kind.headers Flag.endHeaders 1 [0x82])

/-- A request whose trailers come in one frame. -/
def wholeTrailers : List Event :=
  [requestHead,.frame (.of Kind.headers (Flag.endStream ||| Flag.endHeaders) 1 [0x40,1,97,1,98])]

example : ((Conn.new 1).next requestHead).map (fun c => c.running) = some [] := by decide +kernel

theorem wholeTrailers_handed : ∃ c,
    Runs (guarded (stepRel Conn.next) Conn.holdsTrailers) (Conn.new 1) wholeTrailers c ∧ c.running = [1] ∧
      HandedWhole 1 wholeTrailers := by
  have h : (runList (fun c e => if c.holdsTrailers e then c.next e else none) (Conn.new 1) wholeTrailers).map
      (fun c => c.running) = some [1] := by
    decide +kernel
  obtain ⟨c,hc,hrun⟩ := Option.map_eq_some_iff.mp h
  have hr := Runs.guarded_of_runList hc
  exact ⟨c,hr,hrun,run_handedWhole 1 wholeTrailers c hr⟩

/-- The first half of a trailer block that never ends. -/
def trailerStart : Frame := .of Kind.headers Flag.endStream 1 [0x40]

def brokenTrailers : List Event := [requestHead,.frame trailerStart]

theorem brokenTrailers_not_read {es ls : List Event} (h : brokenTrailers = es ++ ls) : ¬ TrailersRead 1 1 es := by
  rintro ⟨ks,g,ms,c,block,hs,rfl,-,-,-,hend,hbegun,-⟩
  have hstart : ¬ TrailersBegun 1 1 [requestHead] := by
    intro h
    have h : TrailersBegun 1 1 ([] ++ [requestHead]) := h
    rcases (trailersBegun_snoc .nil).mp h with ⟨ks,g,ls,-,he,-⟩ | ⟨f,hf,-,hb⟩
    · simp at he
    · cases hf
      revert hb
      decide +kernel
  rcases ks with _ | ⟨k,_ | ⟨k',ks⟩⟩
  · simp only [brokenTrailers,List.nil_append,List.cons_append,List.cons.injEq] at h
    rw [List.nil_append,← h.1] at hbegun
    exact hstart hbegun
  · simp only [brokenTrailers,List.nil_append,List.cons_append,List.cons.injEq,Event.frame.injEq] at h
    rw [← h.2.1] at hend
    revert hend
    decide
  · simp [brokenTrailers] at h

/-- The request is handed over with its trailers open. -/
theorem brokenTrailers_handed : ∃ c, Runs (stepRel Conn.next) (Conn.new 1) brokenTrailers c ∧
    c.expectContinuation = some 1 ∧ (spawned (Conn.new 1) brokenTrailers).map StreamTask.id = [1] ∧
      ¬ HandedWhole 1 brokenTrailers := by
  have h : (runList Conn.next (Conn.new 1) brokenTrailers).map (fun c => c.expectContinuation) = some (some 1) := by
    decide +kernel
  obtain ⟨c,hc,hexp⟩ := Option.map_eq_some_iff.mp h
  have hspawned : (spawned (Conn.new 1) brokenTrailers).map StreamTask.id = [1] := by decide +kernel
  refine ⟨c,.of_runList hc,hexp,hspawned,fun hh => ?_⟩
  obtain ⟨t,ht,hid⟩ := List.map_eq_singleton_iff.mp hspawned
  obtain ⟨ks,e,ls,u,hes,-,-,hread⟩ := hh t (by rw [ht]; exact List.mem_singleton.mpr rfl)
  rw [hid] at hread
  have hfirst : (runList Conn.next (Conn.new 1) [requestHead]).map (fun c => c.bringsTrailers trailerStart) =
      some true := by
    decide +kernel
  obtain ⟨b,hb,hbrings⟩ := Option.map_eq_some_iff.mp hfirst
  have hbegun : TrailersBegun 1 1 brokenTrailers := ⟨[requestHead],trailerStart,[],b,rfl,.of_runList hb,rfl,hbrings⟩
  have hsplit : brokenTrailers = (ks ++ [e]) ++ ls := by simp [hes]
  exact brokenTrailers_not_read hsplit (hread hbegun)

end HandOver

end OxiServe.Http2
