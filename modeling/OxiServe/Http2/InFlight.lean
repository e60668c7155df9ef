import OxiServe.Http2.Anchored

/-! # Frames in flight on a stream the server reset

Which of the frames a peer sent before it saw an RST_STREAM the reader loop gets
over. That depends on where the stream still stands, and on a run whose resets
all leave an entry behind it is every DATA, WINDOW_UPDATE and RST_STREAM frame.
-/
namespace OxiServe.Http2
open Conn

section Frames

/-- The stream of the header block that is open on the wire. -/
def Act.wireBlock (o : Option ℕ) : Act → Option ℕ
  | .frame f _ =>
    if f.head.kind = Kind.headers then if f.head.has Flag.endHeaders then none else some f.head.stream
    else if f.head.kind = Kind.continuation then if f.head.has Flag.endHeaders then none else o
    else o
  | _ => o

def wireBlock (as : List Act) : Option ℕ := as.foldl Act.wireBlock none

theorem wireBlock_snoc (as : List Act) (a : Act) : wireBlock (as ++ [a]) = a.wireBlock (wireBlock as) := by
  simp [wireBlock,List.foldl_append]

/-- A frame the peer may have sent on one of its streams: well formed, and in the
place of a header block the wire allows. -/
structure InFlight (as : List Act) (f : Frame) : Prop where
  kind : f.head.kind ∈ [Kind.data,Kind.headers,Kind.continuation,Kind.windowUpdate,Kind.rstStream]
  stream : f.head.stream ≠ 0
  odd : f.head.kind = Kind.headers → f.head.stream % 2 = 1
  size : f.head.len ≤ defaultMaxFrame
  padding : f.head.kind = Kind.data ∨ f.head.kind = Kind.headers →
    (unpad f.payload (f.head.has Flag.padded)).isSome = true
  priority : f.head.kind = Kind.headers → f.head.has Flag.priority = true →
    5 ≤ ((unpad f.payload (f.head.has Flag.padded)).getD []).length
  four : f.head.kind = Kind.windowUpdate ∨ f.head.kind = Kind.rstStream → f.head.len = 4
  block : wireBlock as = if f.head.kind = Kind.continuation then some f.head.stream else none

/-- The decoder gets over a complete block. -/
def Conn.decodes (c : Conn) (block : Bytes) : Prop := (c.dec.decode block maxHeaderList).2.2 ≠ .error .compression

/-- Where a stream has to stand for a frame on it to be taken: DATA needs an entry
that was not handed over, HEADERS one that was not reset either, or none at all;
CONTINUATION needs its block to be open; WINDOW_UPDATE and RST_STREAM only an id
that is known. A block that is read has to decode. -/
def Conn.takes (c : Conn) (f : Frame) : Prop :=
  if f.head.kind = Kind.data then
    c.stateOf f.head.stream = .opened ∨ c.stateOf f.head.stream = .halfClosed ∨ c.stateOf f.head.stream = .reset
  else if f.head.kind = Kind.headers then
    selfDependent f = true ∨
      (c.stateOf f.head.stream = .opened ∨ c.stateOf f.head.stream = .halfClosed) ∧
        (f.head.has Flag.endStream = true → f.head.has Flag.endHeaders = true → c.decodes (fragment f)) ∨
      c.stateOf f.head.stream = .idle ∧
        ((aim c f).active < maxConcurrent → f.head.has Flag.endHeaders = true → c.decodes (fragment f))
  else if f.head.kind = Kind.continuation then
    c.expectContinuation = some f.head.stream ∧
      ∀ st, c.streams.get? f.head.stream = some st → st.pending.length + f.payload.length ≤ maxHeaderList * 2 ∧
        (f.head.has Flag.endHeaders = true → c.decodes (st.pending ++ f.payload))
  else c.stateOf f.head.stream ≠ .idle

end Frames

section Results
variable {c d : Conn} {f : Frame} {n : Next}

theorem onData_goesOn (h0 : f.head.stream ≠ 0) (hu : (unpad f.payload (f.head.has Flag.padded)).isSome = true) :
    (c.onData f).2.goesOn ↔ c.stateOf f.head.stream = .opened ∨ c.stateOf f.head.stream = .halfClosed ∨
      c.stateOf f.head.stream = .reset := by
  obtain ⟨data,hd⟩ := Option.isSome_iff_exists.mp hu
  obtain ⟨out,w,he⟩ := replenish_eq { c with recvWindow := c.recvWindow - f.head.len }
  have hst : ({ c with out := out, recvWindow := w } : Conn).stateOf f.head.stream = c.stateOf f.head.stream := rfl
  simp only [onData,if_neg h0,hd,he,hst]
  cases hs : c.stateOf f.head.stream with
  | idle => simp [fail,Next.goesOn]
  | closed => simp [fail,Next.goesOn]
  | reset => simp [Next.goesOn]
  | halfClosed => simp [Next.goesOn]
  | opened =>
    obtain ⟨st,hget,-⟩ := stateOf_entry hs (by simp) (by simp)
    simp only [hget]
    split <;> simp [Next.goesOn]

theorem finishBlock_goesOn {i : ℕ} {st : Stream} (hst : c.streams.get? i = some st) :
    (c.finishBlock i).2 = none ↔ c.decodes st.pending := by
  simp only [finishBlock,hst,decodes]
  cases (c.dec.decode st.pending maxHeaderList).2.2 with
  | error e =>
    cases e with
    | compression => simp
    | tooLarge => simp
  | ok u =>
    by_cases ht : st.pendingIsTrailers = true
    · simp only [ht,if_true]
      split <;> simp
    · simp [ht]

theorem closeBlock_goesOn {st : Stream} (hst : c.streams.get? f.head.stream = some st) :
    (c.closeBlock f).2.goesOn ↔ c.decodes st.pending := by
  rw [← finishBlock_goesOn hst,closeBlock]
  rcases c.finishBlock f.head.stream with ⟨d,_ | e⟩
  · simp [Next.goesOn]
  · simp [Next.goesOn]

theorem openBlock_goesOn {st : Stream} (hst : c.streams.get? f.head.stream = some st) :
    (c.openBlock f).2.goesOn ↔ (f.head.has Flag.endHeaders = true → c.decodes st.pending) := by
  unfold openBlock
  split
  · rename_i he
    rw [closeBlock_goesOn hst]
    simp [he]
  · rename_i he
    simp [he,Next.goesOn]

theorem onTrailers_goesOn (hw : c.stateOf f.head.stream = .opened ∨ c.stateOf f.head.stream = .halfClosed) :
    (c.onTrailers f (fragment f)).2.goesOn ↔
      (f.head.has Flag.endStream = true → f.head.has Flag.endHeaders = true → c.decodes (fragment f)) := by
  obtain ⟨st,hget⟩ : ∃ st, c.streams.get? f.head.stream = some st := by
    rcases hw with hw | hw
    all_goals
      obtain ⟨st,hget,-⟩ := stateOf_entry hw (by simp) (by simp)
      exact ⟨st,hget⟩
  by_cases hend : f.head.has Flag.endStream = true
  · have hget' : (c.modifyStream f.head.stream (fun s =>
        { s with pending := fragment f, pendingIsTrailers := true, state := .halfClosedRemote })).streams.get?
          f.head.stream = some { st with pending := fragment f, pendingIsTrailers := true, state := .halfClosedRemote } := by
      simp [modifyStream,KeyMap.get?_modify,hget]
    have h := openBlock_goesOn hget'
    simp only [onTrailers,hend,hget,Bool.not_true,Bool.false_eq_true,if_false,true_imp_iff]
    exact h
  · simp [onTrailers,hend,Next.goesOn]

theorem onNewStream_goesOn (hw : c.stateOf f.head.stream = .idle) : (c.onNewStream f (fragment f)).2.goesOn ↔
    ((aim c f).active < maxConcurrent → f.head.has Flag.endHeaders = true → c.decodes (fragment f)) := by
  have hlt : ¬ f.head.stream ≤ c.highestClientStream := fun hle => by
    have := stateOf_idle hw
    omega
  have heq : c.onNewStream f (fragment f) =
      if maxConcurrent ≤ (aim c f).active then ((aim c f).emit (rst f.head.stream .refusedStream),.dispatch)
      else ((aim c f).insertStream f (fragment f)).openBlock f := by
    rw [onNewStream,if_neg hlt]
    rfl
  rw [heq]
  by_cases hfull : maxConcurrent ≤ (aim c f).active
  · simp [hfull,Next.goesOn]
  · have hget : ((aim c f).insertStream f (fragment f)).streams.get? f.head.stream =
        some { Stream.new with
          state := if f.head.has Flag.endStream then .halfClosedRemote else .opened
          pending := fragment f } := by
      simp [insertStream,KeyMap.get?_insert]
    rw [if_neg hfull,openBlock_goesOn hget]
    have hd (b : Bytes) : ((aim c f).insertStream f (fragment f)).decodes b ↔ c.decodes b := Iff.rfl
    simp [hd,Nat.lt_of_not_le hfull]

theorem onHeaders_goesOn (h0 : f.head.stream ≠ 0) (hodd : f.head.stream % 2 = 1)
    (hu : (unpad f.payload (f.head.has Flag.padded)).isSome = true)
    (hp : f.head.has Flag.priority = true → 5 ≤ ((unpad f.payload (f.head.has Flag.padded)).getD []).length) :
    (c.onHeaders f).2.goesOn ↔ selfDependent f = true ∨
      (c.stateOf f.head.stream = .opened ∨ c.stateOf f.head.stream = .halfClosed) ∧
        (f.head.has Flag.endStream = true → f.head.has Flag.endHeaders = true → c.decodes (fragment f)) ∨
      c.stateOf f.head.stream = .idle ∧
        ((aim c f).active < maxConcurrent → f.head.has Flag.endHeaders = true → c.decodes (fragment f)) := by
  obtain ⟨block,hd⟩ := Option.isSome_iff_exists.mp hu
  have heven : ¬ f.head.stream % 2 = 0 := by omega
  have heq : c.onHeaders f = if selfDependent f then (c.emit (rst f.head.stream .protocol),.again)
      else c.onBlock f (fragment f) := by
    simp only [onHeaders,if_neg h0,if_neg heven,hd,selfDependent,fragment,Option.getD_some]
    by_cases hpr : f.head.has Flag.priority = true
    · have hlen : ¬ block.length < 5 := by
        have := hp hpr
        rw [hd,Option.getD_some] at this
        omega
      simp [hpr,hlen]
    · simp [hpr]
  rw [heq]
  by_cases hself : selfDependent f = true
  · simp [hself,Next.goesOn]
  rw [if_neg hself]
  cases hw : c.stateOf f.head.stream with
  | opened => simp [onBlock,hw,onTrailers_goesOn (Or.inl hw),hself]
  | halfClosed => simp [onBlock,hw,onTrailers_goesOn (Or.inr hw),hself]
  | closed => simp [onBlock,hw,fail,Next.goesOn,hself]
  | reset => simp [onBlock,hw,fail,Next.goesOn,hself]
  | idle => simp [onBlock,hw,onNewStream_goesOn hw,hself]

theorem onContinuation_goesOn {st : Stream}
    (hst : c.expectContinuation = some f.head.stream → c.streams.get? f.head.stream = some st) :
    (c.onContinuation f).2.goesOn ↔ c.expectContinuation = some f.head.stream ∧
      st.pending.length + f.payload.length ≤ maxHeaderList * 2 ∧
        (f.head.has Flag.endHeaders = true → c.decodes (st.pending ++ f.payload)) := by
  unfold onContinuation
  by_cases he : c.expectContinuation = some f.head.stream
  · simp only [ne_eq,he,not_true_eq_false,if_false,hst he,true_and]
    by_cases hbig : maxHeaderList * 2 < st.pending.length + f.payload.length
    · simp [hbig,fail,Next.goesOn,Nat.not_le.mpr hbig]
    rw [if_neg hbig]
    have hget' : ({ c.modifyStream f.head.stream (fun s =>
        { s with pending := s.pending ++ f.payload }) with expectContinuation := none } : Conn).streams.get?
          f.head.stream = some { st with pending := st.pending ++ f.payload } := by
      simp [modifyStream,KeyMap.get?_modify,hst he]
    have h := closeBlock_goesOn hget'
    split
    · rename_i hend
      simp only [hend,Nat.le_of_not_lt hbig,true_and,true_imp_iff]
      exact h
    · rename_i hend
      simp [hend,Next.goesOn,Nat.le_of_not_lt hbig]
  · simp [he,fail,Next.goesOn]

theorem onRstStream_goesOn (h0 : f.head.stream ≠ 0) (hlen : f.head.len = 4) :
    (c.onRstStream f).2.goesOn ↔ c.stateOf f.head.stream ≠ .idle := by
  unfold onRstStream
  rw [if_neg h0,if_neg (by omega)]
  split
  · rename_i hi
    simp [fail,Next.goesOn,hi]
  · rename_i hi
    split <;> simp [Next.goesOn,hi]

theorem onWindowUpdate_goesOn (h0 : f.head.stream ≠ 0) (hlen : f.head.len = 4) :
    (c.onWindowUpdate f).2.goesOn ↔ c.stateOf f.head.stream ≠ .idle := by
  unfold onWindowUpdate
  rw [if_neg (by omega)]
  by_cases hi : c.stateOf f.head.stream = .idle
  · simp [h0,hi,fail,Next.goesOn]
  · simp only [ne_eq,h0,not_false_eq_true,true_and,hi,if_false]
    repeat' split
    all_goals simp [Next.goesOn]

end Results

section Blocks
variable {c d : Conn} {f : Frame} {n : Next}

/-- The open header block has its entry, and is the one open on the wire. -/
structure BlockOpen (as : List Act) (c : Conn) : Prop where
  entry : ∀ i, c.expectContinuation = some i → (c.streams.get? i).isSome = true
  wire : ∀ i, c.expectContinuation = some i → wireBlock as = some i

theorem expect_finishBlock (c : Conn) (i : ℕ) : (c.finishBlock i).1.expectContinuation = c.expectContinuation := by
  unfold finishBlock
  cases hst : c.streams.get? i with
  | none => rfl
  | some st =>
    dsimp only
    repeat' split
    · rfl
    · exact (Aside.resetStream _ _ _).sameBlocks.expect
    · exact (Aside.resetStream _ _ _).sameBlocks.expect
    · rfl
    · rfl

theorem closeBlock_fst (c : Conn) (f : Frame) : (c.closeBlock f).1 = (c.finishBlock f.head.stream).1 := by
  unfold closeBlock
  split
  · rename_i hf
    rw [hf]
  · rename_i hf
    rw [hf]

/-- Where the arms of HEADERS and CONTINUATION leave the open block. -/
structure Opened (d : Conn) (f : Frame) : Prop where
  mine : ∀ i, d.expectContinuation = some i → i = f.head.stream ∧ f.head.has Flag.endHeaders = false
  entry : ∀ i, d.expectContinuation = some i → (d.streams.get? i).isSome = true

theorem Opened.none (he : d.expectContinuation = none) : Opened d f where
  mine := by
    intro i hi
    rw [he] at hi
    cases hi
  entry := by
    intro i hi
    rw [he] at hi
    cases hi

theorem openBlock_opened (he : c.expectContinuation = none) (hi : (c.streams.get? f.head.stream).isSome = true) :
    Opened (c.openBlock f).1 f := by
  unfold openBlock
  split
  · refine .none ?_
    rw [closeBlock_fst,expect_finishBlock,he]
  · rename_i hend
    refine ⟨fun i h => ?_,fun i h => ?_⟩
    · cases h
      exact ⟨rfl,by simpa using hend⟩
    · cases h
      exact hi

theorem onHeaders_opened (he : c.expectContinuation = none) : Opened (c.onHeaders f).1 f := by
  have hreset (i : ℕ) (code : Code) : (c.resetStream i code).expectContinuation = none :=
    (Aside.resetStream c i code).sameBlocks.expect.trans he
  have htrailers : Opened (c.onTrailers f (fragment f)).1 f := by
    unfold onTrailers
    split
    · exact .none (hreset _ _)
    split
    · exact .none he
    · rename_i st hst
      have h := @openBlock_opened (c.modifyStream f.head.stream (fun s =>
        { s with pending := fragment f, pendingIsTrailers := true, state := .halfClosedRemote })) f he
          (by simp [modifyStream,KeyMap.get?_modify,hst])
      exact ⟨h.mine,h.entry⟩
  have hh : c.onHeaders f = ((c.onHeaders f).1,(c.onHeaders f).2) := rfl
  rcases onHeaders_cases hh with h | ⟨-,-,h⟩ | ⟨h,-⟩
  · have hb : (c.onBlock f (fragment f)).1 = (c.onHeaders f).1 := by rw [h]
    rw [← hb]
    unfold onBlock
    split
    · exact htrailers
    · exact htrailers
    · exact .none he
    · exact .none he
    · unfold onNewStream
      split
      · exact .none he
      dsimp only
      split
      · exact .none he
      · have h := @openBlock_opened ((aim c f).insertStream f (fragment f)) f he
          (by simp [insertStream,KeyMap.get?_insert])
        exact ⟨h.mine,h.entry⟩
  · rw [h]
    exact .none he
  · rw [h]
    exact .none he

theorem onContinuation_opened (hc : ∀ i, c.expectContinuation = some i → (c.streams.get? i).isSome = true)
    (hn : (c.onContinuation f).2.goesOn) : Opened (c.onContinuation f).1 f := by
  unfold onContinuation at hn ⊢
  split
  · rename_i he
    rw [if_pos he] at hn
    exact absurd hn (not_goesOn_ret _)
  rename_i he
  rw [if_neg he] at hn
  have he : c.expectContinuation = some f.head.stream := by simpa using he
  obtain ⟨st,hst⟩ := Option.isSome_iff_exists.mp (hc _ he)
  simp only [hst] at hn ⊢
  split
  · rename_i hbig
    rw [if_pos hbig] at hn
    exact absurd hn (not_goesOn_ret _)
  split
  · refine .none ?_
    rw [closeBlock_fst,expect_finishBlock]
  · rename_i hend
    refine ⟨fun i h => ?_,fun i h => ?_⟩
    · have h : c.expectContinuation = some i := h
      rw [he] at h
      cases h
      exact ⟨rfl,by simpa using hend⟩
    · have h : c.expectContinuation = some i := h
      rw [he] at h
      cases h
      simp [modifyStream,KeyMap.get?_modify,hst]

/-- The other arms do not touch the open block. -/
theorem expect_arm (hh : f.head.kind ≠ Kind.headers) (hk : f.head.kind ≠ Kind.continuation) :
    (c.arm f).1.expectContinuation = c.expectContinuation := by
  unfold arm
  rw [if_neg hh,if_neg hk]
  split
  · exact (onData_aside c f).sameBlocks.expect
  split
  · exact (onPriority_aside c f).sameBlocks.expect
  split
  · exact (onRstStream_aside c f).sameBlocks.expect
  split
  · unfold onSettings
    repeat' split
    all_goals first
      | rfl
      | (rename_i hd
         obtain ⟨dec,mf,w,rfl⟩ := applySettings_eq hd
         rfl)
  split
  · exact (onPing_aside c f).sameBlocks.expect
  split
  · exact (onWindowUpdate_aside c f).sameBlocks.expect
  · repeat' split
    all_goals rfl

theorem dispatch_block (c : Conn) : c.dispatch.expectContinuation = c.expectContinuation ∧
    ∀ i, (c.dispatch.streams.get? i).isSome = (c.streams.get? i).isSome := by
  refine dispatch_induction (P := fun d => d.expectContinuation = c.expectContinuation ∧
    ∀ i, (d.streams.get? i).isSome = (c.streams.get? i).isSome) ⟨rfl,fun _ => rfl⟩ ?_
  intro d i st hd hst _
  refine ⟨?_,fun j => ?_⟩
  · rw [← hd.1]
    unfold dispatchOne
    simp only [hst]
    split
    · split
      · exact (Aside.resetStream _ _ _).sameBlocks.expect
      · rfl
    · rfl
  · rw [← hd.2 j]
    rcases dispatchOne_cases hst with ht | ⟨t,-,ht⟩
    · obtain ⟨g,hg,-⟩ := ht.streams
      rw [hg,KeyMap.get?_mapVals,Option.isSome_map]
    · obtain ⟨g,hg,-⟩ := ht.streams
      rw [hg,KeyMap.get?_mapVals,Option.isSome_map]

theorem BlockOpen.quiet {as bs : List Act} (h : BlockOpen as c) (he : d.expectContinuation = c.expectContinuation)
    (hs : ∀ i, c.expectContinuation = some i → (d.streams.get? i).isSome = (c.streams.get? i).isSome)
    (hw : wireBlock bs = wireBlock as) : BlockOpen bs d where
  entry := by
    intro i hi
    rw [he] at hi
    rw [hs i hi]
    exact h.entry i hi
  wire := by
    intro i hi
    rw [he] at hi
    rw [hw]
    exact h.wire i hi

theorem BlockOpen.arm {as : List Act} {wire : f.head.stream < 2 ^ 31} (h : BlockOpen as c)
    (he : c.expectContinuation = none ∨ f.head.kind = Kind.continuation) (ha : c.arm f = (d,n)) (hn : n.goesOn) :
    BlockOpen (as ++ [.frame f wire]) d := by
  have hd : d = (c.arm f).1 := by rw [ha]
  have hg : (c.arm f).2.goesOn := by rw [ha]; exact hn
  by_cases hh : f.head.kind = Kind.headers
  · have hec : c.expectContinuation = none := by
      rcases he with he | hk
      · exact he
      · rw [hh] at hk
        cases hk
    have hkd : f.head.kind ≠ Kind.data := by rw [hh]; decide
    have ho := onHeaders_opened (c := c) (f := f) hec
    have harm : c.arm f = c.onHeaders f := by rw [Conn.arm,if_neg hkd,if_pos hh]
    rw [← harm,← hd] at ho
    refine ⟨ho.entry,fun i hi => ?_⟩
    obtain ⟨rfl,hend⟩ := ho.mine i hi
    rw [wireBlock_snoc,Act.wireBlock,if_pos hh,if_neg (by simp [hend])]
  by_cases hk : f.head.kind = Kind.continuation
  · have hkd : f.head.kind ≠ Kind.data := by rw [hk]; decide
    have harm : c.arm f = c.onContinuation f := by rw [Conn.arm,if_neg hkd,if_neg hh,if_pos hk]
    rw [harm] at hg
    have ho := onContinuation_opened h.entry hg
    have hec : c.expectContinuation = some f.head.stream := by
      by_contra hne
      rw [onContinuation,if_pos hne] at hg
      exact not_goesOn_ret _ hg
    rw [← harm,← hd] at ho
    refine ⟨ho.entry,fun i hi => ?_⟩
    obtain ⟨rfl,hend⟩ := ho.mine i hi
    rw [wireBlock_snoc,Act.wireBlock,if_neg hh,if_pos hk,if_neg (by simp [hend])]
    exact h.wire _ hec
  · have hec : c.expectContinuation = none := he.resolve_right hk
    refine h.quiet (hd ▸ expect_arm hh hk) (fun i hi => ?_) ?_
    · rw [hec] at hi
      cases hi
    · rw [wireBlock_snoc,Act.wireBlock,if_neg hh,if_neg hk]

/-- While the loop reads, the block the decoder waits for is the one on the wire. -/
theorem run_blockOpen {maxBody : ℕ} {as : List Act} {s : Sys} (hr : Runs (stepRel Sys.step) (Sys.new maxBody) as s) :
    s.conn.result = none → BlockOpen as s.conn := by
  refine hr.invariant (I := fun as s => s.conn.result = none → BlockOpen as s.conn) ?_ ?_
  · intro _
    constructor
    · intro i hi
      cases hi
    · intro i hi
      cases hi
  intro as s a s' _ hs hstep
  have hquiet {id : ℕ} {ks : List UInt8} (ho : Own s s' id ks) (hw : a.wireBlock (wireBlock as) = wireBlock as) :
      s'.conn.result = none → BlockOpen (as ++ [a]) s'.conn := by
    intro hres
    rw [ho.result] at hres
    exact (hs hres).quiet ho.expect (fun i _ => by rw [ho.streams]) (by rw [wireBlock_snoc,hw])
  cases Sys.step_cases hstep with
  | reads hres he hc h =>
    intro hres'
    rw [h] at hres' ⊢
    have hb := hs hres
    rcases he with ⟨f,wire,rfl,rfl⟩ | ⟨r,rfl,rfl⟩
    · obtain ⟨-,⟨e,rfl⟩ | ⟨hexp,d,n,ha,hcase⟩⟩ := next_frame hc
      · cases hres'
      rcases hcase with ⟨rfl,rfl⟩ | ⟨rfl,rfl⟩ | ⟨r,-,rfl⟩
      · obtain ⟨he,hsome⟩ := dispatch_block d
        have hd := @BlockOpen.arm s.conn d f _ as wire hb hexp ha (Or.inl rfl)
        exact hd.quiet he (fun i _ => hsome i) rfl
      · have hd := @BlockOpen.arm s.conn _ f _ as wire hb hexp ha (Or.inr rfl)
        exact hd.quiet rfl (fun _ _ => rfl) rfl
      · cases hres'
    · simp only [next,hres,Option.isSome_none,Bool.false_eq_true,if_false,Option.some.injEq] at hc
      subst hc
      cases hres'
  | turn _ ht => exact hquiet ht.own rfl
  | reply _ _ ha => exact hquiet ha.own rfl
  | writerGone hg =>
    intro hres
    rw [hg] at hres ⊢
    exact (hs hres).quiet rfl (fun _ _ => rfl) (by rw [wireBlock_snoc]; rfl)

end Blocks

section Entries
variable {c d : Conn} {f : Frame} {n : Next} {i : ℕ}

/-- The stream has an entry that says it was reset. -/
def Conn.showsReset (c : Conn) (i : ℕ) : Prop := ∃ st, c.streams.get? i = some st ∧ st.state = .reset

theorem stateOf_showsReset : c.stateOf i = .reset ↔ c.showsReset i := by
  constructor
  · intro h
    obtain ⟨st,hst,hs⟩ := stateOf_entry h (by simp) (by simp)
    simp at hs
    exact ⟨st,hst,hs⟩
  · rintro ⟨st,hst,hs⟩
    simp [stateOf,hst,hs]

theorem hasReset_quietly (h : Quietly c d) : d.hasReset i ↔ c.hasReset i := by
  obtain ⟨new,ho,hn⟩ := h
  unfold hasReset
  rw [ho]
  constructor
  · rintro ⟨b,hb,hk,hs⟩
    rcases List.mem_append.mp hb with hb | hb
    · exact ⟨b,hb,hk,hs⟩
    · have := hn b hb
      simp [isControl,hk] at this
  · rintro ⟨b,hb,hk,hs⟩
    exact ⟨b,List.mem_append_left _ hb,hk,hs⟩

theorem hasReset_rst {code : Code} {j : ℕ} (ho : d.out = c.out ++ [rst j code]) (hj : j < 2 ^ 31) :
    d.hasReset i ↔ c.hasReset i ∨ i = j := by
  have hmod : j % 2 ^ 31 = j := Nat.mod_eq_of_lt hj
  unfold hasReset
  rw [ho]
  constructor
  · rintro ⟨b,hb,hk,hs⟩
    rcases List.mem_append.mp hb with hb | hb
    · exact Or.inl ⟨b,hb,hk,hs⟩
    · rw [List.mem_singleton.mp hb,rst,streamOf_writeFrame,hmod] at hs
      exact Or.inr hs.symm
  · rintro (⟨b,hb,hk,hs⟩ | rfl)
    · exact ⟨b,List.mem_append_left _ hb,hk,hs⟩
    · exact ⟨_,List.mem_append_right _ (List.mem_singleton.mpr rfl),by simp [rst],by rw [rst,streamOf_writeFrame,hmod]⟩

theorem showsReset_resetStream {st : Stream} (h : c.streams.get? i = some st) (code : Code) :
    (c.resetStream i code).showsReset i :=
  ⟨{ st with state := .reset },by rw [get?_resetStream,h,Option.map_some],rfl⟩

/-- The resets an answer queues are those from before, a marked one on its own
stream, or one that leaves no mark. -/
theorem Answer.hasReset (h : Answer c f d) (hw : f.head.stream < 2 ^ 31) (hi : d.hasReset i) :
    c.hasReset i ∨ i = f.head.stream ∧ (d.showsReset i ∨ c.resetsUnmarked f = true) := by
  cases h with
  | quiet hq => exact Or.inl ((hasReset_quietly hq).mp hi)
  | reset hq hst _ he =>
    subst he
    rcases (hasReset_rst (out_resetStream _ _ _) hw).mp hi with hi | rfl
    · exact Or.inl ((hasReset_quietly hq).mp hi)
    · exact Or.inr ⟨rfl,Or.inl (showsReset_resetStream hst _)⟩
  | unmarked hq hu ho =>
    rcases (hasReset_rst ho hw).mp hi with hi | rfl
    · exact Or.inl ((hasReset_quietly hq).mp hi)
    · exact Or.inr ⟨rfl,Or.inr hu⟩

/-- A reset entry stays, unless a new stream has it dropped. -/
theorem showsReset_arm (ha : c.arm f = (d,n)) (hi : c.showsReset i)
    (hk : f.head.kind = Kind.headers → c.stateOf f.head.stream = .idle → ∀ st, c.streams.get? i = some st →
      ¬ (st.dispatched = true ∧ (c.flows i).done = true)) : d.showsReset i := by
  obtain ⟨st,hst,hs⟩ := hi
  have hfate (hf : Fate c f d) : d.showsReset i := by
    have hlife {φ : Life → Life} (ht : Touch c d f.head.stream φ)
        (hφ : ∀ l : Life, l.state = .reset → (φ l).state = .reset) : d.showsReset i := by
      obtain ⟨st',hst',hl⟩ := ht.get?_of hst
      refine ⟨st',hst',?_⟩
      change (d.life i st').state = .reset
      rw [hl]
      split
      · exact hφ _ hs
      · exact hs
    cases hf with
    | kept ht => exact hlife ht (fun _ h => h)
    | closed ht =>
      refine hlife ht (fun l h => ?_)
      simp [Life.close,h]
    | resetByServer _ ht => exact hlife ht (fun _ _ => rfl)
    | resetByPeer _ ht => exact hlife ht (fun _ _ => rfl)
  by_cases hh : f.head.kind = Kind.headers
  · rcases arm_cases ha with hf | ⟨hidle,ho⟩
    · exact hfate hf
    · have hne : i ≠ f.head.stream := by
        intro he
        rw [he,(stateOf_idle hidle).1] at hst
        cases hst
      have haim : (aim c f).streams.get? i = some st := by
        simp only [aim,reap,KeyMap.get?_retain,Option.filter_eq_some_iff]
        refine ⟨hst,?_⟩
        have hn := hk hh hidle st hst
        by_cases hd : st.dispatched = true
        · have hdone : (c.flows i).done = false := by simpa [hd] using hn
          simp [hdone]
        · simp [hd]
      obtain ⟨st',hst',hs',-⟩ := ho.aimed.2.2 i st hne haim
      exact ⟨st',hst',hs'.trans hs⟩
  · exact hfate (arm_fate hh ha)

/-- Every stream the server reset shows it. -/
def Covered (c : Conn) : Prop := ∀ i, c.hasReset i → c.showsReset i

theorem showsReset_dispatchOne {j : ℕ} {st : Stream} (hst : c.streams.get? j = some st) (hr : isReady st = true)
    (hi : c.showsReset i) : (c.dispatchOne j).showsReset i := by
  obtain ⟨s,hs,hreset⟩ := hi
  have hij : i ≠ j := by
    intro he
    rw [he,hst] at hs
    cases hs
    simp [isReady,hreset] at hr
  exact ⟨s,by rw [get?_dispatchOne_ne hij]; exact hs,hreset⟩

theorem showsReset_dispatch (hi : c.showsReset i) : c.dispatch.showsReset i :=
  dispatch_induction (P := fun d => d.showsReset i) hi (fun _ _ _ hd hst hr => showsReset_dispatchOne hst hr hd)

/-- Handing a stream over queues nothing, or the reset of that stream. -/
theorem out_dispatchOne {j : ℕ} {st : Stream} (hst : c.streams.get? j = some st) : (c.dispatchOne j).out = c.out ∨
    (c.dispatchOne j).out = c.out ++ [rst j .protocol] ∧ (c.dispatchOne j).tasks = c.tasks ∧
      (c.dispatchOne j).showsReset j := by
  have hget : ((c.modifyStream j (fun s => { s with dispatched := true })).modifyFlow j
      (fun w => { w with done := true })).streams.get? j = some { st with dispatched := true } := by
    simp [modifyFlow,modifyStream,KeyMap.get?_modify,hst]
  have ht := Touch.resetStream _ j .protocol hget
  have ho := out_resetStream ((c.modifyStream j (fun s => { s with dispatched := true })).modifyFlow j
      (fun w => { w with done := true })) j .protocol
  unfold Conn.dispatchOne
  simp only [hst]
  split
  · split
    · exact Or.inr ⟨ho,ht.tasks,showsReset_resetStream hget .protocol⟩
    · exact Or.inl rfl
  · exact Or.inl rfl

theorem Covered.dispatchOne {j : ℕ} {st : Stream} (h : Covered c) (hst : c.streams.get? j = some st)
    (hr : isReady st = true) (hj : j < 2 ^ 31) : Covered (c.dispatchOne j) := by
  intro i hi
  rcases out_dispatchOne hst with ho | ⟨ho,-,hs⟩
  · exact showsReset_dispatchOne hst hr (h i (by rwa [Conn.hasReset,ho] at hi))
  · rcases (hasReset_rst ho hj).mp hi with hi | rfl
    · exact showsReset_dispatchOne hst hr (h i hi)
    · exact hs

theorem Covered.dispatch (h : Covered c) (hl : Ledger c) (hw : c.highestClientStream < 2 ^ 31) : Covered c.dispatch := by
  refine (dispatch_induction (P := fun d => (Ledger d ∧ d.highestClientStream < 2 ^ 31) ∧ Covered d) ⟨⟨hl,hw⟩,h⟩ ?_).2
  intro d j st ⟨⟨hl,hw⟩,hd⟩ hst hr
  have hhigh : (d.dispatchOne j).highestClientStream = d.highestClientStream := by
    rcases dispatchOne_cases hst with ht | ⟨t,-,ht⟩
    · exact ht.highest
    · exact ht.highest
  exact ⟨⟨hl.dispatchOne hst hr,hhigh ▸ hw⟩,hd.dispatchOne hst hr (Nat.lt_of_le_of_lt (hl.known j st hst) hw)⟩

end Entries

section Run

/-- The steps that keep the entry of every stream the server reset: none is reset
without a mark, no new stream drops such an entry, and no task resets its stream
because its request is malformed. -/
def KeepsEntries (s : Sys) : Act → Prop
  | .frame f _ => (s.conn.resetsUnmarked f = true → s.conn.stateOf f.head.stream = .reset) ∧
    (f.head.kind = Kind.headers → s.conn.stateOf f.head.stream = .idle → ∀ i st, s.conn.hasReset i →
      s.conn.streams.get? i = some st → ¬ (st.dispatched = true ∧ (s.conn.flows i).done = true))
  | .turn id => s.progs id = .start → ∀ task ∈ s.conn.tasks, task.id = id → ∃ r, task.request = .ok r
  | _ => True

theorem hasReset_own {s s' : Sys} {id i : ℕ} {ks : List UInt8} (ho : Own s s' id ks) (hk : Kind.rstStream ∉ ks)
    (hi : s'.conn.hasReset i) : s.conn.hasReset i := by
  obtain ⟨new,hout,hn⟩ := ho.out
  obtain ⟨b,hb,hkind,hs⟩ := hi
  rw [hout] at hb
  rcases List.mem_append.mp hb with hb | hb
  · exact ⟨b,hb,hkind,hs⟩
  · exact absurd (hkind ▸ (hn b hb).2) hk

theorem covered_own {s s' : Sys} {id : ℕ} {ks : List UInt8} (h : Covered s.conn) (ho : Own s s' id ks)
    (hk : Kind.rstStream ∉ ks) : Covered s'.conn := by
  intro i hi
  obtain ⟨st,hst,hs⟩ := h i (hasReset_own ho hk hi)
  exact ⟨st,by rw [ho.streams]; exact hst,hs⟩

theorem covered_reads {c c' : Conn} {f : Frame} (h : Covered c) (hl : Ledger c) (hw : c.highestClientStream < 2 ^ 31)
    (wire : f.head.stream < 2 ^ 31) (hu : c.resetsUnmarked f = true → c.stateOf f.head.stream = .reset)
    (hk : f.head.kind = Kind.headers → c.stateOf f.head.stream = .idle → ∀ i st, c.hasReset i →
      c.streams.get? i = some st → ¬ (st.dispatched = true ∧ (c.flows i).done = true))
    (hn : c.next (.frame f) = some c') : (∀ i, c.hasReset i → c'.showsReset i) ∧ Covered c' := by
  have hshut {d : Conn} (r : Except ConnErr Unit) (hd : (∀ i, c.hasReset i → d.showsReset i) ∧ Covered d) :
      (∀ i, c.hasReset i → (d.shutdown r).showsReset i) ∧ Covered (d.shutdown r) :=
    ⟨hd.1,fun i hi => hd.2 i ((hasReset_quietly (Quietly.shutdown d r)).mp hi)⟩
  obtain ⟨-,⟨e,rfl⟩ | ⟨-,d,n,ha,hcase⟩⟩ := next_frame hn
  · exact hshut _ ⟨h,h⟩
  have hold : ∀ i, c.hasReset i → d.showsReset i := fun i hi =>
    showsReset_arm ha (h i hi) (fun hh hidle st hst => hk hh hidle i st hi hst)
  have hd : Covered d := by
    intro i hi
    rcases (arm_answer ha).hasReset wire hi with hi | ⟨rfl,hi | hi⟩
    · exact hold i hi
    · exact hi
    · have hs := stateOf_showsReset.mp (hu hi)
      refine showsReset_arm ha hs (fun _ hidle => ?_)
      rw [hu hi] at hidle
      cases hidle
  have hld := hl.arm ha
  have hwd : d.highestClientStream < 2 ^ 31 := by
    rcases highest_arm ha with h | h
    · rw [h]
      exact hw
    · rw [h]
      exact wire
  rcases hcase with ⟨-,rfl⟩ | ⟨-,rfl⟩ | ⟨r,-,rfl⟩
  · exact ⟨fun i hi => showsReset_dispatch (hold i hi),hd.dispatch hld hwd⟩
  · exact ⟨hold,hd⟩
  · exact hshut r ⟨hold,hd⟩

theorem run_covered {maxBody : ℕ} {as : List Act} {s : Sys}
    (hr : Runs (Runs.guarded (stepRel Sys.step) KeepsEntries) (Sys.new maxBody) as s) : Covered s.conn := by
  refine (hr.invariant (I := fun as s => Runs (stepRel Sys.step) (Sys.new maxBody) as s ∧ Covered s.conn)
    ⟨.nil,?_⟩ ?_).2
  · rintro i ⟨b,hb,hk,-⟩
    have hcontrol := control_new maxBody b hb
    simp [isControl,hk] at hcontrol
  rintro as s a s' _ ⟨hrun,hs⟩ ⟨hg,hstep⟩
  refine ⟨hrun.snoc hstep,?_⟩
  cases Sys.step_cases hstep with
  | @reads _ _ c hres he hc h =>
    rw [h]
    rcases he with ⟨f,wire,rfl,rfl⟩ | ⟨r,rfl,rfl⟩
    · obtain ⟨hold,hnew⟩ := covered_reads hs (run_anchored hrun).1 (run_wired hrun) wire hg.1 hg.2 hc
      intro i hi
      by_cases hgone : s.gone = true
      · have hi : s.conn.hasReset i := by simpa [hasReset,hgone] using hi
        exact hold i hi
      · have hi : c.hasReset i := by simpa [hasReset,hgone] using hi
        exact hnew i hi
    · simp only [next,hres,Option.isSome_none,Bool.false_eq_true,if_false,Option.some.injEq] at hc
      subst hc
      intro i hi
      refine hs i ?_
      by_cases hgone : s.gone = true
      · simpa [hasReset,hgone] using hi
      · have hi : (s.conn.shutdown r).hasReset i := by simpa [hasReset,hgone] using hi
        exact (hasReset_quietly (Quietly.shutdown _ r)).mp hi
  | turn _ ht => exact covered_own hs (ht.own_of_handed hg) (by decide)
  | reply _ _ ha => exact covered_own hs ha.own (by decide)
  | writerGone h =>
    rw [h]
    exact hs

/-- A frame that the peer may have sent reads on just when its stream takes it. -/
theorem readsOn_iff_takes {as : List Act} {c : Conn} {f : Frame} (hf : InFlight as f) (hres : c.result = none)
    (hb : BlockOpen as c) : c.readsOn f ↔ c.takes f := by
  have hblock := hf.block
  have he : f.head.kind ≠ Kind.continuation → c.expectContinuation = none := by
    intro hk
    rw [if_neg hk] at hblock
    cases h : c.expectContinuation with
    | none => rfl
    | some i =>
      have := hb.wire i h
      rw [hblock] at this
      cases this
  by_cases hk : f.head.kind = Kind.continuation
  · have hkd : f.head.kind ≠ Kind.data := by rw [hk]; decide
    have hkh : f.head.kind ≠ Kind.headers := by rw [hk]; decide
    rw [if_pos hk] at hblock
    have harm : c.arm f = c.onContinuation f := by rw [arm,if_neg hkd,if_neg hkh,if_pos hk]
    rw [takes,if_neg hkd,if_neg hkh,if_pos hk]
    cases h : c.expectContinuation with
    | none =>
      have hn := @onContinuation_goesOn c f Stream.new (fun hs => by
        rw [h] at hs
        cases hs)
      rw [readsOn_iff hres hf.size (Or.inl h),harm,hn,h]
      simp
    | some i =>
      have hi := hb.wire i h
      rw [hblock] at hi
      cases hi
      obtain ⟨st,hst⟩ := Option.isSome_iff_exists.mp (hb.entry _ h)
      rw [readsOn_iff hres hf.size (Or.inr ⟨hk,h⟩),harm,onContinuation_goesOn (fun _ => hst),h]
      simp [hst]
  · have hexp := he hk
    rw [readsOn_iff hres hf.size (Or.inl hexp)]
    have hkinds := hf.kind
    simp only [List.mem_cons,List.not_mem_nil,or_false] at hkinds
    unfold arm takes
    rcases hkinds with hd | hd | hd | hd | hd
    · rw [if_pos hd,if_pos hd]
      exact onData_goesOn hf.stream (hf.padding (Or.inl hd))
    · have hkd : f.head.kind ≠ Kind.data := by rw [hd]; decide
      rw [if_neg hkd,if_neg hkd,if_pos hd,if_pos hd]
      exact onHeaders_goesOn hf.stream (hf.odd hd) (hf.padding (Or.inr hd)) (hf.priority hd)
    · exact absurd hd hk
    · simp only [hd,Kind.windowUpdate,Kind.data,Kind.headers,Kind.continuation,Kind.priority,Kind.rstStream,
        Kind.settings,Kind.ping]
      exact onWindowUpdate_goesOn hf.stream (hf.four (Or.inl hd))
    · simp only [hd,Kind.windowUpdate,Kind.data,Kind.headers,Kind.continuation,Kind.priority,Kind.rstStream]
      exact onRstStream_goesOn hf.stream (hf.four (Or.inr hd))

/-- Along every run a frame in flight on a stream the server reset is taken just
when the stream stands where its kind needs it. On the runs whose resets all leave
an entry DATA, WINDOW_UPDATE and RST_STREAM frames always are. -/
theorem run_takesInFlight (maxBody : ℕ) (as : List Act) (s : Sys) (f : Frame)
    (hr : Runs (stepRel Sys.step) (Sys.new maxBody) as s) (hres : s.conn.result = none)
    (hreset : s.conn.hasReset f.head.stream) (hf : InFlight as f) :
    (s.conn.readsOn f ↔ s.conn.takes f) ∧
      (Runs (Runs.guarded (stepRel Sys.step) KeepsEntries) (Sys.new maxBody) as s →
        f.head.kind ≠ Kind.headers → f.head.kind ≠ Kind.continuation → s.conn.readsOn f) := by
  have hiff := readsOn_iff_takes hf hres (run_blockOpen hr hres)
  refine ⟨hiff,fun hg hh hk => hiff.mpr ?_⟩
  have hs := stateOf_showsReset.mpr (run_covered hg _ hreset)
  simp [takes,hh,hk,hs]

/-- An upload larger than the server takes. -/
def longUpload : List Act :=
  [.frame (.of Kind.headers Flag.endHeaders 1 []) (by decide),.frame (.of Kind.data 0 1 [97,98]) (by decide)]

theorem longUpload_takesInFlight : ∃ s, Runs (stepRel Sys.step) (Sys.new 1) longUpload s ∧
    s.conn.hasReset 1 ∧ s.conn.readsOn (.of Kind.data 0 1 [99]) := by
  have h : (runList Sys.step (Sys.new 1) longUpload).map (fun s => (s.conn.result.isNone,
      s.conn.out.any (fun b => kindOf b == Kind.rstStream && streamOf b == 1),s.conn.stateOf 1)) =
        some (true,true,.reset) := by
    decide +kernel
  obtain ⟨s,hs,hv⟩ := Option.map_eq_some_iff.mp h
  simp only [Prod.mk.injEq,Option.isNone_iff_eq_none,List.any_eq_true,Bool.and_eq_true,beq_iff_eq] at hv
  obtain ⟨hres,hreset,hstate⟩ := hv
  have hf : InFlight longUpload (.of Kind.data 0 1 [99]) := by
    constructor <;> decide +kernel
  refine ⟨s,.of_runList hs,hreset,?_⟩
  refine (run_takesInFlight 1 longUpload s (.of Kind.data 0 1 [99]) (.of_runList hs) hres hreset hf).1.mpr ?_
  exact Or.inr (Or.inr hstate)

/-- Its trailers end the connection. -/
theorem longUpload_fails : ∃ s, Runs (stepRel Sys.step) (Sys.new 1) longUpload s ∧ s.conn.result = none ∧
    s.conn.hasReset 1 ∧ InFlight longUpload (.of Kind.headers (Flag.endStream ||| Flag.endHeaders) 1 []) ∧
      ¬ s.conn.readsOn (.of Kind.headers (Flag.endStream ||| Flag.endHeaders) 1 []) := by
  have h : (runList Sys.step (Sys.new 1) longUpload).map (fun s => (s.conn.result.isNone,
      s.conn.out.any (fun b => kindOf b == Kind.rstStream && streamOf b == 1),
      (s.conn.next (.frame (.of Kind.headers (Flag.endStream ||| Flag.endHeaders) 1 []))).all
        (fun c => c.result.isSome))) = some (true,true,true) := by
    decide +kernel
  obtain ⟨s,hs,hv⟩ := Option.map_eq_some_iff.mp h
  simp only [Prod.mk.injEq,Option.isNone_iff_eq_none,List.any_eq_true,Bool.and_eq_true,beq_iff_eq] at hv
  obtain ⟨hres,hreset,hfail⟩ := hv
  refine ⟨s,.of_runList hs,hres,hreset,?_,?_⟩
  · constructor <;> decide +kernel
  · rintro ⟨c,hc,hnone⟩
    rw [hc] at hfail
    simp [hnone] at hfail

end Run

end OxiServe.Http2
