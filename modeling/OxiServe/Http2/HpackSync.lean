import OxiServe.Http2.HpackTable
import OxiServe.Http2.Concurrency

/-! # The HPACK table over a whole connection

The header blocks of a connection are collected from its frames alone and
compared with the blocks the reader loop hands to its decoder. Where the loop
skips no block, cuts none short and leaves the size of the table to the encoder
on the other side, the decoder holds the table RFC 7541 prescribes.
-/
namespace OxiServe.Http2
open Conn Hpack

section Collect

/-- The complete header blocks seen so far and the one still open. -/
structure Collected where
  complete : List Bytes
  pending : Bytes

namespace Collected

def add (s : Collected) (f : Frame) (b : Bytes) : Collected :=
  if f.head.has Flag.endHeaders then ⟨s.complete ++ [b],[]⟩ else ⟨s.complete,b⟩

def frame (s : Collected) (f : Frame) : Collected :=
  if f.head.kind = Kind.headers then s.add f (fragment f)
  else if f.head.kind = Kind.continuation then s.add f (s.pending ++ f.payload)
  else s

def event (s : Collected) : Event → Collected
  | .frame f => s.frame f
  | _ => s

end Collected

def collect (es : List Event) : Collected := es.foldl Collected.event ⟨[],[]⟩

theorem collect_snoc (es : List Event) (e : Event) : collect (es ++ [e]) = (collect es).event e := by
  simp [collect,List.foldl_append]

/-- The table size both ends start from; the server never announces another. -/
def tableLimit : ℕ := 4096

/-- Every block received went to the decoder, once, whole and in order, and its
table is the one the RFC prescribes for them. -/
structure Synced (es : List Event) (c : Conn) : Prop where
  fed : c.fed = (collect es).complete
  table : ∃ t, Blocks tableLimit (.empty tableLimit) (collect es).complete t ∧ c.dec.dynamic = t.entries

/-- The frame depends on itself. -/
def selfDependent (f : Frame) : Bool :=
  f.head.has Flag.priority &&
    Frame.first31 ((unpad f.payload (f.head.has Flag.padded)).getD []) = f.head.stream

/-- A block that is legal for the table the decoder holds, with its header list
within the limit. -/
def LegalBlock (c : Conn) (block : Bytes) : Prop :=
  ∃ t hs u, Agrees c.dec t ∧ Block tableLimit t block hs u ∧ BoundedFifo.total entrySize hs ≤ maxHeaderList

/-- The frames that leave the decoder with the prescribed table: a HEADERS frame
is neither reset nor refused before its block is read, a completed block is
legal and within the limit, and no announced table size is below the current
one. -/
structure KeepsFrame (c : Conn) (f : Frame) : Prop where
  independent : f.head.kind = Kind.headers → selfDependent f = false
  trailers : f.head.kind = Kind.headers → c.stateOf f.head.stream ≠ .idle → f.head.has Flag.endStream = true
  accepted : f.head.kind = Kind.headers → c.stateOf f.head.stream = .idle → (aim c f).active < maxConcurrent
  block : f.head.kind = Kind.headers → f.head.has Flag.endHeaders = true → LegalBlock c (fragment f)
  continued : f.head.kind = Kind.continuation → f.head.has Flag.endHeaders = true →
    ∀ st, c.streams.get? f.head.stream = some st → LegalBlock c (st.pending ++ f.payload)
  tableSize : f.head.kind = Kind.settings →
    ∀ v, (Setting.headerTableSize,v) ∈ settingsPairs f.payload → c.dec.maxSize ≤ v

def KeepsSync (c : Conn) : Event → Prop
  | .frame f => KeepsFrame c f
  | _ => True

end Collect

section Frame

/-- Everything but the stream table, the windows and the output is unchanged. -/
def Aside (c c' : Conn) : Prop :=
  ∃ out streams flows cw rw,
    c' = { c with out := out, streams := streams, flows := flows, connWindow := cw, recvWindow := rw }

theorem Aside.resetStream (c : Conn) (i : ℕ) (code : Code) : Aside c (c.resetStream i code) := by
  unfold Conn.resetStream
  dsimp only
  split <;> exact ⟨_,_,_,_,_,rfl⟩

theorem Aside.trans {c d e : Conn} (h1 : Aside c d) (h2 : Aside d e) : Aside c e := by
  obtain ⟨_,_,_,_,_,rfl⟩ := h1
  obtain ⟨_,_,_,_,_,rfl⟩ := h2
  exact ⟨_,_,_,_,_,rfl⟩

theorem onData_aside (c : Conn) (f : Frame) : Aside c (c.onData f).1 := by
  unfold onData
  split
  · exact ⟨_,_,_,_,_,rfl⟩
  · obtain ⟨out,w,he⟩ := replenish_eq { c with recvWindow := c.recvWindow - f.head.len }
    dsimp only
    rw [he]
    have hq : Aside c { c with out := out, recvWindow := w } := ⟨_,_,_,_,_,rfl⟩
    repeat' split
    all_goals first
      | exact hq
      | exact hq.trans (.resetStream _ _ _)
      | exact ⟨_,_,_,_,_,rfl⟩

theorem onRstStream_aside (c : Conn) (f : Frame) : Aside c (c.onRstStream f).1 := by
  unfold onRstStream
  repeat' split
  all_goals exact ⟨_,_,_,_,_,rfl⟩

theorem onPriority_aside (c : Conn) (f : Frame) : Aside c (c.onPriority f).1 := by
  unfold onPriority
  repeat' split
  all_goals exact ⟨_,_,_,_,_,rfl⟩

theorem onPing_aside (c : Conn) (f : Frame) : Aside c (c.onPing f).1 := by
  unfold onPing
  repeat' split
  all_goals exact ⟨_,_,_,_,_,rfl⟩

theorem onWindowUpdate_aside (c : Conn) (f : Frame) : Aside c (c.onWindowUpdate f).1 := by
  unfold onWindowUpdate
  repeat' split
  all_goals first
    | exact .resetStream _ _ _
    | exact ⟨_,_,_,_,_,rfl⟩

end Frame

section Tracks

/-- The parts of a connection that concern header blocks. -/
structure SameBlocks (c c' : Conn) : Prop where
  dec : c'.dec = c.dec
  fed : c'.fed = c.fed
  expect : c'.expectContinuation = c.expectContinuation
  result : c'.result = c.result

theorem Aside.sameBlocks {c c' : Conn} (h : Aside c c') : SameBlocks c c' := by
  obtain ⟨_,_,_,_,_,rfl⟩ := h
  exact ⟨rfl,rfl,rfl,rfl⟩

theorem SameBlocks.trans {c d e : Conn} (h1 : SameBlocks c d) (h2 : SameBlocks d e) : SameBlocks c e :=
  ⟨h2.dec.trans h1.dec,h2.fed.trans h1.fed,h2.expect.trans h1.expect,h2.result.trans h1.result⟩

/-- The decoder holds the table of the blocks collected so far, and the open
block is the one pending on its stream. -/
structure Tracks (s : Collected) (c : Conn) : Prop where
  fed : c.fed = s.complete
  table : ∃ t, Blocks tableLimit (.empty tableLimit) s.complete t ∧ Agrees c.dec t
  pending : ∀ i, c.expectContinuation = some i → ∃ st, c.streams.get? i = some st ∧ st.pending = s.pending

theorem Tracks.quiet {s : Collected} {c c' : Conn} (h : Tracks s c) (hs : SameBlocks c c')
    (he : c.expectContinuation = none) : Tracks s c' where
  fed := hs.fed.trans h.fed
  table := by
    rw [hs.dec]
    exact h.table
  pending := by
    intro i hi
    rw [hs.expect,he] at hi
    cases hi

theorem Tracks.keepPending {s : Collected} {c c' : Conn} (h : Tracks s c) (hs : SameBlocks c c')
    (hp : ∀ i, (c'.streams.get? i).map Stream.pending = (c.streams.get? i).map Stream.pending) : Tracks s c' where
  fed := hs.fed.trans h.fed
  table := by
    rw [hs.dec]
    exact h.table
  pending := by
    intro i hi
    rw [hs.expect] at hi
    obtain ⟨st,hst,hpend⟩ := h.pending i hi
    have := hp i
    rw [hst,Option.map_some] at this
    obtain ⟨st',hst',he⟩ := Option.map_eq_some_iff.mp this
    exact ⟨st',hst',he.trans hpend⟩

theorem agrees_unique {d : Decoder} {t u : Table} (h1 : Agrees d t) (h2 : Agrees d u) : t = u :=
  Table.ext (h1.dynamic.symm.trans h2.dynamic) (h1.maxSize.symm.trans h2.maxSize)

/-- A completed block that the decoder does not refuse. -/
theorem Tracks.feed {s : Collected} {c c' : Conn} {i : ℕ} {block : Bytes} (h : Tracks s c)
    (hl : LegalBlock c block) (hd : (c.dec.decode block maxHeaderList).2.2 ≠ .error .compression)
    (hs : SameBlocks (c.feed i block) c') (he : c'.expectContinuation = none) :
    Tracks ⟨s.complete ++ [block],[]⟩ c' := by
  obtain ⟨t,hs',u,hag,hblock,hle⟩ := hl
  obtain ⟨t',hblocks,hag'⟩ := h.table
  obtain rfl := agrees_unique hag hag'
  rcases hblock.decode hag hle with hbad | ⟨-,hu,-⟩
  · exact absurd hbad hd
  refine ⟨?_,⟨u,hblocks.snoc hblock,?_⟩,?_⟩
  · rw [hs.fed]
    change c.fed ++ [block] = _
    rw [h.fed]
  · rw [hs.dec]
    exact hu
  · intro i hi
    rw [he] at hi
    cases hi

theorem finishBlock_blocks {c c' : Conn} {i : ℕ} {st : Stream} (hst : c.streams.get? i = some st)
    (h : c.finishBlock i = (c',none)) :
    SameBlocks (c.feed i st.pending) c' ∧ (c.dec.decode st.pending maxHeaderList).2.2 ≠ .error .compression := by
  simp only [finishBlock,hst] at h
  revert h
  cases (c.dec.decode st.pending maxHeaderList).2.2 with
  | error e =>
    cases e with
    | compression => intro h; cases h
    | tooLarge =>
      intro h
      cases h
      exact ⟨(Aside.resetStream _ _ _).sameBlocks,by simp⟩
  | ok u =>
    intro h
    refine ⟨?_,by simp⟩
    by_cases ht : st.pendingIsTrailers = true
    · simp only [ht,if_true] at h
      split at h
      · cases h
        exact (Aside.resetStream _ _ _).sameBlocks
      · cases h
        exact ⟨rfl,rfl,rfl,rfl⟩
    · simp only [ht] at h
      cases h
      exact ⟨rfl,rfl,rfl,rfl⟩

/-- The end of a header arm: the block is fed, or stays open. -/
theorem Tracks.closeBlock {s : Collected} {c b d : Conn} {f : Frame} {st : Stream} {n : Next} (h : Tracks s c)
    (hb : b.dec = c.dec ∧ b.fed = c.fed) (hst : b.streams.get? f.head.stream = some st)
    (he : b.expectContinuation = none) (hl : LegalBlock c st.pending)
    (hc : b.closeBlock f = (d,n)) (hn : n = .dispatch ∨ n = .again) :
    Tracks ⟨s.complete ++ [st.pending],[]⟩ d := by
  have hb' : Tracks s b := by
    refine ⟨hb.2.trans h.fed,?_,?_⟩
    · rw [hb.1]
      exact h.table
    · intro i hi
      rw [he] at hi
      cases hi
  have hl' : LegalBlock b st.pending := by
    unfold LegalBlock
    rw [hb.1]
    exact hl
  unfold Conn.closeBlock at hc
  split at hc
  · cases hc
    simp at hn
  · rename_i d' hd
    cases hc
    obtain ⟨hsame,hok⟩ := finishBlock_blocks hst hd
    exact hb'.feed hl' hok hsame (hsame.expect.trans he)

/-- A HEADERS frame that is neither reset nor refused opens its whole fragment. -/
theorem onHeaders_open {c d : Conn} {f : Frame} {n : Next} (hk : f.head.kind = Kind.headers)
    (hg : KeepsFrame c f) (h : c.onHeaders f = (d,n)) (hn : n = .dispatch ∨ n = .again) :
    ∃ b st, SameBlocks c b ∧ b.streams.get? f.head.stream = some st ∧ st.pending = fragment f ∧
      b.openBlock f = (d,n) := by
  have hfail {code : Code} {why : String} (h : c.fail code why = (d,n)) : False := by
    cases h
    simp at hn
  have htrailers (hw : c.stateOf f.head.stream ≠ .idle) (h : c.onTrailers f (fragment f) = (d,n)) :
      ∃ b st, SameBlocks c b ∧ b.streams.get? f.head.stream = some st ∧ st.pending = fragment f ∧
        b.openBlock f = (d,n) := by
    have hend := hg.trailers hk hw
    cases hget : c.streams.get? f.head.stream with
    | none =>
      simp [onTrailers,hend,hget] at h
      rcases hn with hn | hn <;> simp [← h.2] at hn
    | some st =>
      simp only [onTrailers,hend,hget,Bool.not_true,Bool.false_eq_true,if_false] at h
      refine ⟨_,{ st with pending := fragment f, pendingIsTrailers := true, state := .halfClosedRemote },
        ?_,?_,rfl,h⟩
      · exact ⟨rfl,rfl,rfl,rfl⟩
      · simp [modifyStream,KeyMap.get?_modify,hget]
  rcases onHeaders_cases h with h1 | ⟨hp,hself,-⟩ | ⟨-,e,rfl⟩
  · unfold onBlock at h1
    split at h1
    · rename_i hw
      exact htrailers (by simp [hw]) h1
    · rename_i hw
      exact htrailers (by simp [hw]) h1
    · exact (hfail h1).elim
    · exact (hfail h1).elim
    · rename_i hw
      have hlt := (stateOf_idle hw).2
      have hact := hg.accepted hk hw
      rw [onNewStream,if_neg (by omega)] at h1
      change (if maxConcurrent ≤ (aim c f).active then _ else _) = _ at h1
      rw [if_neg (by omega)] at h1
      refine ⟨_,{ Stream.new with
        state := if f.head.has Flag.endStream then .halfClosedRemote else .opened
        pending := fragment f },?_,?_,rfl,h1⟩
      · exact ⟨rfl,rfl,rfl,rfl⟩
      · simp [insertStream,KeyMap.get?_insert]
  · have := hg.independent hk
    simp [selfDependent,hp,hself] at this
  · simp at hn

theorem Tracks.onHeaders {s : Collected} {c d : Conn} {f : Frame} {n : Next} (h : Tracks s c)
    (hk : f.head.kind = Kind.headers) (he : c.expectContinuation = none) (hg : KeepsFrame c f)
    (ha : c.onHeaders f = (d,n)) (hn : n = .dispatch ∨ n = .again) : Tracks (s.frame f) d := by
  obtain ⟨b,st,hsame,hst,hp,ho⟩ := onHeaders_open hk hg ha hn
  rw [Collected.frame,if_pos hk,Collected.add]
  unfold openBlock at ho
  by_cases hend : f.head.has Flag.endHeaders = true
  · rw [if_pos hend] at ho ⊢
    rw [← hp]
    exact h.closeBlock ⟨hsame.dec,hsame.fed⟩ hst (hsame.expect.trans he) (hp ▸ hg.block hk hend) ho hn
  · rw [if_neg hend] at ho ⊢
    cases ho
    refine ⟨hsame.fed.trans h.fed,?_,?_⟩
    · rw [hsame.dec]
      exact h.table
    · intro i hi
      cases hi
      exact ⟨st,hst,hp⟩

theorem Tracks.onContinuation {s : Collected} {c d : Conn} {f : Frame} {n : Next} (h : Tracks s c)
    (hk : f.head.kind = Kind.continuation) (hg : KeepsFrame c f)
    (ha : c.onContinuation f = (d,n)) (hn : n = .dispatch ∨ n = .again) : Tracks (s.frame f) d := by
  have hfail {code : Code} {why : String} (h : c.fail code why = (d,n)) : False := by
    cases h
    simp at hn
  have hkh : f.head.kind ≠ Kind.headers := by rw [hk]; decide
  rw [Collected.frame,if_neg hkh,if_pos hk,Collected.add]
  unfold Conn.onContinuation at ha
  split at ha
  · exact (hfail ha).elim
  rename_i hexp
  simp only [ne_eq,not_not] at hexp
  obtain ⟨st,hst,hp⟩ := h.pending _ hexp
  simp only [hst] at ha
  split at ha
  · exact (hfail ha).elim
  by_cases hend : f.head.has Flag.endHeaders = true
  · rw [if_pos hend] at ha ⊢
    rw [← hp]
    have hget : ({ c.modifyStream f.head.stream (fun s => { s with pending := s.pending ++ f.payload }) with
        expectContinuation := none } : Conn).streams.get? f.head.stream =
          some { st with pending := st.pending ++ f.payload } := by
      simp [modifyStream,KeyMap.get?_modify,hst]
    refine h.closeBlock (b := { c.modifyStream f.head.stream (fun s =>
      { s with pending := s.pending ++ f.payload }) with expectContinuation := none }) ⟨rfl,rfl⟩ hget rfl ?_ ha hn
    exact hg.continued hk hend st hst
  · rw [if_neg hend] at ha ⊢
    cases ha
    refine ⟨h.fed,h.table,?_⟩
    intro i hi
    obtain rfl : f.head.stream = i := by
      rw [← Option.some.injEq,← hexp]
      exact hi
    refine ⟨{ st with pending := st.pending ++ f.payload },?_,?_⟩
    · simp [modifyStream,KeyMap.get?_modify,hst]
    · simp [hp]

/-- Settings that do not shrink the table leave it as it is. -/
theorem applySettings_agrees {c c' : Conn} {ps : List (ℕ × ℕ)} {t : Table}
    (h : c.applySettings ps = (c',none)) (ha : Agrees c.dec t)
    (hv : ∀ v, (Setting.headerTableSize,v) ∈ ps → t.maxSize ≤ v) : Agrees c'.dec t := by
  induction ps generalizing c with
  | nil =>
    cases h
    exact ha
  | cons p ps ih =>
    obtain ⟨i,v⟩ := p
    have hone : Agrees (c.applySetting i v).1.dec t := by
      unfold applySetting
      repeat' split
      all_goals first
        | exact ha
        | skip
      rename_i hi
      refine ha.setMaxSize ?_
      rw [ha.maxSize]
      exact hv v (by simp [hi])
    unfold applySettings at h
    split at h
    · cases h
    · rename_i d hd
      rw [hd] at hone
      exact ih h hone (fun w hw => hv w (List.mem_cons_of_mem _ hw))

theorem Tracks.onSettings {s : Collected} {c d : Conn} {f : Frame} {n : Next} (h : Tracks s c)
    (hk : f.head.kind = Kind.settings) (he : c.expectContinuation = none) (hg : KeepsFrame c f)
    (ha : c.onSettings f = (d,n)) (hn : n = .dispatch ∨ n = .again) : Tracks s d := by
  have hfail {code : Code} {why : String} (h : c.fail code why = (d,n)) : False := by
    cases h
    simp at hn
  unfold Conn.onSettings at ha
  split at ha
  · exact (hfail ha).elim
  split at ha
  · split at ha
    · exact (hfail ha).elim
    · cases ha
      exact h
  split at ha
  · exact (hfail ha).elim
  split at ha
  · cases ha
    simp at hn
  · rename_i b hb
    cases ha
    obtain ⟨t,hblocks,hag⟩ := h.table
    have hag' := applySettings_agrees hb hag (fun v hv => by
      rw [← hag.maxSize]
      exact hg.tableSize hk v hv)
    obtain ⟨dec,mf,w,rfl⟩ := applySettings_eq hb
    refine ⟨h.fed,⟨t,hblocks,hag'⟩,?_⟩
    intro i hi
    change c.expectContinuation = some i at hi
    rw [he] at hi
    cases hi

/-- One turn of the loop up to the dispatch step. -/
theorem Tracks.arm {s : Collected} {c d : Conn} {f : Frame} {n : Next} (h : Tracks s c)
    (he : c.expectContinuation = none ∨ f.head.kind = Kind.continuation) (hg : KeepsFrame c f)
    (ha : c.arm f = (d,n)) (hn : n = .dispatch ∨ n = .again) : Tracks (s.frame f) d := by
  by_cases hkc : f.head.kind = Kind.continuation
  · have : c.arm f = c.onContinuation f := by
      rw [Conn.arm,if_neg (by rw [hkc]; decide),if_neg (by rw [hkc]; decide),if_pos hkc]
    rw [this] at ha
    exact h.onContinuation hkc hg ha hn
  have he : c.expectContinuation = none := he.resolve_right hkc
  have hside {x : Conn × Next} (hx : Aside c x.1) (hxa : x = (d,n)) : Tracks s d := by
    rw [hxa] at hx
    exact h.quiet hx.sameBlocks he
  by_cases hkh : f.head.kind = Kind.headers
  · have : c.arm f = c.onHeaders f := by
      rw [Conn.arm,if_neg (by rw [hkh]; decide),if_pos hkh]
    rw [this] at ha
    exact h.onHeaders hkh he hg ha hn
  rw [Collected.frame,if_neg hkh,if_neg hkc]
  unfold Conn.arm at ha
  split at ha
  · exact hside (onData_aside c f) ha
  split at ha
  · exact hside (onPriority_aside c f) ha
  split at ha
  · exact hside (onRstStream_aside c f) ha
  split at ha
  · rename_i hks
    exact h.onSettings hks he hg ha hn
  split at ha
  · exact hside (onPing_aside c f) ha
  split at ha
  · exact hside (onWindowUpdate_aside c f) ha
  split at ha
  · cases ha
    simp at hn
  split at ha
  · cases ha
    simp at hn
  · cases ha
    exact h

end Tracks

section Run

theorem pending_modifyStream (c : Conn) (i j : ℕ) {f : Stream → Stream} (hf : ∀ s, (f s).pending = s.pending) :
    ((c.modifyStream i f).streams.get? j).map Stream.pending = (c.streams.get? j).map Stream.pending := by
  simp only [modifyStream,KeyMap.get?_modify]
  split
  · rw [Option.map_map]
    congr 1
    funext s
    exact hf s
  · rfl

theorem pending_resetStream (c : Conn) (i j : ℕ) (code : Code) :
    ((c.resetStream i code).streams.get? j).map Stream.pending = (c.streams.get? j).map Stream.pending := by
  unfold resetStream
  dsimp only
  split
  · exact pending_modifyStream (c.emit (rst i code)) i j (fun _ => rfl)
  · rfl

theorem dispatchOne_blocks (c : Conn) (i : ℕ) :
    SameBlocks c (c.dispatchOne i) ∧
      ∀ j, ((c.dispatchOne i).streams.get? j).map Stream.pending = (c.streams.get? j).map Stream.pending := by
  have hspawn (st : Stream) : SameBlocks c ((c.modifyStream i (fun s => { s with dispatched := true })).spawnStream i st) ∧
      ∀ j, (((c.modifyStream i (fun s => { s with dispatched := true })).spawnStream i st).streams.get? j).map
        Stream.pending = (c.streams.get? j).map Stream.pending := by
    refine ⟨⟨rfl,rfl,rfl,rfl⟩,fun j => ?_⟩
    refine (pending_modifyStream (c.modifyStream i (fun s => { s with dispatched := true })) i j
      (f := fun s => { s with headers := [], body := [] }) (fun _ => rfl)).trans ?_
    exact pending_modifyStream c i j (f := fun s => { s with dispatched := true }) (fun _ => rfl)
  unfold dispatchOne
  split
  · exact ⟨⟨rfl,rfl,rfl,rfl⟩,fun _ => rfl⟩
  · dsimp only
    split
    · split
      · constructor
        · have h1 : SameBlocks c ((c.modifyStream i (fun s => { s with dispatched := true })).modifyFlow i
              (fun w => { w with done := true })) := ⟨rfl,rfl,rfl,rfl⟩
          exact h1.trans (Aside.resetStream _ _ _).sameBlocks
        · intro j
          rw [pending_resetStream]
          exact pending_modifyStream c i j (fun _ => rfl)
      · exact hspawn _
    · exact hspawn _

theorem Tracks.dispatch {s : Collected} {c : Conn} (h : Tracks s c) : Tracks s c.dispatch := by
  refine dispatch_induction (P := Tracks s) h ?_
  intro d i _ hd _ _
  obtain ⟨hsame,hp⟩ := dispatchOne_blocks d i
  exact hd.keepPending hsame hp

/-- The reader loop has not returned an error. -/
def Conn.healthy (c : Conn) : Prop := ∀ e, c.result ≠ some (.error e)

/-- A frame after which the loop goes on or has returned cleanly. -/
theorem next_frame_cases {c c' : Conn} {f : Frame} (h : c.next (.frame f) = some c') (hh : c'.healthy) :
    c.result = none ∧ (c.expectContinuation = none ∨ f.head.kind = Kind.continuation) ∧
      ∃ d n, c.arm f = (d,n) ∧ ((n = .dispatch ∧ c' = d.dispatch) ∨ (n = .again ∧ c' = d) ∨
        (n = .ret (.ok ()) ∧ c' = d.shutdown (.ok ()))) := by
  obtain ⟨hres,⟨e,rfl⟩ | ⟨hexp,d,n,ha,hc⟩⟩ := next_frame h
  · exact (hh e rfl).elim
  · refine ⟨hres,hexp,d,n,ha,?_⟩
    rcases hc with hc | hc | ⟨r,rfl,rfl⟩
    · exact Or.inl hc
    · exact Or.inr (Or.inl hc)
    · cases r with
      | ok u => exact Or.inr (Or.inr ⟨rfl,rfl⟩)
      | error e => exact (hh e rfl).elim

section Return
variable (c : Conn) (f : Frame)

theorem closeBlock_ret : (c.closeBlock f).2 ≠ .ret (.ok ()) := by
  unfold closeBlock
  split <;> simp

theorem openBlock_ret : (c.openBlock f).2 ≠ .ret (.ok ()) := by
  unfold openBlock
  split
  · exact closeBlock_ret c f
  · simp

theorem onBlock_ret (b : Bytes) : (c.onBlock f b).2 ≠ .ret (.ok ()) := by
  unfold onBlock onTrailers onNewStream
  dsimp only
  repeat' split
  all_goals first
    | exact openBlock_ret _ _
    | simp [fail]

theorem onHeaders_ret : (c.onHeaders f).2 ≠ .ret (.ok ()) := by
  unfold onHeaders
  repeat' split
  all_goals first
    | exact onBlock_ret _ _ _
    | simp [fail]

theorem onContinuation_ret : (c.onContinuation f).2 ≠ .ret (.ok ()) := by
  unfold onContinuation
  dsimp only
  repeat' split
  all_goals first
    | exact closeBlock_ret _ _
    | simp [fail]

theorem onSettings_ret : (c.onSettings f).2 ≠ .ret (.ok ()) := by
  unfold onSettings
  repeat' split
  all_goals simp [fail]

theorem onData_ret : (c.onData f).2 ≠ .ret (.ok ()) := by
  unfold onData
  dsimp only
  repeat' split
  all_goals simp [fail]

theorem onWindowUpdate_ret : (c.onWindowUpdate f).2 ≠ .ret (.ok ()) := by
  unfold onWindowUpdate
  repeat' split
  all_goals simp [fail]

end Return

/-- Only a GOAWAY frame makes the loop return cleanly, and it changes nothing. -/
theorem arm_ret_ok {c d : Conn} {f : Frame} (h : c.arm f = (d,.ret (.ok ()))) :
    d = c ∧ f.head.kind = Kind.goaway := by
  have hnot {x : Conn × Next} (hx : x.2 ≠ .ret (.ok ())) (he : x = (d,.ret (.ok ()))) : False := by
    rw [he] at hx
    exact hx rfl
  unfold Conn.arm at h
  split at h
  · exact (hnot (onData_ret c f) h).elim
  split at h
  · exact (hnot (onHeaders_ret c f) h).elim
  split at h
  · exact (hnot (onContinuation_ret c f) h).elim
  split at h
  · refine (hnot ?_ h).elim
    unfold onPriority
    repeat' split
    all_goals simp [fail]
  split at h
  · refine (hnot ?_ h).elim
    unfold onRstStream
    repeat' split
    all_goals simp [fail]
  split at h
  · exact (hnot (onSettings_ret c f) h).elim
  split at h
  · refine (hnot ?_ h).elim
    unfold onPing
    repeat' split
    all_goals simp [fail]
  split at h
  · exact (hnot (onWindowUpdate_ret c f) h).elim
  split at h
  · rename_i hk
    cases h
    exact ⟨rfl,hk⟩
  split at h
  · cases h
  · cases h

example : ((Conn.new 0).arm (.of Kind.goaway 0 0 [])).2 = .ret (.ok ()) := by decide +kernel

theorem Tracks.next {s : Collected} {c c' : Conn} {e : Event} (h : c.healthy → Tracks s c) (hg : KeepsSync c e)
    (hn : c.next e = some c') (hh : c'.healthy) : Tracks (s.event e) c' := by
  cases e with
  | frame f =>
    obtain ⟨hres,hexp,d,n,ha,hcase⟩ := next_frame_cases hn hh
    have hc : Tracks s c := h (by simp [Conn.healthy,hres])
    rcases hcase with ⟨hnn,rfl⟩ | ⟨hnn,rfl⟩ | ⟨rfl,rfl⟩
    · exact (hc.arm hexp hg ha (Or.inl hnn)).dispatch
    · exact hc.arm hexp hg ha (Or.inr hnn)
    · obtain ⟨rfl,hk⟩ := arm_ret_ok ha
      have hs : s.frame f = s := by
        rw [Collected.frame,if_neg (by rw [hk]; decide),if_neg (by rw [hk]; decide)]
      simp only [Collected.event,hs]
      exact ⟨hc.fed,hc.table,hc.pending⟩
  | hangUp r =>
    simp only [Conn.next] at hn
    split at hn
    · cases hn
    · rename_i hres
      have hc : Tracks s c := h (by
        have : c.result = none := by simpa using hres
        simp [Conn.healthy,this])
      cases hn
      exact ⟨hc.fed,hc.table,hc.pending⟩
  | send i data =>
    simp only [Conn.next] at hn
    split at hn
    · cases hn
      have hc : Tracks s c := h hh
      exact ⟨hc.fed,hc.table,hc.pending⟩
    · cases hn
  | finish i =>
    simp only [Conn.next] at hn
    split at hn
    · cases hn
      have hc : Tracks s c := h hh
      exact ⟨hc.fed,hc.table,hc.pending⟩
    · cases hn

/-- Along every run of frames that skips no block, cuts none short and does not
shrink the table from outside, the decoder is in step with the other side. -/
theorem run_synced (maxBody : ℕ) (es : List Event) (c : Conn)
    (hr : Runs (Runs.guarded (stepRel Conn.next) KeepsSync) (Conn.new maxBody) es c) (hh : c.healthy) :
    Synced es c := by
  have htracks : c.healthy → Tracks (collect es) c := by
    refine hr.invariant (I := fun es d => d.healthy → Tracks (collect es) d) ?_ ?_
    · intro _
      refine ⟨rfl,⟨_,.nil,agrees_new _⟩,?_⟩
      intro i hi
      cases hi
    · intro ks d e d' _ hd hs hh'
      rw [collect_snoc]
      exact Tracks.next hd hs.1 hs.2 hh'
  obtain ⟨hfed,⟨t,hblocks,hag⟩,-⟩ := htracks hh
  exact ⟨hfed,t,hblocks,hag.dynamic⟩

/-- A field `a: b` that the encoder adds to the table. -/
def sampleBlock : Bytes := [0x40,1,97,1,98]

theorem sampleBlock_legal (maxBody : ℕ) : LegalBlock (Conn.new maxBody) sampleBlock := by
  refine ⟨.empty tableLimit,[⟨[97],[98]⟩],(Table.empty tableLimit).insert ⟨[97],[98]⟩,agrees_new _,?_,?_⟩
  · have hp : parseRepresentation sampleBlock = some (.incremental (.new [97]) [98],[]) := by decide +kernel
    have ha : (Table.empty tableLimit).apply tableLimit (.incremental (.new [97]) [98]) =
        some ((Table.empty tableLimit).insert ⟨[97],[98]⟩,[⟨[97],[98]⟩]) := rfl
    exact Block.cons hp ha (.nil _)
  · decide +kernel

def sampleRequest : Event :=
  .frame (.of Kind.headers (Flag.endStream ||| Flag.endHeaders) 1 sampleBlock)

theorem sampleRequest_synced : ∃ c,
    Runs (Runs.guarded (stepRel Conn.next) KeepsSync) (Conn.new 0) [sampleRequest] c ∧
      c.dec.dynamic = [⟨[97],[98]⟩] ∧ Synced [sampleRequest] c := by
  have h : ((Conn.new 0).next sampleRequest).map (fun c => (c.result.isNone,c.dec.dynamic)) =
      some (true,[⟨[97],[98]⟩]) := by
    decide +kernel
  obtain ⟨c,hc,hl⟩ := Option.map_eq_some_iff.mp h
  simp only [Prod.mk.injEq,Option.isNone_iff_eq_none] at hl
  have hg : KeepsSync (Conn.new 0) sampleRequest :=
    { independent := fun _ => by decide +kernel
      trailers := fun _ hw => absurd (by decide +kernel) hw
      accepted := fun _ _ => by decide +kernel
      block := fun _ _ => sampleBlock_legal 0
      continued := fun hk => absurd hk (by decide +kernel)
      tableSize := fun hk => absurd hk (by decide +kernel) }
  have hr : Runs (Runs.guarded (stepRel Conn.next) KeepsSync) (Conn.new 0) [sampleRequest] c :=
    Runs.single ⟨hg,hc⟩
  exact ⟨c,hr,hl.2,run_synced 0 [sampleRequest] c hr (by simp [Conn.healthy,hl.1])⟩

/-- The same block on a stream that depends on itself. -/
def sampleDependent : Event :=
  .frame (.of Kind.headers (Flag.endStream ||| Flag.endHeaders ||| Flag.priority) 1 ([0,0,0,1,16] ++ sampleBlock))

theorem sampleDependent_unsynced : ∃ c, Runs (stepRel Conn.next) (Conn.new 0) [sampleDependent] c ∧ c.healthy ∧
    ¬ Synced [sampleDependent] c := by
  have h : ((Conn.new 0).next sampleDependent).map (fun c => (c.result.isNone,c.fed)) = some (true,[]) := by
    decide +kernel
  obtain ⟨c,hc,hl⟩ := Option.map_eq_some_iff.mp h
  simp only [Prod.mk.injEq,Option.isNone_iff_eq_none] at hl
  have hblocks : (collect [sampleDependent]).complete = [sampleBlock] := by decide +kernel
  refine ⟨c,Runs.single hc,by simp [Conn.healthy,hl.1],fun hs => ?_⟩
  have hfed := hs.fed
  rw [hl.2,hblocks] at hfed
  cases hfed

end Run

end OxiServe.Http2
