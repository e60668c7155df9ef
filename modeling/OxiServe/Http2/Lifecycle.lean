import OxiServe.Http2.Conn

/-! # What a frame does to the life of a stream

The life of a stream is its state, whether its request was handed over and
whether its flow cell is marked done. An arm of the reader loop changes the life
of at most the stream of its frame, in one of four ways, or opens a new stream;
the invariants of the connection are derived from that alone.
-/
namespace OxiServe.Http2

structure Life where
  state : State
  dispatched : Bool
  done : Bool
deriving DecidableEq, Repr

namespace Life

def close (l : Life) : Life := if l.state = .opened then { l with state := .halfClosedRemote } else l

def resetByServer (l : Life) : Life := { l with state := .reset, done := true }

def resetByPeer (l : Life) : Life := { l with state := .reset }

end Life

namespace Conn

def life (c : Conn) (id : ℕ) (st : Stream) : Life := ⟨st.state,st.dispatched,(c.flows id).done⟩

def isPseudo (h : Hpack.Header) : Bool := h.name.head? == some 58

/-- A complete header block that `finishBlock` answers with a reset. -/
def badBlock (c : Conn) (trailers : Bool) (block : Bytes) : Bool :=
  match (c.dec.decode block maxHeaderList).2.2 with
  | .error .tooLarge => true
  | .error .compression => false
  | .ok () => trailers && (c.dec.decode block maxHeaderList).2.1.any isPseudo

/-- The header block fragment a HEADERS frame carries. -/
def fragment (f : Frame) : Bytes :=
  let block := (unpad f.payload (f.head.has Flag.padded)).getD []
  if f.head.has Flag.priority then block.drop 5 else block

/-- The DATA frame would take the body past `client_max_body_size`. -/
def overlong (c : Conn) (f : Frame) : Bool :=
  (c.streams.get? f.head.stream).any (fun st =>
    c.clientMaxBodySize < st.body.length + ((unpad f.payload (f.head.has Flag.padded)).getD []).length)

/-- The frames on which the server resets the stream they are on. -/
def serverResets (c : Conn) (f : Frame) : Bool :=
  if f.head.kind = Kind.data then
    match c.stateOf f.head.stream with
    | .reset => true
    | .halfClosed => true
    | .opened => c.overlong f
    | _ => false
  else if f.head.kind = Kind.headers then
    match c.stateOf f.head.stream with
    | .idle => f.head.has Flag.endHeaders && c.badBlock false (fragment f)
    | _ => !f.head.has Flag.endStream || (f.head.has Flag.endHeaders && c.badBlock true (fragment f))
  else if f.head.kind = Kind.continuation then
    f.head.has Flag.endHeaders &&
      (c.streams.get? f.head.stream).any (fun st => c.badBlock st.pendingIsTrailers (st.pending ++ f.payload))
  else if f.head.kind = Kind.windowUpdate then
    f.head.stream ≠ 0 && (Frame.first31 f.payload = 0 ||
      maxWindow < (c.flows f.head.stream).window + Frame.first31 f.payload)
  else false

end Conn

section Touch
open Conn

/-- Only the life of stream `i` changes, by `φ`, and no task starts or ends. -/
structure Touch (c c' : Conn) (i : ℕ) (φ : Life → Life) : Prop where
  streams : ∃ g : ℕ → Stream → Stream, c'.streams = c.streams.mapVals g ∧
    ∀ id st, c.streams.get? id = some st →
      c'.life id (g id st) = if id = i then φ (c.life id st) else c.life id st
  tasks : c'.tasks = c.tasks
  highest : c'.highestClientStream = c.highestClientStream

theorem mapVals_self {κ α : Type*} (m : KeyMap κ α) : m.mapVals (fun _ a => a) = m := by
  apply KeyMap.ext
  simp [KeyMap.mapVals]

theorem mapVals_mapVals {κ α : Type*} (m : KeyMap κ α) (f g : κ → α → α) :
    (m.mapVals f).mapVals g = m.mapVals (fun k a => g k (f k a)) := by
  apply KeyMap.ext
  simp [KeyMap.mapVals]

namespace Touch
variable {c c' d : Conn} {i : ℕ} {φ ψ : Life → Life}

/-- Fields outside the life of a stream may change freely. -/
theorem quiet (hs : c'.streams = c.streams) (hd : ∀ id, (c'.flows id).done = (c.flows id).done)
    (ht : c'.tasks = c.tasks) (hh : c'.highestClientStream = c.highestClientStream) : Touch c c' i id := by
  refine ⟨⟨fun _ s => s,by rw [hs,mapVals_self],?_⟩,ht,hh⟩
  intro j st _
  simp [life,hd]

theorem trans (h1 : Touch c c' i φ) (h2 : Touch c' d i ψ) : Touch c d i (ψ ∘ φ) := by
  obtain ⟨⟨g,hg,hl⟩,ht,hh⟩ := h1
  obtain ⟨⟨g',hg',hl'⟩,ht',hh'⟩ := h2
  refine ⟨⟨fun k a => g' k (g k a),by rw [hg',hg,mapVals_mapVals],?_⟩,ht'.trans ht,hh'.trans hh⟩
  intro j st hst
  rw [hl' j (g j st) (by rw [hg,KeyMap.get?_mapVals,hst,Option.map_some]),hl j st hst]
  by_cases hj : j = i
  · simp [hj]
  · simp [hj]

theorem get? (h : Touch c c' i φ) {j : ℕ} {st' : Stream} (hj : c'.streams.get? j = some st') :
    ∃ st, c.streams.get? j = some st ∧
      c'.life j st' = if j = i then φ (c.life j st) else c.life j st := by
  obtain ⟨g,hg,hl⟩ := h.streams
  rw [hg,KeyMap.get?_mapVals] at hj
  obtain ⟨st,hst,rfl⟩ := Option.map_eq_some_iff.mp hj
  exact ⟨st,hst,hl j st hst⟩

theorem get?_of (h : Touch c c' i φ) {j : ℕ} {st : Stream} (hj : c.streams.get? j = some st) :
    ∃ st', c'.streams.get? j = some st' ∧
      c'.life j st' = if j = i then φ (c.life j st) else c.life j st := by
  obtain ⟨g,hg,hl⟩ := h.streams
  exact ⟨g j st,by rw [hg,KeyMap.get?_mapVals,hj,Option.map_some],hl j st hj⟩

theorem size (h : Touch c c' i φ) : c'.streams.size = c.streams.size := by
  obtain ⟨g,hg,-⟩ := h.streams
  rw [hg,KeyMap.size_mapVals]

theorem running (h : Touch c c' i φ) : c'.running = c.running := by
  rw [Conn.running,h.tasks,Conn.running]

/-- Marking streams done can only lower the number that count. -/
theorem active_le (h : Touch c c' i φ) (hφ : ∀ l : Life, l.done = true → (φ l).done = true) :
    c'.active ≤ c.active := by
  obtain ⟨g,hg,hl⟩ := h.streams
  rw [active,active,hg,KeyMap.count_mapVals]
  apply KeyMap.count_mono
  intro j st hst hdone
  have hj := congrArg Life.done (hl j st hst)
  simp only [life] at hj
  simp only [Bool.not_eq_true'] at hdone ⊢
  by_contra hn
  simp only [Bool.not_eq_false] at hn
  rw [hj] at hdone
  split at hdone
  · rw [hφ _ hn] at hdone
    cases hdone
  · rw [hn] at hdone
    cases hdone

end Touch

theorem Touch.modifyStream (c : Conn) (i : ℕ) {f : Stream → Stream} (hs : ∀ s, (f s).state = s.state)
    (hd : ∀ s, (f s).dispatched = s.dispatched) : Touch c (c.modifyStream i f) i id := by
  refine ⟨⟨fun j s => if j = i then f s else s,rfl,?_⟩,rfl,rfl⟩
  intro j st _
  by_cases hj : j = i
  · simp [life,Conn.modifyStream,hj,hs,hd]
  · simp [life,Conn.modifyStream,hj]

/-- END_STREAM on a stream the peer may still send on. -/
theorem Touch.closeStream (c : Conn) (i : ℕ) {f : Stream → Stream} {st : Stream}
    (hi : c.streams.get? i = some st) (hr : st.state ≠ .reset) (hs : ∀ s, (f s).state = .halfClosedRemote)
    (hd : ∀ s, (f s).dispatched = s.dispatched) : Touch c (c.modifyStream i f) i Life.close := by
  refine ⟨⟨fun j s => if j = i then f s else s,rfl,?_⟩,rfl,rfl⟩
  intro j s hj
  by_cases hji : j = i
  · subst hji
    rw [hi] at hj
    cases hj
    cases hst : st.state with
    | opened => simp [life,Conn.modifyStream,Life.close,hs,hd,hst]
    | halfClosedRemote => simp [life,Conn.modifyStream,Life.close,hs,hd,hst]
    | reset => exact absurd hst hr
  · simp [life,Conn.modifyStream,hji]

theorem Touch.resetStream (c : Conn) (i : ℕ) (code : Code) {st : Stream} (hi : c.streams.get? i = some st) :
    Touch c (c.resetStream i code) i Life.resetByServer := by
  have he : (c.emit (rst i code)).streams.get? i = some st := hi
  simp only [Conn.resetStream,he]
  refine ⟨⟨fun j s => if j = i then { s with state := .reset } else s,rfl,?_⟩,rfl,rfl⟩
  intro j st _
  by_cases hj : j = i
  · simp [life,Conn.modifyStream,Conn.modifyFlow,Life.resetByServer,hj]
  · simp [life,Conn.modifyStream,Conn.modifyFlow,emit,hj]

theorem Touch.resetStream_absent (c : Conn) (i : ℕ) (code : Code) (hi : c.streams.get? i = none) :
    Touch c (c.resetStream i code) i id := by
  have he : (c.emit (rst i code)).streams.get? i = none := hi
  simp only [Conn.resetStream,he]
  exact .quiet rfl (fun _ => rfl) rfl rfl

end Touch

section Arms
open Conn

theorem replenish_eq (c : Conn) : ∃ out w, c.replenish = { c with out := out, recvWindow := w } := by
  unfold replenish
  dsimp only
  split
  · exact ⟨_,_,rfl⟩
  · exact ⟨c.out,c.recvWindow,rfl⟩

/-- How the life of the frame's stream changes when the frame opens no new one. -/
inductive Fate (c : Conn) (f : Frame) (c' : Conn) : Prop
  | kept : Touch c c' f.head.stream id → Fate c f c'
  | closed : Touch c c' f.head.stream Life.close → Fate c f c'
  | resetByServer : c.serverResets f = true → Touch c c' f.head.stream Life.resetByServer → Fate c f c'
  | resetByPeer : f.head.kind = Kind.rstStream → Touch c c' f.head.stream Life.resetByPeer → Fate c f c'

theorem Touch.feed (c : Conn) (i : ℕ) (block : Bytes) : Touch c (c.feed i block) i id := by
  have h := Touch.modifyStream c i (f := fun s => { s with pending := [] }) (fun _ => rfl) (fun _ => rfl)
  have hq : Touch (c.modifyStream i (fun s => { s with pending := [] })) (c.feed i block) i id :=
    .quiet rfl (fun _ => rfl) rfl rfl
  exact h.trans hq

theorem finishBlock_touch {c c' : Conn} {i : ℕ} {st : Stream} (hst : c.streams.get? i = some st)
    {e : Option ConnErr} (h : c.finishBlock i = (c',e)) :
    Touch c c' i id ∨ (c.badBlock st.pendingIsTrailers st.pending = true ∧ Touch c c' i Life.resetByServer) := by
  have hb := Touch.feed c i st.pending
  obtain ⟨st',hst',-⟩ := hb.get?_of hst
  simp only [finishBlock,hst] at h
  unfold badBlock
  revert h
  cases (c.dec.decode st.pending maxHeaderList).2.2 with
  | error e =>
    cases e with
    | compression =>
      intro h
      cases h
      exact Or.inl hb
    | tooLarge =>
      intro h
      cases h
      exact Or.inr ⟨rfl,hb.trans (Touch.resetStream _ i _ hst')⟩
  | ok u =>
    intro h
    by_cases ht : st.pendingIsTrailers = true
    · simp only [ht,if_true] at h
      split at h
      · rename_i hp
        cases h
        exact Or.inr ⟨by simpa [ht,isPseudo] using hp,hb.trans (Touch.resetStream _ i _ hst')⟩
      · cases h
        exact Or.inl hb
    · simp only [ht] at h
      cases h
      refine Or.inl (hb.trans (Touch.modifyStream _ i ?_ ?_))
      · intro _; rfl
      · intro _; rfl

theorem closeBlock_touch {c c' : Conn} {f : Frame} {n : Next} {st : Stream}
    (hst : c.streams.get? f.head.stream = some st) (h : c.closeBlock f = (c',n)) :
    Touch c c' f.head.stream id ∨
      (c.badBlock st.pendingIsTrailers st.pending = true ∧ Touch c c' f.head.stream Life.resetByServer) := by
  unfold closeBlock at h
  split at h
  · rename_i d e hd
    cases h
    exact finishBlock_touch hst hd
  · rename_i d hd
    cases h
    exact finishBlock_touch hst hd

theorem openBlock_touch {c c' : Conn} {f : Frame} {n : Next} {st : Stream}
    (hst : c.streams.get? f.head.stream = some st) (h : c.openBlock f = (c',n)) :
    Touch c c' f.head.stream id ∨
      ((f.head.has Flag.endHeaders && c.badBlock st.pendingIsTrailers st.pending) = true ∧
        Touch c c' f.head.stream Life.resetByServer) := by
  unfold openBlock at h
  split at h
  · rename_i he
    rw [he,Bool.true_and]
    exact closeBlock_touch hst h
  · cases h
    exact Or.inl (.quiet rfl (fun _ => rfl) rfl rfl)

theorem fail_fate {c d c' : Conn} {f : Frame} {code : Code} {why : String} {n : Next}
    (hq : Touch c d f.head.stream id) (h : d.fail code why = (c',n)) : Fate c f c' := by
  cases h
  exact .kept hq

theorem Touch.refl (c : Conn) (i : ℕ) : Touch c c i id := .quiet rfl (fun _ => rfl) rfl rfl

/-- An id that is neither idle nor closed has an entry in the state it names. -/
theorem stateOf_entry {c : Conn} {i : ℕ} {w : Where} (h : c.stateOf i = w) (h1 : w ≠ .idle) (h2 : w ≠ .closed) :
    ∃ st, c.streams.get? i = some st ∧
      (w = .opened ∧ st.state = .opened ∨ w = .reset ∧ st.state = .reset ∨
        w = .halfClosed ∧ st.state = .halfClosedRemote ∧ st.dispatched = false) := by
  unfold stateOf at h
  cases hg : c.streams.get? i with
  | none =>
    simp only [hg] at h
    split at h
    · exact absurd h.symm h2
    · exact absurd h.symm h1
  | some st =>
    refine ⟨st,rfl,?_⟩
    simp only [hg] at h
    cases hs : st.state with
    | opened => simp [hs] at h; simp [← h]
    | reset => simp [hs] at h; simp [← h]
    | halfClosedRemote =>
      simp only [hs] at h
      by_cases hd : st.dispatched = true
      · rw [if_pos hd] at h
        exact absurd h.symm h2
      · rw [if_neg hd] at h
        simp [← h,hd]

theorem stateOf_idle {c : Conn} {i : ℕ} (h : c.stateOf i = .idle) :
    c.streams.get? i = none ∧ c.highestClientStream < i := by
  unfold stateOf at h
  cases hg : c.streams.get? i with
  | none =>
    simp only [hg] at h
    split at h
    · cases h
    · exact ⟨rfl,by omega⟩
  | some st =>
    simp only [hg] at h
    cases hs : st.state with
    | opened => simp [hs] at h
    | reset => simp [hs] at h
    | halfClosedRemote =>
      simp only [hs] at h
      split at h <;> cases h

theorem onData_fate {c c' : Conn} {f : Frame} {n : Next} (hk : f.head.kind = Kind.data)
    (h : c.onData f = (c',n)) : Fate c f c' := by
  unfold onData at h
  split at h
  · exact fail_fate (.refl c _) h
  obtain ⟨out,w,he⟩ := replenish_eq { c with recvWindow := c.recvWindow - f.head.len }
  cases hu : unpad f.payload (f.head.has Flag.padded) with
  | none =>
    simp only [hu] at h
    cases h
    exact .kept (.quiet rfl (fun _ => rfl) rfl rfl)
  | some data =>
    simp only [hu,he] at h
    have hq : Touch c { c with out := out, recvWindow := w } f.head.stream id :=
      .quiet rfl (fun _ => rfl) rfl rfl
    have hst : ({ c with out := out, recvWindow := w } : Conn).stateOf f.head.stream = c.stateOf f.head.stream :=
      rfl
    rw [hst] at h
    cases hs : c.stateOf f.head.stream with
    | idle =>
      simp only [hs] at h
      exact fail_fate hq h
    | closed =>
      simp only [hs] at h
      exact fail_fate hq h
    | reset =>
      obtain ⟨st,hget,-⟩ := stateOf_entry hs (by simp) (by simp)
      simp only [hs] at h
      cases h
      exact .resetByServer (by simp [serverResets,hk,hs]) (hq.trans (Touch.resetStream _ _ _ hget))
    | halfClosed =>
      obtain ⟨st,hget,-⟩ := stateOf_entry hs (by simp) (by simp)
      simp only [hs] at h
      cases h
      exact .resetByServer (by simp [serverResets,hk,hs]) (hq.trans (Touch.resetStream _ _ _ hget))
    | opened =>
      obtain ⟨st,hget,hop⟩ := stateOf_entry hs (by simp) (by simp)
      simp only [reduceCtorEq,false_and,or_false,true_and] at hop
      simp only [hs,hget] at h
      split at h
      · rename_i hlong
        cases h
        refine .resetByServer ?_ (hq.trans (Touch.resetStream _ _ _ hget))
        simp [serverResets,hk,hs,overlong,hget,hu,hlong]
      · cases h
        by_cases hend : f.head.has Flag.endStream = true
        · refine .closed (hq.trans (Touch.closeStream _ _ hget (by simp [hop]) ?_ ?_))
          · intro s
            simp [hend]
          · intro _; rfl
        · refine .kept (hq.trans (Touch.modifyStream _ _ ?_ ?_))
          · intro s
            simp [hend]
          · intro _; rfl

/-- The connection as it is when a HEADERS frame asks for a new stream. -/
def aim (c : Conn) (f : Frame) : Conn :=
  { c with highestClientStream := f.head.stream, lastStream := f.head.stream }.reap

/-- How a HEADERS frame on an idle id ends: refused, or entered in the table. -/
inductive Opens (c : Conn) (f : Frame) (c' : Conn) : Prop
  | refused : maxConcurrent ≤ (aim c f).active → Touch (aim c f) c' f.head.stream id → Opens c f c'
  | kept {block : Bytes} : (aim c f).active < maxConcurrent →
    Touch ((aim c f).insertStream f block) c' f.head.stream id → Opens c f c'
  | reset {block : Bytes} : (aim c f).active < maxConcurrent → c.serverResets f = true →
    Touch ((aim c f).insertStream f block) c' f.head.stream Life.resetByServer → Opens c f c'

theorem onTrailers_fate {c c' : Conn} {f : Frame} {n : Next} (hk : f.head.kind = Kind.headers)
    (hw : c.stateOf f.head.stream = .opened ∨ c.stateOf f.head.stream = .halfClosed)
    (h : c.onTrailers f (fragment f) = (c',n)) : Fate c f c' := by
  have hkd : f.head.kind ≠ Kind.data := by rw [hk]; decide
  obtain ⟨st,hget,hst⟩ : ∃ st, c.streams.get? f.head.stream = some st ∧ st.state ≠ .reset := by
    rcases hw with hw | hw
    · obtain ⟨st,hget,hs⟩ := stateOf_entry hw (by simp) (by simp)
      simp at hs
      exact ⟨st,hget,by simp [hs]⟩
    · obtain ⟨st,hget,hs⟩ := stateOf_entry hw (by simp) (by simp)
      simp at hs
      exact ⟨st,hget,by simp [hs.1]⟩
  have hsr : c.serverResets f = (!f.head.has Flag.endStream ||
      (f.head.has Flag.endHeaders && c.badBlock true (fragment f))) := by
    rcases hw with hw | hw
    · simp only [serverResets,if_neg hkd,if_pos hk,hw]
    · simp only [serverResets,if_neg hkd,if_pos hk,hw]
  unfold onTrailers at h
  split at h
  · rename_i hend
    cases h
    exact .resetByServer (by rw [hsr,hend,Bool.true_or]) (Touch.resetStream _ _ _ hget)
  · simp only [hget] at h
    have ht := Touch.closeStream c f.head.stream (f := fun s =>
      { s with pending := fragment f, pendingIsTrailers := true, state := .halfClosedRemote }) hget hst
      (fun _ => rfl) (fun _ => rfl)
    have hget' : (c.modifyStream f.head.stream (fun s =>
        { s with pending := fragment f, pendingIsTrailers := true, state := .halfClosedRemote })).streams.get?
          f.head.stream = some { st with pending := fragment f, pendingIsTrailers := true, state := .halfClosedRemote } := by
      simp [modifyStream,KeyMap.get?_modify,hget]
    rcases openBlock_touch hget' h with h1 | ⟨hbad,h1⟩
    · exact .closed (ht.trans h1)
    · have hcomp : Life.resetByServer ∘ Life.close = Life.resetByServer := by
        funext l
        simp only [Function.comp_apply,Life.resetByServer,Life.close]
        split <;> rfl
      exact .resetByServer (by rw [hsr]; exact Bool.or_eq_true_iff.mpr (Or.inr hbad)) (hcomp ▸ ht.trans h1)

theorem onNewStream_opens {c c' : Conn} {f : Frame} {n : Next} (hk : f.head.kind = Kind.headers)
    (hw : c.stateOf f.head.stream = .idle)
    (h : c.onNewStream f (fragment f) = (c',n)) : Opens c f c' := by
  have hlt : ¬ f.head.stream ≤ c.highestClientStream := fun hle => by
    have := stateOf_idle hw
    omega
  have hkd : f.head.kind ≠ Kind.data := by rw [hk]; decide
  rw [onNewStream,if_neg hlt] at h
  simp only at h
  split at h
  · rename_i hfull
    cases h
    exact .refused hfull (.quiet rfl (fun _ => rfl) rfl rfl)
  · rename_i hfree
    have hget : ((aim c f).insertStream f (fragment f)).streams.get? f.head.stream =
        some { Stream.new with
          state := if f.head.has Flag.endStream then .halfClosedRemote else .opened
          pending := fragment f } := by
      simp [insertStream,KeyMap.get?_insert]
    rcases openBlock_touch hget h with h1 | ⟨hbad,h1⟩
    · exact .kept (Nat.lt_of_not_le hfree) h1
    · refine .reset (Nat.lt_of_not_le hfree) ?_ h1
      simp only [serverResets,if_neg hkd,if_pos hk,hw]
      exact hbad

/-- A HEADERS frame carries on with its fragment unless its priority field
depends on itself or it is malformed. -/
theorem onHeaders_cases {c c' : Conn} {f : Frame} {n : Next} (h : c.onHeaders f = (c',n)) :
    c.onBlock f (fragment f) = (c',n) ∨
      (f.head.has Flag.priority = true ∧
        Frame.first31 ((unpad f.payload (f.head.has Flag.padded)).getD []) = f.head.stream ∧
        c' = c.emit (rst f.head.stream .protocol)) ∨
      (c' = c ∧ ∃ e, n = .ret (.error e)) := by
  have hfail {code : Code} {why : String} (h : c.fail code why = (c',n)) : c' = c ∧ ∃ e, n = .ret (.error e) := by
    cases h
    exact ⟨rfl,_,rfl⟩
  unfold onHeaders at h
  split at h
  · exact Or.inr (Or.inr (hfail h))
  split at h
  · exact Or.inr (Or.inr (hfail h))
  cases hu : unpad f.payload (f.head.has Flag.padded) with
  | none =>
    simp only [hu] at h
    exact Or.inr (Or.inr (hfail h))
  | some block =>
    simp only [hu] at h
    by_cases hp : f.head.has Flag.priority = true
    · simp only [hp,if_true] at h
      split at h
      · exact Or.inr (Or.inr (hfail h))
      split at h
      · rename_i hself
        cases h
        exact Or.inr (Or.inl ⟨hp,by simpa [hu] using hself,rfl⟩)
      · left
        simpa [fragment,hu,hp] using h
    · left
      simpa [fragment,hu,hp] using h

theorem onBlock_cases {c c' : Conn} {f : Frame} {n : Next} (hk : f.head.kind = Kind.headers)
    (h : c.onBlock f (fragment f) = (c',n)) :
    Fate c f c' ∨ (c.stateOf f.head.stream = .idle ∧ Opens c f c') := by
  unfold onBlock at h
  split at h
  · rename_i hw
    exact Or.inl (onTrailers_fate hk (Or.inl hw) h)
  · rename_i hw
    exact Or.inl (onTrailers_fate hk (Or.inr hw) h)
  · exact Or.inl (fail_fate (.refl c _) h)
  · exact Or.inl (fail_fate (.refl c _) h)
  · rename_i hw
    exact Or.inr ⟨hw,onNewStream_opens hk hw h⟩

theorem onContinuation_fate {c c' : Conn} {f : Frame} {n : Next} (hk : f.head.kind = Kind.continuation)
    (h : c.onContinuation f = (c',n)) : Fate c f c' := by
  have hkd : f.head.kind ≠ Kind.data := by rw [hk]; decide
  have hkh : f.head.kind ≠ Kind.headers := by rw [hk]; decide
  unfold onContinuation at h
  split at h
  · exact fail_fate (.refl c _) h
  cases hget : c.streams.get? f.head.stream with
  | none =>
    simp only [hget] at h
    cases h
    exact .kept (.refl c _)
  | some st =>
    simp only [hget] at h
    split at h
    · exact fail_fate (.refl c _) h
    have ht := Touch.modifyStream c f.head.stream (f := fun s => { s with pending := s.pending ++ f.payload })
      (fun _ => rfl) (fun _ => rfl)
    split at h
    · rename_i hend
      have hq (d : Conn) : Touch d { d with expectContinuation := none } f.head.stream id :=
        .quiet rfl (fun _ => rfl) rfl rfl
      have ht' := ht.trans (hq _)
      have hget' : ({ c.modifyStream f.head.stream (fun s =>
          { s with pending := s.pending ++ f.payload }) with expectContinuation := none } : Conn).streams.get?
            f.head.stream = some { st with pending := st.pending ++ f.payload } := by
        simp [modifyStream,KeyMap.get?_modify,hget]
      rcases closeBlock_touch hget' h with h1 | ⟨hbad,h1⟩
      · exact .kept (ht'.trans h1)
      · refine .resetByServer ?_ (ht'.trans h1)
        simp only [serverResets,if_neg hkd,if_neg hkh,if_pos hk,hend,hget,Bool.true_and,Option.any_some]
        exact hbad
    · cases h
      exact .kept ht

theorem onPriority_fate {c c' : Conn} {f : Frame} {n : Next} (h : c.onPriority f = (c',n)) : Fate c f c' := by
  unfold onPriority at h
  split at h
  · exact fail_fate (.refl c _) h
  split at h
  · exact fail_fate (.refl c _) h
  split at h
  · cases h
    exact .kept (.quiet rfl (fun _ => rfl) rfl rfl)
  · cases h
    exact .kept (.quiet rfl (fun _ => rfl) rfl rfl)

theorem onRstStream_fate {c c' : Conn} {f : Frame} {n : Next} (hk : f.head.kind = Kind.rstStream)
    (h : c.onRstStream f = (c',n)) : Fate c f c' := by
  unfold onRstStream at h
  split at h
  · exact fail_fate (.refl c _) h
  split at h
  · exact fail_fate (.refl c _) h
  split at h
  · exact fail_fate (.refl c _) h
  split at h
  · cases h
    refine .resetByPeer hk ⟨⟨fun j s => if j = f.head.stream then { s with state := .reset } else s,rfl,?_⟩,rfl,rfl⟩
    intro j st _
    by_cases hj : j = f.head.stream
    · simp [life,modifyStream,modifyFlow,Life.resetByPeer,hj]
    · simp [life,modifyStream,modifyFlow,hj]
  · cases h
    exact .kept (.quiet rfl (fun _ => rfl) rfl rfl)

/-- SETTINGS reach the decoder and the two send limits, nothing else. -/
theorem applySettings_eq {c c' : Conn} {ps : List (ℕ × ℕ)} {e : Option ConnErr}
    (h : c.applySettings ps = (c',e)) :
    ∃ dec mf w, c' = { c with dec := dec, maxFrame := mf, peerInitialWindow := w } := by
  induction ps generalizing c with
  | nil =>
    cases h
    exact ⟨_,_,_,rfl⟩
  | cons p ps ih =>
    obtain ⟨i,v⟩ := p
    have hone : ∃ dec mf w, (c.applySetting i v).1 = { c with dec := dec, maxFrame := mf, peerInitialWindow := w } := by
      unfold applySetting
      repeat' split
      all_goals exact ⟨_,_,_,rfl⟩
    obtain ⟨dec,mf,w,hone⟩ := hone
    unfold applySettings at h
    split at h
    · rename_i d e' hd
      cases h
      rw [hd] at hone
      exact ⟨dec,mf,w,hone⟩
    · rename_i d hd
      rw [hd] at hone
      subst hone
      obtain ⟨dec',mf',w',rfl⟩ := ih h
      exact ⟨dec',mf',w',rfl⟩

theorem onSettings_fate {c c' : Conn} {f : Frame} {n : Next} (h : c.onSettings f = (c',n)) : Fate c f c' := by
  unfold onSettings at h
  split at h
  · exact fail_fate (.refl c _) h
  split at h
  · split at h
    · exact fail_fate (.refl c _) h
    · cases h
      exact .kept (.quiet rfl (fun _ => rfl) rfl rfl)
  split at h
  · exact fail_fate (.refl c _) h
  split at h
  · rename_i d e hd
    obtain ⟨dec,mf,w,rfl⟩ := applySettings_eq hd
    cases h
    exact .kept (.quiet rfl (fun _ => rfl) rfl rfl)
  · rename_i d hd
    obtain ⟨dec,mf,w,rfl⟩ := applySettings_eq hd
    cases h
    refine .kept (.quiet rfl (fun j => ?_) rfl rfl)
    simp only [shiftWindows,emit]
    split <;> rfl

theorem onPing_fate {c c' : Conn} {f : Frame} {n : Next} (h : c.onPing f = (c',n)) : Fate c f c' := by
  unfold onPing at h
  split at h
  · exact fail_fate (.refl c _) h
  split at h
  · exact fail_fate (.refl c _) h
  split at h
  · cases h
    exact .kept (.quiet rfl (fun _ => rfl) rfl rfl)
  · cases h
    exact .kept (.quiet rfl (fun _ => rfl) rfl rfl)

theorem onWindowUpdate_fate {c c' : Conn} {f : Frame} {n : Next} (hk : f.head.kind = Kind.windowUpdate)
    (h : c.onWindowUpdate f = (c',n)) : Fate c f c' := by
  have hkd : f.head.kind ≠ Kind.data := by rw [hk]; decide
  have hkh : f.head.kind ≠ Kind.headers := by rw [hk]; decide
  have hkc : f.head.kind ≠ Kind.continuation := by rw [hk]; decide
  have hsr : c.serverResets f = (f.head.stream ≠ 0 && (Frame.first31 f.payload = 0 ||
      maxWindow < (c.flows f.head.stream).window + Frame.first31 f.payload) : Bool) := by
    simp only [serverResets,if_neg hkd,if_neg hkh,if_neg hkc,if_pos hk]
  have hreset (code : Code) (hsr : c.serverResets f = true) : Fate c f (c.resetStream f.head.stream code) := by
    cases hget : c.streams.get? f.head.stream with
    | none => exact .kept (Touch.resetStream_absent _ _ _ hget)
    | some st => exact .resetByServer hsr (Touch.resetStream _ _ _ hget)
  unfold onWindowUpdate at h
  split at h
  · exact fail_fate (.refl c _) h
  split at h
  · exact fail_fate (.refl c _) h
  split at h
  · rename_i hzero
    split at h
    · exact fail_fate (.refl c _) h
    · rename_i h0
      cases h
      exact hreset _ (by rw [hsr]; simp [h0,hzero])
  split at h
  · split at h
    · exact fail_fate (.refl c _) h
    · cases h
      exact .kept (.quiet rfl (fun _ => rfl) rfl rfl)
  rename_i h0
  split at h
  · split at h
    · rename_i hover
      cases h
      exact hreset _ (by rw [hsr]; simp [h0,hover])
    · cases h
      refine .kept (.quiet rfl (fun j => ?_) rfl rfl)
      simp only [modifyFlow]
      split <;> rfl
  · cases h
    exact .kept (.quiet rfl (fun _ => rfl) rfl rfl)

/-- Only a HEADERS frame opens a stream. -/
theorem arm_fate {c c' : Conn} {f : Frame} {n : Next} (hh : f.head.kind ≠ Kind.headers) (h : c.arm f = (c',n)) :
    Fate c f c' := by
  unfold arm at h
  rw [if_neg hh] at h
  split at h
  · rename_i hk
    exact onData_fate hk h
  split at h
  · rename_i hk
    exact onContinuation_fate hk h
  split at h
  · exact onPriority_fate h
  split at h
  · rename_i hk
    exact onRstStream_fate hk h
  split at h
  · exact onSettings_fate h
  split at h
  · exact onPing_fate h
  split at h
  · rename_i hk
    exact onWindowUpdate_fate hk h
  split at h
  · cases h
    exact .kept (.refl c _)
  split at h
  · exact fail_fate (.refl c _) h
  · cases h
    exact .kept (.quiet rfl (fun _ => rfl) rfl rfl)

/-- Every arm, whichever way it ends. -/
theorem arm_cases {c c' : Conn} {f : Frame} {n : Next} (h : c.arm f = (c',n)) :
    Fate c f c' ∨ (c.stateOf f.head.stream = .idle ∧ Opens c f c') := by
  by_cases hk : f.head.kind = Kind.headers
  · have hkd : f.head.kind ≠ Kind.data := by rw [hk]; decide
    rw [arm,if_neg hkd,if_pos hk] at h
    rcases onHeaders_cases h with h1 | ⟨-,-,rfl⟩ | ⟨rfl,-⟩
    · exact onBlock_cases hk h1
    · exact Or.inl (.kept (.quiet rfl (fun _ => rfl) rfl rfl))
    · exact Or.inl (.kept (.refl _ _))
  · exact Or.inl (arm_fate hk h)

end Arms

end OxiServe.Http2
