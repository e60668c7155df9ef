import OxiServe.Http2.Concurrency

/-! # What the arms are made of

Apart from SETTINGS and WINDOW_UPDATE an arm opens its stream or leaves the table
as it is, and then only makes moves on that stream. A property of two connections
that survives each move holds across the arm.
-/
namespace OxiServe.Http2
open Conn Relation

/-- One move on stream `i`. -/
inductive Move (i : ℕ) : Conn → Conn → Prop
  | rest (c : Conn) (dec : Hpack.Decoder) (recvWindow : ℤ) (out fed : List Bytes) :
    Move i c { c with dec := dec, recvWindow := recvWindow, out := out, fed := fed }
  | expect (c : Conn) (e : Option ℕ) : e = none ∨ e = some i → Move i c { c with expectContinuation := e }
  | stream (c : Conn) (g : Stream → Stream) : Move i c (c.modifyStream i g)
  | resetByServer (c : Conn) : Move i c (c.modifyFlow i (fun w => { w with reset := true, done := true }))
  | resetByPeer (c : Conn) : Move i c (c.modifyFlow i (fun w => { w with reset := true }))

abbrev Moves (i : ℕ) : Conn → Conn → Prop := ReflTransGen (Move i)

/-- Where the moves of an arm start. -/
inductive Begins (c : Conn) (f : Frame) : Conn → Prop
  | here : Begins c f c
  | refused : c.stateOf f.head.stream = .idle → Begins c f (aim c f)
  | opened {block : Bytes} : c.stateOf f.head.stream = .idle → Begins c f ((aim c f).insertStream f block)

namespace Moves
variable {i : ℕ}

theorem resetStream (c : Conn) (i : ℕ) (code : Code) : Moves i c (c.resetStream i code) := by
  have he : Moves i c (c.emit (rst i code)) := .single (.rest c c.dec c.recvWindow _ c.fed)
  unfold Conn.resetStream
  dsimp only
  split
  · exact (he.tail (.stream _ _)).tail (.resetByServer _)
  · exact he

theorem feed (c : Conn) (i : ℕ) (block : Bytes) : Moves i c (c.feed i block) :=
  (ReflTransGen.single (.stream c _)).tail (.rest _ _ c.recvWindow c.out _)

theorem finishBlock (c : Conn) (i : ℕ) : Moves i c (c.finishBlock i).1 := by
  unfold Conn.finishBlock
  cases hst : c.streams.get? i with
  | none => exact .refl
  | some st =>
    have hf := Moves.feed c i st.pending
    dsimp only
    repeat' split
    · exact hf
    · exact hf.trans (Moves.resetStream _ _ _)
    · exact hf.trans (Moves.resetStream _ _ _)
    · exact hf
    · exact hf.tail (.stream _ _)

theorem closeBlock (c : Conn) (f : Frame) : Moves f.head.stream c (c.closeBlock f).1 := by
  have h := Moves.finishBlock c f.head.stream
  unfold Conn.closeBlock
  split
  · rename_i hf
    rwa [hf] at h
  · rename_i hf
    rwa [hf] at h

theorem openBlock (c : Conn) (f : Frame) : Moves f.head.stream c (c.openBlock f).1 := by
  unfold Conn.openBlock
  split
  · exact Moves.closeBlock c f
  · exact .single (.expect c _ (Or.inr rfl))

theorem onBlock (c : Conn) (f : Frame) (block : Bytes) :
    ∃ b, Begins c f b ∧ Moves f.head.stream b (c.onBlock f block).1 := by
  have htrailers : Moves f.head.stream c (c.onTrailers f block).1 := by
    unfold onTrailers
    split
    · exact Moves.resetStream _ _ _
    split
    · exact .refl
    · exact (ReflTransGen.single (.stream c _)).trans (Moves.openBlock _ f)
  unfold Conn.onBlock
  split
  · exact ⟨c,.here,htrailers⟩
  · exact ⟨c,.here,htrailers⟩
  · exact ⟨c,.here,.refl⟩
  · exact ⟨c,.here,.refl⟩
  · rename_i hw
    unfold onNewStream
    split
    · exact ⟨c,.here,.refl⟩
    dsimp only
    split
    · exact ⟨aim c f,.refused hw,.single (.rest (aim c f) c.dec c.recvWindow _ c.fed)⟩
    · exact ⟨(aim c f).insertStream f block,.opened hw,Moves.openBlock _ f⟩

theorem onData (c : Conn) (f : Frame) : Moves f.head.stream c (c.onData f).1 := by
  unfold Conn.onData
  split
  · exact .refl
  have hq : Moves f.head.stream c { c with recvWindow := c.recvWindow - f.head.len } :=
    .single (.rest c c.dec _ c.out c.fed)
  dsimp only
  split
  · exact hq
  have hr : Moves f.head.stream c ({ c with recvWindow := c.recvWindow - f.head.len } : Conn).replenish := by
    obtain ⟨out,w,he⟩ := replenish_eq { c with recvWindow := c.recvWindow - f.head.len }
    rw [he]
    exact .single (.rest c c.dec w out c.fed)
  repeat' split
  · exact hr
  · exact hr
  · exact hr.trans (Moves.resetStream _ _ _)
  · exact hr.trans (Moves.resetStream _ _ _)
  · exact hr
  · exact hr.trans (Moves.resetStream _ _ _)
  · exact hr.tail (.stream _ _)
  · exact hr.tail (.stream _ _)

theorem onContinuation (c : Conn) (f : Frame) : Moves f.head.stream c (c.onContinuation f).1 := by
  unfold Conn.onContinuation
  repeat' split
  · exact .refl
  · exact .refl
  · exact .refl
  · refine ReflTransGen.trans ?_ (Moves.closeBlock _ f)
    exact (ReflTransGen.single (.stream c _)).tail (.expect _ none (Or.inl rfl))
  · exact .single (.stream c _)

theorem onRstStream (c : Conn) (f : Frame) : Moves f.head.stream c (c.onRstStream f).1 := by
  unfold Conn.onRstStream
  repeat' split
  · exact .refl
  · exact .refl
  · exact .refl
  · exact (ReflTransGen.single (.stream c _)).tail (.resetByPeer _)
  · exact .refl

theorem emit (c : Conn) (b : Bytes) : Moves i c (c.emit b) := .single (.rest c c.dec c.recvWindow _ c.fed)

end Moves

/-- An arm begins somewhere and moves from there. -/
theorem arm_moves {f : Frame} (c : Conn) (hs : f.head.kind ≠ Kind.settings) (hw : f.head.kind ≠ Kind.windowUpdate) :
    ∃ b, Begins c f b ∧ Moves f.head.stream b (c.arm f).1 := by
  simp only [Conn.arm,if_neg hs,if_neg hw]
  split
  · exact ⟨c,.here,Moves.onData c f⟩
  split
  · have hh : c.onHeaders f = ((c.onHeaders f).1,(c.onHeaders f).2) := rfl
    rcases onHeaders_cases hh with h | ⟨-,-,h⟩ | ⟨h,-⟩
    · have hb := Moves.onBlock c f (fragment f)
      rwa [h] at hb
    · rw [h]
      exact ⟨c,.here,Moves.emit c _⟩
    · rw [h]
      exact ⟨c,.here,.refl⟩
  split
  · exact ⟨c,.here,Moves.onContinuation c f⟩
  split
  · refine ⟨c,.here,?_⟩
    unfold onPriority
    repeat' split
    · exact .refl
    · exact .refl
    · exact Moves.emit c _
    · exact .refl
  split
  · exact ⟨c,.here,Moves.onRstStream c f⟩
  split
  · refine ⟨c,.here,?_⟩
    unfold onPing
    repeat' split
    · exact .refl
    · exact .refl
    · exact Moves.emit c _
    · exact .refl
  · repeat' split
    all_goals exact ⟨c,.here,.refl⟩

theorem arm_settings {c : Conn} {f : Frame} (h : f.head.kind = Kind.settings) : c.arm f = c.onSettings f := by
  simp only [Conn.arm,h,Kind.settings,Kind.data,Kind.headers,Kind.continuation,Kind.priority,Kind.rstStream]
  rfl

theorem arm_windowUpdate {c : Conn} {f : Frame} (h : f.head.kind = Kind.windowUpdate) :
    c.arm f = c.onWindowUpdate f := by
  simp only [Conn.arm,h,Kind.windowUpdate,Kind.settings,Kind.data,Kind.headers,Kind.continuation,Kind.priority,
    Kind.rstStream,Kind.ping]
  rfl

/-- The loop goes on after an arm. -/
def Next.goesOn (n : Next) : Prop := n = .dispatch ∨ n = .again

theorem not_goesOn_ret (r : Except ConnErr Unit) : ¬ (Next.ret r).goesOn := by simp [Next.goesOn]

/-- A relation that the moves of stream `i` keep. -/
theorem Moves.keep {i : ℕ} {P : Conn → Prop} {c d : Conn} (hm : Moves i c d) (h0 : P c)
    (hs : ∀ a b, P a → Move i a b → P b) : P d := by
  induction hm with
  | refl => exact h0
  | tail _ h ih => exact hs _ _ ih h

/-- How WINDOW_UPDATE ends: the stream is reset, a window grows, or nothing changes. -/
theorem onWindowUpdate_moves (c : Conn) (f : Frame) :
    (Moves f.head.stream c (c.onWindowUpdate f).1 ∧ (c.onWindowUpdate f).2 ≠ .dispatch) ∨
      (c.onWindowUpdate f).2 = .dispatch ∧
        ((f.head.stream = 0 ∧ (c.onWindowUpdate f).1 = { c with connWindow := c.connWindow + Frame.first31 f.payload }) ∨
          (f.head.stream ≠ 0 ∧ (c.onWindowUpdate f).1 = c.modifyFlow f.head.stream
            (fun w => { w with window := w.window + Frame.first31 f.payload })) ∨
          (f.head.stream ≠ 0 ∧ (c.onWindowUpdate f).1 = c ∧ c.streams.get? f.head.stream = none)) := by
  unfold Conn.onWindowUpdate
  split
  · exact Or.inl ⟨.refl,by simp [fail]⟩
  split
  · exact Or.inl ⟨.refl,by simp [fail]⟩
  split
  · split
    · exact Or.inl ⟨.refl,by simp [fail]⟩
    · exact Or.inl ⟨Moves.resetStream _ _ _,by simp⟩
  split
  · rename_i h0
    split
    · exact Or.inl ⟨.refl,by simp [fail]⟩
    · exact Or.inr ⟨rfl,Or.inl ⟨h0,rfl⟩⟩
  rename_i h0
  split
  · split
    · exact Or.inl ⟨Moves.resetStream _ _ _,by simp⟩
    · exact Or.inr ⟨rfl,Or.inr (Or.inl ⟨h0,rfl⟩)⟩
  · rename_i hnone
    exact Or.inr ⟨rfl,Or.inr (Or.inr ⟨h0,rfl,hnone⟩)⟩

section Ends
variable {c d : Conn} {f : Frame}

/-- How SETTINGS ends: nothing changes, it is refused half way, or all of it holds. -/
theorem onSettings_cases (c : Conn) (f : Frame) :
    ((c.onSettings f).1 = c ∧ ((c.onSettings f).2.goesOn → f.head.has Flag.ack = true)) ∨
      (∃ e, c.applySettings (settingsPairs f.payload) = ((c.onSettings f).1,some e) ∧ ¬ (c.onSettings f).2.goesOn) ∨
      f.head.has Flag.ack = false ∧ ∃ new, c.applySettings (settingsPairs f.payload) = (new,none) ∧
        (c.onSettings f).1 = (new.shiftWindows (new.peerInitialWindow - c.peerInitialWindow)).emit settingsAck := by
  unfold onSettings
  split
  · exact Or.inl ⟨rfl,fun h => absurd h (not_goesOn_ret _)⟩
  split
  · rename_i ha
    split
    · exact Or.inl ⟨rfl,fun h => absurd h (not_goesOn_ret _)⟩
    · exact Or.inl ⟨rfl,fun _ => ha⟩
  rename_i ha
  split
  · exact Or.inl ⟨rfl,fun h => absurd h (not_goesOn_ret _)⟩
  split
  · rename_i hd
    exact Or.inr (Or.inl ⟨_,hd,not_goesOn_ret _⟩)
  · rename_i hd
    exact Or.inr (Or.inr ⟨by simpa using ha,_,hd,rfl⟩)

theorem result_moves {i : ℕ} (h : Moves i c d) : d.result = c.result := by
  refine h.keep (P := fun d => d.result = c.result) rfl (fun a b ha hm => ?_)
  rw [← ha]
  cases hm <;> rfl

theorem result_resetStream (c : Conn) (i : ℕ) (code : Code) : (c.resetStream i code).result = c.result :=
  result_moves (Moves.resetStream c i code)

theorem result_arm (c : Conn) (f : Frame) : (c.arm f).1.result = c.result := by
  by_cases hs : f.head.kind = Kind.settings
  · rw [arm_settings hs]
    rcases onSettings_cases c f with ⟨h,-⟩ | ⟨e,h,-⟩ | ⟨-,new,h,h'⟩
    · rw [h]
    · obtain ⟨dec,mf,w,h⟩ := applySettings_eq h
      rw [h]
    · obtain ⟨dec,mf,w,rfl⟩ := applySettings_eq h
      rw [h']
      rfl
  by_cases hw : f.head.kind = Kind.windowUpdate
  · rw [arm_windowUpdate hw]
    rcases onWindowUpdate_moves c f with ⟨h,-⟩ | ⟨-,⟨-,h⟩ | ⟨-,h⟩ | ⟨-,h,-⟩⟩
    · exact result_moves h
    · rw [h]
    · rw [h]
      rfl
    · rw [h]
  obtain ⟨b,hb,hm⟩ := arm_moves c hs hw
  rw [result_moves hm]
  cases hb <;> rfl

theorem result_dispatch (c : Conn) : c.dispatch.result = c.result := by
  refine dispatch_induction (P := fun d => d.result = c.result) rfl ?_
  intro d i st hd hst _
  rw [← hd]
  unfold dispatchOne
  simp only [hst]
  split
  · split
    · exact result_resetStream _ _ _
    · rfl
  · rfl

/-- The reader loop takes the frame and reads on. -/
def Conn.readsOn (c : Conn) (f : Frame) : Prop := ∃ c', c.next (.frame f) = some c' ∧ c'.result = none

/-- A frame in its place is taken when its arm does not end the loop. -/
theorem readsOn_iff (hres : c.result = none) (hlen : f.head.len ≤ defaultMaxFrame)
    (he : c.expectContinuation = none ∨ f.head.kind = Kind.continuation ∧ c.expectContinuation = some f.head.stream) :
    c.readsOn f ↔ (c.arm f).2.goesOn := by
  have hskip : c.expectContinuation.any (fun i => f.head.kind != Kind.continuation || f.head.stream != i) = false := by
    rcases he with he | ⟨hk,he⟩
    · simp [he]
    · simp [hk,he]
  have hlen' : ¬ defaultMaxFrame < f.head.len := by omega
  have hr := result_arm c f
  unfold readsOn Next.goesOn
  simp only [next,hres,Option.isSome_none,Bool.false_eq_true,if_false,readFrame,hlen',hskip]
  rcases ha : c.arm f with ⟨d,n⟩
  rw [ha,hres] at hr
  have hd : d.result = none := hr
  cases n with
  | dispatch => simp [result_dispatch,hd]
  | again => simp [hd]
  | panic => simp
  | ret r => simp [shutdown]

end Ends

/-! ## A frame changes its own stream

Besides the stream it is on, a frame may only drop entries from the table. The
other entries, the block that is open and the limit on bodies stay.
-/
section OwnStream
open Conn

section Only

/-- Only the entry of stream `i` changes; others may be dropped from the table. -/
structure Only (c c' : Conn) (i : ℕ) : Prop where
  others : ∀ j st, j ≠ i → c'.streams.get? j = some st → c.streams.get? j = some st
  highest : c.highestClientStream ≤ c'.highestClientStream
  expect : ∀ j, j ≠ i → c'.expectContinuation = some j → c.expectContinuation = some j
  limit : c'.clientMaxBodySize = c.clientMaxBodySize

variable {c c' d : Conn} {i : ℕ}

theorem Only.trans (h : Only c c' i) (h' : Only c' d i) : Only c d i where
  others := fun j st hj hd => h.others j st hj (h'.others j st hj hd)
  highest := Nat.le_trans h.highest h'.highest
  expect := fun j hj hd => h.expect j hj (h'.expect j hj hd)
  limit := h'.limit.trans h.limit

theorem Only.quiet (hs : c'.streams = c.streams) (hh : c'.highestClientStream = c.highestClientStream)
    (he : c'.expectContinuation = c.expectContinuation) (hl : c'.clientMaxBodySize = c.clientMaxBodySize) :
    Only c c' i where
  others := fun _ _ _ hd => hs ▸ hd
  highest := Nat.le_of_eq hh.symm
  expect := fun _ _ hd => he ▸ hd
  limit := hl

theorem Only.modifyStream (c : Conn) (i : ℕ) (g : Stream → Stream) : Only c (c.modifyStream i g) i where
  others := by
    intro j st hj hd
    simpa [Conn.modifyStream,KeyMap.get?_modify,hj] using hd
  highest := Nat.le_refl _
  expect := fun _ _ hd => hd
  limit := rfl

theorem get?_resetStream (c : Conn) (i : ℕ) (code : Code) :
    (c.resetStream i code).streams.get? i = (c.streams.get? i).map (fun s => { s with state := .reset }) := by
  have he : (c.emit (rst i code)).streams = c.streams := rfl
  cases hi : c.streams.get? i with
  | none => simp [Conn.resetStream,he,hi]
  | some st => simp [Conn.resetStream,Conn.modifyStream,Conn.modifyFlow,KeyMap.get?_modify,he,hi]

theorem Only.insertStream (c : Conn) (f : Frame) (block : Bytes) :
    Only c (c.insertStream f block) f.head.stream where
  others := by
    intro j st hj hd
    simpa [Conn.insertStream,KeyMap.get?_insert,hj] using hd
  highest := Nat.le_refl _
  expect := fun _ _ hd => hd
  limit := rfl

theorem Only.aimed {f : Frame} (h : c.highestClientStream < f.head.stream) : Only c (aim c f) f.head.stream where
  others := fun _ _ _ hd => (get?_aim hd).1
  highest := Nat.le_of_lt h
  expect := fun _ _ hd => hd
  limit := rfl

theorem Only.begins {f : Frame} (h : Begins c f c') : Only c c' f.head.stream := by
  cases h with
  | here => exact .quiet rfl rfl rfl rfl
  | refused hi => exact .aimed (stateOf_idle hi).2
  | opened hi => exact (Only.aimed (stateOf_idle hi).2).trans (.insertStream _ f _)

theorem Only.move (h : Move i c c') : Only c c' i := by
  cases h with
  | rest dec recvWindow out fed => exact .quiet rfl rfl rfl rfl
  | expect e he =>
    refine ⟨fun _ _ _ hd => hd,Nat.le_refl _,?_,rfl⟩
    intro j hj hd
    have hd : e = some j := hd
    rcases he with rfl | rfl
    · cases hd
    · cases hd
      exact absurd rfl hj
  | stream g => exact .modifyStream c i g
  | resetByServer => exact .quiet rfl rfl rfl rfl
  | resetByPeer => exact .quiet rfl rfl rfl rfl

theorem Only.moves (h : Moves i c c') : Only c c' i :=
  h.keep (P := fun d => Only c d i) (.quiet rfl rfl rfl rfl) (fun _ _ hd hm => hd.trans (.move hm))

theorem Only.onSettings (c : Conn) (f : Frame) : Only c (c.onSettings f).1 f.head.stream := by
  unfold Conn.onSettings
  split
  · exact .quiet rfl rfl rfl rfl
  split
  · split <;> exact .quiet rfl rfl rfl rfl
  split
  · exact .quiet rfl rfl rfl rfl
  split
  · rename_i hd
    obtain ⟨dec,mf,w,rfl⟩ := applySettings_eq hd
    exact .quiet rfl rfl rfl rfl
  · rename_i hd
    obtain ⟨dec,mf,w,rfl⟩ := applySettings_eq hd
    exact .quiet rfl rfl rfl rfl

/-- Whatever a frame does, it does to its own stream. -/
theorem Only.arm (c : Conn) (f : Frame) : Only c (c.arm f).1 f.head.stream := by
  by_cases hs : f.head.kind = Kind.settings
  · rw [arm_settings hs]
    exact .onSettings c f
  by_cases hw : f.head.kind = Kind.windowUpdate
  · rw [arm_windowUpdate hw]
    rcases onWindowUpdate_moves c f with ⟨h,-⟩ | ⟨-,⟨-,h⟩ | ⟨-,h⟩ | ⟨-,h,-⟩⟩
    · exact .moves h
    · rw [h]
      exact .quiet rfl rfl rfl rfl
    · rw [h]
      exact .quiet rfl rfl rfl rfl
    · rw [h]
      exact .quiet rfl rfl rfl rfl
  obtain ⟨b,hb,hm⟩ := arm_moves c hs hw
  exact (Only.begins hb).trans (.moves hm)

end Only

end OwnStream

end OxiServe.Http2
