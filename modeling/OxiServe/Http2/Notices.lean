import OxiServe.Http2.FlowControl

/-! # What the reader loop queues

Apart from DATA, whose bytes it may return as connection window, a frame is answered
with RST_STREAM, an acknowledgement, or nothing, and GOAWAY ends the loop. The texts
of its errors are short.
-/
namespace OxiServe.Http2
open Conn

/-- A frame queued in answer to one on stream `i`. -/
inductive Notice (i : ℕ) : Bytes → Prop
  | rst (code : Code) : Notice i (rst i code)
  | settings : Notice i settingsAck
  | ping {p : Bytes} : p.length = 8 → Notice i (writeFrame Kind.ping Flag.ack 0 p)

/-- Only notices are queued, and no window is given back. -/
structure Notes (i : ℕ) (c d : Conn) : Prop where
  recv : d.recvWindow = c.recvWindow
  out : ∃ new, d.out = c.out ++ new ∧ ∀ b ∈ new, Notice i b

/-- The text of an error is a short one. -/
def Next.brief (n : Next) : Prop := ∀ e, n = .ret (.error e) → e.why.length ≤ 64

structure Noted (i : ℕ) (c : Conn) (r : Conn × Next) : Prop where
  notes : Notes i c r.1
  brief : r.2.brief

section Rules
variable {c d e : Conn} {f : Frame} {i : ℕ}

theorem Notes.refl (hr : d.recvWindow = c.recvWindow) (ho : d.out = c.out) : Notes i c d :=
  ⟨hr,Appends.refl ho⟩

theorem Notes.trans (h : Notes i c d) (h' : Notes i d e) : Notes i c e :=
  ⟨h'.recv.trans h.recv,Appends.trans h.out h'.out⟩

theorem Notes.append {b : Bytes} (h : Notice i b) (hr : d.recvWindow = c.recvWindow) (ho : d.out = c.out ++ [b]) :
    Notes i c d :=
  ⟨hr,Appends.one h ho⟩

theorem Notes.resetStream (h : Notes i c d) (code : Code) : Notes i c (d.resetStream i code) := by
  refine h.trans (.append (.rst code) ?_ (out_resetStream d i code))
  unfold Conn.resetStream
  dsimp only
  split <;> rfl

theorem Noted.on {n : Next} (h : Notes i c d) (hn : ∀ e, n ≠ .ret (.error e)) : Noted i c (d,n) :=
  ⟨h,fun e he => absurd he (hn e)⟩

theorem Noted.fail {code : Code} {why : String} (h : Notes i c d) (hw : (lit why).length ≤ 64) :
    Noted i c (d.fail code why) := by
  refine ⟨h,fun e he => ?_⟩
  cases he
  exact hw

theorem Noted.quit {code : Code} {why : String} (hw : (lit why).length ≤ 64) : Noted i c (c.fail code why) :=
  .fail (.refl rfl rfl) hw

theorem Noted.still {n : Next} (hn : ∀ e, n ≠ .ret (.error e)) : Noted i c (c,n) := .on (.refl rfl rfl) hn

end Rules

section Blocks
variable {c d : Conn} {f : Frame} {i : ℕ}

theorem Notes.finishBlock (h : Notes i c d) : Notes i c (d.finishBlock i).1 := by
  unfold Conn.finishBlock
  cases hst : d.streams.get? i with
  | none => exact h
  | some st =>
    have hf : Notes i c (d.feed i st.pending) := h.trans (.refl rfl rfl)
    dsimp only
    repeat' split
    · exact hf
    · exact hf.resetStream _
    · exact hf.resetStream _
    · exact hf
    · exact hf.trans (.refl rfl rfl)

theorem why_finishBlock {e : ConnErr} (h : (d.finishBlock i).2 = some e) : e = ⟨.compression,lit "hpack decoding error"⟩ := by
  unfold Conn.finishBlock at h
  repeat' split at h
  all_goals cases h
  rfl

theorem Noted.closeBlock (h : Notes f.head.stream c d) : Noted f.head.stream c (d.closeBlock f) := by
  have hf := h.finishBlock
  unfold Conn.closeBlock
  split
  · rename_i e he
    rw [he] at hf
    refine ⟨hf,fun e' he' => ?_⟩
    cases he'
    rw [why_finishBlock (congrArg Prod.snd he)]
    simp [lit]
  · rename_i he
    rw [he] at hf
    exact .on hf (by simp)

theorem Noted.openBlock (h : Notes f.head.stream c d) : Noted f.head.stream c (d.openBlock f) := by
  unfold Conn.openBlock
  split
  · exact .closeBlock h
  · exact .on (h.trans (.refl rfl rfl)) (by simp)

theorem Noted.onTrailers (c : Conn) (f : Frame) (block : Bytes) : Noted f.head.stream c (c.onTrailers f block) := by
  unfold Conn.onTrailers
  split
  · exact .on (Notes.resetStream (.refl rfl rfl) _) (by simp)
  split
  · exact .still (by simp)
  · exact .openBlock (.refl rfl rfl)

theorem Noted.onNewStream (c : Conn) (f : Frame) (block : Bytes) : Noted f.head.stream c (c.onNewStream f block) := by
  unfold Conn.onNewStream
  split
  · exact .quit (by simp [lit])
  dsimp only
  split
  · exact .on (.append (.rst _) rfl rfl) (by simp)
  · exact .openBlock (.refl rfl rfl)

theorem Noted.onBlock (c : Conn) (f : Frame) (block : Bytes) : Noted f.head.stream c (c.onBlock f block) := by
  unfold Conn.onBlock
  split
  · exact .onTrailers c f block
  · exact .onTrailers c f block
  · exact .quit (by simp [lit])
  · exact .quit (by simp [lit])
  · exact .onNewStream c f block

end Blocks

section Arms
variable (c : Conn) (f : Frame)

theorem Noted.onHeaders : Noted f.head.stream c (c.onHeaders f) := by
  unfold Conn.onHeaders
  split
  · exact .quit (by simp [lit])
  split
  · exact .quit (by simp [lit])
  split
  · exact .quit (by simp [lit])
  split
  · split
    · exact .quit (by simp [lit])
    split
    · exact .on (.append (.rst _) rfl rfl) (by simp)
    · exact .onBlock c f _
  · exact .onBlock c f _

theorem Noted.onContinuation : Noted f.head.stream c (c.onContinuation f) := by
  unfold Conn.onContinuation
  split
  · exact .quit (by simp [lit])
  split
  · exact .still (by simp)
  split
  · exact .quit (by simp [lit])
  dsimp only
  split
  · exact .closeBlock (.refl rfl rfl)
  · exact .on (.refl rfl rfl) (by simp)

theorem Noted.onPriority : Noted f.head.stream c (c.onPriority f) := by
  unfold Conn.onPriority
  split
  · exact .quit (by simp [lit])
  split
  · exact .quit (by simp [lit])
  split
  · exact .on (.append (.rst _) rfl rfl) (by simp)
  · exact .still (by simp)

theorem Noted.onRstStream : Noted f.head.stream c (c.onRstStream f) := by
  unfold Conn.onRstStream
  split
  · exact .quit (by simp [lit])
  split
  · exact .quit (by simp [lit])
  split
  · exact .quit (by simp [lit])
  split
  · exact .on (.refl rfl rfl) (by simp)
  · exact .still (by simp)

theorem why_applySettings {c : Conn} {ps : List (ℕ × ℕ)} {e : ConnErr} (h : (c.applySettings ps).2 = some e) :
    e.why.length ≤ 64 := by
  induction ps generalizing c with
  | nil => cases h
  | cons p ps ih =>
    rcases ha : c.applySetting p.1 p.2 with ⟨d,r⟩
    simp only [applySettings,ha] at h
    cases r with
    | none => exact ih h
    | some e' =>
      cases h
      unfold applySetting at ha
      repeat' split at ha
      all_goals
        cases ha
      all_goals simp [lit]

theorem Noted.onSettings : Noted f.head.stream c (c.onSettings f) := by
  unfold Conn.onSettings
  split
  · exact .quit (by simp [lit])
  split
  · split
    · exact .quit (by simp [lit])
    · exact .still (by simp)
  split
  · exact .quit (by simp [lit])
  split
  · rename_i ha
    obtain ⟨dec,mf,w,rfl⟩ := applySettings_eq ha
    refine ⟨.refl rfl rfl,fun e' he' => ?_⟩
    cases he'
    exact why_applySettings (by rw [ha])
  · rename_i ha
    obtain ⟨dec,mf,w,rfl⟩ := applySettings_eq ha
    exact .on (.append .settings rfl rfl) (by simp)

theorem Noted.onPing : Noted f.head.stream c (c.onPing f) := by
  unfold Conn.onPing
  split
  · exact .quit (by simp [lit])
  split
  · exact .quit (by simp [lit])
  rename_i hlen
  split
  · exact .on (.append (.ping (f.len_eq.trans (not_not.mp hlen))) rfl rfl) (by simp)
  · exact .still (by simp)

theorem Noted.onWindowUpdate : Noted f.head.stream c (c.onWindowUpdate f) := by
  unfold Conn.onWindowUpdate
  split
  · exact .quit (by simp [lit])
  split
  · exact .quit (by simp [lit])
  split
  · split
    · exact .quit (by simp [lit])
    · exact .on (Notes.resetStream (.refl rfl rfl) _) (by simp)
  split
  · split
    · exact .quit (by simp [lit])
    · exact .on (.refl rfl rfl) (by simp)
  split
  · split
    · exact .on (Notes.resetStream (.refl rfl rfl) _) (by simp)
    · exact .on (.refl rfl rfl) (by simp)
  · exact .still (by simp)

/-- Every arm but that of DATA. -/
theorem Noted.arm (hd : f.head.kind ≠ Kind.data) : Noted f.head.stream c (c.arm f) := by
  simp only [Conn.arm,if_neg hd]
  split
  · exact .onHeaders c f
  split
  · exact .onContinuation c f
  split
  · exact .onPriority c f
  split
  · exact .onRstStream c f
  split
  · exact .onSettings c f
  split
  · exact .onPing c f
  split
  · exact .onWindowUpdate c f
  split
  · exact .still (by simp)
  split
  · exact .quit (by simp [lit])
  · exact .still (by simp)

/-- The connection once DATA is charged to its window. -/
def Conn.charged : Conn := { c with recvWindow := c.recvWindow - f.head.len }

/-- DATA is refused at once, or its bytes are charged and given back when enough were used. -/
theorem onData_noted : (Noted f.head.stream c (c.onData f) ∧ ¬ (c.onData f).2.goesOn) ∨
    (Noted f.head.stream (c.charged f) (c.onData f) ∧ ¬ (c.onData f).2.goesOn) ∨
      Noted f.head.stream (c.charged f).replenish (c.onData f) := by
  unfold Conn.onData
  split
  · exact Or.inl ⟨.quit (by simp [lit]),not_goesOn_ret _⟩
  dsimp only
  split
  · exact Or.inr (Or.inl ⟨.quit (by simp [lit]),not_goesOn_ret _⟩)
  refine Or.inr (Or.inr ?_)
  split
  · exact .quit (by simp [lit])
  · exact .quit (by simp [lit])
  · exact .on (Notes.resetStream (.refl rfl rfl) _) (by simp)
  · exact .on (Notes.resetStream (.refl rfl rfl) _) (by simp)
  · split
    · exact .still (by simp)
    split
    · exact .on (Notes.resetStream (.refl rfl rfl) _) (by simp)
    · exact .on (.refl rfl rfl) (by simp)

end Arms

section Turn
variable {c d : Conn} {i : ℕ}

theorem dispatchOne_notes {st : Stream} (hst : c.streams.get? i = some st) : Notes i c (c.dispatchOne i) := by
  have hdone : Notes i c ((c.modifyStream i (fun s => { s with dispatched := true })).modifyFlow i
      (fun w => { w with done := true })) := .refl rfl rfl
  have hspawn : Notes i c ((c.modifyStream i (fun s => { s with dispatched := true })).spawnStream i st) :=
    .refl rfl rfl
  unfold dispatchOne
  simp only [hst]
  split
  · split
    · exact hdone.resetStream _
    · exact hspawn
  · exact hspawn

/-- The dispatch step resets streams of the table. -/
theorem dispatch_notes {P : ℕ → Prop} (hP : ∀ j, (c.streams.get? j).isSome = true → P j) :
    c.dispatch.recvWindow = c.recvWindow ∧
      ∃ new, c.dispatch.out = c.out ++ new ∧ ∀ b ∈ new, ∃ j, P j ∧ Notice j b := by
  refine (dispatch_induction (P := fun d => Level c d ∧ d.recvWindow = c.recvWindow ∧
    ∃ new, d.out = c.out ++ new ∧ ∀ b ∈ new, ∃ j, P j ∧ Notice j b) ⟨.refl c,rfl,Appends.refl rfl⟩ ?_).2
  intro d i st ⟨hl,hr,ha⟩ hst _
  obtain ⟨hr',hb⟩ := dispatchOne_notes hst
  have hi : P i := hP i (by rw [← hl.entries,hst]; rfl)
  exact ⟨hl.trans (.dispatchOne hst),hr'.trans hr,Appends.trans ha (Appends.mono hb (fun _ h => ⟨i,hi,h⟩))⟩

end Turn

end OxiServe.Http2
