import OxiServe.Http2.InFlight

/-! # The reader loop does not panic

Every entry the loop expects in its stream table is there: that of a stream it calls
open or half-closed, that of the open header block, and those it listed for dispatch.
-/
namespace OxiServe.Http2
open Conn
variable {c d : Conn} {f : Frame} {n : Next} {i : ℕ}

/-- The streams that are listed for dispatch are there when their turn comes. -/
def Conn.Listed (c : Conn) : Prop :=
  ∀ is i js, (c.streams.entries.filter (fun e => isReady e.2)).map Prod.fst = is ++ i :: js →
    ((is.foldl dispatchOne c).streams.get? i).isSome = true

theorem listed (c : Conn) : c.Listed := by
  intro is i js hl
  have hkeep (d : Conn) (j k : ℕ) (h : (d.streams.get? j).isSome = true) :
      ((d.dispatchOne k).streams.get? j).isSome = true := by
    by_cases hjk : j = k
    · subst hjk
      obtain ⟨st,hst⟩ := Option.isSome_iff_exists.mp h
      rcases dispatchOne_cases hst with ht | ⟨t,-,ht⟩
      · obtain ⟨s',hs',-⟩ := ht.get?_of hst
        exact Option.isSome_iff_exists.mpr ⟨s',hs'⟩
      · obtain ⟨s',hs',-⟩ := ht.get?_of (c := { d with tasks := d.tasks ++ [t] }) hst
        exact Option.isSome_iff_exists.mpr ⟨s',hs'⟩
    · rw [get?_dispatchOne_ne hjk]
      exact h
  have hfold : ∀ (ks : List ℕ) (d : Conn), (d.streams.get? i).isSome = true →
      ((ks.foldl dispatchOne d).streams.get? i).isSome = true := by
    intro ks
    induction ks with
    | nil => exact fun _ h => h
    | cons k ks ih => exact fun d h => ih _ (hkeep d i k h)
  apply hfold
  have hi : i ∈ (c.streams.entries.filter (fun e => isReady e.2)).map Prod.fst := by
    rw [hl]
    exact List.mem_append_right _ List.mem_cons_self
  obtain ⟨⟨j,st⟩,he,rfl⟩ := List.mem_map.mp hi
  exact Option.isSome_iff_exists.mpr ⟨st,KeyMap.get?_eq_some_iff.mpr (List.mem_filter.mp he).1⟩

theorem live_entry (h : c.stateOf i = .opened ∨ c.stateOf i = .halfClosed) : (c.streams.get? i).isSome = true := by
  rcases h with h | h
  · obtain ⟨st,hst,-⟩ := stateOf_entry h (by simp) (by simp)
    exact Option.isSome_iff_exists.mpr ⟨st,hst⟩
  · obtain ⟨st,hst,-⟩ := stateOf_entry h (by simp) (by simp)
    exact Option.isSome_iff_exists.mpr ⟨st,hst⟩

theorem closeBlock_ne_panic (c : Conn) (f : Frame) : (c.closeBlock f).2 ≠ .panic := by
  unfold closeBlock
  split <;> simp

theorem openBlock_ne_panic (c : Conn) (f : Frame) : (c.openBlock f).2 ≠ .panic := by
  unfold openBlock
  split
  · exact closeBlock_ne_panic c f
  · simp

theorem onData_ne_panic (c : Conn) (f : Frame) : (c.onData f).2 ≠ .panic := by
  unfold onData
  split
  · simp [fail]
  dsimp only
  split
  · simp [fail]
  split
  · simp [fail]
  · simp [fail]
  · simp
  · simp
  · rename_i hopen
    split
    · rename_i hnone
      have hs := live_entry (Or.inl hopen)
      rw [hnone] at hs
      cases hs
    · split <;> simp

theorem onBlock_ne_panic (c : Conn) (f : Frame) (block : Bytes) : (c.onBlock f block).2 ≠ .panic := by
  have htrailers (h : c.stateOf f.head.stream = .opened ∨ c.stateOf f.head.stream = .halfClosed) :
      (c.onTrailers f block).2 ≠ .panic := by
    have hs := live_entry h
    unfold onTrailers
    split
    · simp
    split
    · rename_i hnone
      rw [hnone] at hs
      cases hs
    · exact openBlock_ne_panic _ f
  unfold onBlock
  split
  · rename_i h
    exact htrailers (Or.inl h)
  · rename_i h
    exact htrailers (Or.inr h)
  · simp [fail]
  · simp [fail]
  · unfold onNewStream
    split
    · simp [fail]
    dsimp only
    split
    · simp
    · exact openBlock_ne_panic _ f

theorem onHeaders_ne_panic (c : Conn) (f : Frame) : (c.onHeaders f).2 ≠ .panic := by
  unfold onHeaders
  split
  · simp [fail]
  split
  · simp [fail]
  split
  · simp [fail]
  split
  · split
    · simp [fail]
    split
    · simp
    · exact onBlock_ne_panic c f _
  · exact onBlock_ne_panic c f _

theorem onContinuation_ne_panic
    (h : c.expectContinuation = some f.head.stream → (c.streams.get? f.head.stream).isSome = true) :
    (c.onContinuation f).2 ≠ .panic := by
  unfold onContinuation
  split
  · simp [fail]
  rename_i he
  split
  · rename_i hnone
    have hs := h (not_not.mp he)
    rw [hnone] at hs
    cases hs
  split
  · simp [fail]
  dsimp only
  split
  · exact closeBlock_ne_panic _ f
  · simp

theorem arm_ne_panic
    (h : c.expectContinuation = some f.head.stream → (c.streams.get? f.head.stream).isSome = true) :
    (c.arm f).2 ≠ .panic := by
  unfold arm
  split
  · exact onData_ne_panic c f
  split
  · exact onHeaders_ne_panic c f
  split
  · exact onContinuation_ne_panic h
  split
  · unfold onPriority
    repeat' split
    all_goals simp [fail]
  split
  · unfold onRstStream
    repeat' split
    all_goals simp [fail]
  split
  · unfold onSettings
    repeat' split
    all_goals simp [fail]
  split
  · unfold onPing
    repeat' split
    all_goals simp [fail]
  split
  · unfold onWindowUpdate
    repeat' split
    all_goals simp [fail]
  split
  · simp
  split
  · simp [fail]
  · simp

example : ((Conn.new 0).arm (.of Kind.continuation 0 1 [])).2 ≠ .panic := by decide +kernel

/-- No `expect` of the loop fires on the next frame, and what they rely on holds. -/
structure NeverPanics (c : Conn) : Prop where
  block : ∀ i, c.expectContinuation = some i → (c.streams.get? i).isSome = true
  live : ∀ i, c.stateOf i = .opened ∨ c.stateOf i = .halfClosed → (c.streams.get? i).isSome = true
  frame : ∀ f, (c.readFrame f).2 ≠ .panic
  listed : ∀ f d, c.arm f = (d,.dispatch) → d.Listed

/-- While the loop reads, no sequence of frames and task steps makes it panic. -/
theorem run_neverPanics (maxBody : ℕ) (as : List Act) (s : Sys)
    (hr : Runs (stepRel Sys.step) (Sys.new maxBody) as s) (hres : s.conn.result = none) : NeverPanics s.conn where
  block := (run_blockOpen hr hres).entry
  live := fun _ h => live_entry h
  frame := by
    intro f
    have harm := arm_ne_panic (f := f) (fun h => (run_blockOpen hr hres).entry _ h)
    unfold readFrame
    split
    · simp [fail]
    split
    · simp [fail]
    split
    · simp
    · exact harm
  listed := fun _ d _ => listed d

/-- A header block is open. -/
def openedBlock : List Act := [.frame (.of Kind.headers Flag.endStream 1 [0x82]) (by decide)]

theorem openedBlock_neverPanics : ∃ s, Runs (stepRel Sys.step) (Sys.new 1) openedBlock s ∧
    s.conn.expectContinuation = some 1 ∧ NeverPanics s.conn := by
  have h : (runList Sys.step (Sys.new 1) openedBlock).map (fun s => (s.conn.expectContinuation,s.conn.result.isNone)) =
      some (some 1,true) := by
    decide +kernel
  obtain ⟨s,hs,hv⟩ := Option.map_eq_some_iff.mp h
  simp only [Prod.mk.injEq,Option.isNone_iff_eq_none] at hv
  exact ⟨s,.of_runList hs,hv.1,run_neverPanics 1 openedBlock s (.of_runList hs) hv.2⟩

end OxiServe.Http2
