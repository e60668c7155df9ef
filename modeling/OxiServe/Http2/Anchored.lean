import OxiServe.Http2.Tasks

/-! # A task keeps its entry until its stream is reset

The marks of a flow cell, reset and done, and how an arm of the reader loop sets
them: on the stream of its frame only, and done never without reset. So the
table drops no stream whose task still writes.
-/
namespace OxiServe.Http2
open Conn

section Marks

/-- The marks of other streams stay, and a reset mark is not taken back. -/
structure Marks (c c' : Conn) (i : ℕ) : Prop where
  others : ∀ j, j ≠ i → (c'.flows j).reset = (c.flows j).reset ∧ (c'.flows j).done = (c.flows j).done
  reset : (c.flows i).reset = true → (c'.flows i).reset = true
  done : (c'.flows i).done = true → (c.flows i).done = true ∨ (c'.flows i).reset = true

variable {c c' d : Conn} {i : ℕ}

theorem Marks.quiet (h : ∀ j, (c'.flows j).reset = (c.flows j).reset ∧ (c'.flows j).done = (c.flows j).done) :
    Marks c c' i where
  others := fun j _ => h j
  reset := fun hr => (h i).1.trans hr
  done := fun hd => Or.inl ((h i).2 ▸ hd)

theorem Marks.trans (h : Marks c c' i) (h' : Marks c' d i) : Marks c d i where
  others := fun j hj => ⟨(h'.others j hj).1.trans (h.others j hj).1,(h'.others j hj).2.trans (h.others j hj).2⟩
  reset := fun hr => h'.reset (h.reset hr)
  done := by
    intro hd
    rcases h'.done hd with hd | hr
    · rcases h.done hd with hd | hr
      · exact Or.inl hd
      · exact Or.inr (h'.reset hr)
    · exact Or.inr hr

theorem flows_resetStream {st : Stream} (h : c.streams.get? i = some st) (code : Code) :
    (c.resetStream i code).flows = fun j =>
      if j = i then { c.flows j with reset := true, done := true } else c.flows j := by
  have he : (c.emit (rst i code)).streams.get? i = some st := h
  simp only [Conn.resetStream,he]
  rfl

theorem Marks.move (h : Move i c c') : Marks c c' i := by
  cases h with
  | rest dec recvWindow out fed => exact .quiet (fun _ => ⟨rfl,rfl⟩)
  | expect e he => exact .quiet (fun _ => ⟨rfl,rfl⟩)
  | stream g => exact .quiet (fun _ => ⟨rfl,rfl⟩)
  | resetByServer =>
    refine ⟨fun j hj => ?_,fun _ => ?_,fun _ => ?_⟩
    · simp [modifyFlow,hj]
    · simp [modifyFlow]
    · simp [modifyFlow]
  | resetByPeer =>
    refine ⟨fun j hj => ?_,fun _ => ?_,fun hd => Or.inl ?_⟩
    · simp [modifyFlow,hj]
    · simp [modifyFlow]
    · simpa [modifyFlow] using hd

theorem Marks.moves (h : Moves i c c') : Marks c c' i :=
  h.keep (P := fun d => Marks c d i) (.quiet (fun _ => ⟨rfl,rfl⟩)) (fun _ _ hd hm => hd.trans (.move hm))

/-- How an arm sets the marks: those of its own stream, or it opens that stream. -/
def Marked (c c' : Conn) (i : ℕ) : Prop :=
  Marks c c' i ∨ c.stateOf i = .idle ∧
    ∀ j, j ≠ i → (c'.flows j).reset = (c.flows j).reset ∧ (c'.flows j).done = (c.flows j).done

theorem Marks.onSettings (c : Conn) (f : Frame) : Marks c (c.onSettings f).1 i := by
  unfold Conn.onSettings
  repeat' split
  · exact .quiet (fun _ => ⟨rfl,rfl⟩)
  · exact .quiet (fun _ => ⟨rfl,rfl⟩)
  · exact .quiet (fun _ => ⟨rfl,rfl⟩)
  · exact .quiet (fun _ => ⟨rfl,rfl⟩)
  · rename_i hd
    obtain ⟨dec,mf,w,rfl⟩ := applySettings_eq hd
    exact .quiet (fun _ => ⟨rfl,rfl⟩)
  · rename_i hd
    obtain ⟨dec,mf,w,rfl⟩ := applySettings_eq hd
    refine .quiet (fun j => ?_)
    simp only [shiftWindows,emit]
    split <;> exact ⟨rfl,rfl⟩

theorem Marks.onWindowUpdate (c : Conn) (f : Frame) : Marks c (c.onWindowUpdate f).1 f.head.stream := by
  rcases onWindowUpdate_moves c f with ⟨h,-⟩ | ⟨-,⟨-,h⟩ | ⟨-,h⟩ | ⟨-,h,-⟩⟩
  · exact .moves h
  · rw [h]
    exact .quiet (fun _ => ⟨rfl,rfl⟩)
  · rw [h]
    refine .quiet (fun j => ?_)
    simp only [modifyFlow]
    split <;> exact ⟨rfl,rfl⟩
  · rw [h]
    exact .quiet (fun _ => ⟨rfl,rfl⟩)

theorem arm_marked (c : Conn) (f : Frame) : Marked c (c.arm f).1 f.head.stream := by
  by_cases hs : f.head.kind = Kind.settings
  · rw [arm_settings hs]
    exact Or.inl (.onSettings c f)
  by_cases hw : f.head.kind = Kind.windowUpdate
  · rw [arm_windowUpdate hw]
    exact Or.inl (.onWindowUpdate c f)
  obtain ⟨b,hb,hm⟩ := arm_moves c hs hw
  have hmarks := Marks.moves hm
  cases hb with
  | here => exact Or.inl hmarks
  | refused hi =>
    have ha : Marks c (aim c f) f.head.stream := .quiet (fun _ => ⟨rfl,rfl⟩)
    exact Or.inl (ha.trans hmarks)
  | @opened block hi =>
    refine Or.inr ⟨hi,fun j hj => ?_⟩
    have hins : ((aim c f).insertStream f block).flows j = c.flows j := by
      simp [insertStream,modifyFlow,hj,aim,reap]
    have ho := hmarks.others j hj
    rwa [hins] at ho

theorem Marks.dispatchOne (c : Conn) (i : ℕ) : Marks c (c.dispatchOne i) i := by
  unfold Conn.dispatchOne
  split
  · exact .quiet (fun _ => ⟨rfl,rfl⟩)
  rename_i st hst
  dsimp only
  split
  · split
    · have hget : ((c.modifyStream i (fun s => { s with dispatched := true })).modifyFlow i
          (fun w => { w with done := true })).streams.get? i = some { st with dispatched := true } := by
        simp [modifyFlow,modifyStream,KeyMap.get?_modify,hst]
      have hf := flows_resetStream hget .protocol
      refine ⟨fun j hj => ?_,fun _ => ?_,fun _ => Or.inr ?_⟩
      · rw [hf]
        simp [modifyFlow,modifyStream,hj]
      · rw [hf]
        simp
      · rw [hf]
        simp
    · exact .quiet (fun _ => ⟨rfl,rfl⟩)
  · exact .quiet (fun _ => ⟨rfl,rfl⟩)

end Marks

section Anchored

/-- A running task has its entry in the table, not marked done, unless its stream
was reset. -/
def Anchored (c : Conn) : Prop :=
  ∀ i ∈ c.running, (c.flows i).reset = false → ∃ st, c.streams.get? i = some st ∧ (c.flows i).done = false

variable {c c' d : Conn} {i : ℕ}

theorem Marked.running (h : Marked c d i) (hl : Ledger c) {j : ℕ} (hj : j ∈ c.running) :
    ((c.flows j).reset = true → (d.flows j).reset = true) ∧
      ((d.flows j).done = true → (c.flows j).done = true ∨ (d.flows j).reset = true) := by
  have hother (h : (d.flows j).reset = (c.flows j).reset ∧ (d.flows j).done = (c.flows j).done) :
      ((c.flows j).reset = true → (d.flows j).reset = true) ∧
        ((d.flows j).done = true → (c.flows j).done = true ∨ (d.flows j).reset = true) :=
    ⟨fun hr => h.1.trans hr,fun hd => Or.inl (h.2 ▸ hd)⟩
  by_cases hji : j = i
  · subst hji
    rcases h with h | ⟨hi,-⟩
    · exact ⟨h.reset,h.done⟩
    · have h1 := hl.tasksKnown j hj
      have h2 := (stateOf_idle hi).2
      omega
  · rcases h with h | ⟨-,h⟩
    · exact hother (h.others j hji)
    · exact hother (h j hji)

theorem Fate.touch {f : Frame} (h : Fate c f d) : ∃ φ, Touch c d f.head.stream φ := by
  cases h with
  | kept ht => exact ⟨_,ht⟩
  | closed ht => exact ⟨_,ht⟩
  | resetByServer _ ht => exact ⟨_,ht⟩
  | resetByPeer _ ht => exact ⟨_,ht⟩

/-- What a HEADERS frame on an idle id leaves of the streams before it. -/
theorem Opens.aimed {f : Frame} (h : Opens c f d) : d.tasks = c.tasks ∧
    d.highestClientStream = f.head.stream ∧ ∀ j st, j ≠ f.head.stream → (aim c f).streams.get? j = some st →
      ∃ st', d.streams.get? j = some st' ∧ st'.state = st.state ∧ st'.dispatched = st.dispatched := by
  have hins {φ : Life → Life} {block : Bytes} (ht : Touch ((aim c f).insertStream f block) d f.head.stream φ) :
      d.tasks = c.tasks ∧ d.highestClientStream = f.head.stream ∧
        ∀ j st, j ≠ f.head.stream → (aim c f).streams.get? j = some st →
          ∃ st', d.streams.get? j = some st' ∧ st'.state = st.state ∧ st'.dispatched = st.dispatched := by
    refine ⟨ht.tasks,ht.highest,fun j st hj hst => ?_⟩
    have hget : ((aim c f).insertStream f block).streams.get? j = some st := by
      simpa [insertStream,KeyMap.get?_insert,hj] using hst
    obtain ⟨st',hst',hl⟩ := ht.get?_of hget
    rw [if_neg hj] at hl
    exact ⟨st',hst',congrArg Life.state hl,congrArg Life.dispatched hl⟩
  cases h with
  | refused _ ht =>
    refine ⟨ht.tasks,ht.highest,fun j st hj hst => ?_⟩
    obtain ⟨st',hst',hl⟩ := ht.get?_of hst
    rw [if_neg hj] at hl
    exact ⟨st',hst',congrArg Life.state hl,congrArg Life.dispatched hl⟩
  | kept _ ht => exact hins ht
  | reset _ _ ht => exact hins ht

theorem arm_tasks_eq {f : Frame} {n : Next} (ha : c.arm f = (d,n)) : d.tasks = c.tasks := by
  rcases arm_cases ha with hf | ⟨-,ho⟩
  · obtain ⟨φ,ht⟩ := hf.touch
    exact ht.tasks
  · exact ho.aimed.1

theorem Anchored.arm {f : Frame} {n : Next} (h : Anchored c) (hl : Ledger c) (ha : c.arm f = (d,n)) :
    Anchored d := by
  have hm := arm_marked c f
  rw [ha] at hm
  intro j hj hr
  rw [running,arm_tasks_eq ha] at hj
  obtain ⟨hmono,hdone⟩ := hm.running hl hj
  have hrc : (c.flows j).reset = false := by
    by_contra hn
    rw [hmono (by simpa using hn)] at hr
    cases hr
  obtain ⟨st,hst,hdc⟩ := h j hj hrc
  have hdd : (d.flows j).done = false := by
    by_contra hn
    rcases hdone (by simpa using hn) with hd | hd
    · rw [hdc] at hd
      cases hd
    · rw [hr] at hd
      cases hd
  rcases arm_cases ha with hf | ⟨hi,ho⟩
  · obtain ⟨φ,ht⟩ := hf.touch
    obtain ⟨st',hst',-⟩ := ht.get?_of hst
    exact ⟨st',hst',hdd⟩
  · have hji : j ≠ f.head.stream := by
      have h1 := hl.tasksKnown j hj
      have h2 := (stateOf_idle hi).2
      omega
    have haim : (aim c f).streams.get? j = some st := by
      simp only [aim,reap,KeyMap.get?_retain,Option.filter_eq_some_iff]
      exact ⟨hst,by simp [hdc]⟩
    obtain ⟨st',hst',-⟩ := ho.aimed.2.2 j st hji haim
    exact ⟨st',hst',hdd⟩

theorem Anchored.dispatchOne {i : ℕ} {st : Stream} (h : Anchored c) (hl : Ledger c)
    (hst : c.streams.get? i = some st) (hr : isReady st = true) : Anchored (c.dispatchOne i) := by
  have hni := not_running_of_ready hl hst hr
  have hm := Marks.dispatchOne c i
  have hnd : (c.flows i).done = false := by
    have hready := hr
    simp only [isReady,Bool.and_eq_true,Bool.not_eq_true',beq_iff_eq] at hready
    by_contra hd
    have := (hl.lives i st hst).doneReset (by simpa [life] using hd)
    simp [life,hready.1.1,hready.2] at this
  have hkeep {j : ℕ} {s : Stream} (hs : c.streams.get? j = some s) :
      ∃ s', (c.dispatchOne i).streams.get? j = some s' := by
    rcases dispatchOne_cases hst with ht | ⟨t,-,ht⟩
    · obtain ⟨s',hs',-⟩ := ht.get?_of hs
      exact ⟨s',hs'⟩
    · obtain ⟨s',hs',-⟩ := ht.get?_of hs
      exact ⟨s',hs'⟩
  have hrun {j : ℕ} (hj : j ∈ (c.dispatchOne i).running) : j ∈ c.running ∨ j = i := by
    rcases dispatchOne_cases hst with ht | ⟨t,rfl,ht⟩
    · rw [ht.running] at hj
      exact Or.inl hj
    · rw [running_spawn ht,List.mem_append,List.mem_singleton] at hj
      exact hj
  intro j hj hres
  by_cases hji : j = i
  · subst hji
    obtain ⟨s',hs'⟩ := hkeep hst
    refine ⟨s',hs',?_⟩
    by_contra hn
    rcases hm.done (by simpa using hn) with hd | hd
    · rw [hnd] at hd
      cases hd
    · rw [hres] at hd
      cases hd
  · obtain ⟨hres',hdone⟩ := hm.others j hji
    have hjc : j ∈ c.running := (hrun hj).resolve_right hji
    obtain ⟨s,hs,hd⟩ := h j hjc (hres' ▸ hres)
    obtain ⟨s',hs'⟩ := hkeep hs
    exact ⟨s',hs',hdone.trans hd⟩

theorem Anchored.dispatch (h : Anchored c) (hl : Ledger c) : Anchored c.dispatch := by
  refine (dispatch_induction (P := fun d => Ledger d ∧ Anchored d) ⟨hl,h⟩ ?_).2
  intro d i st hd hst hr
  exact ⟨hd.1.dispatchOne hst hr,hd.2.dispatchOne hd.1 hst hr⟩

theorem Anchored.next {e : Event} (h : Anchored c) (hl : Ledger c) (hn : c.next e = some c') : Anchored c' := by
  have hshut (d : Conn) (r : Except ConnErr Unit) (hd : Anchored d) : Anchored (d.shutdown r) := fun j hj => hd j hj
  rcases next_cases hn with ⟨f,d,n,rfl,-,ha,⟨-,rfl⟩ | ⟨-,rfl⟩ | ⟨r,rfl⟩⟩ | ⟨r,rfl⟩ | ⟨i,data,rfl,-⟩ | ⟨i,-,hi,rfl⟩
  · exact (h.arm hl ha).dispatch (hl.arm ha)
  · exact h.arm hl ha
  · exact hshut _ r (h.arm hl ha)
  · exact hshut _ r h
  · obtain ⟨-,rfl⟩ := next_send hn
    intro j hj hr
    obtain ⟨st,hst,hd⟩ := h j hj (by
      simp only [modifyFlow,emit] at hr
      split at hr <;> exact hr)
    refine ⟨st,hst,?_⟩
    simp only [modifyFlow,emit]
    split <;> exact hd
  · intro j hj hr
    obtain ⟨hj,hne⟩ := mem_running_finish.mp hj
    obtain ⟨st,hst,hd⟩ := h j hj (by simpa [modifyFlow,hne] using hr)
    exact ⟨st,hst,by simpa [modifyFlow,hne] using hd⟩

theorem kept_anchored : Kept (fun c => Ledger c ∧ Anchored c) where
  out := fun c o h => ⟨kept_ledger.out c o h.1,h.2⟩
  next := fun _ _ _ h hn => ⟨h.1.next hn,h.2.next h.1 hn⟩

/-- What holds of the connection along every run of it with its tasks. -/
theorem run_anchored {maxBody : ℕ} {as : List Act} {s : Sys} (hr : Runs (stepRel Sys.step) (Sys.new maxBody) as s) :
    Ledger s.conn ∧ Anchored s.conn := by
  refine hr.invariant (I := fun _ s => Ledger s.conn ∧ Anchored s.conn) ⟨ledger_new maxBody,?_⟩ ?_
  · intro i hi
    simp [Sys.new,Conn.new,running] at hi
  · intro _ _ _ _ _ hs hstep
    exact kept_anchored.step hstep hs

theorem highest_dispatch (c : Conn) : c.dispatch.highestClientStream = c.highestClientStream := by
  refine dispatch_induction (P := fun d => d.highestClientStream = c.highestClientStream) rfl ?_
  intro d i st hd hst _
  rcases dispatchOne_cases hst with ht | ⟨t,-,ht⟩
  · exact ht.highest.trans hd
  · exact ht.highest.trans hd

theorem highest_arm {f : Frame} {n : Next} (ha : c.arm f = (d,n)) :
    d.highestClientStream = c.highestClientStream ∨ d.highestClientStream = f.head.stream := by
  rcases arm_cases ha with hf | ⟨-,ho⟩
  · obtain ⟨φ,ht⟩ := hf.touch
    exact Or.inl ht.highest
  · exact Or.inr ho.aimed.2.1

/-- No stream id is beyond 31 bits. -/
theorem run_wired {maxBody : ℕ} {as : List Act} {s : Sys} (hr : Runs (stepRel Sys.step) (Sys.new maxBody) as s) :
    s.conn.highestClientStream < 2 ^ 31 := by
  refine hr.invariant (I := fun _ s => s.conn.highestClientStream < 2 ^ 31) (Nat.two_pow_pos 31) ?_
  intro _ s a s' _ hs hstep
  cases Sys.step_cases hstep with
  | reads _ he hc h =>
    rw [h]
    rcases he with ⟨f,wire,rfl,rfl⟩ | ⟨r,rfl,rfl⟩
    · obtain ⟨-,⟨e,rfl⟩ | ⟨-,d,n,ha,hcase⟩⟩ := next_frame hc
      · exact hs
      have hd : d.highestClientStream < 2 ^ 31 := by
        rcases highest_arm ha with h | h
        · rw [h]
          exact hs
        · rw [h]
          exact wire
      rcases hcase with ⟨-,rfl⟩ | ⟨-,rfl⟩ | ⟨r,-,rfl⟩
      · rw [highest_dispatch]
        exact hd
      · exact hd
      · exact hd
    · simp only [next] at hc
      split at hc
      · cases hc
      · cases hc
        exact hs
  | turn _ ht => exact ht.own.highest ▸ hs
  | reply _ _ ha => exact ha.own.highest ▸ hs
  | writerGone hg =>
    rw [hg]
    exact hs

end Anchored

section Started
variable {c c' d : Conn} {f : Frame} {i : ℕ}

/-- No task will be spawned for the stream any more. -/
def Conn.spent (c : Conn) (i : ℕ) : Prop :=
  i ≤ c.highestClientStream ∧ ∀ st, c.streams.get? i = some st → st.state = .reset ∨ st.dispatched = true

theorem spent_running (hl : Ledger c) (hi : i ∈ c.running) : c.spent i :=
  ⟨hl.tasksKnown i hi,fun st hst => Or.inr ((hl.lives i st hst).handed hi)⟩

theorem spent_arm {n : Next} (ha : c.arm f = (d,n)) (hi : c.spent i) : d.spent i := by
  have honly := Only.arm c f
  rw [ha] at honly
  refine ⟨Nat.le_trans hi.1 honly.highest,fun st hst => ?_⟩
  by_cases hif : i = f.head.stream
  · subst hif
    have key {φ : Life → Life} (ht : Touch c d f.head.stream φ)
        (hφ : ∀ l : Life, l.state = .reset ∨ l.dispatched = true → (φ l).state = .reset ∨ (φ l).dispatched = true) :
        st.state = .reset ∨ st.dispatched = true := by
      obtain ⟨s,hs,hlife⟩ := ht.get? hst
      rw [if_pos rfl] at hlife
      have h := hφ (c.life f.head.stream s) (hi.2 s hs)
      rw [← hlife] at h
      exact h
    rcases arm_cases ha with hf | ⟨hidle,-⟩
    · cases hf with
      | kept ht => exact key ht (fun _ h => h)
      | closed ht =>
        refine key ht (fun l h => h.imp (fun hr => ?_) (fun hd => ?_))
        · simp [Life.close,hr]
        · unfold Life.close
          split <;> exact hd
      | resetByServer _ ht => exact key ht (fun _ _ => Or.inl rfl)
      | resetByPeer _ ht => exact key ht (fun _ _ => Or.inl rfl)
    · have := (stateOf_idle hidle).2
      have := hi.1
      omega
  · exact hi.2 st (honly.others i st hif hst)

theorem spent_dispatchOne {j : ℕ} {st : Stream} (hst : c.streams.get? j = some st) (hi : c.spent i) :
    (c.dispatchOne j).spent i := by
  rcases dispatchOne_cases hst with ht | ⟨t,-,ht⟩
  all_goals
    refine ⟨Nat.le_trans hi.1 (Nat.le_of_eq ht.highest.symm),fun s' hs' => ?_⟩
    obtain ⟨s,hs,hlife⟩ := ht.get? hs'
    have hd := congrArg Life.dispatched hlife
    have hr := congrArg Life.state hlife
    split at hd
    · exact Or.inr hd
    · rename_i hij
      rw [if_neg hij] at hr
      exact (hi.2 s hs).imp (fun h => Eq.trans hr h) (fun h => Eq.trans hd h)

/-- What follows spawns tasks only for streams that are not spent. -/
def Enlists (c c' : Conn) : Prop :=
  (∀ i, c.spent i → c'.spent i) ∧ ∃ new, c'.tasks = c.tasks ++ new ∧ ∀ t ∈ new, ¬ c.spent t.id

theorem Enlists.keep (hs : ∀ i, c.spent i → c'.spent i) (ht : c'.tasks = c.tasks) : Enlists c c' :=
  ⟨hs,[],by rw [ht,List.append_nil],by simp⟩

theorem Enlists.trans (h : Enlists c c') (h' : Enlists c' d) : Enlists c d := by
  obtain ⟨h1,as,ha,hna⟩ := h
  obtain ⟨h2,bs,hb,hnb⟩ := h'
  refine ⟨fun i hi => h2 i (h1 i hi),as ++ bs,by rw [hb,ha,List.append_assoc],fun t ht hs => ?_⟩
  rcases List.mem_append.mp ht with ht | ht
  · exact hna t ht hs
  · exact hnb t ht (h1 _ hs)

theorem Enlists.running (h : Enlists c c') : (∀ i ∈ c.running, i ∈ c'.running) ∧
    ∀ i ∈ c'.running, i ∈ c.running ∨ ¬ c.spent i := by
  obtain ⟨-,new,ht,hn⟩ := h
  unfold Conn.running
  rw [ht,List.map_append]
  refine ⟨fun i hi => List.mem_append_left _ hi,fun i hi => ?_⟩
  refine (List.mem_append.mp hi).imp (fun h => h) (fun hi => ?_)
  obtain ⟨t,ht,rfl⟩ := List.mem_map.mp hi
  exact hn t ht

theorem Enlists.dispatchOne {j : ℕ} {st : Stream} (hst : c.streams.get? j = some st) (hr : isReady st = true) :
    Enlists c (c.dispatchOne j) := by
  refine ⟨fun i hi => spent_dispatchOne hst hi,?_⟩
  rcases dispatchOne_cases hst with ht | ⟨t,rfl,ht⟩
  · exact ⟨[],by rw [ht.tasks,List.append_nil],by simp⟩
  · refine ⟨[t],ht.tasks,fun u hu hs => ?_⟩
    rw [List.mem_singleton.mp hu] at hs
    simp only [isReady,Bool.and_eq_true,Bool.not_eq_true',beq_iff_eq] at hr
    rcases hs.2 st hst with h | h
    · rw [hr.2] at h
      cases h
    · rw [hr.1.1] at h
      cases h

theorem Enlists.dispatch (c : Conn) : Enlists c c.dispatch :=
  dispatch_induction (P := fun d => Enlists c d) (.keep (fun _ h => h) rfl)
    (fun _ _ _ h hst hr => h.trans (.dispatchOne hst hr))

/-- So does a whole turn of the reader loop. -/
theorem Enlists.reads {e : Event} (he : (∃ f, e = .frame f) ∨ ∃ r, e = .hangUp r) (hn : c.next e = some c') :
    Enlists c c' := by
  rcases he with ⟨f,rfl⟩ | ⟨r,rfl⟩
  · obtain ⟨-,⟨e,rfl⟩ | ⟨-,d,n,ha,hcase⟩⟩ := next_frame hn
    · exact .keep (fun _ h => h) rfl
    have hd : Enlists c d := .keep (fun i hi => spent_arm ha hi) (arm_tasks_eq ha)
    rcases hcase with ⟨-,rfl⟩ | ⟨-,rfl⟩ | ⟨r,-,rfl⟩
    · exact hd.trans (.dispatch d)
    · exact hd
    · exact hd.trans (.keep (fun _ h => h) rfl)
  · simp only [next] at hn
    split at hn
    · cases hn
    · cases hn
      exact .keep (fun _ h => h) rfl

/-- A task that has not been spawned is at its start. -/
theorem run_started {maxBody : ℕ} {as : List Act} {s : Sys} (hr : Runs (stepRel Sys.step) (Sys.new maxBody) as s) :
    ∀ i, s.conn.spent i ∨ s.progs i = .start := by
  refine (hr.invariant (I := fun _ s => (Ledger s.conn ∧ Anchored s.conn) ∧ ∀ i, s.conn.spent i ∨ s.progs i = .start)
    ⟨⟨ledger_new maxBody,?_⟩,fun _ => Or.inr rfl⟩ ?_).2
  · intro i hi
    simp [Sys.new,Conn.new,running] at hi
  rintro _ s a s' _ ⟨hla,h⟩ hstep
  refine ⟨kept_anchored.step hstep hla,?_⟩
  have hown {id : ℕ} {ks : List UInt8} (hid : id ∈ s.conn.running) (ho : Own s s' id ks) (i : ℕ) :
      s'.conn.spent i ∨ s'.progs i = .start := by
    unfold Conn.spent
    rw [ho.streams,ho.highest]
    by_cases hi : i = id
    · exact Or.inl (hi ▸ spent_running hla.1 hid)
    · rw [ho.progs i hi]
      exact h i
  cases Sys.step_cases hstep with
  | reads _ he hc h' =>
    rw [h']
    have hsp := Enlists.reads (he.imp (by rintro ⟨f,_,_,h⟩; exact ⟨f,h⟩) (by rintro ⟨r,_,h⟩; exact ⟨r,h⟩)) hc
    exact fun i => (h i).imp (fun hi => hsp.1 i hi) (fun hp => hp)
  | turn hid ht => exact hown hid ht.own
  | reply hid _ ha => exact hown hid ha.own
  | writerGone hg =>
    rw [hg]
    exact h

end Started

end OxiServe.Http2
