import OxiServe.Http2.InFlight

/-! # Nothing is sent on a stream that was reset

A stream is over once no task will be spawned for it and the one it has, if any,
is stopped and queues no frame of a response before it ends. Being over stays; a
reset brings it about unless it meets a task that does not look for it.
-/
namespace OxiServe.Http2
open Conn Server Response

section Over

/-- A task that looks for the reset before it queues its next frame. A task at its
start does not, nor does one that waits for its handler, one that has its body in
memory, or one whose upstream has come to its end. -/
def Prog.looks (tasks : List StreamTask) : Prog → Bool
  | .start => tasks.all (fun t => match t.request with
    | .error _ => true
    | .ok _ => false)
  | .handling _ => false
  | .pump _ _ _ .last => false
  | .pump _ _ _ (.file _ _ _ _) => true
  | .pump _ _ _ (.stream _) => true
  | .read io =>
    match (Reader.read chunkLen io).1 with
    | .data (_ :: _) => true
    | _ => false

/-- The stream has no task that would write on after a reset. -/
def Sys.silent (s : Sys) (i : ℕ) : Bool :=
  i ∉ s.conn.running || (s.progs i).looks (s.conn.tasks.filter (fun t => t.id = i))

/-- No task will be spawned for the stream, and the one it has is stopped. -/
structure Conn.shut (c : Conn) (i : ℕ) : Prop where
  spent : c.result.isSome = true ∨ c.spent i
  stopped : i ∈ c.running → (c.flows i).reset = true ∨ c.result.isSome = true

def Sys.ended (s : Sys) (i : ℕ) : Prop := s.conn.shut i ∧ s.silent i = true

/-- The stream ends up shut, without a new task. -/
structure Settles (c c' : Conn) (i : ℕ) : Prop where
  shut : c'.shut i
  tasks : ∀ t ∈ c'.tasks, t.id = i → t ∈ c.tasks

/-- The frames that reset their stream meet a task that looks for it, and those that
leave no mark refuse a new stream or name one that is over. -/
def ResetsSilent (s : Sys) : Act → Prop
  | .frame f _ => s.gone = false →
    (s.conn.serverResets f = true ∨ f.head.kind = Kind.rstStream → s.silent f.head.stream = true) ∧
      (s.conn.resetsUnmarked f = true →
        f.head.kind = Kind.headers ∧ selfDependent f = false ∧ s.conn.stateOf f.head.stream = .idle ∨
          s.ended f.head.stream)
  | _ => True

/-- An RST_STREAM was queued for the stream, or the peer sent one. -/
def ResetSeen (as : List Act) (s : Sys) (i : ℕ) : Prop :=
  s.conn.hasReset i ∨ ∃ f wire, .frame f wire ∈ as ∧ f.head.kind = Kind.rstStream ∧ f.head.stream = i

end Over

section Conn
variable {c c' d : Conn} {f : Frame} {n : Next} {i : ℕ}

theorem reset_arm (hl : Ledger c) (ha : c.arm f = (d,n)) (hi : i ∈ c.running) (hr : (c.flows i).reset = true) :
    (d.flows i).reset = true := by
  have hm := arm_marked c f
  rw [ha] at hm
  exact (hm.running hl hi).1 hr

theorem reset_dispatch (hs : c.spent i) : (c.dispatch.flows i).reset = (c.flows i).reset := by
  refine (dispatch_induction (P := fun d => d.spent i ∧ (d.flows i).reset = (c.flows i).reset) ⟨hs,rfl⟩ ?_).2
  rintro d j st ⟨hs,hd⟩ hst hr
  have hij : i ≠ j := by
    rintro rfl
    simp only [isReady,Bool.and_eq_true,Bool.not_eq_true',beq_iff_eq] at hr
    rcases hs.2 st hst with h | h
    · cases h.symm.trans hr.2
    · cases h.symm.trans hr.1.1
  exact ⟨spent_dispatchOne hst hs,((Marks.dispatchOne d j).others i hij).1.trans hd⟩

theorem Enlists.settled (h : Enlists c c') (hs : c.spent i) : ∀ t ∈ c'.tasks, t.id = i → t ∈ c.tasks := by
  obtain ⟨-,new,ht,hn⟩ := h
  intro t hm hi
  rw [ht,List.mem_append] at hm
  exact hm.resolve_right (fun hm => hn t hm (hi ▸ hs))

/-- A stream that is shut stays so, whatever the reader loop takes. -/
theorem Conn.shut.reads {e : Event} (h : c.shut i) (hl : Ledger c)
    (he : (∃ f, e = .frame f) ∨ ∃ r, e = .hangUp r) (hres : c.result = none) (hn : c.next e = some c') :
    Settles c c' i := by
  have hspent : c.spent i := h.spent.resolve_left (by simp [hres])
  have hin := Enlists.reads he hn
  refine ⟨⟨Or.inr (hin.1 i hspent),fun hi => ?_⟩,hin.settled hspent⟩
  have hi : i ∈ c.running := (hin.running.2 i hi).resolve_right (fun hn => hn hspent)
  have hr : (c.flows i).reset = true := (h.stopped hi).resolve_right (by simp [hres])
  rcases he with ⟨f,rfl⟩ | ⟨r,rfl⟩
  · obtain ⟨-,⟨e,rfl⟩ | ⟨-,d,n,ha,hcase⟩⟩ := next_frame hn
    · exact Or.inl hr
    have hd := reset_arm hl ha hi hr
    rcases hcase with ⟨-,rfl⟩ | ⟨-,rfl⟩ | ⟨r,-,rfl⟩
    · exact Or.inl ((reset_dispatch (spent_arm ha hspent)).trans hd)
    · exact Or.inl hd
    · exact Or.inl hd
  · simp only [next,hres,Option.isSome_none,Bool.false_eq_true,if_false,Option.some.injEq] at hn
    subst hn
    exact Or.inl hr

/-- The dispatch step shuts the streams it resets and no task of theirs runs. -/
theorem dispatch_shut (hl : Ledger c) (hw : c.highestClientStream < 2 ^ 31) (hi : c.dispatch.hasReset i) :
    c.hasReset i ∨ c.dispatch.spent i ∧ i ∉ c.dispatch.running := by
  refine (dispatch_induction (P := fun d => (Ledger d ∧ d.highestClientStream < 2 ^ 31) ∧
    (d.hasReset i → c.hasReset i ∨ d.spent i ∧ i ∉ d.running)) ⟨⟨hl,hw⟩,fun h => Or.inl h⟩ ?_).2 hi
  intro d j st ⟨⟨hl,hw⟩,hd⟩ hst hr
  have hhigh : (d.dispatchOne j).highestClientStream = d.highestClientStream := by
    rcases dispatchOne_cases hst with ht | ⟨t,-,ht⟩
    · exact ht.highest
    · exact ht.highest
  refine ⟨⟨hl.dispatchOne hst hr,hhigh ▸ hw⟩,fun hi => ?_⟩
  rcases out_dispatchOne hst with ho | ⟨ho,ht,hs⟩
  · refine (hd (by rwa [Conn.hasReset,ho] at hi)).imp (fun h => h) (fun ⟨hsp,hni⟩ => ⟨spent_dispatchOne hst hsp,?_⟩)
    intro hm
    rcases (Enlists.dispatchOne hst hr).running.2 i hm with h | h
    · exact hni h
    · exact h hsp
  · have hrun : (d.dispatchOne j).running = d.running := by rw [running,ht,running]
    rw [hrun]
    rcases (hasReset_rst ho (Nat.lt_of_le_of_lt (hl.known j st hst) hw)).mp hi with hi | rfl
    · exact (hd hi).imp (fun h => h) (fun ⟨hsp,hni⟩ => ⟨spent_dispatchOne hst hsp,hni⟩)
    · obtain ⟨s,hs,hstate⟩ := hs
      refine Or.inr ⟨⟨hhigh ▸ hl.known i st hst,fun s' hs' => ?_⟩,not_running_of_ready hl hst hr⟩
      rw [hs] at hs'
      cases hs'
      exact Or.inl hstate

/-- A frame whose arm shuts the stream leaves it shut. -/
theorem settles_of_arm (hn : c.next (.frame f) = some c') (h : ∀ d n, c.arm f = (d,n) → n.goesOn →
    d.spent i ∧ (i ∈ d.running → (d.flows i).reset = true)) : Settles c c' i := by
  obtain ⟨-,⟨e,rfl⟩ | ⟨-,d,n,ha,⟨rfl,rfl⟩ | ⟨rfl,rfl⟩ | ⟨r,-,rfl⟩⟩⟩ := next_frame hn
  · exact ⟨⟨Or.inl rfl,fun _ => Or.inr rfl⟩,fun _ ht _ => ht⟩
  · obtain ⟨hs,hr⟩ := h d .dispatch ha (Or.inl rfl)
    have hin := Enlists.dispatch d
    refine ⟨⟨Or.inr (hin.1 i hs),fun hi => Or.inl ?_⟩,fun t ht hi => arm_tasks_eq ha ▸ hin.settled hs t ht hi⟩
    rw [reset_dispatch hs]
    exact hr ((hin.running.2 i hi).resolve_right (fun hn => hn hs))
  · obtain ⟨hs,hr⟩ := h _ .again ha (Or.inr rfl)
    exact ⟨⟨Or.inr hs,fun hi => Or.inl (hr hi)⟩,fun t ht _ => arm_tasks_eq ha ▸ ht⟩
  · exact ⟨⟨Or.inl rfl,fun _ => Or.inr rfl⟩,fun t ht _ => arm_tasks_eq ha ▸ ht⟩

theorem arm_rstStream (h : f.head.kind = Kind.rstStream) : c.arm f = c.onRstStream f := by
  simp [Conn.arm,h,Kind.rstStream,Kind.data,Kind.headers,Kind.continuation,Kind.priority]

/-- An RST_STREAM of the peer shuts its stream. -/
theorem rstStream_settles (hl : Ledger c) (hanch : Anchored c) (hk : f.head.kind = Kind.rstStream)
    (hn : c.next (.frame f) = some c') : Settles c c' f.head.stream := by
  refine settles_of_arm hn (fun d n ha hgo => ?_)
  rw [arm_rstStream hk,onRstStream] at ha
  split at ha
  · cases ha
    exact absurd hgo (not_goesOn_ret _)
  split at ha
  · cases ha
    exact absurd hgo (not_goesOn_ret _)
  split at ha
  · cases ha
    exact absurd hgo (not_goesOn_ret _)
  rename_i hidle
  split at ha
  · rename_i st hst
    cases ha
    refine ⟨⟨hl.known _ st hst,fun s hs => Or.inl ?_⟩,fun _ => by simp [modifyFlow]⟩
    simp only [modifyFlow,modifyStream,KeyMap.get?_modify,if_true,hst,Option.map_some,Option.some.injEq] at hs
    rw [← hs]
  · rename_i hst
    cases ha
    have hle : f.head.stream ≤ c.highestClientStream := by
      by_contra hgt
      exact hidle (by simp [stateOf,hst,hgt])
    refine ⟨⟨hle,(by intro s hs; cases hst.symm.trans hs)⟩,fun hi => ?_⟩
    by_contra hr
    obtain ⟨s,hs,-⟩ := hanch _ hi (by simpa using hr)
    cases hst.symm.trans hs

/-- So does a reset by the server that marks it. -/
theorem resetStream_shut {st : Stream} {code : Code} (hl : Ledger (c.resetStream i code))
    (hst : c.streams.get? i = some st) :
    (c.resetStream i code).spent i ∧ ((c.resetStream i code).flows i).reset = true := by
  obtain ⟨s,hs,hstate⟩ := showsReset_resetStream hst code
  refine ⟨⟨hl.known i s hs,fun s' hs' => ?_⟩,by simp [flows_resetStream hst]⟩
  rw [hs] at hs'
  cases hs'
  exact Or.inl hstate

/-- A stream that is refused never gets a task. -/
theorem refused_settles (hk : f.head.kind = Kind.headers) (hself : selfDependent f = false)
    (hidle : c.stateOf f.head.stream = .idle) (hu : c.resetsUnmarked f = true) (hl : Ledger c)
    (hn : c.next (.frame f) = some c') : Settles c c' f.head.stream ∧ f.head.stream ∉ c.running := by
  have hlt := (stateOf_idle hidle).2
  have hni : f.head.stream ∉ c.running := fun hi => by
    have := hl.tasksKnown _ hi
    omega
  have hfull : maxConcurrent ≤ (aim c f).active := by
    simpa [resetsUnmarked,hk,hself,hidle] using hu
  refine ⟨settles_of_arm hn (fun d n ha hgo => ?_),hni⟩
  have hkd : f.head.kind ≠ Kind.data := by rw [hk]; decide
  rw [arm,if_neg hkd,if_pos hk] at ha
  rcases onHeaders_cases ha with hb | ⟨hp,hdep,-⟩ | ⟨-,e,rfl⟩
  · have hlt' : ¬ f.head.stream ≤ c.highestClientStream := by omega
    simp only [onBlock,hidle,onNewStream,if_neg hlt'] at hb
    split at hb
    · cases hb
      refine ⟨⟨Nat.le_refl _,fun s hs => ?_⟩,fun hi => absurd hi hni⟩
      have hs : (aim c f).streams.get? f.head.stream = some s := hs
      cases (stateOf_idle hidle).1.symm.trans (get?_aim hs).1
    · rename_i hfree
      exact absurd hfull hfree
  · simp [selfDependent,hp,hdep] at hself
  · exact absurd hgo (not_goesOn_ret _)

/-- Where a reset that the reader loop queues comes from. -/
theorem reads_hasReset (hl : Ledger c) (hw : c.highestClientStream < 2 ^ 31) (wire : f.head.stream < 2 ^ 31)
    (hn : c.next (.frame f) = some c') (hi : c'.hasReset i) :
    c.hasReset i ∨ (i = f.head.stream ∧ c.serverResets f = true ∧ Settles c c' i) ∨
      (i = f.head.stream ∧ c.resetsUnmarked f = true) ∨ c'.shut i ∧ i ∉ c'.running := by
  have harm {d : Conn} {n : Next} (ha : c.arm f = (d,n)) (hi : d.hasReset i) : c.hasReset i ∨
      (i = f.head.stream ∧ c.serverResets f = true ∧ Settles c c' i) ∨
        (i = f.head.stream ∧ c.resetsUnmarked f = true) := by
    cases arm_answer ha with
    | quiet hq => exact Or.inl ((hasReset_quietly hq).mp hi)
    | @reset e st code hq hst hsr he =>
      subst he
      rcases (hasReset_rst (out_resetStream _ _ _) wire).mp hi with hi | rfl
      · exact Or.inl ((hasReset_quietly hq).mp hi)
      · refine Or.inr (Or.inl ⟨rfl,hsr,settles_of_arm hn (fun d n ha' _ => ?_)⟩)
        obtain ⟨rfl,rfl⟩ := Prod.mk.inj (ha.symm.trans ha')
        obtain ⟨h1,h2⟩ := resetStream_shut (hl.arm ha) hst
        exact ⟨h1,fun _ => h2⟩
    | unmarked hq hu ho =>
      rcases (hasReset_rst ho wire).mp hi with hi | rfl
      · exact Or.inl ((hasReset_quietly hq).mp hi)
      · exact Or.inr (Or.inr ⟨rfl,hu⟩)
  have hweak {p q r t : Prop} (h : p ∨ q ∨ r) : p ∨ q ∨ r ∨ t := h.imp (fun h => h) (fun h => h.imp (fun h => h) Or.inl)
  obtain ⟨-,⟨e,rfl⟩ | ⟨-,d,n,ha,⟨rfl,rfl⟩ | ⟨rfl,rfl⟩ | ⟨r,-,rfl⟩⟩⟩ := next_frame hn
  · exact Or.inl ((hasReset_quietly (Quietly.shutdown c _)).mp hi)
  · have hwd : d.highestClientStream < 2 ^ 31 := by
      rcases highest_arm ha with h | h
      · rw [h]
        exact hw
      · rw [h]
        exact wire
    rcases dispatch_shut (hl.arm ha) hwd hi with hi | ⟨hs,hni⟩
    · exact hweak (harm ha hi)
    · exact Or.inr (Or.inr (Or.inr ⟨⟨Or.inr hs,fun hi => absurd hi hni⟩,hni⟩))
  · exact hweak (harm ha hi)
  · exact hweak (harm ha ((hasReset_quietly (Quietly.shutdown d r)).mp hi))

end Conn

section Tasks
variable {s s' : Sys} {i j : ℕ} {ks : List UInt8}

theorem looks_mono {ts us : List StreamTask} {p : Prog} (h : ∀ t ∈ us, t ∈ ts) (hp : p.looks ts = true) :
    p.looks us = true := by
  cases p with
  | start =>
    simp only [Prog.looks,List.all_eq_true] at hp ⊢
    exact fun t ht => hp t (h t ht)
  | handling headOnly => exact hp
  | pump data off since tail => cases tail <;> exact hp
  | read io => exact hp

theorem looks_read {ts : List StreamTask} {io : Io} (h : (Prog.read io).looks ts = true) :
    ∃ b io', readOnward io = .pump b (.stream io') := by
  simp only [Prog.looks] at h
  cases hr : Reader.read chunkLen io with
  | mk r io' =>
    rw [hr] at h
    split at h
    · rename_i b bs hdata
      have hdata : r = .data (b :: bs) := hdata
      exact ⟨b :: bs,io',by simp [readOnward,hr,hdata]⟩
    · cases h

theorem silent_mono (hp : s'.progs i = s.progs i) (ht : ∀ t ∈ s'.conn.tasks, t.id = i → t ∈ s.conn.tasks)
    (h : s.silent i = true) : s'.silent i = true := by
  simp only [Sys.silent,Bool.or_eq_true,decide_eq_true_eq] at h ⊢
  by_cases hi : i ∈ s'.conn.running
  · right
    obtain ⟨t,hm,rfl⟩ := List.mem_map.mp hi
    have hr : t.id ∈ s.conn.running := List.mem_map.mpr ⟨t,ht t hm rfl,rfl⟩
    have h := h.resolve_left (fun hn => hn hr)
    rw [hp]
    refine looks_mono (fun u hu => ?_) h
    simp only [List.mem_filter,decide_eq_true_eq] at hu ⊢
    exact ⟨ht u hu.1 hu.2,hu.2⟩
  · exact Or.inl hi

theorem silent_of_not_running (h : i ∉ s.conn.running) : s.silent i = true := by simp [Sys.silent,h]

theorem Settles.ended {c : Conn} {out : List Bytes} (h : Settles s.conn c i) (hs : s.silent i = true) :
    ({ s with conn := { c with out := out } } : Sys).ended i :=
  ⟨⟨h.shut.spent,h.shut.stopped⟩,silent_mono (s := s) rfl h.tasks hs⟩

/-- A step of a task leaves a shut stream shut. -/
theorem shut_own (ho : Own s s' j ks) (h : s.conn.shut i) : s'.conn.shut i := by
  refine ⟨?_,fun hi => ?_⟩
  · unfold Conn.spent
    rw [ho.result,ho.streams,ho.highest]
    exact h.spent
  · obtain ⟨t,hm,rfl⟩ := List.mem_map.mp hi
    rw [ho.resets,ho.result]
    exact h.stopped (List.mem_map.mpr ⟨t,ho.tasks t hm,rfl⟩)

theorem ended_own (ho : Own s s' j ks) (hij : i ≠ j) (h : s.ended i) : s'.ended i :=
  ⟨shut_own ho h.1,silent_mono (ho.progs i hij) (fun t ht _ => ho.tasks t ht) h.2⟩

/-- The task of a stream that is over queues at most an RST_STREAM. -/
theorem Turn.ended (h : Turn s j s') (hj : j ∈ s.conn.running) (ho : s.ended j) :
    Own s s' j [Kind.rstStream] ∧ s'.silent j = true := by
  have hstop : s.stopped j = true := by
    rcases ho.1.stopped hj with hr | hr
    · simp [Sys.stopped,hr]
    · simp [Sys.stopped,hr]
  have hlook : (s.progs j).looks (s.conn.tasks.filter (fun t => t.id = j)) = true := by
    simpa [Sys.silent,hj] using ho.2
  cases h with
  | malformed _ _ _ _ h =>
    exact ⟨(Own.put s _ _ _ _).trans (.finish h),silent_of_not_running (not_running_finish h)⟩
  | @handed task r hm hi hp hq h =>
    rw [hp] at hlook
    simp only [Prog.looks,List.all_eq_true,List.mem_filter,decide_eq_true_eq] at hlook
    have := hlook task ⟨hm,hi⟩
    simp [hq] at this
  | @pump data off since tail hp h =>
    rw [hp] at hlook
    cases h with
    | cut _ h =>
      have hstopped : tail.onward true = .stop := by
        cases tail with
        | last => simp [Prog.looks] at hlook
        | file f t off left => simp [Tail.onward]
        | stream io => simp [Tail.onward]
      rw [hstopped] at h
      exact ⟨.finish h,silent_of_not_running (not_running_finish h)⟩
    | failed hs _ _ => cases hs.symm.trans hstop
    | sent hs _ _ _ _ => cases hs.symm.trans hstop
    | whole hs _ _ _ => cases hs.symm.trans hstop
  | @read io hp h =>
    rw [hp] at hlook
    obtain ⟨b,io',hread⟩ := looks_read hlook
    rw [hread] at h
    cases h
    refine ⟨.moveTo _ _ _ _,?_⟩
    simp [Sys.silent,Sys.moveTo,Prog.looks]

/-- A turn that queues an RST_STREAM ends its task. -/
theorem Turn.resets (h : Turn s j s') : Own s s' j [Kind.data] ∨ Own s s' j [Kind.rstStream] ∧ j ∉ s'.conn.running := by
  cases h with
  | malformed _ _ _ _ h =>
    exact Or.inr ⟨(Own.put s _ _ _ _).trans (.finish h),not_running_finish h⟩
  | handed _ _ _ _ h =>
    rw [h]
    exact Or.inl (.moveTo _ _ _ _)
  | pump _ h => exact Or.inl h.own
  | read _ h => exact Or.inl (.go h)

/-- A handler is not silent. -/
theorem not_ended_handling {headOnly : Bool} (hj : j ∈ s.conn.running) (hp : s.progs j = .handling headOnly) :
    ¬ s.ended j := by
  intro ho
  have hs := ho.2
  simp [Sys.silent,hj,hp,Prog.looks] at hs

end Tasks

section Run
variable {maxBody : ℕ} {as : List Act} {s s' : Sys} {a : Act} {i j : ℕ}

theorem resetSeen_snoc (ha : ∀ f wire, a = .frame f wire → f.head.kind = Kind.rstStream → f.head.stream ≠ i)
    (h : ResetSeen (as ++ [a]) s' i) (ho : s'.conn.hasReset i → s.conn.hasReset i) : ResetSeen as s i := by
  rcases h with h | ⟨f,wire,hm,hk,hs⟩
  · exact Or.inl (ho h)
  · rcases List.mem_append.mp hm with hm | hm
    · exact Or.inr ⟨f,wire,hm,hk,hs⟩
    · exact absurd hs (ha f wire (List.mem_singleton.mp hm).symm hk)

/-- The reader loop leaves every stream that was reset over. -/
theorem ended_frame {f : Frame} {wire : f.head.stream < 2 ^ 31} {c : Conn} (hla : Ledger s.conn ∧ Anchored s.conn)
    (hw : s.conn.highestClientStream < 2 ^ 31) (hg : s.gone = false) (hres : s.conn.result = none)
    (hguard : ResetsSilent s (.frame f wire)) (hended : ∀ i, ResetSeen as s i → s.ended i)
    (hn : s.conn.next (.frame f) = some c) (hi : ResetSeen (as ++ [.frame f wire]) { s with conn := c } i) :
    ({ s with conn := c } : Sys).ended i := by
  have hold (h : s.ended i) : ({ s with conn := c } : Sys).ended i :=
    (h.1.reads hla.1 (Or.inl ⟨f,rfl⟩) hres hn).ended h.2
  obtain ⟨hmarked,hunmarked⟩ := hguard hg
  rcases hi with hi | ⟨g,wire',hm,hk,rfl⟩
  · rcases reads_hasReset hla.1 hw wire hn hi with hi | ⟨rfl,hsr,hset⟩ | ⟨rfl,hu⟩ | ⟨hshut,hni⟩
    · exact hold (hended i (Or.inl hi))
    · exact hset.ended (hmarked (Or.inl hsr))
    · rcases hunmarked hu with ⟨hk,hself,hidle⟩ | ho
      · obtain ⟨hset,hni⟩ := refused_settles hk hself hidle hu hla.1 hn
        exact hset.ended (silent_of_not_running hni)
      · exact hold ho
    · exact ⟨hshut,silent_of_not_running hni⟩
  · rcases List.mem_append.mp hm with hm | hm
    · exact hold (hended _ (Or.inr ⟨g,wire',hm,hk,rfl⟩))
    · cases List.mem_singleton.mp hm
      exact (rstStream_settles hla.1 hla.2 hk hn).ended (hmarked (Or.inr hk))

/-- What every guarded run keeps: a stream that was reset is over. -/
theorem run_ended (hr : Runs (Runs.guarded (stepRel Sys.step) ResetsSilent) (Sys.new maxBody) as s) :
    s.gone = false → ∀ i, ResetSeen as s i → s.ended i := by
  refine (hr.invariant (I := fun as s => Runs (stepRel Sys.step) (Sys.new maxBody) as s ∧
    (s.gone = false → ∀ i, ResetSeen as s i → s.ended i)) ⟨.nil,?_⟩ ?_).2
  · rintro - i (⟨b,hb,hk,-⟩ | ⟨f,wire,hm,-⟩)
    · have hcontrol := control_new maxBody b hb
      simp [isControl,hk] at hcontrol
    · cases hm
  rintro as s a s' _ ⟨hrun,h⟩ ⟨hguard,hstep⟩
  refine ⟨hrun.snoc hstep,fun hg i hi => ?_⟩
  have hla := run_anchored hrun
  have hw := run_wired hrun
  cases Sys.step_cases hstep with
  | @reads _ _ c hres he hc h' =>
    subst h'
    have hg : s.gone = false := hg
    simp only [hg,Bool.false_eq_true,if_false] at hi ⊢
    rcases he with ⟨f,wire,rfl,rfl⟩ | ⟨r,rfl,rfl⟩
    · exact ended_frame hla hw hg hres hguard (h hg) hc hi
    · have hseen : ResetSeen as s i := by
        refine resetSeen_snoc (a := .hangUp r) (by intro f wire he; cases he) hi (fun hi => ?_)
        simp only [next,hres,Option.isSome_none,Bool.false_eq_true,if_false,Option.some.injEq] at hc
        subst hc
        exact (hasReset_quietly (Quietly.shutdown _ r)).mp hi
      have ho := h hg i hseen
      exact (ho.1.reads hla.1 (Or.inr ⟨r,rfl⟩) hres hc).ended ho.2
  | @turn j hid ht =>
    have hjw : j < 2 ^ 31 := Nat.lt_of_le_of_lt (hla.1.tasksKnown j hid) hw
    have hg : s.gone = false := ht.own.gone ▸ hg
    rcases ht.resets with ho | ⟨ho,hni⟩
    · have hseen : ResetSeen as s i :=
        resetSeen_snoc (a := .turn j) (by intro f wire he; cases he) hi (hasReset_own ho (by decide))
      by_cases hij : i = j
      · subst hij
        have hended := h hg i hseen
        exact ⟨shut_own ho hended.1,(ht.ended hid hended).2⟩
      · exact ended_own ho hij (h hg i hseen)
    · by_cases hij : i = j
      · subst hij
        refine ⟨⟨?_,fun hi => absurd hi hni⟩,silent_of_not_running hni⟩
        unfold Conn.spent
        rw [ho.streams,ho.highest]
        exact Or.inr (spent_running hla.1 hid)
      · refine ended_own ho hij (h hg i (resetSeen_snoc (a := .turn j) (by intro f wire he; cases he) hi ?_))
        rintro ⟨b,hb,hk,hs⟩
        obtain ⟨new,hout,hn⟩ := ho.out
        rw [hout] at hb
        rcases List.mem_append.mp hb with hb | hb
        · exact ⟨b,hb,hk,hs⟩
        · have := (hn b hb).1
          rw [Nat.mod_eq_of_lt hjw,hs] at this
          exact absurd this hij
  | @reply j r t _ hid hp ha =>
    have hg : s.gone = false := ha.own.gone ▸ hg
    have hseen : ResetSeen as s i :=
      resetSeen_snoc (a := .reply j r t) (by intro f wire he; cases he) hi (hasReset_own ha.own (by decide))
    by_cases hij : i = j
    · subst hij
      exact absurd (h hg i hseen) (not_ended_handling hid hp)
    · exact ended_own ha.own hij (h hg i hseen)
  | writerGone h' =>
    rw [h'] at hg
    cases hg

/-- No frame of a response follows the reset of its stream, as long as each reset
meets a task that looks for it. -/
theorem run_nothingAfterReset (maxBody : ℕ) (as : List Act) (s : Sys)
    (hr : Runs (Runs.guarded (stepRel Sys.step) ResetsSilent) (Sys.new maxBody) as s) (i : ℕ)
    (hi : ResetSeen as s i) (a : Act) (s' : Sys) (hstep : s.step a = some s') :
    ∀ b ∈ s'.conn.out.drop s.conn.out.length, streamOf b = i → kindOf b ≠ Kind.headers ∧ kindOf b ≠ Kind.data := by
  cases hg : s.gone with
  | true =>
    rw [out_gone hg hstep]
    simp
  | false =>
    have hended := run_ended hr hg i hi
    have hrun := hr.forget
    have hw := run_wired hrun
    have hl := (run_anchored hrun).1
    have hown {j : ℕ} {ks : List UInt8} (hid : j ∈ s.conn.running) (ho : Own s s' j ks)
        (hk : i = j → Kind.headers ∉ ks ∧ Kind.data ∉ ks) : ∀ b ∈ s'.conn.out.drop s.conn.out.length,
          streamOf b = i → kindOf b ≠ Kind.headers ∧ kindOf b ≠ Kind.data := by
      obtain ⟨new,hout,hn⟩ := ho.out
      rw [hout,List.drop_left]
      intro b hb hs
      obtain ⟨hj,hkind⟩ := hn b hb
      rw [hs,Nat.mod_eq_of_lt (Nat.lt_of_le_of_lt (hl.tasksKnown j hid) hw)] at hj
      exact ⟨fun he => (hk hj).1 (he ▸ hkind),fun he => (hk hj).2 (he ▸ hkind)⟩
    cases Sys.step_cases hstep with
    | reads _ he hc h' =>
      obtain ⟨new,hout,hn⟩ := next_silently (he.imp (fun ⟨f,_,_,h⟩ => ⟨f,h⟩) (fun ⟨r,_,h⟩ => ⟨r,h⟩)) hc
      subst h'
      simp only [hg,Bool.false_eq_true,if_false,hout,List.drop_left]
      exact fun b hb _ => ⟨(hn b hb).2,(hn b hb).1⟩
    | @turn j hid ht =>
      by_cases hij : i = j
      · subst hij
        exact hown hid (ht.ended hid hended).1 (fun _ => by decide)
      · exact hown hid ht.own (fun he => absurd he hij)
    | reply hid hp ha => exact hown hid ha.own (fun he => absurd (he ▸ hended) (not_ended_handling hid hp))
    | writerGone h' =>
      subst h'
      simp

instance (c : Conn) (i : ℕ) : Decidable (c.spent i) :=
  inferInstanceAs (Decidable (i ≤ c.highestClientStream ∧ ∀ st ∈ c.streams.get? i, st.state = .reset ∨ st.dispatched = true))

instance (s : Sys) (i : ℕ) : Decidable (s.ended i) :=
  decidable_of_iff (((s.conn.result.isSome = true ∨ s.conn.spent i) ∧
      (i ∈ s.conn.running → (s.conn.flows i).reset = true ∨ s.conn.result.isSome = true)) ∧ s.silent i = true)
    ⟨fun ⟨⟨h1,h2⟩,h3⟩ => ⟨⟨h1,h2⟩,h3⟩,fun ⟨⟨h1,h2⟩,h3⟩ => ⟨⟨h1,h2⟩,h3⟩⟩

instance (s : Sys) (a : Act) : Decidable (ResetsSilent s a) :=
  match a with
  | .frame f _ => inferInstanceAs (Decidable (s.gone = false →
      (s.conn.serverResets f = true ∨ f.head.kind = Kind.rstStream → s.silent f.head.stream = true) ∧
        (s.conn.resetsUnmarked f = true →
          f.head.kind = Kind.headers ∧ selfDependent f = false ∧ s.conn.stateOf f.head.stream = .idle ∨
            s.ended f.head.stream)))
  | .hangUp _ => inferInstanceAs (Decidable True)
  | .turn _ => inferInstanceAs (Decidable True)
  | .reply _ _ _ => inferInstanceAs (Decidable True)
  | .writerGone => inferInstanceAs (Decidable True)

/-- The connection's own stream and the first one of a client are in the range of an identifier. -/
theorem connectionId_lt : 0 < 2 ^ 31 := by decide

theorem firstId_lt : 1 < 2 ^ 31 := by decide

def resetFrame : Act := .frame (.of Kind.rstStream 0 1 [0,0,0,8]) (by decide)

def getFrame : Act := .frame (.of Kind.headers (Flag.endHeaders ||| Flag.endStream) 1 [0x82,0x86,0x84]) (by decide)

/-- The peer resets a download that waits for its window. -/
def resetDownload : List Act :=
  [.frame (.of Kind.settings 0 0 [0,4,0,0,0,2]) (by decide),getFrame,.turn 1,
    .reply 1 (.new .new (.stream (lit "abc") (.socket [.data (lit "def")]) none)) 0,.turn 1,resetFrame]

theorem resetDownload_nothingAfterReset : ∃ s s',
    Runs (Runs.guarded (stepRel Sys.step) ResetsSilent) (Sys.new 1) resetDownload s ∧ ResetSeen resetDownload s 1 ∧
      s.step (.turn 1) = some s' ∧ ∀ b ∈ s'.conn.out.drop s.conn.out.length, streamOf b = 1 →
        kindOf b ≠ Kind.headers ∧ kindOf b ≠ Kind.data := by
  have h : ((runList (fun s a => if ResetsSilent s a then Sys.step s a else none) (Sys.new 1) resetDownload).bind
      (fun s => s.step (.turn 1))).isSome = true := by
    decide +kernel
  obtain ⟨s',h⟩ := Option.isSome_iff_exists.mp h
  obtain ⟨s,hs,hturn⟩ := Option.bind_eq_some_iff.mp h
  have hr := Runs.guarded_of_runList hs
  have hi : ResetSeen resetDownload s 1 :=
    Or.inr ⟨.of Kind.rstStream 0 1 [0,0,0,8],by decide,by simp [resetDownload,resetFrame],rfl,rfl⟩
  exact ⟨s,s',hr,hi,hturn,run_nothingAfterReset 1 resetDownload s hr 1 hi (.turn 1) s' hturn⟩

/-- The peer resets a request while its handler is at work. -/
def resetRequest : List Act := [getFrame,.turn 1,resetFrame]

/-- The answer is queued all the same. -/
theorem resetRequest_answered : ∃ s s', Runs (stepRel Sys.step) (Sys.new 1) resetRequest s ∧
    ResetSeen resetRequest s 1 ∧ s.step (.reply 1 (.new .new (.bytes (lit "abc"))) 0) = some s' ∧
      ∃ b ∈ s'.conn.out.drop s.conn.out.length, streamOf b = 1 ∧ kindOf b = Kind.headers := by
  have h : ((runList Sys.step (Sys.new 1) resetRequest).bind (fun s =>
      (s.step (.reply 1 (.new .new (.bytes (lit "abc"))) 0)).map (fun s' =>
        (s'.conn.out.drop s.conn.out.length).any (fun b => streamOf b == 1 && kindOf b == Kind.headers)))) =
          some true := by
    decide +kernel
  obtain ⟨s,hs,h⟩ := Option.bind_eq_some_iff.mp h
  obtain ⟨s',hreply,hany⟩ := Option.map_eq_some_iff.mp h
  simp only [List.any_eq_true,Bool.and_eq_true,beq_iff_eq] at hany
  exact ⟨s,s',.of_runList hs,
    Or.inr ⟨.of Kind.rstStream 0 1 [0,0,0,8],by decide,by simp [resetRequest,resetFrame],rfl,rfl⟩,hreply,hany⟩

end Run

end OxiServe.Http2
