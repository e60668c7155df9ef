import OxiServe.Http2.Assembly

/-! # The requests that are handed over

The log of the calls of `spawn_stream` along a run. No stream id is in it twice,
and each task was given what its client sent on its stream, up to the frame that
completed the request.
-/
namespace OxiServe.Http2
open Conn Hpack

section Spawning

/-- What a dispatch of `c` that ends in `d` hands over: the tasks `ts`. -/
structure Spawns (c d : Conn) (ts : List StreamTask) : Prop where
  tasks : d.tasks = c.tasks ++ ts
  nodup : (ts.map StreamTask.id).Nodup
  ready : ∀ t ∈ ts, ∃ st, c.streams.get? t.id = some st ∧ isReady st = true ∧ t = ⟨t.id,st.headers,st.body⟩ ∧
    (st.contentLength = none ∨ st.contentLength = some st.body.length)
  entries : ∀ j st, d.streams.get? j = some st →
    c.streams.get? j = some st ∨ (st.dispatched = true ∧ (c.streams.get? j).isSome = true)
  marked : ∀ t ∈ ts, ∀ st, d.streams.get? t.id = some st → st.dispatched = true
  expect : d.expectContinuation = c.expectContinuation
  highest : d.highestClientStream = c.highestClientStream
  limit : d.clientMaxBodySize = c.clientMaxBodySize

theorem dispatchOne_spawns {c : Conn} {i : ℕ} {st : Stream} (hi : c.streams.get? i = some st)
    (hr : isReady st = true) : ∃ ts, Spawns c (c.dispatchOne i) ts ∧ ∀ t ∈ ts, t.id = i := by
  have hentries (g : Stream → Stream) (hg : ∀ s, (g s).dispatched = true) {d : Conn}
      (hd : d.streams = c.streams.modify i g) : ∀ j st', d.streams.get? j = some st' →
        (c.streams.get? j = some st' ∨ (st'.dispatched = true ∧ (c.streams.get? j).isSome = true)) ∧
          (j = i → st'.dispatched = true) := by
    intro j st' hj
    rw [hd,KeyMap.get?_modify] at hj
    split at hj
    · rename_i hji
      subst hji
      rw [hi] at hj
      cases hj
      exact ⟨Or.inr ⟨hg st,by simp [hi]⟩,fun _ => hg st⟩
    · rename_i hji
      exact ⟨Or.inl hj,fun he => absurd he hji⟩
  have hspawn (hcl : st.contentLength = none ∨ st.contentLength = some st.body.length) :
      Spawns c ((c.modifyStream i (fun s => { s with dispatched := true })).spawnStream i st)
        [⟨i,st.headers,st.body⟩] := by
    have hs : ((c.modifyStream i (fun s => { s with dispatched := true })).spawnStream i st).streams =
        c.streams.modify i (fun s => { s with dispatched := true, headers := [], body := [] }) := by
      apply KeyMap.ext
      simp only [spawnStream,modifyStream,KeyMap.modify,KeyMap.mapVals,List.map_map]
      apply List.map_congr_left
      intro e _
      by_cases he : e.1 = i
      · simp [he]
      · simp [he]
    have he := hentries (fun s => { s with dispatched := true, headers := [], body := [] }) (fun _ => rfl) hs
    refine ⟨rfl,by simp,?_,fun j st' hj => (he j st' hj).1,?_,rfl,rfl,rfl⟩
    · intro t ht
      obtain rfl := List.mem_singleton.mp ht
      exact ⟨st,hi,hr,rfl,hcl⟩
    · intro t ht st' hj
      obtain rfl := List.mem_singleton.mp ht
      exact (he i st' hj).2 rfl
  unfold dispatchOne
  simp only [hi]
  split
  · rename_i n hcl
    split
    · have hs : ((((c.modifyStream i (fun s => { s with dispatched := true })).modifyFlow i
          (fun w => { w with done := true })).resetStream i .protocol)).streams =
            c.streams.modify i (fun s => { s with dispatched := true, state := .reset }) := by
        have hsome : (((c.modifyStream i (fun s => { s with dispatched := true })).modifyFlow i
            (fun w => { w with done := true })).emit (rst i .protocol)).streams.get? i =
              some { st with dispatched := true } := by
          simp [emit,modifyFlow,modifyStream,KeyMap.get?_modify,hi]
        simp only [resetStream,hsome]
        apply KeyMap.ext
        simp only [modifyFlow,emit,modifyStream,KeyMap.modify,KeyMap.mapVals,List.map_map]
        apply List.map_congr_left
        intro e _
        by_cases he : e.1 = i
        · simp [he]
        · simp [he]
      have he := hentries (fun s => { s with dispatched := true, state := .reset }) (fun _ => rfl) hs
      have hside := Aside.resetStream ((c.modifyStream i (fun s => { s with dispatched := true })).modifyFlow i
        (fun w => { w with done := true })) i .protocol
      obtain ⟨_,_,_,_,_,hside⟩ := hside
      refine ⟨[],⟨?_,List.nodup_nil,(by intro _ ht; cases ht),fun j st' hj => (he j st' hj).1,(by intro _ ht; cases ht),?_,?_,?_⟩,
        (by intro _ ht; cases ht)⟩
      · rw [hside]
        simp [modifyFlow,modifyStream]
      · rw [hside]
        rfl
      · rw [hside]
        rfl
      · rw [hside]
        rfl
    · rename_i hn
      refine ⟨_,hspawn (Or.inr ?_),by simp⟩
      rw [hcl]
      simpa using hn
  · rename_i hcl
    exact ⟨_,hspawn (Or.inl hcl),by simp⟩

theorem dispatch_spawns (c : Conn) : ∃ ts, Spawns c c.dispatch ts := by
  refine dispatch_induction (P := fun d => ∃ ts, Spawns c d ts) ?_ ?_
  · exact ⟨[],by simp,List.nodup_nil,fun _ ht => (nomatch ht),fun _ _ hj => Or.inl hj,fun _ ht => (nomatch ht),rfl,rfl,rfl⟩
  · rintro d i st ⟨ts,h⟩ hi hr
    obtain ⟨us,h',hid⟩ := dispatchOne_spawns hi hr
    have hfresh : ∀ j st', d.streams.get? j = some st' → isReady st' = true →
        c.streams.get? j = some st' ∧ ∀ t ∈ ts, t.id ≠ j := by
      intro j st' hj hr'
      have hnd : st'.dispatched ≠ true := by
        intro hd
        simp [isReady,hd] at hr'
      refine ⟨(h.entries j st' hj).resolve_right (fun hd => hnd hd.1),?_⟩
      rintro t ht rfl
      exact hnd (h.marked t ht st' hj)
    refine ⟨ts ++ us,?_,?_,?_,?_,?_,h'.expect.trans h.expect,h'.highest.trans h.highest,h'.limit.trans h.limit⟩
    · rw [h'.tasks,h.tasks,List.append_assoc]
    · rw [List.map_append,List.nodup_append]
      refine ⟨h.nodup,h'.nodup,?_⟩
      intro a ha b hb
      obtain ⟨t,ht,rfl⟩ := List.mem_map.mp ha
      obtain ⟨u,hu,rfl⟩ := List.mem_map.mp hb
      rw [hid u hu]
      exact (hfresh i st hi hr).2 t ht
    · intro t ht
      rcases List.mem_append.mp ht with ht | ht
      · exact h.ready t ht
      · obtain ⟨st',hst',hr',hrest⟩ := h'.ready t ht
        exact ⟨st',(hfresh _ st' hst' hr').1,hr',hrest⟩
    · intro j st' hj
      rcases h'.entries j st' hj with hj' | ⟨hd,hs⟩
      · exact h.entries j st' hj'
      · right
        refine ⟨hd,?_⟩
        obtain ⟨st'',hst''⟩ := Option.isSome_iff_exists.mp hs
        rcases h.entries j st'' hst'' with hc | hc
        · simp [hc]
        · exact hc.2
    · intro t ht st' hj
      rcases List.mem_append.mp ht with ht | ht
      · rcases h'.entries t.id st' hj with hd | hd
        · exact h.marked t ht st' hd
        · exact hd.1
      · exact h'.marked t ht st' hj

end Spawning

section Log

/-- The calls of `spawn_stream` in one step: the tasks a frame adds. -/
def Conn.spawnedBy (c : Conn) (e : Event) : List StreamTask :=
  match e,c.next e with
  | .frame _,some c' => c'.tasks.drop c.tasks.length
  | _,_ => []

/-- The calls of `spawn_stream` along a run. -/
def spawned (c : Conn) : List Event → List StreamTask
  | [] => []
  | e :: es => c.spawnedBy e ++ (c.next e).elim [] (fun c' => spawned c' es)

theorem spawned_snoc {c c' : Conn} {es : List Event} (hr : Runs (stepRel Conn.next) c es c') (e : Event) :
    spawned c (es ++ [e]) = spawned c es ++ c'.spawnedBy e := by
  have hl := hr.runList_eq
  clear hr
  induction es generalizing c with
  | nil =>
    cases hl
    simp only [List.nil_append,spawned]
    cases c'.next e with
    | none => simp
    | some d => simp
  | cons k es ih =>
    obtain ⟨d,hd,hl⟩ := Option.bind_eq_some_iff.mp hl
    simp only [List.cons_append,spawned,hd,Option.elim_some,ih hl,List.append_assoc]

/-- The request a task was spawned with is what was received on its stream. -/
structure Received (maxBody : ℕ) (es : List Event) (t : StreamTask) : Prop where
  headers : HeadersOf maxBody t.id es t.headers
  ended : EndSeen t.id es
  body : t.body = dataOf t.id es

/-- The body has the declared length, if there is one, and is within the limit. -/
structure Declared (maxBody : ℕ) (t : StreamTask) : Prop where
  length : declaredLength t.headers = none ∨ declaredLength t.headers = some t.body.length
  fits : t.body.length ≤ maxBody

/-- No id in the log can be handed over again. -/
structure Spent (log : List StreamTask) (c : Conn) : Prop where
  nodup : (log.map StreamTask.id).Nodup
  known : ∀ t ∈ log, t.id ≤ c.highestClientStream
  marked : ∀ t ∈ log, ∀ st, c.streams.get? t.id = some st → st.dispatched = true

variable {maxBody : ℕ} {es : List Event} {c c' d : Conn} {f : Frame} {log : List StreamTask}

theorem arm_tasks {n : Next} (h : c.arm f = (d,n)) : d.tasks = c.tasks := by
  rcases arm_cases h with hf | ⟨-,ho⟩
  · cases hf with
    | kept ht => exact ht.tasks
    | closed ht => exact ht.tasks
    | resetByServer _ ht => exact ht.tasks
    | resetByPeer _ ht => exact ht.tasks
  · cases ho with
    | refused _ ht => exact ht.tasks
    | kept _ ht => exact ht.tasks
    | reset _ _ ht => exact ht.tasks

/-- An arm marks no entry as handed over and unmarks none. -/
theorem arm_dispatched {n : Next} (h : c.arm f = (d,n)) {j : ℕ} (hj : j ≤ c.highestClientStream) {st' : Stream}
    (hst' : d.streams.get? j = some st') : ∃ st, c.streams.get? j = some st ∧ st'.dispatched = st.dispatched := by
  have htouch {a : Conn} {φ : Life → Life} (ht : Touch a d f.head.stream φ)
      (hφ : ∀ l, (φ l).dispatched = l.dispatched) :
      ∃ st, a.streams.get? j = some st ∧ st'.dispatched = st.dispatched := by
    obtain ⟨st,hst,hlife⟩ := ht.get? hst'
    refine ⟨st,hst,?_⟩
    have hd := congrArg Life.dispatched hlife
    split at hd
    · rw [hφ] at hd
      exact hd
    · exact hd
  have hclose (l : Life) : l.close.dispatched = l.dispatched := by
    unfold Life.close
    split <;> rfl
  rcases arm_cases h with hf | ⟨hi,ho⟩
  · cases hf with
    | kept ht => exact htouch ht (fun _ => rfl)
    | closed ht => exact htouch ht hclose
    | resetByServer _ ht => exact htouch ht (fun _ => rfl)
    | resetByPeer _ ht => exact htouch ht (fun _ => rfl)
  · obtain ⟨-,hlt⟩ := stateOf_idle hi
    have haim {st : Stream} (hs : (aim c f).streams.get? j = some st) (hd : st'.dispatched = st.dispatched) :
        ∃ st, c.streams.get? j = some st ∧ st'.dispatched = st.dispatched := ⟨st,(get?_aim hs).1,hd⟩
    have hins {block : Bytes} {st : Stream} (hs : ((aim c f).insertStream f block).streams.get? j = some st) :
        (aim c f).streams.get? j = some st := by
      rcases get?_insertStream hs with ⟨he,-⟩ | ⟨-,hs⟩
      · omega
      · exact hs
    cases ho with
    | refused _ ht =>
      obtain ⟨st,hs,hd⟩ := htouch ht (fun _ => rfl)
      exact haim hs hd
    | kept _ ht =>
      obtain ⟨st,hs,hd⟩ := htouch ht (fun _ => rfl)
      exact haim (hins hs) hd
    | reset _ _ ht =>
      obtain ⟨st,hs,hd⟩ := htouch ht (fun _ => rfl)
      exact haim (hins hs) hd

theorem Spent.arm {n : Next} (h : Spent log c) (ha : c.arm f = (d,n)) : Spent log d where
  nodup := h.nodup
  known := by
    intro t ht
    have hle := (Only.arm c f).highest
    rw [ha] at hle
    exact Nat.le_trans (h.known t ht) hle
  marked := by
    intro t ht st' hst'
    obtain ⟨st,hst,hd⟩ := arm_dispatched ha (h.known t ht) hst'
    rw [hd]
    exact h.marked t ht st hst

theorem Spent.dispatch {ts : List StreamTask} (h : Spent log c) (hl : Ledger c) (hs : Spawns c d ts) :
    Spent (log ++ ts) d where
  nodup := by
    rw [List.map_append,List.nodup_append]
    refine ⟨h.nodup,hs.nodup,?_⟩
    intro a ha b hb
    obtain ⟨t,ht,rfl⟩ := List.mem_map.mp ha
    obtain ⟨u,hu,rfl⟩ := List.mem_map.mp hb
    intro he
    obtain ⟨st,hst,hready,-⟩ := hs.ready u hu
    have hd := h.marked t ht st (he ▸ hst)
    simp [isReady,hd] at hready
  known := by
    intro t ht
    rw [hs.highest]
    rcases List.mem_append.mp ht with ht | ht
    · exact h.known t ht
    · obtain ⟨st,hst,-⟩ := hs.ready t ht
      exact hl.known t.id st hst
  marked := by
    intro t ht st' hst'
    rcases List.mem_append.mp ht with ht | ht
    · rcases hs.entries t.id st' hst' with hc | hc
      · exact h.marked t ht st' hc
      · exact hc.1
    · exact hs.marked t ht st' hst'

theorem Assembled.dispatch {ts : List StreamTask} (h : Assembled maxBody es c) (hs : Spawns c d ts) :
    Assembled maxBody es d where
  heard := by
    intro i st hst hp
    rcases hs.entries i st hst with hc | ⟨hd,-⟩
    · rw [hs.expect]
      exact h.heard i st hc hp
    · exact absurd hp (not_pending_of_dispatched hd)
  fresh := by
    intro i hi
    rw [hs.highest] at hi
    exact h.fresh i hi
  limit := hs.limit.trans h.limit

theorem Assembled.received {ts : List StreamTask} (h : Assembled maxBody es c) (hs : Spawns c d ts) {t : StreamTask}
    (ht : t ∈ ts) : Received maxBody es t ∧ Declared maxBody t := by
  obtain ⟨st,hst,hr,he,hcl⟩ := hs.ready t ht
  simp only [isReady,Bool.and_eq_true,Bool.not_eq_true',beq_iff_eq] at hr
  have hp : st.isPending = true := by simp [Stream.isPending,hr]
  have hh := h.heard t.id st hst hp
  rw [he]
  rw [(hh.headers hr.1.2).2] at hcl
  exact ⟨⟨(hh.headers hr.1.2).1,hh.ended hr.2,hh.body⟩,hcl,hh.fits⟩

theorem spawnedBy_frame (h : c.next (.frame f) = some c') {ts : List StreamTask} (ht : c'.tasks = c.tasks ++ ts) :
    c.spawnedBy (.frame f) = ts := by
  simp [Conn.spawnedBy,h,ht]

theorem spawnedBy_none (h : c.next (.frame f) = some c') (ht : c'.tasks = c.tasks) : c.spawnedBy (.frame f) = [] := by
  simp [Conn.spawnedBy,h,ht]

theorem Spent.other {ts : List StreamTask} (h : Spent log c) (hts : ts = [])
    (hs : c'.streams = c.streams) (hh : c'.highestClientStream = c.highestClientStream) : Spent (log ++ ts) c' := by
  subst hts
  rw [List.append_nil]
  exact ⟨h.nodup,fun t ht => hh ▸ h.known t ht,fun t ht st hst => h.marked t ht st (hs ▸ hst)⟩

theorem Spent.next {e : Event} (h : Spent log c) (hl : Ledger c) (hn : c.next e = some c') :
    Spent (log ++ c.spawnedBy e) c' := by
  cases e with
  | frame f =>
    obtain ⟨-,⟨e,rfl⟩ | ⟨-,d,n,ha,hc⟩⟩ := next_frame hn
    · exact h.other (spawnedBy_none hn (by simp [shutdown,emit])) rfl rfl
    have htasks := arm_tasks ha
    have hd := h.arm ha
    rcases hc with ⟨-,rfl⟩ | ⟨-,rfl⟩ | ⟨r,-,rfl⟩
    · obtain ⟨ts,hs⟩ := dispatch_spawns d
      rw [spawnedBy_frame hn (hs.tasks.trans (by rw [htasks]))]
      exact hd.dispatch (hl.arm ha) hs
    · exact hd.other (spawnedBy_none hn (by simp [htasks])) rfl rfl
    · exact hd.other (spawnedBy_none hn (by simp [shutdown,emit,htasks])) rfl rfl
  | hangUp r =>
    simp only [Conn.next] at hn
    split at hn
    · cases hn
    · cases hn
      exact h.other rfl rfl rfl
  | send i data =>
    simp only [Conn.next] at hn
    split at hn
    · cases hn
      exact h.other rfl rfl rfl
    · cases hn
  | finish i =>
    simp only [Conn.next] at hn
    split at hn
    · cases hn
      exact h.other rfl rfl rfl
    · cases hn

theorem Passes.of_not_frame {i : ℕ} {e : Event} (he : ∀ f, e ≠ .frame f) : Passes i e := by
  cases e with
  | frame f => exact absurd rfl (he f)
  | hangUp r => exact ⟨rfl,fun _ h => nomatch h⟩
  | send j data => exact ⟨rfl,fun _ h => nomatch h⟩
  | finish j => exact ⟨rfl,fun _ h => nomatch h⟩

theorem Assembled.other {e : Event} (h : Assembled maxBody es c) (he : ∀ f, e ≠ .frame f)
    (hs : c'.streams = c.streams) (hh : c'.highestClientStream = c.highestClientStream)
    (hx : c'.expectContinuation = c.expectContinuation) (hl : c'.clientMaxBodySize = c.clientMaxBodySize) :
    Assembled maxBody (es ++ [e]) c' where
  heard := by
    intro i st hst hp
    rw [hs] at hst
    rw [hx]
    exact (h.heard i st hst hp).passes (.of_not_frame he) (fun hw => hw)
  fresh := by
    intro i hi
    rw [hh] at hi
    rw [dataOf_snoc,h.fresh i hi,(Passes.of_not_frame he).data]
    rfl
  limit := hl.trans h.limit

theorem Assembled.next {e : Event} (h : c.result = none → Assembled maxBody es c) (hl : Ledger c)
    (hr : Runs (stepRel Conn.next) (Conn.new maxBody) es c) (hn : c.next e = some c') (hres : c'.result = none) :
    Assembled maxBody (es ++ [e]) c' := by
  cases e with
  | frame f =>
    obtain ⟨hnone,⟨e,rfl⟩ | ⟨hexp,d,n,ha,hc⟩⟩ := next_frame hn
    · cases hres
    rcases hc with ⟨rfl,rfl⟩ | ⟨rfl,rfl⟩ | ⟨r,-,rfl⟩
    · obtain ⟨ts,hs⟩ := dispatch_spawns d
      exact ((h hnone).arm hl hr hexp (Or.inl rfl) ha).dispatch hs
    · exact (h hnone).arm hl hr hexp (Or.inr rfl) ha
    · cases hres
  | hangUp r =>
    simp only [Conn.next] at hn
    split at hn
    · cases hn
    · cases hn
      cases hres
  | send i data =>
    simp only [Conn.next] at hn
    split at hn
    · cases hn
      exact (h hres).other (by intro _ hf; cases hf) rfl rfl rfl rfl
    · cases hn
  | finish i =>
    simp only [Conn.next] at hn
    split at hn
    · cases hn
      exact (h hres).other (by intro _ hf; cases hf) rfl rfl rfl rfl
    · cases hn

/-- The frame that completes a request is the one it is spawned on. -/
theorem spawnedBy_received {e : Event} (h : c.result = none → Assembled maxBody es c) (hl : Ledger c)
    (hr : Runs (stepRel Conn.next) (Conn.new maxBody) es c) {t : StreamTask} (ht : t ∈ c.spawnedBy e) :
    Received maxBody (es ++ [e]) t ∧ Declared maxBody t := by
  cases e with
  | frame f =>
    cases hn : c.next (.frame f) with
    | none => simp [Conn.spawnedBy,hn] at ht
    | some c' =>
      obtain ⟨hnone,⟨e,rfl⟩ | ⟨hexp,d,n,ha,hc⟩⟩ := next_frame hn
      · rw [spawnedBy_none hn (by simp [shutdown,emit])] at ht
        cases ht
      have htasks := arm_tasks ha
      rcases hc with ⟨rfl,rfl⟩ | ⟨-,rfl⟩ | ⟨r,-,rfl⟩
      · obtain ⟨ts,hs⟩ := dispatch_spawns d
        rw [spawnedBy_frame hn (hs.tasks.trans (by rw [htasks]))] at ht
        exact ((h hnone).arm hl hr hexp (Or.inl rfl) ha).received hs ht
      · rw [spawnedBy_none hn (by simp [htasks])] at ht
        cases ht
      · rw [spawnedBy_none hn (by simp [shutdown,emit,htasks])] at ht
        cases ht
  | hangUp r => cases ht
  | send i data => cases ht
  | finish i => cases ht

/-- The invariant of a whole run. -/
theorem run_assembled (hr : Runs (stepRel Conn.next) (Conn.new maxBody) es c) :
    Ledger c ∧ Spent (spawned (Conn.new maxBody) es) c ∧ (c.result = none → Assembled maxBody es c) := by
  refine hr.invariant (I := fun es c => Ledger c ∧ Spent (spawned (Conn.new maxBody) es) c ∧
    (c.result = none → Assembled maxBody es c)) ?_ ?_
  · refine ⟨ledger_new maxBody,⟨List.nodup_nil,fun _ ht => (nomatch ht),fun _ ht => (nomatch ht)⟩,fun _ => ⟨?_,?_,rfl⟩⟩
    · intro i st hst
      simp [Conn.new] at hst
    · intro i _
      rfl
  · rintro ks u e v hru ⟨hl,hs,ha⟩ hstep
    rw [spawned_snoc hru e]
    exact ⟨hl.next hstep,hs.next hl hstep,fun hres => .next ha hl hru hstep hres⟩

/-- Every call of `spawn_stream` was made on the frame that completed the request. -/
theorem spawned_received (hr : Runs (stepRel Conn.next) (Conn.new maxBody) es c) :
    ∀ t ∈ spawned (Conn.new maxBody) es, ∃ ks e ls u, es = ks ++ e :: ls ∧
      Runs (stepRel Conn.next) (Conn.new maxBody) ks u ∧ t ∈ u.spawnedBy e ∧ Received maxBody (ks ++ [e]) t ∧
        Declared maxBody t := by
  refine hr.invariant (I := fun es _ => ∀ t ∈ spawned (Conn.new maxBody) es, ∃ ks e ls u, es = ks ++ e :: ls ∧
    Runs (stepRel Conn.next) (Conn.new maxBody) ks u ∧ t ∈ u.spawnedBy e ∧ Received maxBody (ks ++ [e]) t ∧
      Declared maxBody t) ?_ ?_
  · intro t ht
    cases ht
  · intro ks u e v hru ih _ t ht
    rw [spawned_snoc hru e] at ht
    rcases List.mem_append.mp ht with ht | ht
    · obtain ⟨ks',e',ls,w,rfl,hrest⟩ := ih t ht
      exact ⟨ks',e',ls ++ [e],w,by simp,hrest⟩
    · obtain ⟨hl,-,ha⟩ := run_assembled hru
      exact ⟨ks,e,[],u,rfl,hru,ht,spawnedBy_received ha hl hru ht⟩

/-- Every stream is handed over at most once, complete, and with the request that
was received on it. -/
theorem run_spawnsReceived (maxBody : ℕ) (es : List Event) (c : Conn)
    (hr : Runs (stepRel Conn.next) (Conn.new maxBody) es c) :
    ((spawned (Conn.new maxBody) es).map StreamTask.id).Nodup ∧
      ∀ t ∈ spawned (Conn.new maxBody) es, ∃ ks e ls u, es = ks ++ e :: ls ∧
        Runs (stepRel Conn.next) (Conn.new maxBody) ks u ∧ t ∈ u.spawnedBy e ∧ Received maxBody (ks ++ [e]) t := by
  refine ⟨(run_assembled hr).2.1.nodup,?_⟩
  intro t ht
  obtain ⟨ks,e,ls,u,hes,hru,hmem,hrec,-⟩ := spawned_received hr t ht
  exact ⟨ks,e,ls,u,hes,hru,hmem,hrec⟩

/-- An upload in two padded frames, with another request in between. -/
def interleavedUpload : List Event :=
  [.frame (.of Kind.headers 0 1 [0x40]),.frame (.of Kind.continuation Flag.endHeaders 1 [1,97,1,98]),
    .frame (.of Kind.data Flag.padded 1 [2,10,11,0,0]),
    .frame (.of Kind.headers (Flag.endStream ||| Flag.endHeaders) 3 sampleBlock),
    .frame (.of Kind.data (Flag.padded ||| Flag.endStream) 1 [1,12,0])]

theorem interleavedUpload_spawned : ∃ c, Runs (stepRel Conn.next) (Conn.new 8) interleavedUpload c ∧
    spawned (Conn.new 8) interleavedUpload = [⟨3,[⟨[97],[98]⟩],[]⟩,⟨1,[⟨[97],[98]⟩],[10,11,12]⟩] ∧
    ((spawned (Conn.new 8) interleavedUpload).map StreamTask.id).Nodup := by
  have h : (runList Conn.next (Conn.new 8) interleavedUpload).map (fun c => c.running) = some [3,1] := by
    decide +kernel
  obtain ⟨c,hc,-⟩ := Option.map_eq_some_iff.mp h
  have hr := Runs.of_runList hc
  exact ⟨c,hr,by decide +kernel,(run_spawnsReceived 8 interleavedUpload c hr).1⟩

end Log

end OxiServe.Http2
