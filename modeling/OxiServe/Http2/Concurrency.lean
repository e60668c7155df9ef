import OxiServe.Lib.Runs
import OxiServe.Http2.Lifecycle

/-! # The concurrency limit and the stream table

Two bounds over every run of a connection. The limit counts streams that are
not marked done, so it bounds the running tasks as long as no stream is marked
done under its task; and the table gives every slot back as long as no stream
is reset before its request was handed over.
-/
namespace OxiServe.Http2
open Conn

section Dispatch

theorem get?_dispatchOne_ne {c : Conn} {i j : ℕ} (hj : j ≠ i) :
    (c.dispatchOne i).streams.get? j = c.streams.get? j := by
  have hmod (d : Conn) (f : Stream → Stream) : (d.modifyStream i f).streams.get? j = d.streams.get? j := by
    simp [modifyStream,KeyMap.get?_modify,hj]
  have hreset (d : Conn) (code : Code) : (d.resetStream i code).streams.get? j = d.streams.get? j := by
    unfold resetStream
    dsimp only
    split
    · exact hmod _ _
    · rfl
  unfold dispatchOne
  split
  · rfl
  · dsimp only
    split
    · split
      · rw [hreset]
        exact hmod _ _
      · exact (hmod _ _).trans (hmod _ _)
    · exact (hmod _ _).trans (hmod _ _)

/-- A property that handing over one ready stream keeps is kept by `dispatch`. -/
theorem dispatch_induction {P : Conn → Prop} {c : Conn} (h0 : P c)
    (hs : ∀ (d : Conn) (i : ℕ) (st : Stream), P d → d.streams.get? i = some st → isReady st = true → P (d.dispatchOne i)) :
    P c.dispatch := by
  have key : ∀ (is : List ℕ) (d : Conn), is.Nodup → P d →
      (∀ i ∈ is, ∃ st, d.streams.get? i = some st ∧ isReady st = true) → P (is.foldl dispatchOne d) := by
    intro is
    induction is with
    | nil =>
      intro d _ hd _
      exact hd
    | cons i is ih =>
      intro d hn hd hready
      obtain ⟨hni,hn⟩ := List.nodup_cons.mp hn
      obtain ⟨st,hst,hr⟩ := hready i (List.mem_cons_self ..)
      refine ih _ hn (hs d i st hd hst hr) ?_
      intro j hj
      obtain ⟨st',hst',hr'⟩ := hready j (List.mem_cons_of_mem _ hj)
      have hji : j ≠ i := fun he => hni (he ▸ hj)
      exact ⟨st',by rw [get?_dispatchOne_ne hji]; exact hst',hr'⟩
  refine key _ c ?_ h0 ?_
  · exact c.streams.nodup.sublist (List.filter_sublist.map _)
  · intro i hi
    obtain ⟨⟨j,st⟩,he,rfl⟩ := List.mem_map.mp hi
    obtain ⟨hmem,hr⟩ := List.mem_filter.mp he
    exact ⟨st,KeyMap.get?_eq_some_iff.mpr hmem,hr⟩

/-- Handing over ends the stream at once, or starts its task. -/
theorem dispatchOne_cases {c : Conn} {i : ℕ} {st : Stream} (hi : c.streams.get? i = some st) :
    Touch c (c.dispatchOne i) i (fun _ => ⟨.reset,true,true⟩) ∨
      ∃ t : StreamTask, t.id = i ∧
        Touch { c with tasks := c.tasks ++ [t] } (c.dispatchOne i) i (fun l => { l with dispatched := true }) := by
  have hspawn : ∃ t : StreamTask, t.id = i ∧
      Touch { c with tasks := c.tasks ++ [t] } ((c.modifyStream i (fun s => { s with dispatched := true })).spawnStream i st)
        i (fun l => { l with dispatched := true }) := by
    refine ⟨⟨i,st.headers,st.body⟩,rfl,⟨⟨fun j s => if j = i then { s with dispatched := true, headers := [], body := [] }
      else s,?_,?_⟩,rfl,rfl⟩⟩
    · simp only [spawnStream,modifyStream,KeyMap.modify,mapVals_mapVals]
      congr
      funext j s
      by_cases hj : j = i
      · simp [hj]
      · simp [hj]
    · intro j s _
      by_cases hj : j = i
      · simp [life,spawnStream,modifyStream,hj]
      · simp [life,spawnStream,modifyStream,hj]
  unfold dispatchOne
  simp only [hi]
  split
  · split
    · left
      have hget : ((c.modifyStream i (fun s => { s with dispatched := true })).modifyFlow i
          (fun w => { w with done := true })).streams.get? i = some { st with dispatched := true } := by
        simp [modifyFlow,modifyStream,KeyMap.get?_modify,hi]
      have h1 : Touch c ((c.modifyStream i (fun s => { s with dispatched := true })).modifyFlow i
          (fun w => { w with done := true })) i (fun l => { l with dispatched := true, done := true }) := by
        refine ⟨⟨fun j s => if j = i then { s with dispatched := true } else s,rfl,?_⟩,rfl,rfl⟩
        intro j s _
        by_cases hj : j = i
        · simp [life,modifyFlow,modifyStream,hj]
        · simp [life,modifyFlow,modifyStream,hj]
      exact h1.trans (Touch.resetStream _ i _ hget)
    · exact Or.inr hspawn
  · exact Or.inr hspawn

end Dispatch

section Ledger

/-- What holds of the life of every stream in the table, given whether its task runs. -/
structure LifeOk (l : Life) (runs : Prop) : Prop where
  notOpen : l.dispatched = true → l.state ≠ .opened
  doneReset : l.done = true → l.dispatched = true ∨ l.state = .reset
  handed : runs → l.dispatched = true
  finished : l.dispatched = true → ¬ runs → l.done = true

/-- The stream table and the running tasks fit together. -/
structure Ledger (c : Conn) : Prop where
  lives : ∀ i st, c.streams.get? i = some st → LifeOk (c.life i st) (i ∈ c.running)
  known : ∀ i st, c.streams.get? i = some st → i ≤ c.highestClientStream
  tasksKnown : ∀ i ∈ c.running, i ≤ c.highestClientStream
  nodup : c.running.Nodup
  active_le : c.active ≤ maxConcurrent

theorem ledger_new (maxBody : ℕ) : Ledger (Conn.new maxBody) where
  lives := by
    intro i st h
    simp [Conn.new] at h
  known := by
    intro i st h
    simp [Conn.new] at h
  tasksKnown := by
    intro i h
    simp [Conn.new,running] at h
  nodup := List.nodup_nil
  active_le := Nat.zero_le _

theorem Ledger.touch {c c' : Conn} {i : ℕ} {φ : Life → Life} (h : Ledger c) (ht : Touch c c' i φ)
    (hφ : ∀ l runs, LifeOk l runs → LifeOk (φ l) runs) (hd : ∀ l : Life, l.done = true → (φ l).done = true) :
    Ledger c' where
  lives := by
    intro j st' hj
    obtain ⟨st,hst,hl⟩ := ht.get? hj
    rw [ht.running,hl]
    have hok := h.lives j st hst
    split
    · exact hφ _ _ hok
    · exact hok
  known := by
    intro j st' hj
    obtain ⟨st,hst,-⟩ := ht.get? hj
    rw [ht.highest]
    exact h.known j st hst
  tasksKnown := by
    rw [ht.running,ht.highest]
    exact h.tasksKnown
  nodup := by
    rw [ht.running]
    exact h.nodup
  active_le := Nat.le_trans (ht.active_le hd) h.active_le

theorem lifeOk_close {l : Life} {runs : Prop} (h : LifeOk l runs) : LifeOk l.close runs := by
  obtain ⟨h1,h2,h3,h4⟩ := h
  unfold Life.close
  split
  · rename_i ho
    exact ⟨by simp,by simpa [ho] using h2,h3,h4⟩
  · exact ⟨h1,h2,h3,h4⟩

theorem lifeOk_resetByServer {l : Life} {runs : Prop} (h : LifeOk l runs) : LifeOk l.resetByServer runs :=
  ⟨fun _ => by simp [Life.resetByServer],fun _ => Or.inr rfl,h.handed,fun _ _ => rfl⟩

theorem lifeOk_resetByPeer {l : Life} {runs : Prop} (h : LifeOk l runs) : LifeOk l.resetByPeer runs :=
  ⟨fun _ => by simp [Life.resetByPeer],fun _ => Or.inr rfl,h.handed,h.finished⟩

theorem Ledger.fate {c c' : Conn} {f : Frame} (h : Ledger c) (hf : Fate c f c') : Ledger c' := by
  cases hf with
  | kept ht => exact h.touch ht (fun _ _ hl => hl) (fun _ hl => hl)
  | closed ht =>
    refine h.touch ht (fun _ _ => lifeOk_close) (fun l hl => ?_)
    unfold Life.close
    split <;> exact hl
  | resetByServer _ ht => exact h.touch ht (fun _ _ => lifeOk_resetByServer) (fun _ _ => rfl)
  | resetByPeer _ ht => exact h.touch ht (fun _ _ => lifeOk_resetByPeer) (fun _ hl => hl)

theorem get?_aim {c : Conn} {f : Frame} {i : ℕ} {st : Stream} (h : (aim c f).streams.get? i = some st) :
    c.streams.get? i = some st ∧ ¬ (st.dispatched = true ∧ (c.flows i).done = true) := by
  simp only [aim,reap,KeyMap.get?_retain,Option.filter_eq_some_iff] at h
  refine ⟨h.1,?_⟩
  rintro ⟨h1,h2⟩
  simp [h1,h2] at h

theorem active_aim_le (c : Conn) (f : Frame) : (aim c f).active ≤ c.active :=
  KeyMap.count_retain_le c.streams (fun i _ => !(c.flows i).done) _

theorem Ledger.aimed {c : Conn} {f : Frame} (h : Ledger c) (hf : c.highestClientStream < f.head.stream) :
    Ledger (aim c f) where
  lives := by
    intro i st hi
    exact h.lives i st (get?_aim hi).1
  known := by
    intro i st hi
    exact Nat.le_trans (h.known i st (get?_aim hi).1) (Nat.le_of_lt hf)
  tasksKnown := by
    intro i hi
    exact Nat.le_trans (h.tasksKnown i hi) (Nat.le_of_lt hf)
  nodup := h.nodup
  active_le := Nat.le_trans (active_aim_le c f) h.active_le

theorem get?_insertStream {c : Conn} {f : Frame} {block : Bytes} {i : ℕ} {st : Stream}
    (h : (c.insertStream f block).streams.get? i = some st) :
    (i = f.head.stream ∧ st.dispatched = false) ∨ (i ≠ f.head.stream ∧ c.streams.get? i = some st) := by
  simp only [insertStream,KeyMap.get?_insert] at h
  by_cases hi : i = f.head.stream
  · rw [if_pos hi] at h
    cases h
    exact Or.inl ⟨hi,rfl⟩
  · rw [if_neg hi] at h
    exact Or.inr ⟨hi,h⟩

theorem life_insertStream_ne {c : Conn} {f : Frame} {block : Bytes} {i : ℕ} (hi : i ≠ f.head.stream)
    (st : Stream) : (c.insertStream f block).life i st = c.life i st := by
  simp [life,insertStream,modifyFlow,hi]

theorem Ledger.insertStream {c : Conn} {f : Frame} {block : Bytes} (h : Ledger c)
    (hk : ∀ i st, c.streams.get? i = some st → i < f.head.stream) (hr : f.head.stream ∉ c.running)
    (hh : f.head.stream ≤ c.highestClientStream) (ha : c.active < maxConcurrent) :
    Ledger (c.insertStream f block) where
  lives := by
    intro i st hi
    rcases get?_insertStream hi with ⟨rfl,hd⟩ | ⟨hne,hi⟩
    · refine ⟨?_,?_,fun hm => absurd hm hr,?_⟩
      · intro hd'
        rw [life,hd] at hd'
        cases hd'
      · intro hdone
        simp [life,Conn.insertStream,modifyFlow] at hdone
      · intro hd'
        rw [life,hd] at hd'
        cases hd'
    · rw [life_insertStream_ne hne]
      exact h.lives i st hi
  known := by
    intro i st hi
    rcases get?_insertStream hi with ⟨rfl,-⟩ | ⟨-,hi⟩
    · exact hh
    · exact h.known i st hi
  tasksKnown := h.tasksKnown
  nodup := h.nodup
  active_le := by
    have h1 : (c.insertStream f block).active ≤
        c.streams.count (fun i _ => !((c.insertStream f block).flows i).done) + 1 := KeyMap.count_insert_le _ _ _ _
    have h2 : c.streams.count (fun i _ => !((c.insertStream f block).flows i).done) ≤ c.active := by
      apply KeyMap.count_mono
      intro i st hi hdone
      have hne : i ≠ f.head.stream := by
        have := hk i st hi
        omega
      simpa [Conn.insertStream,modifyFlow,hne] using hdone
    omega

theorem running_spawn {c c' : Conn} {t : StreamTask} {φ : Life → Life}
    (ht : Touch { c with tasks := c.tasks ++ [t] } c' t.id φ) : c'.running = c.running ++ [t.id] := by
  rw [ht.running]
  simp [running]

theorem not_running_of_ready {c : Conn} (h : Ledger c) {i : ℕ} {st : Stream} (hi : c.streams.get? i = some st)
    (hr : isReady st = true) : i ∉ c.running := by
  simp only [isReady,Bool.and_eq_true,Bool.not_eq_true',beq_iff_eq] at hr
  intro hm
  have hd := (h.lives i st hi).handed hm
  rw [life,hr.1.1] at hd
  cases hd

theorem Ledger.spawn {c c' : Conn} {t : StreamTask} {st : Stream} (h : Ledger c)
    (hst : c.streams.get? t.id = some st) (hr : isReady st = true)
    (ht : Touch { c with tasks := c.tasks ++ [t] } c' t.id (fun l => { l with dispatched := true })) :
    Ledger c' where
  lives := by
    intro j st' hj
    obtain ⟨s,hs,hl⟩ := ht.get? hj
    have hok := h.lives j s hs
    rw [running_spawn ht,hl]
    by_cases hji : j = t.id
    · subst hji
      have hs' : c.streams.get? t.id = some s := hs
      rw [hst] at hs'
      cases hs'
      simp only [isReady,Bool.and_eq_true,Bool.not_eq_true',beq_iff_eq] at hr
      rw [if_pos rfl]
      exact ⟨fun _ => by simp [life,hr.2],fun _ => Or.inl rfl,fun _ => rfl,fun _ hn => absurd (by simp) hn⟩
    · rw [if_neg hji]
      have hm : j ∈ c.running ++ [t.id] ↔ j ∈ c.running := by simp [hji]
      exact ⟨hok.notOpen,hok.doneReset,fun hr => hok.handed (hm.mp hr),fun hd hn => hok.finished hd (fun hr => hn (hm.mpr hr))⟩
  known := by
    intro j st' hj
    obtain ⟨s,hs,-⟩ := ht.get? hj
    rw [ht.highest]
    exact h.known j s hs
  tasksKnown := by
    intro j hj
    rw [running_spawn ht,List.mem_append,List.mem_singleton] at hj
    rw [ht.highest]
    rcases hj with hj | rfl
    · exact h.tasksKnown j hj
    · exact h.known t.id st hst
  nodup := by
    rw [running_spawn ht,List.nodup_append]
    refine ⟨h.nodup,List.nodup_singleton _,?_⟩
    intro a ha b hb
    obtain rfl : b = t.id := by simpa using hb
    exact fun he => not_running_of_ready h hst hr (he ▸ ha)
  active_le := Nat.le_trans (ht.active_le (fun _ hl => hl)) h.active_le

theorem Ledger.dispatchOne {c : Conn} {i : ℕ} {st : Stream} (h : Ledger c) (hst : c.streams.get? i = some st)
    (hr : isReady st = true) : Ledger (c.dispatchOne i) := by
  rcases dispatchOne_cases hst with ht | ⟨t,rfl,ht⟩
  · refine h.touch ht (fun l runs _ => ?_) (fun _ _ => rfl)
    exact ⟨fun _ => by simp,fun _ => Or.inl rfl,fun _ => rfl,fun _ _ => rfl⟩
  · exact h.spawn hst hr ht

theorem Ledger.opens {c c' : Conn} {f : Frame} (h : Ledger c) (hi : c.stateOf f.head.stream = .idle)
    (ho : Opens c f c') : Ledger c' := by
  obtain ⟨-,hlt⟩ := stateOf_idle hi
  have haim := h.aimed hlt
  have hins (block : Bytes) (ha : (aim c f).active < maxConcurrent) : Ledger ((aim c f).insertStream f block) := by
    refine haim.insertStream ?_ ?_ (Nat.le_refl _) ha
    · intro i st hg
      exact Nat.lt_of_le_of_lt (h.known i st (get?_aim hg).1) hlt
    · intro hr
      have := h.tasksKnown _ hr
      omega
  cases ho with
  | refused _ ht => exact haim.touch ht (fun _ _ hl => hl) (fun _ hl => hl)
  | kept ha ht => exact (hins _ ha).touch ht (fun _ _ hl => hl) (fun _ hl => hl)
  | reset ha _ ht => exact (hins _ ha).touch ht (fun _ _ => lifeOk_resetByServer) (fun _ _ => rfl)

end Ledger

section Steps

/-- How a connection moves on a frame: it is refused before its arm, or the arm
decides. -/
theorem next_frame {c c' : Conn} {f : Frame} (h : c.next (.frame f) = some c') : c.result = none ∧
    ((∃ e, c' = c.shutdown (.error e)) ∨
      (c.expectContinuation = none ∨ f.head.kind = Kind.continuation) ∧ ∃ d n, c.arm f = (d,n) ∧
        ((n = .dispatch ∧ c' = d.dispatch) ∨ (n = .again ∧ c' = d) ∨ ∃ r, n = .ret r ∧ c' = d.shutdown r)) := by
  simp only [next] at h
  split at h
  · cases h
  rename_i hres
  refine ⟨by simpa using hres,?_⟩
  unfold readFrame at h
  by_cases h1 : defaultMaxFrame < f.head.len
  · simp only [h1,if_true,fail,Option.some.injEq] at h
    exact Or.inl ⟨_,h.symm⟩
  by_cases h2 : c.expectContinuation.any (fun i => f.head.kind != Kind.continuation || f.head.stream != i) = true
  · simp only [h1,h2,if_true,if_false,fail,Option.some.injEq] at h
    exact Or.inl ⟨_,h.symm⟩
  simp only [h1,h2,if_false] at h
  refine Or.inr ⟨?_,(c.arm f).1,(c.arm f).2,rfl,?_⟩
  · cases he : c.expectContinuation with
    | none => exact Or.inl rfl
    | some i =>
      right
      by_contra hk
      simp [he,hk] at h2
  · revert h
    rcases c.arm f with ⟨d,n⟩
    cases n with
    | dispatch =>
      intro h
      simp only [Bool.false_eq_true,if_false,Option.some.injEq] at h
      exact Or.inl ⟨rfl,h.symm⟩
    | again =>
      intro h
      simp only [Bool.false_eq_true,if_false,Option.some.injEq] at h
      exact Or.inr (Or.inl ⟨rfl,h.symm⟩)
    | panic => simp
    | ret r =>
      intro h
      simp only [Bool.false_eq_true,if_false,Option.some.injEq] at h
      exact Or.inr (Or.inr ⟨r,rfl,h.symm⟩)

/-- How a connection moves in one event. -/
theorem next_cases {c c' : Conn} {e : Event} (h : c.next e = some c') :
    (∃ f d n, e = .frame f ∧ c.result = none ∧ c.arm f = (d,n) ∧
        ((n = .dispatch ∧ c' = d.dispatch) ∨ (n = .again ∧ c' = d) ∨ ∃ r, c' = d.shutdown r)) ∨
      (∃ r, c' = c.shutdown r) ∨
      (∃ i data, e = .send i data ∧ Touch c c' i id) ∨
      (∃ i, e = .finish i ∧ i ∈ c.running ∧
        c' = { c with tasks := c.tasks.filter (fun t => t.id ≠ i) }.modifyFlow i (fun w => { w with done := true })) := by
  cases e with
  | frame f =>
    obtain ⟨hres,⟨e,rfl⟩ | ⟨-,d,n,ha,hc⟩⟩ := next_frame h
    · exact Or.inr (Or.inl ⟨_,rfl⟩)
    · refine Or.inl ⟨f,d,n,rfl,hres,ha,?_⟩
      rcases hc with hc | hc | ⟨r,-,rfl⟩
      · exact Or.inl hc
      · exact Or.inr (Or.inl hc)
      · exact Or.inr (Or.inr ⟨r,rfl⟩)
  | hangUp r =>
    simp only [next] at h
    split at h
    · cases h
    · cases h
      exact Or.inr (Or.inl ⟨r,rfl⟩)
  | send i data =>
    simp only [next] at h
    split at h
    · cases h
      refine Or.inr (Or.inr (Or.inl ⟨i,data,rfl,.quiet rfl (fun j => ?_) rfl rfl⟩))
      simp only [modifyFlow,emit]
      split <;> rfl
    · cases h
  | finish i =>
    simp only [next] at h
    split at h
    · rename_i hm
      cases h
      exact Or.inr (Or.inr (Or.inr ⟨i,rfl,hm,rfl⟩))
    · cases h

theorem mem_running_finish {c : Conn} {i j : ℕ} {g : StreamFlow → StreamFlow} :
    j ∈ ({ c with tasks := c.tasks.filter (fun t => t.id ≠ i) }.modifyFlow i g).running ↔ j ∈ c.running ∧ j ≠ i := by
  simp only [running,modifyFlow,List.mem_map,List.mem_filter,decide_eq_true_eq]
  constructor
  · rintro ⟨t,⟨ht,hi⟩,rfl⟩
    exact ⟨⟨t,ht,rfl⟩,hi⟩
  · rintro ⟨⟨t,ht,rfl⟩,hi⟩
    exact ⟨t,⟨ht,hi⟩,rfl⟩

theorem Ledger.finish {c : Conn} {i : ℕ} (h : Ledger c) (hi : i ∈ c.running) :
    Ledger ({ c with tasks := c.tasks.filter (fun t => t.id ≠ i) }.modifyFlow i (fun w => { w with done := true })) where
  lives := by
    intro j st hj
    have hok := h.lives j st hj
    by_cases hji : j = i
    · subst hji
      have hd := hok.handed hi
      exact ⟨hok.notOpen,fun _ => Or.inl hd,fun hr => absurd rfl (mem_running_finish.mp hr).2,
        fun _ _ => by simp [life,modifyFlow]⟩
    · have hl : ({ c with tasks := c.tasks.filter (fun t => t.id ≠ i) }.modifyFlow i
          (fun w => { w with done := true })).life j st = c.life j st := by
        simp [life,modifyFlow,hji]
      rw [hl]
      exact ⟨hok.notOpen,hok.doneReset,fun hr => hok.handed (mem_running_finish.mp hr).1,
        fun hd hn => hok.finished hd (fun hr => hn (mem_running_finish.mpr ⟨hr,hji⟩))⟩
  known := h.known
  tasksKnown := by
    intro j hj
    exact h.tasksKnown j (mem_running_finish.mp hj).1
  nodup := h.nodup.sublist (List.filter_sublist.map _)
  active_le := by
    refine Nat.le_trans (KeyMap.count_mono ?_) h.active_le
    intro j st _ hdone
    simp only [modifyFlow] at hdone
    split at hdone
    · simp at hdone
    · exact hdone

theorem Ledger.arm {c d : Conn} {f : Frame} {n : Next} (h : Ledger c) (ha : c.arm f = (d,n)) : Ledger d := by
  rcases arm_cases ha with hf | ⟨hi,ho⟩
  · exact h.fate hf
  · exact h.opens hi ho

theorem Ledger.shutdown {c : Conn} (h : Ledger c) (r : Except ConnErr Unit) : Ledger (c.shutdown r) :=
  h.touch (i := 0) (φ := id) (.quiet rfl (fun _ => rfl) rfl rfl) (fun _ _ hl => hl) (fun _ hl => hl)

theorem Ledger.next {c c' : Conn} {e : Event} (h : Ledger c) (hn : c.next e = some c') : Ledger c' := by
  rcases next_cases hn with ⟨f,d,n,-,-,ha,⟨-,rfl⟩ | ⟨-,rfl⟩ | ⟨r,rfl⟩⟩ | ⟨r,rfl⟩ | ⟨i,data,-,ht⟩ | ⟨i,-,hi,rfl⟩
  · exact dispatch_induction (P := Ledger) (h.arm ha) (fun _ _ _ hd => hd.dispatchOne)
  · exact h.arm ha
  · exact (h.arm ha).shutdown r
  · exact h.shutdown r
  · exact h.touch ht (fun _ _ hl => hl) (fun _ hl => hl)
  · exact h.finish hi

end Steps

section Limit

/-- Every running task has its entry in the table, not marked done. -/
def Live (c : Conn) : Prop := ∀ i ∈ c.running, ∃ st, c.streams.get? i = some st ∧ (c.flows i).done = false

theorem Live.touch {c c' : Conn} {i : ℕ} {φ : Life → Life} (h : Live c) (ht : Touch c c' i φ)
    (hφ : i ∈ c.running → ∀ l : Life, (φ l).done = l.done) : Live c' := by
  intro j hj
  rw [ht.running] at hj
  obtain ⟨st,hst,hd⟩ := h j hj
  obtain ⟨st',hst',hl⟩ := ht.get?_of hst
  refine ⟨st',hst',?_⟩
  change (c'.life j st').done = false
  rw [hl]
  split
  · rename_i hji
    rw [hφ (hji ▸ hj)]
    exact hd
  · exact hd

theorem Live.aimed {c : Conn} {f : Frame} (h : Live c) : Live (aim c f) := by
  intro j hj
  obtain ⟨st,hst,hd⟩ := h j hj
  refine ⟨st,?_,hd⟩
  simp only [aim,reap,KeyMap.get?_retain,Option.filter_eq_some_iff]
  exact ⟨hst,by simp [hd]⟩

theorem Live.insertStream {c : Conn} {f : Frame} {block : Bytes} (h : Live c) (hr : f.head.stream ∉ c.running) :
    Live (c.insertStream f block) := by
  intro j hj
  obtain ⟨st,hst,hd⟩ := h j hj
  have hne : j ≠ f.head.stream := fun he => hr (he ▸ hj)
  exact ⟨st,by simpa [Conn.insertStream,KeyMap.get?_insert,hne] using hst,by
    simpa [Conn.insertStream,modifyFlow,hne] using hd⟩

theorem Live.dispatchOne {c : Conn} {i : ℕ} {st : Stream} (h : Live c) (hl : Ledger c)
    (hst : c.streams.get? i = some st) (hr : isReady st = true) : Live (c.dispatchOne i) := by
  have hni := not_running_of_ready hl hst hr
  rcases dispatchOne_cases hst with ht | ⟨t,rfl,ht⟩
  · exact h.touch ht (fun hm => absurd hm hni)
  · have hready := hr
    simp only [isReady,Bool.and_eq_true,Bool.not_eq_true',beq_iff_eq] at hready
    have hnd : (c.flows t.id).done = false := by
      by_contra hd
      have := (hl.lives t.id st hst).doneReset (by simpa [life] using hd)
      simp [life,hready.1.1,hready.2] at this
    intro j hj
    have hex : ∃ s, c.streams.get? j = some s ∧ (c.flows j).done = false := by
      rw [running_spawn ht,List.mem_append,List.mem_singleton] at hj
      rcases hj with hj | rfl
      · exact h j hj
      · exact ⟨st,hst,hnd⟩
    obtain ⟨s,hs,hd⟩ := hex
    obtain ⟨s',hs',hlife⟩ := ht.get?_of hs
    refine ⟨s',hs',?_⟩
    change ((c.dispatchOne t.id).life j s').done = false
    rw [hlife]
    split <;> exact hd

/-- The server does not reset a stream whose task is still running. -/
def SparesRunning (c : Conn) : Event → Prop
  | .frame f => ¬ (c.serverResets f = true ∧ f.head.stream ∈ c.running)
  | _ => True

theorem Live.arm {c d : Conn} {f : Frame} {n : Next} (h : Live c) (hl : Ledger c)
    (hg : SparesRunning c (.frame f)) (ha : c.arm f = (d,n)) : Live d := by
  rcases arm_cases ha with hf | ⟨hi,ho⟩
  · cases hf with
    | kept ht => exact h.touch ht (fun _ _ => rfl)
    | closed ht =>
      refine h.touch ht (fun _ l => ?_)
      unfold Life.close
      split <;> rfl
    | resetByServer hs ht => exact h.touch ht (fun hm => absurd ⟨hs,hm⟩ hg)
    | resetByPeer _ ht => exact h.touch ht (fun _ _ => rfl)
  · have hr : f.head.stream ∉ c.running := by
      intro hm
      have h1 := hl.tasksKnown _ hm
      have h2 := (stateOf_idle hi).2
      omega
    cases ho with
    | refused _ ht => exact h.aimed.touch ht (fun _ _ => rfl)
    | kept _ ht => exact (h.aimed.insertStream hr).touch ht (fun _ _ => rfl)
    | reset _ _ ht => exact (h.aimed.insertStream hr).touch ht (fun hm => absurd hm hr)

theorem Live.next {c c' : Conn} {e : Event} (h : Live c) (hl : Ledger c) (hg : SparesRunning c e)
    (hn : c.next e = some c') : Live c' := by
  have hshut (d : Conn) (r : Except ConnErr Unit) (hd : Live d) : Live (d.shutdown r) := fun j hj => hd j hj
  rcases next_cases hn with ⟨f,d,n,rfl,-,ha,⟨-,rfl⟩ | ⟨-,rfl⟩ | ⟨r,rfl⟩⟩ | ⟨r,rfl⟩ | ⟨i,data,-,ht⟩ | ⟨i,-,hi,rfl⟩
  · refine (dispatch_induction (P := fun d => Ledger d ∧ Live d) ⟨hl.arm ha,h.arm hl hg ha⟩ ?_).2
    intro d i st hd hst hr
    exact ⟨hd.1.dispatchOne hst hr,hd.2.dispatchOne hd.1 hst hr⟩
  · exact h.arm hl hg ha
  · exact hshut _ r (h.arm hl hg ha)
  · exact hshut _ r h
  · exact h.touch ht (fun _ _ => rfl)
  · intro j hj
    obtain ⟨hj,hne⟩ := mem_running_finish.mp hj
    obtain ⟨st,hst,hd⟩ := h j hj
    exact ⟨st,hst,by simpa [modifyFlow,hne] using hd⟩

theorem Live.length_le {c : Conn} (h : Live c) (hl : Ledger c) : c.tasks.length ≤ maxConcurrent := by
  have hle : c.running.length ≤ c.active :=
    KeyMap.length_le_count hl.nodup (fun i hi => by
      obtain ⟨st,hst,hd⟩ := h i hi
      exact ⟨st,hst,by simp [hd]⟩)
  have hact := hl.active_le
  rw [running,List.length_map] at hle
  omega

/-- Along every run in which the server resets no stream with a running task,
at most `maxConcurrent` tasks are unfinished. -/
theorem tasks_le_maxConcurrent (maxBody : ℕ) (es : List Event) (c : Conn)
    (hr : Runs (Runs.guarded (stepRel Conn.next) SparesRunning) (Conn.new maxBody) es c) :
    c.tasks.length ≤ maxConcurrent := by
  have hinv : Ledger c ∧ Live c := by
    refine hr.invariant (I := fun _ d => Ledger d ∧ Live d) ⟨ledger_new maxBody,?_⟩ ?_
    · intro i hi
      simp [Conn.new,running] at hi
    · intro _ d e d' _ hd hs
      exact ⟨hd.1.next hs.2,hd.2.next hd.1 hs.1 hs.2⟩
  exact hinv.2.length_le hinv.1

instance (c : Conn) (e : Event) : Decidable (SparesRunning c e) :=
  match e with
  | .frame f => inferInstanceAs (Decidable (¬ (c.serverResets f = true ∧ f.head.stream ∈ c.running)))
  | .hangUp _ => inferInstanceAs (Decidable True)
  | .send _ _ => inferInstanceAs (Decidable True)
  | .finish _ => inferInstanceAs (Decidable True)

/-- Opens the streams 1, 3, 5 and so on, and sends a zero WINDOW_UPDATE on each. -/
def rapidReset (n : ℕ) : List Event :=
  (List.range n).flatMap (fun k =>
    [.frame (.of Kind.headers (Flag.endStream ||| Flag.endHeaders) (2 * k + 1) []),
      .frame (.of Kind.windowUpdate 0 (2 * k + 1) [0,0,0,0])])

theorem rapidReset_tasks : ∃ c, Runs (stepRel Conn.next) (Conn.new 0) (rapidReset 129) c ∧
    maxConcurrent < c.tasks.length := by
  have h : (runList Conn.next (Conn.new 0) (rapidReset 129)).map (fun c => c.tasks.length) = some 129 := by
    decide +kernel
  obtain ⟨c,hc,hl⟩ := Option.map_eq_some_iff.mp h
  exact ⟨c,.of_runList hc,by rw [hl]; decide⟩

/-- Two requests, one of which ends. -/
def twoRequests : List Event :=
  [.frame (.of Kind.headers (Flag.endStream ||| Flag.endHeaders) 1 []),
    .frame (.of Kind.headers (Flag.endStream ||| Flag.endHeaders) 3 []),.finish 1]

theorem twoRequests_tasks : ∃ c, Runs (Runs.guarded (stepRel Conn.next) SparesRunning) (Conn.new 0) twoRequests c ∧
    c.tasks.length = 1 ∧ c.tasks.length ≤ maxConcurrent := by
  have h : (runList (fun c e => if SparesRunning c e then c.next e else none) (Conn.new 0) twoRequests).map
      (fun c => c.tasks.length) = some 1 := by
    decide +kernel
  obtain ⟨c,hc,hl⟩ := Option.map_eq_some_iff.mp h
  have hr := Runs.guarded_of_runList hc
  exact ⟨c,hr,hl,tasks_le_maxConcurrent 0 twoRequests c hr⟩

end Limit

section Reclaim

/-- A stream id whose request was not handed over yet: in the table, or idle. -/
def Conn.undispatched (c : Conn) (i : ℕ) : Bool :=
  match c.streams.get? i with
  | some st => !st.dispatched
  | none => c.highestClientStream < i

/-- No stream is reset, by either side, before its request was handed over. -/
def HandsOverFirst (c : Conn) : Event → Prop
  | .frame f => c.serverResets f = true ∨ f.head.kind = Kind.rstStream → c.undispatched f.head.stream = false
  | _ => True

/-- A stream that is marked done or reset was handed over, and the table is
within the limit. -/
structure Tidy (c : Conn) : Prop where
  handed : ∀ i st, c.streams.get? i = some st → (c.life i st).done = true ∨ st.state = .reset → st.dispatched = true
  size_le : c.streams.size ≤ maxConcurrent

theorem Tidy.touch {c c' : Conn} {i : ℕ} {φ : Life → Life} (h : Tidy c) (ht : Touch c c' i φ)
    (hφ : ∀ st, c.streams.get? i = some st → (φ (c.life i st)).done = true ∨ (φ (c.life i st)).state = .reset →
      (φ (c.life i st)).dispatched = true) : Tidy c' where
  handed := by
    intro j st' hj hd
    obtain ⟨st,hst,hl⟩ := ht.get? hj
    change (c'.life j st').done = true ∨ (c'.life j st').state = .reset at hd
    change (c'.life j st').dispatched = true
    rw [hl] at hd ⊢
    by_cases hji : j = i
    · subst hji
      rw [if_pos rfl] at hd ⊢
      exact hφ st hst hd
    · rw [if_neg hji] at hd ⊢
      exact h.handed j st hst hd
  size_le := by
    rw [ht.size]
    exact h.size_le

theorem Tidy.size_aim {c : Conn} (h : Tidy c) (f : Frame) : (aim c f).streams.size = (aim c f).active := by
  apply KeyMap.size_eq_count
  intro i st hi
  obtain ⟨hi,hn⟩ := get?_aim hi
  by_contra hd
  have hdone : (c.flows i).done = true := by
    simp only [Bool.not_eq_true',Bool.not_eq_false] at hd
    exact hd
  exact hn ⟨h.handed i st hi (Or.inl hdone),hdone⟩

theorem Tidy.aimed {c : Conn} {f : Frame} (h : Tidy c) : Tidy (aim c f) where
  handed := by
    intro i st hi hd
    exact h.handed i st (get?_aim hi).1 hd
  size_le := Nat.le_trans (List.length_filter_le _ _) h.size_le

theorem Tidy.insertStream {c : Conn} {f : Frame} {block : Bytes} (h : Tidy c)
    (hs : c.streams.size < maxConcurrent) : Tidy (c.insertStream f block) where
  handed := by
    intro i st hi hd
    by_cases hne : i = f.head.stream
    · subst hne
      simp only [Conn.insertStream,KeyMap.get?_insert,if_true,Option.some.injEq] at hi
      subst hi
      rcases hd with hd | hd
      · simp [life,Conn.insertStream,modifyFlow] at hd
      · simp only at hd
        split at hd <;> cases hd
    · rw [life_insertStream_ne hne] at hd
      rcases get?_insertStream hi with ⟨he,-⟩ | ⟨-,hi⟩
      · exact absurd he hne
      · exact h.handed i st hi hd
  size_le := Nat.le_trans (KeyMap.size_insert_le _ _ _) hs

theorem Tidy.dispatchOne {c : Conn} {i : ℕ} {st : Stream} (h : Tidy c) (hst : c.streams.get? i = some st) :
    Tidy (c.dispatchOne i) := by
  rcases dispatchOne_cases hst with ht | ⟨t,rfl,ht⟩
  · exact h.touch ht (fun _ _ _ => rfl)
  · have h' : Tidy { c with tasks := c.tasks ++ [t] } := ⟨h.handed,h.size_le⟩
    exact h'.touch ht (fun _ _ _ => rfl)

theorem Tidy.arm {c d : Conn} {f : Frame} {n : Next} (h : Tidy c) (hg : HandsOverFirst c (.frame f))
    (ha : c.arm f = (d,n)) : Tidy d := by
  have hdisp (st : Stream) (hst : c.streams.get? f.head.stream = some st)
      (hr : c.serverResets f = true ∨ f.head.kind = Kind.rstStream) : st.dispatched = true := by
    have := hg hr
    simpa [undispatched,hst] using this
  rcases arm_cases ha with hf | ⟨hi,ho⟩
  · cases hf with
    | kept ht => exact h.touch ht (fun st hst hd => h.handed _ st hst hd)
    | closed ht =>
      refine h.touch ht (fun st hst hd => ?_)
      unfold Life.close at hd ⊢
      split at hd
      · rename_i hop
        rw [if_pos hop]
        exact h.handed _ st hst (Or.inl (by simpa using hd))
      · rename_i hop
        rw [if_neg hop]
        exact h.handed _ st hst hd
    | resetByServer hs ht => exact h.touch ht (fun st hst _ => hdisp st hst (Or.inl hs))
    | resetByPeer hk ht => exact h.touch ht (fun st hst _ => hdisp st hst (Or.inr hk))
  · have hins (block : Bytes) (hact : (aim c f).active < maxConcurrent) :
        Tidy ((aim c f).insertStream f block) :=
      h.aimed.insertStream (by rw [h.size_aim]; exact hact)
    cases ho with
    | refused _ ht => exact h.aimed.touch ht (fun st hst hd => h.aimed.handed _ st hst hd)
    | kept hact ht => exact (hins _ hact).touch ht (fun st hst hd => (hins _ hact).handed _ st hst hd)
    | reset _ hs _ =>
      have hu := hg (Or.inl hs)
      obtain ⟨hnone,hlt⟩ := stateOf_idle hi
      simp only [undispatched,hnone,decide_eq_false_iff_not] at hu
      exact absurd hlt hu

theorem Tidy.next {c c' : Conn} {e : Event} (h : Tidy c) (hl : Ledger c) (hg : HandsOverFirst c e)
    (hn : c.next e = some c') : Tidy c' := by
  rcases next_cases hn with ⟨f,d,n,rfl,-,ha,⟨-,rfl⟩ | ⟨-,rfl⟩ | ⟨r,rfl⟩⟩ | ⟨r,rfl⟩ | ⟨i,data,-,ht⟩ | ⟨i,-,hi,rfl⟩
  · exact dispatch_induction (P := Tidy) (h.arm hg ha) (fun _ _ _ hd hst _ => hd.dispatchOne hst)
  · exact h.arm hg ha
  · exact ⟨(h.arm hg ha).handed,(h.arm hg ha).size_le⟩
  · exact ⟨h.handed,h.size_le⟩
  · exact h.touch ht (fun st hst hd => h.handed _ st hst hd)
  · refine ⟨?_,h.size_le⟩
    intro j st hj hd
    by_cases hji : j = i
    · subst hji
      exact (hl.lives j st hj).handed hi
    · refine h.handed j st hj ?_
      simpa [life,modifyFlow,hji] using hd

/-- What becomes of streams that are over: they do not count, the next new
stream removes them, and with only such streams left it is not refused. -/
structure Reclaims (c : Conn) : Prop where
  freed : ∀ i st, c.streams.get? i = some st → st.state = .reset ∨ st.dispatched = true → i ∉ c.running →
    (c.flows i).done = true ∧ ∀ f, (aim c f).streams.get? i = none
  accepts : (∀ i st, c.streams.get? i = some st → (st.state = .reset ∨ st.dispatched = true) ∧ i ∉ c.running) →
    ∀ f block, c.highestClientStream < f.head.stream →
      c.onNewStream f block = ((aim c f).insertStream f block).openBlock f
  bounded : c.streams.size ≤ maxConcurrent

theorem Tidy.reclaims {c : Conn} (h : Tidy c) (hl : Ledger c) : Reclaims c := by
  have hfreed : ∀ i st, c.streams.get? i = some st → st.state = .reset ∨ st.dispatched = true → i ∉ c.running →
      (c.flows i).done = true ∧ ∀ f, (aim c f).streams.get? i = none := by
    intro i st hi hs hr
    have hd : st.dispatched = true := by
      rcases hs with hs | hs
      · exact h.handed i st hi (Or.inr hs)
      · exact hs
    have hdone : (c.flows i).done = true := (hl.lives i st hi).finished hd hr
    refine ⟨hdone,fun f => ?_⟩
    cases hg : (aim c f).streams.get? i with
    | none => rfl
    | some s =>
      obtain ⟨hi',hn⟩ := get?_aim hg
      rw [hi] at hi'
      cases hi'
      exact absurd ⟨hd,hdone⟩ hn
  refine ⟨hfreed,?_,h.size_le⟩
  intro hall f block hlt
  have hzero : (aim c f).active = 0 := by
    apply KeyMap.count_eq_zero
    intro i st hi
    obtain ⟨hs,hr⟩ := hall i st (get?_aim hi).1
    have hdone : ((aim c f).flows i).done = true := (hfreed i st (get?_aim hi).1 hs hr).1
    rw [hdone]
    rfl
  have hfree : ¬ maxConcurrent ≤ (aim c f).active := by
    rw [hzero]
    decide
  rw [onNewStream,if_neg (by omega)]
  exact if_neg hfree

/-- Along every run in which no stream is reset before it was handed over, the
slots of streams that are over are given back. -/
theorem run_reclaims (maxBody : ℕ) (es : List Event) (c : Conn)
    (hr : Runs (Runs.guarded (stepRel Conn.next) HandsOverFirst) (Conn.new maxBody) es c) : Reclaims c := by
  have hinv : Ledger c ∧ Tidy c := by
    refine hr.invariant (I := fun _ d => Ledger d ∧ Tidy d) ⟨ledger_new maxBody,?_,Nat.zero_le _⟩ ?_
    · intro i st hi
      simp [Conn.new] at hi
    · intro _ d e d' _ hd hs
      exact ⟨hd.1.next hs.2,hd.2.next hd.1 hs.1 hs.2⟩
  exact hinv.2.reclaims hinv.1

instance (c : Conn) (e : Event) : Decidable (HandsOverFirst c e) :=
  match e with
  | .frame f => inferInstanceAs (Decidable
      (c.serverResets f = true ∨ f.head.kind = Kind.rstStream → c.undispatched f.head.stream = false))
  | .hangUp _ => inferInstanceAs (Decidable True)
  | .send _ _ => inferInstanceAs (Decidable True)
  | .finish _ => inferInstanceAs (Decidable True)

/-- A request that the peer cancels while its task runs, and the end of the task. -/
def cancelledRequest : List Event :=
  [.frame (.of Kind.headers (Flag.endStream ||| Flag.endHeaders) 1 []),
    .frame (.of Kind.rstStream 0 1 [0,0,0,8]),.finish 1]

theorem cancelledRequest_reclaims : ∃ c,
    Runs (Runs.guarded (stepRel Conn.next) HandsOverFirst) (Conn.new 0) cancelledRequest c ∧
      c.streams.size = 1 ∧ Reclaims c := by
  have h : (runList (fun c e => if HandsOverFirst c e then c.next e else none) (Conn.new 0) cancelledRequest).map
      (fun c => c.streams.size) = some 1 := by
    decide +kernel
  obtain ⟨c,hc,hl⟩ := Option.map_eq_some_iff.mp h
  have hr := Runs.guarded_of_runList hc
  exact ⟨c,hr,hl,run_reclaims 0 cancelledRequest c hr⟩

/-- A request that the peer cancels before it sent the body. -/
def cancelledUpload : List Event :=
  [.frame (.of Kind.headers Flag.endHeaders 1 []),.frame (.of Kind.rstStream 0 1 [0,0,0,8])]

theorem cancelledUpload_leaks : ∃ c, Runs (stepRel Conn.next) (Conn.new 0) cancelledUpload c ∧ ¬ Reclaims c := by
  have h : (runList Conn.next (Conn.new 0) cancelledUpload).map
      (fun c => ((c.streams.get? 1).map Stream.state,c.running,(c.flows 1).done)) =
        some (some .reset,[],false) := by
    decide +kernel
  obtain ⟨c,hc,hl⟩ := Option.map_eq_some_iff.mp h
  simp only [Prod.mk.injEq] at hl
  obtain ⟨hst,hrun,hdone⟩ := hl
  obtain ⟨st,hget,hs⟩ := Option.map_eq_some_iff.mp hst
  refine ⟨c,.of_runList hc,fun hrec => ?_⟩
  have hd := (hrec.freed 1 st hget (Or.inl hs) (by simp [hrun])).1
  rw [hdone] at hd
  cases hd

end Reclaim

end OxiServe.Http2
