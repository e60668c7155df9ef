import OxiServe.Server.Supervision

/-! # Signals in time

A request is served when the master does not block with its flag set. The flags are read
before it blocks, or behind `EINTR`: a signal that comes after its flag was read, or a
stop that does not interrupt the wait, is left until something else happens.
-/
namespace OxiServe.Server.Prefork
open Runs

/-- The master blocks: it waits, uninterrupted, and there is a worker to wait for. -/
def Blocked (s : State) : Prop := s.pc = .waiting false ∧ s.procs ≠ []

/-- Nothing is left to be served when the master blocks, and every worker was told to stop
when it waits for the last of them. -/
structure Served (s : State) : Prop where
  blocked : Blocked s → s.stop = false ∧ s.reload = 0 ∧ s.reopen = 0
  draining : ∀ rest, s.pc = .draining rest → ∀ p ∈ s.procs, p.live = true → p.quit = true

/-- A stop may come here: the wait is interrupted, or no worker is left. -/
def MayStop (s : State) : Prop :=
  match s.pc with
  | .waiting _ | .interrupted | .draining _ | .exited _ => True
  | .reaped pid => s.tracked = [pid]
  | .lost _ | .head | .reopened | .asked | .calling => s.tracked = []
  | _ => False

/-- A signal comes before its flag is read, or while the master waits; a stop only while it
waits, and not together with the exit of a worker unless that is the last. -/
def Timely (s : State) (ev : Event) : Prop :=
  match ev with
  | .signal .stop => MayStop s
  | .signal .reload => s.pc ≠ .calling ∧ (s.pc = .reopened → 0 < s.reopen → State.bump s.reload ≠ 0)
  | .signal .reopen => s.pc ≠ .calling ∧ (s.pc = .reopened → 0 < s.reload)
  | .reap pid => s.stop = false ∨ s.tracked = [pid]
  | _ => NoLeak s ev

/-- Where the master may be when a stop was asked for. -/
def Stopping (s : State) : Prop :=
  match s.pc with
  | .waiting true | .interrupted | .draining _ | .exited _ => True
  | .reaped pid => s.tracked = [pid]
  | .lost _ | .head | .reopened | .asked | .calling | .waiting false => s.tracked = []
  | _ => False

structure InTime (s : State) : Prop where
  inv : Inv s
  stopping : s.stop = true → Stopping s
  quiet : s.stop = false → (s.pc = .calling ∨ s.pc = .waiting false) → s.reload = 0 ∧ s.reopen = 0
  between : s.stop = false → s.pc = .reopened → s.reopen = 0 ∨ 0 < s.reload
  draining : ∀ rest, s.pc = .draining rest → ∀ p ∈ s.procs, p.live = true → p.quit = true

namespace InTime
variable {s t : State} {gen : Generation} {evs : List Event}

theorem served (h : InTime s) : Served s := by
  refine ⟨fun hb => ?_,h.draining⟩
  obtain ⟨hpc,hp⟩ := hb
  cases hst : s.stop with
  | false => exact ⟨rfl,h.quiet hst (.inr hpc)⟩
  | true =>
    have hs := h.stopping hst
    have hi := h.inv
    unfold Stopping at hs
    unfold Inv at hi
    rw [hpc] at hs hi
    have hperm := ((Accounts.plain_iff rfl).mp hi).1
    change (s.children.map Prod.fst ++ s.retiring).Perm _ at hperm
    unfold State.tracked at hs
    rw [hs] at hperm
    exact absurd (List.map_eq_nil_iff.mp hperm.nil_eq.symm) hp

theorem init (gen : Generation) : InTime (State.init gen) :=
  ⟨inv_init gen,nofun,(fun _ h => by rcases h with h | h; cases h; cases h),nofun,nofun⟩

/-- The place a signal leaves the master in. -/
def pcAfter : Pc → Pc
  | .waiting _ => .waiting true
  | pc => pc

theorem step_signal (s : State) (sig : Signal) :
    s.step (.signal sig) = some { s.onSignal sig with pc := pcAfter s.pc } := by
  obtain ⟨stop,reload,reopen,pc,gen,children,retiring,procs⟩ := s
  cases pc <;> cases sig <;> rfl

theorem pcAfter_ne_waiting (pc : Pc) : pcAfter pc ≠ .waiting false := by
  cases pc with
  | waiting i => exact nofun
  | _ => exact nofun

theorem eq_of_pcAfter {pc pc' : Pc} (h : pcAfter pc = pc') (hn : ∀ i, pc' ≠ .waiting i) : pc = pc' := by
  cases pc with
  | waiting i => exact absurd h.symm (hn true)
  | _ => exact h

/-- A stop is in time where it may come, and stays so when another signal comes. -/
theorem stopping_after {sig : Signal} (h : s.stop = true ∧ Stopping s ∨ MayStop s) :
    Stopping { s.onSignal sig with pc := pcAfter s.pc } := by
  have htr : ({ s.onSignal sig with pc := pcAfter s.pc } : State).tracked = s.tracked := by
    cases sig with
    | stop => rfl
    | reload => rfl
    | reopen => rfl
  unfold Stopping
  rw [htr]
  dsimp only
  rcases h with ⟨-,h⟩ | h
  · unfold Stopping at h
    cases hpc : s.pc with
    | waiting i => trivial
    | _ =>
      rw [hpc] at h
      exact h
  · unfold MayStop at h
    cases hpc : s.pc with
    | waiting i => trivial
    | interrupted => trivial
    | draining r => trivial
    | exited b => trivial
    | starting w =>
      rw [hpc] at h
      exact h.elim
    | loading =>
      rw [hpc] at h
      exact h.elim
    | forking next f =>
      rw [hpc] at h
      exact h.elim
    | respawning w =>
      rw [hpc] at h
      exact h.elim
    | _ =>
      rw [hpc] at h
      exact h

theorem signal {sig : Signal} (h : InTime s) (ht : Timely s (.signal sig)) (hi : Inv t)
    (hs : s.step (.signal sig) = some t) : InTime t := by
  rw [step_signal] at hs
  cases hs
  have hdrain : ∀ rest, pcAfter s.pc = .draining rest → ∀ p ∈ s.procs, p.live = true → p.quit = true :=
    fun rest hr => h.draining rest (eq_of_pcAfter hr nofun)
  cases sig with
  | stop => exact ⟨hi,fun _ => stopping_after (.inr ht),nofun,nofun,hdrain⟩
  | reload =>
    obtain ⟨hc,hb⟩ := ht
    refine ⟨hi,fun hst => stopping_after (.inl ⟨hst,h.stopping hst⟩),fun _ hpc => ?_,fun hst hpc => ?_,hdrain⟩
    · rcases hpc with hpc | hpc
      · exact absurd (eq_of_pcAfter hpc nofun) hc
      · exact absurd hpc (pcAfter_ne_waiting _)
    · rcases Nat.eq_zero_or_pos s.reopen with h0 | h0
      · exact .inl h0
      · exact .inr (Nat.pos_of_ne_zero (hb (eq_of_pcAfter hpc nofun) h0))
  | reopen =>
    obtain ⟨hc,hb⟩ := ht
    refine ⟨hi,fun hst => stopping_after (.inl ⟨hst,h.stopping hst⟩),fun _ hpc => ?_,fun hst hpc => ?_,hdrain⟩
    · rcases hpc with hpc | hpc
      · exact absurd (eq_of_pcAfter hpc nofun) hc
      · exact absurd hpc (pcAfter_ne_waiting _)
    · exact .inr (hb (eq_of_pcAfter hpc nofun))

/-- No place to read a flag or to block at, and no worker waited for. -/
def calm : Pc → Bool
  | .reopened | .calling | .waiting false | .draining _ => false
  | _ => true

/-- Where that is, only a stop counts. -/
theorem of_calm (hi : Inv t) (hc : calm t.pc = true) (hs : t.stop = true → Stopping t) : InTime t := by
  refine ⟨hi,hs,fun _ hpc => ?_,fun _ hpc => ?_,fun rest hpc => ?_⟩
  · rcases hpc with hpc | hpc
    · rw [hpc] at hc
      cases hc
    · rw [hpc] at hc
      cases hc
  · rw [hpc] at hc
    cases hc
  · rw [hpc] at hc
    cases hc

/-- At most places no stop is flagged. -/
theorem no_stop (h : InTime s) (hn : ¬ Stopping s) : s.stop = false := Bool.eq_false_iff.mpr (fun hs => hn (h.stopping hs))

theorem release_tracked {pid : ℕ} (ht : s.tracked = [pid]) : (s.release pid).tracked = [] ∧
    ((s.release pid).pc = .head ∨ ∃ w, (s.release pid).pc = .lost w) := by
  have hlen := congrArg List.length ht
  unfold State.tracked at hlen ht
  rw [List.length_append,List.length_map,List.length_singleton] at hlen
  unfold State.release
  cases hr : s.retiring.findIdx? (· == pid) with
  | some i =>
    obtain ⟨hi,-,-⟩ := List.findIdx?_eq_some_iff_getElem.mp hr
    have hl := (swapRemove_perm (List.getElem?_eq_getElem hi)).length_eq
    rw [List.length_cons] at hl
    refine ⟨List.length_eq_zero_iff.mp ?_,.inl rfl⟩
    change (s.children.map Prod.fst ++ swapRemove s.retiring i).length = 0
    rw [List.length_append,List.length_map]
    omega
  | none =>
    cases hc : s.children.findIdx? (fun c => c.1 == pid) with
    | some i =>
      obtain ⟨hi,-,-⟩ := List.findIdx?_eq_some_iff_getElem.mp hc
      have hl := (swapRemove_perm (List.getElem?_eq_getElem hi)).length_eq
      rw [List.length_cons] at hl
      refine ⟨List.length_eq_zero_iff.mp ?_,.inr ⟨_,rfl⟩⟩
      change ((swapRemove s.children i).map Prod.fst ++ s.retiring).length = 0
      rw [List.length_append,List.length_map]
      omega
    | none =>
      have hmem : pid ∈ s.children.map Prod.fst ++ s.retiring := ht ▸ List.mem_singleton_self pid
      rcases List.mem_append.mp hmem with hm | hm
      · obtain ⟨c,hcm,hce⟩ := List.mem_map.mp hm
        exact absurd (List.findIdx?_eq_none_iff.mp hc c hcm) (by simp [hce])
      · exact absurd (List.findIdx?_eq_none_iff.mp hr pid hm) (by simp)

theorem release_stop (s : State) (pid : ℕ) : (s.release pid).stop = s.stop ∧
    ((s.release pid).pc = .head ∨ ∃ w, (s.release pid).pc = .lost w) := by
  unfold State.release
  split
  · exact ⟨rfl,.inl rfl⟩
  · split
    · exact ⟨rfl,.inl rfl⟩
    · exact ⟨rfl,.inr ⟨_,rfl⟩⟩

/-- What the head of the loop does beside its flag. -/
theorem head_kept (s : State) : (if 0 < s.reopen then s.usr1 s.tracked else s).stop = s.stop ∧
    (if 0 < s.reopen then s.usr1 s.tracked else s).tracked = s.tracked := by
  split
  · exact ⟨rfl,rfl⟩
  · exact ⟨rfl,rfl⟩

theorem go_head (h : InTime s) (hpc : s.pc = .head) (hi : Inv t) (hs : s.go = some t) : InTime t := by
  have hstop := h.stopping
  unfold State.go at hs
  unfold Stopping at hstop
  rw [hpc] at hs hstop
  cases hs
  obtain ⟨h1,h2⟩ := head_kept s
  refine ⟨hi,fun hst => ?_,fun _ hp => ?_,fun _ _ => .inl rfl,nofun⟩
  · exact h2.trans (hstop (h1.symm.trans hst))
  · rcases hp with hp | hp
    · cases hp
    · cases hp

theorem go_reopened (h : InTime s) (hpc : s.pc = .reopened) (hi : Inv t) (hs : s.go = some t) : InTime t := by
  have hstop := h.stopping
  unfold State.go at hs
  unfold Stopping at hstop
  rw [hpc] at hs hstop
  cases hs
  by_cases hr : 0 < s.reload
  · refine of_calm hi ?_ (fun hst => ?_)
    · rw [if_pos hr]
      rfl
    · unfold Stopping
      rw [if_pos hr]
      exact hstop hst
  · refine ⟨hi,fun hst => ?_,fun hst _ => ⟨rfl,?_⟩,fun _ hp => ?_,fun rest hp => ?_⟩
    · unfold Stopping
      rw [if_neg hr]
      exact hstop hst
    · exact (h.between hst hpc).resolve_right hr
    · rw [if_neg hr] at hp
      cases hp
    · rw [if_neg hr] at hp
      cases hp

theorem go_asked (h : InTime s) (hpc : s.pc = .asked) (hi : Inv t) (hs : s.go = some t) : InTime t := by
  have hstop := h.stopping
  unfold State.go at hs
  unfold Stopping at hstop
  rw [hpc] at hs hstop
  cases hs
  cases hst : s.stop with
  | true =>
    rw [hst] at hi hstop
    exact ⟨hi,fun _ => hstop rfl,nofun,nofun,nofun⟩
  | false =>
    rw [hst] at hi
    exact of_calm hi rfl nofun

theorem go_interrupted (h : InTime s) (hpc : s.pc = .interrupted) (hi : Inv t) (hs : s.go = some t) : InTime t := by
  have hinv := h.inv
  unfold State.go at hs
  unfold Inv at hinv
  rw [hpc] at hs hinv
  cases hs
  cases hst : s.stop with
  | true =>
    rw [hst,if_pos rfl] at hi
    rw [if_pos rfl]
    refine ⟨hi,fun _ => trivial,nofun,nofun,fun _ _ p hp _ => ?_⟩
    obtain ⟨q,hq,rfl⟩ := List.mem_map.mp hp
    have hperm := ((Accounts.plain_iff rfl).mp hinv).1
    have hm : q.pid ∈ s.tracked := hperm.mem_iff.mpr (List.mem_map_of_mem hq)
    rw [if_pos hm]
  | false =>
    rw [hst,if_neg Bool.false_ne_true] at hi
    rw [if_neg Bool.false_ne_true]
    exact of_calm hi rfl nofun

theorem go_reaped {pid : ℕ} (h : InTime s) (hpc : s.pc = .reaped pid) (hi : Inv t) (hs : s.go = some t) : InTime t := by
  have hstop := h.stopping
  unfold State.go at hs
  unfold Stopping at hstop
  rw [hpc] at hs hstop
  cases hs
  obtain ⟨hst,hp⟩ := release_stop s pid
  refine of_calm hi ?_ (fun he => ?_)
  · rcases hp with hp | ⟨w,hp⟩
    · rw [hp]
      rfl
    · rw [hp]
      rfl
  · obtain ⟨ht,-⟩ := release_tracked (hstop (hst.symm.trans he))
    unfold Stopping
    rcases hp with hp | ⟨w,hp⟩
    · rw [hp]
      exact ht
    · rw [hp]
      exact ht

theorem go_lost {w : ℕ} (h : InTime s) (hpc : s.pc = .lost w) (hi : Inv t) (hs : s.go = some t) : InTime t := by
  have hstop := h.stopping
  unfold State.go at hs
  unfold Stopping at hstop
  rw [hpc] at hs hstop
  cases hs
  cases hst : s.stop with
  | true =>
    have ht : s.children.map Prod.fst ++ s.retiring = [] := hstop hst
    obtain ⟨hc,hr⟩ := List.append_eq_nil_iff.mp ht
    rw [hst,if_pos rfl,List.map_eq_nil_iff.mp hc,hr] at hi
    rw [if_pos rfl,List.map_eq_nil_iff.mp hc,hr]
    exact of_calm hi rfl (fun _ => trivial)
  | false =>
    rw [hst] at hi
    exact of_calm hi rfl nofun

theorem go_draining {rest : List ℕ} (h : InTime s) (hpc : s.pc = .draining rest) (hi : Inv t) (hs : s.go = some t) :
    InTime t := by
  unfold State.go at hs
  rw [hpc] at hs
  cases rest with
  | nil =>
    cases hs
    exact of_calm hi rfl (fun _ => trivial)
  | cons p rest =>
    dsimp only at hs
    split at hs
    · cases hs
    · cases hs
      exact ⟨hi,fun _ => trivial,nofun,nofun,fun _ _ q hq hl => h.draining _ hpc q (List.mem_of_mem_filter hq) hl⟩

theorem go (h : InTime s) (hi : Inv t) (hs : s.go = some t) : InTime t := by
  cases hpc : s.pc with
  | starting w =>
    have hno := h.no_stop (by unfold Stopping; rw [hpc]; exact id)
    unfold State.go at hs
    rw [hpc] at hs
    dsimp only at hs
    split at hs
    · cases hs
    · cases hs
      exact of_calm hi rfl (fun he => absurd (hno.symm.trans he) Bool.false_ne_true)
  | head => exact h.go_head hpc hi hs
  | reopened => exact h.go_reopened hpc hi hs
  | asked => exact h.go_asked hpc hi hs
  | forking next f =>
    have hno := h.no_stop (by unfold Stopping; rw [hpc]; exact id)
    unfold State.go at hs
    rw [hpc] at hs
    dsimp only at hs
    split at hs
    · cases hs
    · cases hs
      exact of_calm hi rfl (fun he => absurd (hno.symm.trans he) Bool.false_ne_true)
  | calling =>
    have hstop := h.stopping
    unfold Stopping at hstop
    unfold State.go at hs
    rw [hpc] at hs hstop
    cases hs
    exact ⟨hi,hstop,fun hst _ => h.quiet hst (.inl hpc),nofun,nofun⟩
  | waiting i =>
    unfold State.go at hs
    rw [hpc] at hs
    dsimp only at hs
    split at hs
    · cases hs
      exact of_calm hi rfl (fun _ => trivial)
    · cases hs
  | interrupted => exact h.go_interrupted hpc hi hs
  | reaped pid => exact h.go_reaped hpc hi hs
  | lost w => exact h.go_lost hpc hi hs
  | draining rest => exact h.go_draining hpc hi hs
  | loading =>
    unfold State.go at hs
    rw [hpc] at hs
    cases hs
  | respawning w =>
    unfold State.go at hs
    rw [hpc] at hs
    cases hs
  | exited b =>
    unfold State.go at hs
    rw [hpc] at hs
    cases hs

theorem die {pid : ℕ} (h : InTime s) (hi : Inv t) (hs : s.step (.die pid) = some t) : InTime t := by
  unfold State.step at hs
  dsimp only at hs
  split at hs
  · cases hs
    refine ⟨hi,h.stopping,h.quiet,h.between,fun rest hpc p hp hl => ?_⟩
    obtain ⟨q,hq,rfl⟩ := List.mem_map.mp hp
    have hquit := h.draining rest hpc q hq
    cases he : q.pid == pid with
    | true =>
      rw [he] at hl
      cases hl
    | false =>
      rw [he] at hl
      exact hquit hl
  · cases hs

theorem fork {pid : ℕ} (h : InTime s) (hi : Inv t) (hs : s.step (.fork pid) = some t) : InTime t := by
  unfold State.step at hs
  dsimp only at hs
  split at hs
  · cases hs
  · split at hs
    · rename_i w hpc
      have hno := h.no_stop (by unfold Stopping; rw [hpc]; exact id)
      split at hs
      · cases hs
        exact of_calm hi rfl (fun he => absurd (hno.symm.trans he) Bool.false_ne_true)
      · cases hs
    · rename_i next f hpc
      have hno := h.no_stop (by unfold Stopping; rw [hpc]; exact id)
      split at hs
      · cases hs
        exact of_calm hi rfl (fun he => absurd (hno.symm.trans he) Bool.false_ne_true)
      · cases hs
    · rename_i w hpc
      have hno := h.no_stop (by unfold Stopping; rw [hpc]; exact id)
      cases hs
      exact of_calm hi rfl (fun he => absurd (hno.symm.trans he) Bool.false_ne_true)
    · cases hs

theorem forkFails (h : InTime s) (hi : Inv t) (hs : s.step .forkFails = some t) : InTime t := by
  unfold State.step at hs
  dsimp only at hs
  split at hs
  · split at hs
    · cases hs
      exact of_calm hi rfl (fun _ => trivial)
    · cases hs
  · rename_i next f hpc
    have hno := h.no_stop (by unfold Stopping; rw [hpc]; exact id)
    split at hs
    · cases hs
      exact of_calm hi rfl (fun he => absurd (hno.symm.trans he) Bool.false_ne_true)
    · cases hs
  · cases hs
    exact of_calm hi rfl (fun _ => trivial)
  · cases hs

theorem prepare {next : Option Generation} (h : InTime s) (hi : Inv t) (hs : s.step (.prepare next) = some t) :
    InTime t := by
  unfold State.step at hs
  dsimp only at hs
  split at hs
  · rename_i hpc
    have hno := h.no_stop (by unfold Stopping; rw [hpc]; exact id)
    cases hs
    cases next with
    | none => exact of_calm hi rfl (fun he => absurd (hno.symm.trans he) Bool.false_ne_true)
    | some g => exact of_calm hi rfl (fun he => absurd (hno.symm.trans he) Bool.false_ne_true)
  · cases hs

theorem eintr (h : InTime s) (hi : Inv t) (hs : s.step .eintr = some t) : InTime t := by
  unfold State.step at hs
  dsimp only at hs
  split at hs
  · cases hs
    exact of_calm hi rfl (fun _ => trivial)
  · rename_i pid rest hpc
    cases hs
    exact ⟨hi,fun _ => trivial,nofun,nofun,fun _ _ => h.draining _ hpc⟩
  · cases hs

theorem reap {pid : ℕ} (ht : Timely s (.reap pid)) (hi : Inv t) (hs : s.step (.reap pid) = some t) :
    InTime t := by
  unfold State.step at hs
  dsimp only at hs
  split at hs
  · split at hs
    · cases hs
      exact of_calm hi rfl (fun he => ht.resolve_left (fun hf => absurd (hf.symm.trans he) Bool.false_ne_true))
    · cases hs
  · cases hs

theorem no_leak {ev : Event} (ht : Timely s ev) : NoLeak s ev := by
  cases ev with
  | signal sig => exact nofun
  | reap pid => exact nofun
  | die pid => exact ht
  | fork pid => exact ht
  | forkFails => exact ht
  | prepare next => exact ht
  | eintr => exact ht
  | go => exact ht

theorem step {ev : Event} (h : InTime s) (ht : Timely s ev) (hs : s.step ev = some t) : InTime t := by
  have hi : Inv t := inv_step h.inv (no_leak ht) hs
  cases ev with
  | signal sig => exact h.signal ht hi hs
  | die pid => exact h.die hi hs
  | fork pid => exact h.fork hi hs
  | forkFails => exact h.forkFails hi hs
  | prepare next => exact h.prepare hi hs
  | eintr => exact h.eintr hi hs
  | reap pid => exact reap ht hi hs
  | go => exact h.go hi hs

end InTime

/-- No reload and no reopen is asked for together with a stop. -/
def Alone (s : State) (ev : Event) : Prop :=
  match ev with
  | .signal .stop => s.reload = 0 ∧ s.reopen = 0
  | .signal _ => s.stop = false
  | _ => True

/-- What a step may do to the flags. -/
structure Flags (s t : State) : Prop where
  stop : t.stop = s.stop
  reload : t.reload = 0 ∨ t.reload = s.reload
  reopen : t.reopen = 0 ∨ t.reopen = s.reopen
  draining : ∀ rest, t.pc = .draining rest → s.stop = true ∨ ∃ r, s.pc = .draining r

namespace Flags
variable {s t : State}

theorem release (s : State) (pid : ℕ) : Flags s (s.release pid) := by
  unfold State.release
  split
  · exact ⟨rfl,.inr rfl,.inr rfl,nofun⟩
  · split
    · exact ⟨rfl,.inr rfl,.inr rfl,nofun⟩
    · exact ⟨rfl,.inr rfl,.inr rfl,nofun⟩

theorem go (h : s.go = some t) : Flags s t := by
  unfold State.go at h
  cases hpc : s.pc with
  | starting w =>
    rw [hpc] at h
    dsimp only at h
    split at h
    · cases h
    · cases h
      exact ⟨rfl,.inr rfl,.inr rfl,nofun⟩
  | head =>
    rw [hpc] at h
    cases h
    refine ⟨(InTime.head_kept s).1,.inr ?_,.inl rfl,nofun⟩
    dsimp only
    split
    · rfl
    · rfl
  | reopened =>
    rw [hpc] at h
    cases h
    refine ⟨rfl,.inl rfl,.inr rfl,fun rest hr => ?_⟩
    dsimp only at hr
    split at hr
    · cases hr
    · cases hr
  | asked =>
    rw [hpc] at h
    cases h
    refine ⟨rfl,.inr rfl,.inr rfl,fun rest hr => ?_⟩
    dsimp only at hr
    split at hr
    · cases hr
    · cases hr
  | forking next f =>
    rw [hpc] at h
    dsimp only at h
    split at h
    · cases h
    · cases h
      exact ⟨rfl,.inr rfl,.inr rfl,nofun⟩
  | calling =>
    rw [hpc] at h
    cases h
    exact ⟨rfl,.inr rfl,.inr rfl,nofun⟩
  | waiting i =>
    rw [hpc] at h
    dsimp only at h
    split at h
    · cases h
      exact ⟨rfl,.inr rfl,.inr rfl,nofun⟩
    · cases h
  | interrupted =>
    rw [hpc] at h
    cases h
    cases hst : s.stop with
    | true =>
      rw [if_pos rfl]
      exact ⟨rfl,.inr rfl,.inr rfl,fun _ _ => .inl hst⟩
    | false =>
      rw [if_neg Bool.false_ne_true]
      exact ⟨hst.symm,.inr rfl,.inr rfl,nofun⟩
  | reaped pid =>
    rw [hpc] at h
    cases h
    exact .release s pid
  | lost w =>
    rw [hpc] at h
    cases h
    refine ⟨rfl,.inr rfl,.inr rfl,fun rest hr => ?_⟩
    dsimp only at hr
    split at hr
    · split at hr
      · cases hr
      · cases hr
    · cases hr
  | draining rest =>
    rw [hpc] at h
    cases rest with
    | nil =>
      cases h
      exact ⟨rfl,.inr rfl,.inr rfl,nofun⟩
    | cons p rest =>
      dsimp only at h
      split at h
      · cases h
      · cases h
        exact ⟨rfl,.inr rfl,.inr rfl,fun _ _ => .inr ⟨_,hpc⟩⟩
  | loading => rw [hpc] at h; cases h
  | respawning w => rw [hpc] at h; cases h
  | exited b => rw [hpc] at h; cases h

theorem step {ev : Event} (hn : ∀ sig, ev ≠ .signal sig) (h : s.step ev = some t) : Flags s t := by
  cases ev with
  | signal sig => exact absurd rfl (hn sig)
  | go => exact .go h
  | die pid =>
    unfold State.step at h
    dsimp only at h
    split at h
    · cases h
      exact ⟨rfl,.inr rfl,.inr rfl,fun rest hr => .inr ⟨rest,hr⟩⟩
    · cases h
  | fork pid =>
    unfold State.step at h
    dsimp only at h
    split at h
    · cases h
    · split at h
      · split at h
        · cases h
          exact ⟨rfl,.inr rfl,.inr rfl,nofun⟩
        · cases h
      · split at h
        · cases h
          exact ⟨rfl,.inr rfl,.inr rfl,nofun⟩
        · cases h
      · cases h
        exact ⟨rfl,.inr rfl,.inr rfl,nofun⟩
      · cases h
  | forkFails =>
    unfold State.step at h
    dsimp only at h
    split at h
    · split at h
      · cases h
        exact ⟨rfl,.inr rfl,.inr rfl,nofun⟩
      · cases h
    · split at h
      · cases h
        exact ⟨rfl,.inr rfl,.inr rfl,nofun⟩
      · cases h
    · cases h
      exact ⟨rfl,.inr rfl,.inr rfl,nofun⟩
    · cases h
  | prepare next =>
    unfold State.step at h
    dsimp only at h
    split at h
    · cases h
      cases next with
      | none => exact ⟨rfl,.inr rfl,.inr rfl,nofun⟩
      | some g => exact ⟨rfl,.inr rfl,.inr rfl,nofun⟩
    · cases h
  | eintr =>
    unfold State.step at h
    dsimp only at h
    split at h
    · cases h
      exact ⟨rfl,.inr rfl,.inr rfl,nofun⟩
    · rename_i pid rest hpc
      cases h
      exact ⟨rfl,.inr rfl,.inr rfl,fun _ _ => .inr ⟨_,hpc⟩⟩
    · cases h
  | reap pid =>
    unfold State.step at h
    dsimp only at h
    split at h
    · split at h
      · cases h
        exact ⟨rfl,.inr rfl,.inr rfl,nofun⟩
      · cases h
    · cases h

end Flags

/-- A stop is all that was asked for, and the last waits are for a stop. -/
structure Sole (s : State) : Prop where
  flags : s.stop = true → s.reload = 0 ∧ s.reopen = 0
  draining : ∀ rest, s.pc = .draining rest → s.stop = true

theorem Sole.step {s t : State} {ev : Event} (h : Sole s) (ha : Alone s ev) (hs : s.step ev = some t) : Sole t := by
  by_cases he : ∃ sig, ev = .signal sig
  · obtain ⟨sig,rfl⟩ := he
    rw [InTime.step_signal] at hs
    cases hs
    have hd : ∀ rest, InTime.pcAfter s.pc = .draining rest → s.stop = true :=
      fun rest hr => h.draining rest (InTime.eq_of_pcAfter hr nofun)
    cases sig with
    | stop => exact ⟨fun _ => ha,fun _ _ => rfl⟩
    | reload => exact ⟨fun hst => absurd (Eq.trans (Eq.symm ha) hst) Bool.false_ne_true,hd⟩
    | reopen => exact ⟨fun hst => absurd (Eq.trans (Eq.symm ha) hst) Bool.false_ne_true,hd⟩
  · obtain ⟨h1,h2,h3,h4⟩ := Flags.step (fun sig hsig => he ⟨sig,hsig⟩) hs
    refine ⟨fun hst => ?_,fun rest hr => h1.trans ?_⟩
    · obtain ⟨hl,ho⟩ := h.flags (h1.symm.trans hst)
      exact ⟨h2.elim id (fun e => e.trans hl),h3.elim id (fun e => e.trans ho)⟩
    · rcases h4 rest hr with hst | ⟨r,hpc⟩
      · exact hst
      · exact h.draining r hpc

section Runs
variable {gen : Generation} {evs : List Event} {s : State}

example : (after 1 [.fork 10,.go,.go,.go,.go]).pc = .waiting false := by decide +kernel

end Runs

end OxiServe.Server.Prefork
