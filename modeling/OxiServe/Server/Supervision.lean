import OxiServe.Server.Prefork
import Mathlib.Data.List.Nodup

/-! # Every worker is accounted for

The processes there are, against the lists the master keeps: the workers it knows of,
those a reload has forked so far, and one that it has waited for and not yet taken off a
list. The indices of the current workers, with one that is being replaced.
-/
namespace OxiServe.Server.Prefork
open Runs

section SwapRemove
variable {α : Type}

/-- All but the element that is removed stay. -/
theorem swapRemove_perm {l : List α} {i : ℕ} {a : α} (h : l[i]? = some a) : (a :: swapRemove l i).Perm l := by
  obtain ⟨hi,rfl⟩ := List.getElem?_eq_some_iff.mp h
  rcases List.eq_nil_or_concat l with rfl | ⟨l,z,hl⟩
  · exact absurd hi (Nat.not_lt_zero _)
  · rw [List.concat_eq_append] at hl
    subst hl
    unfold swapRemove
    rw [List.getLast?_concat]
    dsimp only
    have hz : (l ++ [z]).Perm (z :: l) := List.perm_append_comm
    rw [List.length_append,List.length_singleton] at hi
    by_cases hlast : i < l.length
    · rw [List.set_append_left i z hlast,List.dropLast_concat,List.getElem_append_left hlast]
      refine .trans ?_ hz.symm
      refine ((List.set_perm_cons_eraseIdx hlast z).cons _).trans ((List.Perm.swap z _ _).trans (.cons z ?_))
      exact List.getElem_cons_eraseIdx_perm hlast
    · obtain rfl : i = l.length := by omega
      simpa [List.set_append_right] using hz.symm

theorem nodup_concat {l : List α} {a : α} (h : l.Nodup) (ha : a ∉ l) : (l ++ [a]).Nodup :=
  (List.perm_append_singleton a l).nodup_iff.mpr (List.nodup_cons.mpr ⟨ha,h⟩)

end SwapRemove

namespace Pc

/-- The workers that a reload has forked so far. -/
def fresh : Pc → List (ℕ × ℕ)
  | forking _ f => f
  | _ => []

/-- The worker that was waited for and is still on a list. -/
def gone : Pc → List ℕ
  | reaped p => [p]
  | _ => []

/-- The index of the worker that is to be replaced. -/
def missing : Pc → List ℕ
  | lost w => [w]
  | respawning w => [w]
  | _ => []

/-- The master is up and not about to end. -/
def running : Pc → Bool
  | draining _ => false
  | exited _ => false
  | _ => true

/-- Nothing is under way: no worker is being forked or replaced. -/
def plain : Pc → Bool
  | head | reopened | asked | loading | calling | waiting _ | interrupted => true
  | forking _ [] => true
  | _ => false

end Pc

/-- What the lists come to. -/
structure Accounts (stop : Bool) (pc : Pc) (gen : Generation) (children : List (ℕ × ℕ)) (retiring pids : List ℕ) :
    Prop where
  perm : pc.running = true →
    (children.map Prod.fst ++ retiring ++ pc.fresh.map Prod.fst).Perm (pc.gone ++ pids)
  nodup : pc.running = true → (pc.gone ++ pids).Nodup
  starting : ∀ w, pc = .starting w → children.map Prod.snd = List.range w ∧ w ≤ gen.workers
  index : pc.running = true → (∀ w, pc ≠ .starting w) →
    (children.map Prod.snd ++ pc.missing).Subperm (List.range gen.workers) ∧
      (stop = false → (children.map Prod.snd ++ pc.missing).Perm (List.range gen.workers))
  forking : ∀ next f, pc = .forking next f → f.map Prod.snd = List.range f.length ∧ f.length ≤ next.workers

def Inv (s : State) : Prop := Accounts s.stop s.pc s.gen s.children s.retiring (s.procs.map Proc.pid)

namespace Pc

theorem plain_spec {pc : Pc} (h : pc.plain = true) :
    pc.running = true ∧ pc.fresh = [] ∧ pc.gone = [] ∧ pc.missing = [] ∧ ∀ w, pc ≠ starting w := by
  cases pc with
  | forking next f =>
    cases f with
    | nil => exact ⟨rfl,rfl,rfl,rfl,nofun⟩
    | cons c f => cases h
  | head => exact ⟨rfl,rfl,rfl,rfl,nofun⟩
  | reopened => exact ⟨rfl,rfl,rfl,rfl,nofun⟩
  | asked => exact ⟨rfl,rfl,rfl,rfl,nofun⟩
  | loading => exact ⟨rfl,rfl,rfl,rfl,nofun⟩
  | calling => exact ⟨rfl,rfl,rfl,rfl,nofun⟩
  | waiting i => exact ⟨rfl,rfl,rfl,rfl,nofun⟩
  | interrupted => exact ⟨rfl,rfl,rfl,rfl,nofun⟩
  | starting w => cases h
  | reaped p => cases h
  | lost w => cases h
  | respawning w => cases h
  | draining r => cases h
  | exited b => cases h

end Pc

namespace Accounts
variable {stop stop' : Bool} {pc pc' : Pc} {gen : Generation} {children : List (ℕ × ℕ)} {retiring pids : List ℕ}

theorem mono (h : Accounts stop pc gen children retiring pids) (hs : stop' = false → stop = false) :
    Accounts stop' pc gen children retiring pids :=
  { h with index := fun hr hn => ⟨(h.index hr hn).1,fun he => (h.index hr hn).2 (hs he)⟩ }

theorem dead (hp : pc.running = false) : Accounts stop pc gen children retiring pids := by
  refine ⟨fun h => ?_,fun h => ?_,fun w h => ?_,fun h => ?_,fun next f h => ?_⟩
  · rw [hp] at h
    cases h
  · rw [hp] at h
    cases h
  · rw [h] at hp
    cases hp
  · rw [hp] at h
    cases h
  · rw [h] at hp
    cases hp

/-- While nothing is under way the lists are those of the processes. -/
theorem plain_iff (hp : pc.plain = true) : Accounts stop pc gen children retiring pids ↔
    (children.map Prod.fst ++ retiring).Perm pids ∧ pids.Nodup ∧
      (children.map Prod.snd).Subperm (List.range gen.workers) ∧
        (stop = false → (children.map Prod.snd).Perm (List.range gen.workers)) := by
  obtain ⟨hr,hf,hg,hm,hs⟩ := Pc.plain_spec hp
  constructor
  · intro h
    have h1 := h.perm hr
    have h2 := h.nodup hr
    have h3 := h.index hr hs
    rw [hf,hg,List.map_nil,List.append_nil,List.nil_append] at h1
    rw [hg,List.nil_append] at h2
    rw [hm,List.append_nil] at h3
    exact ⟨h1,h2,h3⟩
  · rintro ⟨h1,h2,h3⟩
    refine ⟨fun _ => ?_,fun _ => ?_,fun w hw => absurd hw (hs w),fun _ _ => ?_,fun next f hpc => ?_⟩
    · rw [hf,hg,List.map_nil,List.append_nil,List.nil_append]
      exact h1
    · rw [hg,List.nil_append]
      exact h2
    · rw [hm,List.append_nil]
      exact h3
    · have hnil : f = [] := by
        rw [hpc] at hf
        exact hf
      rw [hnil]
      exact ⟨rfl,Nat.zero_le _⟩

theorem plain (h : Accounts stop pc gen children retiring pids) (hp : pc.plain = true) (hp' : pc'.plain = true) :
    Accounts stop pc' gen children retiring pids := (plain_iff hp').mpr ((plain_iff hp).mp h)

end Accounts

namespace State
variable {s t : State}

theorem map_pid_quit (s : State) (pids : List ℕ) : (s.quit pids).procs.map Proc.pid = s.procs.map Proc.pid := by
  rw [quit,List.map_map]
  refine List.map_congr_left (fun p _ => ?_)
  rw [Function.comp_apply]
  split
  · rfl
  · rfl

theorem map_pid_usr1 (s : State) (pids : List ℕ) : (s.usr1 pids).procs.map Proc.pid = s.procs.map Proc.pid := by
  rw [usr1,List.map_map]
  refine List.map_congr_left (fun p _ => ?_)
  rw [Function.comp_apply]
  split
  · rfl
  · rfl

theorem map_pid_collect (s : State) (pid : ℕ) :
    (s.collect pid).procs.map Proc.pid = (s.procs.map Proc.pid).filter (fun p => p != pid) := by
  rw [collect,List.filter_map]
  rfl

theorem map_pid_die (s : State) (pid : ℕ) :
    (s.procs.map (fun p => if p.pid == pid then { p with live := false } else p)).map Proc.pid = s.procs.map Proc.pid := by
  rw [List.map_map]
  refine List.map_congr_left (fun p _ => ?_)
  rw [Function.comp_apply]
  split
  · rfl
  · rfl

end State

/-- No fork of a reload fails once it has forked a worker. -/
def NoLeak (s : State) (ev : Event) : Prop := ev = .forkFails → ∀ next f, s.pc = .forking next f → f = []

section Steps
variable {stop : Bool} {gen : Generation} {children : List (ℕ × ℕ)} {retiring pids : List ℕ} {pid w : ℕ}

namespace Accounts

theorem started (h : Accounts stop (.starting w) gen children retiring pids) (hw : ¬ w < gen.workers) :
    Accounts stop .head gen children retiring pids := by
  obtain ⟨hs,hle⟩ := h.starting w rfl
  have h1 : (children.map Prod.fst ++ retiring ++ []).Perm pids := h.perm rfl
  have h2 : pids.Nodup := h.nodup rfl
  rw [List.append_nil] at h1
  have he : w = gen.workers := Nat.le_antisymm hle (Nat.not_lt.mp hw)
  refine (plain_iff rfl).mpr ⟨h1,h2,?_,fun _ => ?_⟩
  · rw [hs,he]
  · rw [hs,he]

theorem fork_starting (h : Accounts stop (.starting w) gen children retiring pids) (hw : w < gen.workers)
    (hp : pid ∉ pids) : Accounts stop (.starting (w + 1)) gen (children ++ [(pid,w)]) retiring (pids ++ [pid]) := by
  obtain ⟨hs,-⟩ := h.starting w rfl
  have h1 : (children.map Prod.fst ++ retiring ++ []).Perm pids := h.perm rfl
  have h2 : pids.Nodup := h.nodup rfl
  rw [List.append_nil] at h1
  refine ⟨fun _ => ?_,fun _ => ?_,fun w' hw' => ?_,fun _ hn => absurd rfl (hn _),nofun⟩
  · change ((children ++ [(pid,w)]).map Prod.fst ++ retiring ++ []).Perm (pids ++ [pid])
    rw [List.append_nil,List.map_append,List.append_assoc]
    refine .trans ?_ (h1.append_right [pid])
    rw [List.append_assoc]
    exact List.perm_append_comm.append_left _
  · exact nodup_concat h2 hp
  · cases hw'
    rw [List.map_append,hs,List.range_succ]
    exact ⟨rfl,hw⟩

theorem fork_forking {next : Generation} {f : List (ℕ × ℕ)}
    (h : Accounts stop (.forking next f) gen children retiring pids) (hf : f.length < next.workers) (hp : pid ∉ pids) :
    Accounts stop (.forking next (f ++ [(pid,f.length)])) gen children retiring (pids ++ [pid]) := by
  obtain ⟨hs,-⟩ := h.forking next f rfl
  have h1 : (children.map Prod.fst ++ retiring ++ f.map Prod.fst).Perm pids := h.perm rfl
  have h2 : pids.Nodup := h.nodup rfl
  refine ⟨fun _ => ?_,fun _ => ?_,nofun,fun _ _ => h.index rfl nofun,fun next' f' hpc => ?_⟩
  · change (children.map Prod.fst ++ retiring ++ (f ++ [(pid,f.length)]).map Prod.fst).Perm (pids ++ [pid])
    rw [List.map_append,← List.append_assoc]
    exact h1.append_right [pid]
  · exact nodup_concat h2 hp
  · cases hpc
    rw [List.map_append,hs,List.length_append,List.length_singleton,List.range_succ]
    exact ⟨rfl,hf⟩

theorem fork_respawning (h : Accounts stop (.respawning w) gen children retiring pids) (hp : pid ∉ pids) :
    Accounts stop .head gen (children ++ [(pid,w)]) retiring (pids ++ [pid]) := by
  have h1 : (children.map Prod.fst ++ retiring ++ []).Perm pids := h.perm rfl
  have h2 : pids.Nodup := h.nodup rfl
  have h3 := h.index rfl nofun
  rw [List.append_nil] at h1
  refine (plain_iff rfl).mpr ⟨?_,?_,?_⟩
  · rw [List.map_append,List.append_assoc]
    refine .trans ?_ (h1.append_right [pid])
    rw [List.append_assoc]
    exact List.perm_append_comm.append_left _
  · exact nodup_concat h2 hp
  · rw [List.map_append]
    exact h3

theorem committed {next : Generation} {f : List (ℕ × ℕ)} (h : Accounts stop (.forking next f) gen children retiring pids)
    (hf : ¬ f.length < next.workers) : Accounts stop .head next f (retiring ++ children.map Prod.fst) pids := by
  obtain ⟨hs,hle⟩ := h.forking next f rfl
  have h1 : (children.map Prod.fst ++ retiring ++ f.map Prod.fst).Perm pids := h.perm rfl
  have h2 : pids.Nodup := h.nodup rfl
  have he : f.length = next.workers := Nat.le_antisymm hle (Nat.not_lt.mp hf)
  refine (plain_iff rfl).mpr ⟨?_,h2,?_,fun _ => ?_⟩
  · refine .trans ?_ h1
    exact List.perm_append_comm.trans (List.perm_append_comm.append_right _)
  · rw [hs,he]
  · rw [hs,he]

theorem collected {i : Bool} (h : Accounts stop (.waiting i) gen children retiring pids) (hp : pid ∈ pids) :
    Accounts stop (.reaped pid) gen children retiring (pids.filter (fun p => p != pid)) := by
  obtain ⟨h1,h2,h3⟩ := (plain_iff (rfl : (Pc.waiting i).plain = true)).mp h
  have hsplit : (pid :: pids.filter (fun p => p != pid)).Perm pids := by
    have hrem := List.cons_perm_iff_perm_erase.mpr ⟨hp,(List.Perm.refl (pids.erase pid))⟩
    rwa [h2.erase_eq_filter] at hrem
  refine ⟨fun _ => ?_,fun _ => hsplit.nodup_iff.mpr h2,nofun,fun _ _ => ?_,nofun⟩
  · change (children.map Prod.fst ++ retiring ++ []).Perm (pid :: pids.filter (fun p => p != pid))
    rw [List.append_nil]
    exact h1.trans hsplit.symm
  · change (children.map Prod.snd ++ []).Subperm _ ∧ (stop = false → (children.map Prod.snd ++ []).Perm _)
    rw [List.append_nil]
    exact h3

theorem unlisted {i : ℕ} (h : Accounts stop (.reaped pid) gen children retiring pids) (hi : retiring[i]? = some pid) :
    Accounts stop .head gen children (swapRemove retiring i) pids := by
  have h1 : (children.map Prod.fst ++ retiring ++ []).Perm (pid :: pids) := h.perm rfl
  have h2 : (pid :: pids).Nodup := h.nodup rfl
  have h3 : (children.map Prod.snd ++ []).Subperm (List.range gen.workers) ∧
      (stop = false → (children.map Prod.snd ++ []).Perm (List.range gen.workers)) := h.index rfl nofun
  rw [List.append_nil] at h1 h3
  refine (plain_iff rfl).mpr ⟨?_,(List.nodup_cons.mp h2).2,h3⟩
  refine List.Perm.cons_inv (a := pid) (.trans ?_ h1)
  exact List.perm_middle.symm.trans ((swapRemove_perm hi).append_left _)

theorem orphaned {i : ℕ} (h : Accounts stop (.reaped pid) gen children retiring pids) (hi : children[i]? = some (pid,w)) :
    Accounts stop (.lost w) gen (swapRemove children i) retiring pids := by
  have h1 : (children.map Prod.fst ++ retiring ++ []).Perm (pid :: pids) := h.perm rfl
  have h2 : (pid :: pids).Nodup := h.nodup rfl
  have h3 : (children.map Prod.snd ++ []).Subperm (List.range gen.workers) ∧
      (stop = false → (children.map Prod.snd ++ []).Perm (List.range gen.workers)) := h.index rfl nofun
  rw [List.append_nil] at h1 h3
  have hs := swapRemove_perm hi
  have hsnd : ((swapRemove children i).map Prod.snd ++ [w]).Perm (children.map Prod.snd) :=
    List.perm_append_comm.trans (hs.map Prod.snd)
  refine ⟨fun _ => ?_,fun _ => (List.nodup_cons.mp h2).2,nofun,fun _ _ => ⟨?_,fun hst => ?_⟩,nofun⟩
  · change ((swapRemove children i).map Prod.fst ++ retiring ++ []).Perm pids
    rw [List.append_nil]
    exact List.Perm.cons_inv (a := pid) (.trans ((hs.map Prod.fst).append_right retiring) h1)
  · exact hsnd.subperm.trans h3.1
  · exact hsnd.trans (h3.2 hst)

theorem given_up (h : Accounts true (.lost w) gen children retiring pids) : Accounts true .head gen children retiring pids := by
  have h1 : (children.map Prod.fst ++ retiring ++ []).Perm pids := h.perm rfl
  have h2 : pids.Nodup := h.nodup rfl
  have h3 := h.index rfl nofun
  rw [List.append_nil] at h1
  exact (plain_iff rfl).mpr ⟨h1,h2,(List.sublist_append_left _ _).subperm.trans h3.1,nofun⟩

theorem respawning (h : Accounts stop (.lost w) gen children retiring pids) :
    Accounts stop (.respawning w) gen children retiring pids :=
  ⟨h.perm,h.nodup,nofun,fun hr _ => h.index hr nofun,nofun⟩

end Accounts

theorem inv_init (gen : Generation) : Inv (State.init gen) :=
  ⟨fun _ => .refl _,fun _ => .nil,fun w hw => by cases hw; exact ⟨rfl,Nat.zero_le _⟩,fun _ hn => absurd rfl (hn 0),nofun⟩

variable {s t : State}

theorem inv_release (h : Inv s) (hpc : s.pc = .reaped pid) : Inv (s.release pid) := by
  have ha : Accounts s.stop (.reaped pid) s.gen s.children s.retiring (s.procs.map Proc.pid) := hpc ▸ h
  unfold State.release
  cases hr : s.retiring.findIdx? (· == pid) with
  | some i =>
    obtain ⟨hi,hp,-⟩ := List.findIdx?_eq_some_iff_getElem.mp hr
    refine ha.unlisted ?_
    rw [List.getElem?_eq_getElem hi,beq_iff_eq.mp hp]
  | none =>
    cases hc : s.children.findIdx? (fun c => c.1 == pid) with
    | some i =>
      obtain ⟨hi,hp,-⟩ := List.findIdx?_eq_some_iff_getElem.mp hc
      refine ha.orphaned ?_
      rw [List.getElem?_eq_getElem hi,← beq_iff_eq.mp hp]
      rfl
    | none =>
      have hmem : pid ∈ s.children.map Prod.fst ++ s.retiring ++ [] := (ha.perm rfl).mem_iff.mpr List.mem_cons_self
      rw [List.append_nil] at hmem
      rcases List.mem_append.mp hmem with hm | hm
      · obtain ⟨c,hcm,hce⟩ := List.mem_map.mp hm
        exact absurd (List.findIdx?_eq_none_iff.mp hc c hcm) (by simp [hce])
      · exact absurd (List.findIdx?_eq_none_iff.mp hr pid hm) (by simp)

theorem inv_go (h : Inv s) (hg : s.go = some t) : Inv t := by
  unfold State.go at hg
  unfold Inv at h
  cases hpc : s.pc with
  | starting w =>
    rw [hpc] at hg h
    dsimp only at hg
    split at hg
    · cases hg
    · rename_i hw
      cases hg
      exact h.started hw
  | head =>
    rw [hpc] at hg h
    cases hg
    unfold Inv
    dsimp only
    split
    · rw [State.map_pid_usr1]
      exact h.plain rfl rfl
    · exact h.plain rfl rfl
  | reopened =>
    rw [hpc] at hg h
    cases hg
    unfold Inv
    dsimp only
    split
    · exact h.plain rfl rfl
    · exact h.plain rfl rfl
  | asked =>
    rw [hpc] at hg h
    cases hg
    unfold Inv
    dsimp only
    split
    · exact h.plain rfl rfl
    · exact h.plain rfl rfl
  | loading =>
    rw [hpc] at hg
    cases hg
  | forking next f =>
    rw [hpc] at hg h
    dsimp only at hg
    split at hg
    · cases hg
    · rename_i hf
      cases hg
      unfold Inv State.commit
      dsimp only
      rw [State.map_pid_quit]
      exact h.committed hf
  | calling =>
    rw [hpc] at hg h
    cases hg
    exact h.plain rfl rfl
  | waiting i =>
    rw [hpc] at hg
    dsimp only at hg
    split at hg
    · cases hg
      exact .dead rfl
    · cases hg
  | interrupted =>
    rw [hpc] at hg h
    cases hg
    unfold Inv
    split
    · exact .dead rfl
    · exact h.plain rfl rfl
  | reaped pid =>
    rw [hpc] at hg
    cases hg
    exact inv_release (by unfold Inv; exact h) hpc
  | lost w =>
    rw [hpc] at hg h
    cases hg
    unfold Inv
    dsimp only
    cases hst : s.stop with
    | true =>
      rw [hst] at h
      rw [if_pos rfl]
      split
      · exact .dead rfl
      · exact h.given_up
    | false =>
      rw [hst] at h
      exact h.respawning
  | respawning w =>
    rw [hpc] at hg
    cases hg
  | draining rest =>
    rw [hpc] at hg
    cases rest with
    | nil =>
      cases hg
      exact .dead rfl
    | cons p rest =>
      dsimp only at hg
      split at hg
      · cases hg
      · cases hg
        exact .dead rfl
  | exited b =>
    rw [hpc] at hg
    cases hg

theorem inv_fork (h : Inv s) (hf : s.step (.fork pid) = some t) : Inv t := by
  unfold Inv at h
  unfold State.step at hf
  dsimp only at hf
  split at hf
  · cases hf
  · rename_i hany
    have hp : pid ∉ s.procs.map Proc.pid := by
      intro hm
      obtain ⟨p,hpm,he⟩ := List.mem_map.mp hm
      exact hany (List.any_eq_true.mpr ⟨p,hpm,beq_iff_eq.mpr he⟩)
    have hpids : (s.forked pid).procs.map Proc.pid = s.procs.map Proc.pid ++ [pid] := List.map_append
    cases hpc : s.pc with
    | starting w =>
      rw [hpc] at hf h
      dsimp only at hf
      split at hf
      · rename_i hw
        cases hf
        unfold Inv
        dsimp only
        rw [hpids]
        exact h.fork_starting hw hp
      · cases hf
    | forking next f =>
      rw [hpc] at hf h
      dsimp only at hf
      split at hf
      · rename_i hl
        cases hf
        unfold Inv
        dsimp only
        rw [hpids]
        exact h.fork_forking hl hp
      · cases hf
    | respawning w =>
      rw [hpc] at hf h
      cases hf
      unfold Inv
      dsimp only
      rw [hpids]
      exact h.fork_respawning hp
    | head => rw [hpc] at hf; cases hf
    | reopened => rw [hpc] at hf; cases hf
    | asked => rw [hpc] at hf; cases hf
    | loading => rw [hpc] at hf; cases hf
    | calling => rw [hpc] at hf; cases hf
    | waiting i => rw [hpc] at hf; cases hf
    | interrupted => rw [hpc] at hf; cases hf
    | reaped p => rw [hpc] at hf; cases hf
    | lost w => rw [hpc] at hf; cases hf
    | draining rest => rw [hpc] at hf; cases hf
    | exited b => rw [hpc] at hf; cases hf

theorem inv_forkFails (h : Inv s) (hl : NoLeak s .forkFails) (hf : s.step .forkFails = some t) : Inv t := by
  unfold Inv at h
  unfold State.step at hf
  dsimp only at hf
  split at hf
  · split at hf
    · cases hf
      exact .dead rfl
    · cases hf
  · rename_i next f hpc
    split at hf
    · cases hf
      rw [hpc,hl rfl next f hpc] at h
      exact h.plain rfl rfl
    · cases hf
  · cases hf
    exact .dead rfl
  · cases hf

theorem inv_step {ev : Event} (h : Inv s) (hl : NoLeak s ev) (hs : s.step ev = some t) : Inv t := by
  cases ev with
  | signal sig =>
    have hflag : Accounts (s.onSignal sig).stop s.pc s.gen s.children s.retiring (s.procs.map Proc.pid) := by
      cases sig with
      | stop => exact Accounts.mono h nofun
      | reload => exact h
      | reopen => exact h
    have hsame : (s.onSignal sig).pc = s.pc ∧ (s.onSignal sig).gen = s.gen ∧ (s.onSignal sig).children = s.children ∧
        (s.onSignal sig).retiring = s.retiring ∧ (s.onSignal sig).procs = s.procs := by
      cases sig with
      | stop => exact ⟨rfl,rfl,rfl,rfl,rfl⟩
      | reload => exact ⟨rfl,rfl,rfl,rfl,rfl⟩
      | reopen => exact ⟨rfl,rfl,rfl,rfl,rfl⟩
    obtain ⟨h1,h2,h3,h4,h5⟩ := hsame
    unfold State.step at hs
    cases hs
    unfold Inv
    split
    · rename_i i hpc
      dsimp only
      rw [h2,h3,h4,h5]
      rw [hpc] at hflag
      exact hflag.plain rfl rfl
    · rw [h1,h2,h3,h4,h5]
      exact hflag
  | die pid =>
    unfold State.step at hs
    dsimp only at hs
    split at hs
    · cases hs
      unfold Inv
      dsimp only
      rw [State.map_pid_die]
      exact h
    · cases hs
  | fork pid => exact inv_fork h hs
  | forkFails => exact inv_forkFails h hl hs
  | prepare next =>
    unfold Inv at h
    unfold State.step at hs
    dsimp only at hs
    split at hs
    · rename_i hpc
      rw [hpc] at h
      cases hs
      cases next with
      | none => exact h.plain rfl rfl
      | some g => exact h.plain rfl rfl
    · cases hs
  | eintr =>
    unfold Inv at h
    unfold State.step at hs
    dsimp only at hs
    split at hs
    · rename_i hpc
      rw [hpc] at h
      cases hs
      exact h.plain rfl rfl
    · cases hs
      exact .dead rfl
    · cases hs
  | reap pid =>
    unfold Inv at h
    unfold State.step at hs
    dsimp only at hs
    split at hs
    · rename_i i hpc
      rw [hpc] at h
      split at hs
      · rename_i hz
        cases hs
        have hm : pid ∈ s.procs.map Proc.pid := by
          obtain ⟨p,hpm,hpz⟩ := List.any_eq_true.mp hz
          exact List.mem_map.mpr ⟨p,hpm,beq_iff_eq.mp (Bool.and_eq_true_iff.mp hpz).1⟩
        unfold Inv
        dsimp only
        rw [State.map_pid_collect]
        exact h.collected hm
      · cases hs
    · cases hs
  | go => exact inv_go h hs

end Steps

section Runs
variable {gen : Generation} {evs : List Event} {s t u : State}

theorem inv_run (h : Runs (guarded (stepRel State.step) NoLeak) (State.init gen) evs s) : Inv s :=
  h.invariant (I := fun _ => Inv) (inv_init gen) (fun _ _ _ _ _ hi hs => inv_step hi hs.1 hs.2)

/-- In `reload`. -/
def Pc.reloading : Pc → Bool
  | loading => true
  | forking _ _ => true
  | _ => false

end Runs

section Cases

/-- Where some events lead, from the first fork on. -/
def after (workers : ℕ) (evs : List Event) : State :=
  (runList State.step (State.init ⟨0,workers⟩) evs).getD (State.init ⟨0,workers⟩)

theorem run_after {workers : ℕ} {evs : List Event} (h : (runList State.step (State.init ⟨0,workers⟩) evs).isSome = true) :
    Runs (stepRel State.step) (State.init ⟨0,workers⟩) evs (after workers evs) := .of_isSome h

/-- Two workers and the first wait for them. -/
def started : List Event := [.fork 10,.fork 11,.go,.go,.go,.go]

end Cases

end OxiServe.Server.Prefork
