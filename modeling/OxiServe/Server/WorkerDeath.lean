import Mathlib.Algebra.BigOperators.Group.Finset.Piecewise
import OxiServe.Server.ConnGuards

/-! # Counts and the death of a worker

The words are shared by every worker process, but a guard is given back only by
the process that took it. A process that dies leaves its operations where they
were; the master starts another in its place, which knows nothing of them.
-/
namespace OxiServe.LimitConn
open Runs

/-- The workers of one generation: the words they share with all operations so
far, the process behind each operation, the processes alive and the children the
master has yet to replace. -/
structure Fleet where
  state : State
  owners : List ℕ
  alive : List ℕ
  missing : ℕ
  fresh : ℕ

inductive FleetEvent
  | acquire (worker : ℕ) (key : Bytes) (limit : ℕ)
  | drop (t : ℕ)
  | step (t : ℕ)
  | die (worker : ℕ)
  | respawn
deriving DecidableEq, Repr

namespace Fleet

/-- A zone made at load, and the workers forked after it. -/
def new (workers : ℕ) : Fleet := ⟨.new,[],List.range workers,0,workers⟩

/-- The operations with the processes behind them. -/
def staff (s : Fleet) : List (Task × ℕ) := s.state.tasks.zip s.owners

def isAlive (s : Fleet) (worker : ℕ) : Bool := s.alive.contains worker

/-- The requests for a tag in progress in live workers. -/
def inProgress (s : Fleet) (tag : ℕ) : ℕ :=
  s.staff.countP fun k => k.1.live.any (fun g => g.1 == tag) && s.isAlive k.2

/-- The guards of dead workers. -/
def lost (s : Fleet) : ℕ := s.staff.countP fun k => k.1.live.isSome && !s.isAlive k.2

/-- The guards one worker holds. -/
def heldBy (s : Fleet) (worker : ℕ) : ℕ := s.staff.countP fun k => k.1.live.isSome && k.2 == worker

end Fleet

/-- A step of an operation is a step of the process behind it. -/
def Zone.actBy (z : Zone) (s : Fleet) (t : ℕ) (e : Event) : Option Fleet :=
  match s.owners[t]? with
  | some w => if s.isAlive w then (z.next s.state e).map (fun u => { s with state := u }) else none
  | none => none

def Zone.fleetNext (z : Zone) (s : Fleet) : FleetEvent → Option Fleet
  | .acquire w key limit =>
    if s.isAlive w then
      (z.next s.state (.acquire key limit)).map (fun u => { s with state := u, owners := s.owners ++ [w] })
    else none
  | .drop t => z.actBy s t (.drop t)
  | .step t => z.actBy s t (.step t)
  | .die w =>
    if s.isAlive w then some { s with alive := s.alive.filter (· != w), missing := s.missing + 1 } else none
  | .respawn =>
    if 0 < s.missing then
      some { s with alive := s.alive ++ [s.fresh], missing := s.missing - 1, fresh := s.fresh + 1 }
    else none

/-- What the slots of a tag count together. -/
def Zone.inUse (z : Zone) (words : ℕ → ℕ) (tag : ℕ) : ℕ :=
  ∑ i ∈ Finset.range z.slots, if tagOf (words i) = tag then countOf (words i) else 0

/-- The count for every key is the number of its requests in progress in live workers. -/
def Zone.Counted (z : Zone) (s : Fleet) : Prop :=
  ∀ key, z.inUse s.state.words (z.tag key) = s.inProgress (z.tag key)

/-- The guards whose process an event ends. -/
def Fleet.strands (s : Fleet) : FleetEvent → ℕ
  | .die w => s.heldBy w
  | _ => 0

/-- A worker dies only while it holds no guard. -/
def DiesClean (s : Fleet) (e : FleetEvent) : Prop := s.strands e = 0

instance (s : Fleet) (e : FleetEvent) : Decidable (DiesClean s e) := inferInstanceAs (Decidable (s.strands e = 0))

section Slots
variable {z : Zone} {words words' : ℕ → ℕ} {k k' : Task}

/-- The tag and the slots a task carries along are a key's and the table's. -/
def Task.Of (z : Zone) : Task → Prop
  | .probing tag _ _ r => (∃ key, tag = z.tag key) ∧ ∀ i, r = some i → i < z.slots
  | .claiming tag _ _ r => (∃ key, tag = z.tag key) ∧ ∀ i, r = some i → i < z.slots
  | .reloading tag i => (∃ key, tag = z.tag key) ∧ i < z.slots
  | .takingOver tag i _ => (∃ key, tag = z.tag key) ∧ i < z.slots
  | .counting tag _ i => (∃ key, tag = z.tag key) ∧ i < z.slots
  | .bumping tag _ i _ => (∃ key, tag = z.tag key) ∧ i < z.slots
  | .held tag i => (∃ key, tag = z.tag key) ∧ i < z.slots
  | .releasing tag i => (∃ key, tag = z.tag key) ∧ i < z.slots
  | .lowering tag i _ => (∃ key, tag = z.tag key) ∧ i < z.slots
  | .finished => True

theorem Zone.slotAt_lt (z : Zone) (tag p : ℕ) : z.slotAt tag p < z.slots := by
  have hle : z.slotAt tag p ≤ z.mask := Nat.and_le_right
  have hpos : 64 ≤ z.slots := Nat.le_max_right _ _
  unfold Zone.mask at hle
  omega

theorem onward_of {tag : ℕ} (limit p : ℕ) {r : Option ℕ} (ht : ∃ key, tag = z.tag key)
    (hr : ∀ i, r = some i → i < z.slots) : (onward tag limit p r).Of z := by
  unfold onward
  split
  · exact ⟨ht,hr⟩
  · cases r with
    | none => trivial
    | some i => exact ⟨ht,hr i rfl⟩

theorem advance_of (hk : k.Of z) (h : z.advance words k = some (words',k')) : k'.Of z := by
  cases k with
  | probing tag limit p r =>
    obtain ⟨ht,hr⟩ := hk
    simp only [Zone.advance] at h
    split at h
    · cases h; exact ⟨ht,hr⟩
    · split at h
      · cases h; exact ⟨ht,z.slotAt_lt tag p⟩
      · cases h
        refine onward_of _ _ ht fun i hi => ?_
        split at hi
        · cases hi; exact z.slotAt_lt tag p
        · exact hr i hi
  | claiming tag limit p r =>
    obtain ⟨ht,hr⟩ := hk
    simp only [Zone.advance] at h
    split at h
    · cases h; exact ⟨ht,z.slotAt_lt tag p⟩
    · split at h
      · cases h; exact ⟨ht,z.slotAt_lt tag p⟩
      · cases h; exact onward_of _ _ ht hr
  | reloading tag i =>
    simp only [Zone.advance] at h
    split at h <;> cases h
    · exact hk
    · trivial
  | takingOver tag i w =>
    simp only [Zone.advance] at h
    split at h <;> cases h
    · exact hk
    · trivial
  | counting tag limit i =>
    simp only [Zone.advance] at h
    split at h
    · cases h; trivial
    · split at h <;> cases h
      · trivial
      · exact hk
  | bumping tag limit i w =>
    simp only [Zone.advance] at h
    split at h <;> cases h <;> exact hk
  | held tag i => cases h
  | releasing tag i =>
    simp only [Zone.advance] at h
    split at h <;> cases h
    · trivial
    · exact hk
  | lowering tag i w =>
    simp only [Zone.advance] at h
    split at h <;> cases h
    · trivial
    · exact hk
  | finished => cases h

theorem Task.Of.guard (hk : k.Of z) {tag i : ℕ} (hl : k.live = some (tag,i)) :
    (∃ key, tag = z.tag key) ∧ i < z.slots := by
  cases k with
  | held tag i => cases hl; exact hk
  | releasing tag i => cases hl; exact hk
  | lowering tag i w => cases hl; exact hk
  | _ => cases hl

end Slots

section Sums

theorem sum_countP {α : Type*} (n : ℕ) (p : ℕ → Bool) (slot : α → Option ℕ) (l : List α) :
    (∑ i ∈ Finset.range n, if p i then l.countP (fun a => slot a == some i) else 0) =
      l.countP fun a => (slot a).any fun i => p i && decide (i < n) := by
  induction l with
  | nil => simp
  | cons a l ih =>
    have hone : (∑ i ∈ Finset.range n, if p i then (if slot a == some i then 1 else 0) else 0) =
        if (slot a).any (fun i => p i && decide (i < n)) then 1 else 0 := by
      cases hs : slot a with
      | none => simp
      | some j =>
        have hterm (i : ℕ) : (if p i then (if (some j == some i) then 1 else 0) else 0) =
            if i = j then (if p j then 1 else 0) else 0 := by
          by_cases hij : i = j
          · subst hij; simp
          · have hji : ¬ j = i := fun h => hij h.symm
            simp [hij,hji]
        simp only [hterm,Finset.sum_ite_eq',Finset.mem_range,Option.any_some,Bool.and_eq_true,decide_eq_true_eq]
        by_cases hj : j < n <;> by_cases hp : p j <;> simp [hj,hp]
    simp only [List.countP_cons]
    rw [← ih,← hone,← Finset.sum_add_distrib]
    apply Finset.sum_congr rfl
    intro i _
    split <;> rfl

variable {z : Zone} {s : State}

theorem inUse_eq (he : Exact s) (hof : ∀ k ∈ s.tasks, k.Of z) (tag : ℕ) :
    z.inUse s.words tag = s.liveFor tag := by
  have hcount (i : ℕ) : countOf (s.words i) = s.tasks.countP fun k => k.live.map Prod.snd == some i := by
    rw [he.counts,State.liveOn]
    apply List.countP_congr
    intro k _
    cases k.live with
    | none => simp
    | some g => simp
  have hsum := sum_countP z.slots (fun i => tagOf (s.words i) == tag) (fun k : Task => k.live.map Prod.snd) s.tasks
  simp only [beq_iff_eq] at hsum
  unfold Zone.inUse State.liveFor
  simp only [hcount]
  rw [hsum]
  apply List.countP_congr
  intro k hk
  cases hl : k.live with
  | none => simp
  | some g =>
    obtain ⟨t,i⟩ := g
    have htag := he.tags hk hl
    have hslot := ((hof k hk).guard hl).2
    simp [htag,hslot]

end Sums

section Fleets
variable {z : Zone} {s s' : Fleet} {workers : ℕ}

/-- What the fleet keeps besides its words: a process behind every operation,
which was started before the next one will be. -/
structure Fleet.Sound (z : Zone) (s : Fleet) : Prop where
  balanced : Balanced s.state
  tasks : ∀ k ∈ s.state.tasks, k.Of z
  length : s.owners.length = s.state.tasks.length
  owners : ∀ w ∈ s.owners, w < s.fresh
  alive : ∀ w ∈ s.alive, w < s.fresh

theorem sound_new (z : Zone) (workers : ℕ) : (Fleet.new workers).Sound z where
  balanced := balanced_new
  tasks _ hk := by cases hk
  length := rfl
  owners _ hw := by cases hw
  alive w hw := by simpa [Fleet.new] using hw

theorem next_of {u u' : State} {e : Event} (hof : ∀ k ∈ u.tasks, k.Of z) (h : z.next u e = some u') :
    ∀ k ∈ u'.tasks, k.Of z := by
  have hset {t : ℕ} {k k' a : Task} (hk : u.tasks[t]? = some k) (hk' : k.Of z → k'.Of z)
      (ha : a ∈ u.tasks.set t k') : a.Of z := by
    rcases mem_of_set ha with hold | rfl
    · exact hof a hold
    · exact hk' (hof k (List.mem_of_getElem? hk))
  intro a ha
  cases e with
  | acquire key limit =>
    cases h
    rcases List.mem_append.mp ha with hold | hnew
    · exact hof a hold
    · rw [List.mem_singleton.mp hnew]
      exact onward_of _ _ ⟨key,rfl⟩ (fun i hi => by cases hi)
  | drop t =>
    simp only [Zone.next] at h
    split at h
    · next tag i hk =>
      cases h
      refine hset hk ?_ ha
      exact fun hk => hk
    · cases h
  | step t =>
    simp only [Zone.next] at h
    split at h
    · next k hk =>
      obtain ⟨⟨words,k'⟩,hadv,hu⟩ := Option.map_eq_some_iff.mp h
      cases hu
      exact hset hk (fun hk => advance_of hk hadv) ha
    · cases h

/-- An operation that steps or is dropped is replaced in its place. -/
theorem next_set {u u' : State} {t : ℕ} {e : Event} (he : e = .drop t ∨ e = .step t) (h : z.next u e = some u') :
    ∃ k', u'.tasks = u.tasks.set t k' := by
  rcases he with rfl | rfl
  · simp only [Zone.next] at h
    split at h
    · cases h; exact ⟨_,rfl⟩
    · cases h
  · simp only [Zone.next] at h
    split at h
    · obtain ⟨r,-,hu⟩ := Option.map_eq_some_iff.mp h
      cases hu
      exact ⟨_,rfl⟩
    · cases h

theorem actBy_cases {t : ℕ} {e : Event} (h : z.actBy s t e = some s') :
    ∃ w u, s.owners[t]? = some w ∧ s.isAlive w = true ∧ z.next s.state e = some u ∧ s' = { s with state := u } := by
  unfold Zone.actBy at h
  split at h
  · next w hw =>
    split at h
    · next hal =>
      obtain ⟨u,hu,hs⟩ := Option.map_eq_some_iff.mp h
      exact ⟨w,u,hw,hal,hu,hs.symm⟩
    · cases h
  · cases h

theorem zip_set {α β : Type*} {l : List α} {m : List β} {t : ℕ} {a : α} {b : β} (hb : m[t]? = some b) :
    (l.set t a).zip m = (l.zip m).set t (a,b) := by
  induction l generalizing m t with
  | nil => simp
  | cons c l ih =>
    cases m with
    | nil => cases hb
    | cons d m =>
      cases t with
      | zero =>
        cases hb
        rfl
      | succ t =>
        have hrest := ih (m := m) (t := t) (by simpa using hb)
        simp only [List.set_cons_succ,List.zip_cons_cons,hrest]

/-- A step of a live worker's operation strands nothing. -/
theorem lost_act {t : ℕ} {e : Event} (he : e = .drop t ∨ e = .step t) (h : z.actBy s t e = some s') :
    s'.lost = s.lost := by
  obtain ⟨w,u,hw,hal,hu,rfl⟩ := actBy_cases h
  obtain ⟨k',hset⟩ := next_set he hu
  unfold Fleet.lost Fleet.staff
  simp only [hset]
  rw [zip_set hw]
  cases hk : (s.state.tasks.zip s.owners)[t]? with
  | none =>
    rw [List.set_eq_of_length_le (List.getElem?_eq_none_iff.mp hk)]
    rfl
  | some k =>
    have hp := (List.getElem?_zip_eq_some.mp hk).2
    have hcount := countP_set (fun k : Task × ℕ => k.1.live.isSome && !s.isAlive k.2) (k',w) hk
    rw [hw] at hp
    obtain rfl : w = k.2 := Option.some.inj hp
    simp only [hal,Bool.not_true,Bool.and_false,Bool.false_eq_true,if_false,Nat.add_zero] at hcount
    exact hcount

theorem lost_acquire {w limit : ℕ} {key : Bytes} (hs : s.Sound z)
    (h : z.fleetNext s (.acquire w key limit) = some s') : s'.lost = s.lost := by
  simp only [Zone.fleetNext] at h
  split at h
  · obtain ⟨u,hu,rfl⟩ := Option.map_eq_some_iff.mp h
    cases hu
    unfold Fleet.lost Fleet.staff
    dsimp only
    rw [List.zip_append hs.length.symm,List.countP_append]
    simp [onward_live,Fleet.isAlive]
  · cases h

theorem contains_filter_ne (l : List ℕ) (w v : ℕ) :
    (l.filter (· != w)).contains v = (l.contains v && v != w) := by
  rw [Bool.eq_iff_iff]
  simp

/-- What a dying worker holds is lost with it. -/
theorem lost_die {w : ℕ} (h : z.fleetNext s (.die w) = some s') : s'.lost = s.lost + s.heldBy w := by
  simp only [Zone.fleetNext] at h
  split at h
  · next hal =>
    cases h
    unfold Fleet.isAlive at hal
    unfold Fleet.lost Fleet.heldBy Fleet.staff Fleet.isAlive
    simp only [contains_filter_ne]
    induction s.state.tasks.zip s.owners with
    | nil => rfl
    | cons k l ih =>
      simp only [List.countP_cons,ih]
      by_cases hw : k.2 = w
      · simp only [hw,hal,bne_self_eq_false,Bool.and_false,Bool.not_false,Bool.and_true,Bool.not_true,beq_self_eq_true,
          Bool.false_eq_true,if_false]
        omega
      · have hne : (k.2 != w) = true := by simpa using hw
        have hbeq : (k.2 == w) = false := by simpa using hw
        simp only [hne,hbeq,Bool.and_true,Bool.and_false,Bool.false_eq_true,if_false]
        omega
  · cases h

/-- A process started later is behind no operation. -/
theorem lost_respawn (hs : s.Sound z) (h : z.fleetNext s .respawn = some s') : s'.lost = s.lost := by
  simp only [Zone.fleetNext] at h
  split at h
  · cases h
    unfold Fleet.lost
    apply List.countP_congr
    intro k hk
    have hlt := hs.owners k.2 (List.of_mem_zip hk).2
    have hne : k.2 ≠ s.fresh := Nat.ne_of_lt hlt
    simp [Fleet.isAlive,hne]
  · cases h

theorem Fleet.Sound.act {t : ℕ} {e : Event} (hs : s.Sound z) (he : e = .drop t ∨ e = .step t)
    (h : z.actBy s t e = some s') : s'.Sound z := by
  obtain ⟨w,u,-,-,hu,rfl⟩ := actBy_cases h
  obtain ⟨k',hset⟩ := next_set he hu
  refine ⟨(hs.balanced.next hu).1,next_of hs.tasks hu,?_,hs.owners,hs.alive⟩
  simp only [hset,List.length_set]
  exact hs.length

theorem Fleet.Sound.next {e : FleetEvent} (hs : s.Sound z) (h : z.fleetNext s e = some s') : s'.Sound z := by
  cases e with
  | acquire w key limit =>
    simp only [Zone.fleetNext] at h
    split at h
    · next hal =>
      obtain ⟨u,hu,rfl⟩ := Option.map_eq_some_iff.mp h
      refine ⟨(hs.balanced.next hu).1,next_of hs.tasks hu,?_,?_,hs.alive⟩
      · cases hu
        simp [hs.length]
      · intro v hv
        rcases List.mem_append.mp hv with hold | hnew
        · exact hs.owners v hold
        · rw [List.mem_singleton.mp hnew]
          exact hs.alive w (by simpa [Fleet.isAlive] using hal)
    · cases h
  | drop t => exact hs.act (.inl rfl) h
  | step t => exact hs.act (.inr rfl) h
  | die w =>
    simp only [Zone.fleetNext] at h
    split at h
    · cases h
      exact ⟨hs.balanced,hs.tasks,hs.length,hs.owners,fun v hv => hs.alive v (List.mem_filter.mp hv).1⟩
    · cases h
  | respawn =>
    simp only [Zone.fleetNext] at h
    split at h
    · cases h
      refine ⟨hs.balanced,hs.tasks,hs.length,fun v hv => Nat.lt_succ_of_lt (hs.owners v hv),fun v hv => ?_⟩
      rcases List.mem_append.mp hv with hold | hnew
      · exact Nat.lt_succ_of_lt (hs.alive v hold)
      · rw [List.mem_singleton.mp hnew]
        exact Nat.lt_succ_self _
    · cases h

/-- Only a death can lose guards, those of the worker that dies. -/
theorem lost_next {e : FleetEvent} (hs : s.Sound z) (h : z.fleetNext s e = some s') :
    s'.lost = s.lost + s.strands e := by
  cases e with
  | acquire w key limit => exact lost_acquire hs h
  | drop t => exact lost_act (.inl rfl) h
  | step t => exact lost_act (.inr rfl) h
  | die w => exact lost_die h
  | respawn => exact lost_respawn hs h

end Fleets

section Run
variable {z : Zone} {s : Fleet} {es : List FleetEvent} {workers : ℕ}

theorem run_sound (hr : Runs (stepRel z.fleetNext) (Fleet.new workers) es s) : s.Sound z :=
  hr.invariant (I := fun _ s => s.Sound z) (sound_new z workers) fun _ _ _ _ _ hs hn => hs.next hn

/-- The live guards of a tag are those of live workers and those of dead ones. -/
theorem liveFor_split (hs : s.Sound z) (tag : ℕ) : s.state.liveFor tag = s.inProgress tag +
    s.staff.countP fun k => k.1.live.any (fun g => g.1 == tag) && !s.isAlive k.2 := by
  have hfst : s.staff.map Prod.fst = s.state.tasks := List.map_fst_zip (Nat.le_of_eq hs.length.symm)
  unfold State.liveFor Fleet.inProgress
  rw [← hfst,List.countP_map,List.countP_eq_countP_filter_add _ _ (fun k => s.isAlive k.2),List.countP_filter,
    List.countP_filter]
  simp only [Function.comp_apply]

/-- The counts are right exactly when no guard was lost. -/
theorem counted_iff_lost (hs : s.Sound z) : z.Counted s ↔ s.lost = 0 := by
  unfold Zone.Counted
  simp only [inUse_eq hs.balanced.toExact hs.tasks,liveFor_split hs]
  constructor
  · intro h
    by_contra hne
    obtain ⟨k,hk,hp⟩ := List.countP_pos_iff.mp (Nat.pos_of_ne_zero hne)
    simp only [Bool.and_eq_true] at hp
    obtain ⟨⟨tag,i⟩,hl⟩ := Option.isSome_iff_exists.mp hp.1
    obtain ⟨⟨key,rfl⟩,-⟩ := (hs.tasks k.1 (List.of_mem_zip hk).1).guard hl
    have hzero := h key
    have hpos : 0 < s.staff.countP fun k => k.1.live.any (fun g => g.1 == z.tag key) && !s.isAlive k.2 :=
      List.countP_pos_iff.mpr ⟨k,hk,by simp [hl,hp.2]⟩
    omega
  · intro h key
    have hnone := List.countP_eq_zero.mp h
    have hzero : (s.staff.countP fun k => k.1.live.any (fun g => g.1 == z.tag key) && !s.isAlive k.2) = 0 := by
      apply List.countP_eq_zero.mpr
      intro k hk hp
      simp only [Bool.and_eq_true] at hp
      refine hnone k hk ?_
      rw [Option.isSome_iff_exists.mpr ((Option.any_eq_true _ _).mp hp.1 |>.imp fun g hg => hg.1),hp.2]
      rfl
    omega

/-- At the end of a run the counts are right exactly when no worker died in it
that held a guard. -/
theorem run_counted_iff (hr : Runs (stepRel z.fleetNext) (Fleet.new workers) es s) :
    z.Counted s ↔ Runs (guarded (stepRel z.fleetNext) DiesClean) (Fleet.new workers) es s := by
  rw [counted_iff_lost (run_sound hr)]
  induction hr with
  | nil => exact ⟨fun _ => .nil,fun _ => rfl⟩
  | @snoc es e t u hr hn ih =>
    have hlost := lost_next (run_sound hr) hn
    constructor
    · intro h
      rw [h] at hlost
      exact .snoc (ih.mp (by omega)) ⟨show t.strands e = 0 by omega,hn⟩
    · intro h
      obtain ⟨v,hv,hclean,-⟩ := guarded_snoc h
      obtain rfl : v = t := by
        have h1 := hv.forget.runList_eq
        rw [hr.runList_eq] at h1
        exact (Option.some.inj h1).symm
      have hold := ih.mpr hv
      have hzero : v.strands e = 0 := hclean
      omega

/-- Two requests of two workers, one of which dies between its requests. -/
def cleanDeath : List FleetEvent :=
  [.acquire 0 (lit "k") 2,.step 0,.step 0,.drop 0,.step 0,.step 0,.acquire 1 (lit "k") 2,.step 1,.step 1,.step 1,
    .die 0,.respawn]

theorem cleanDeath_counted : ∃ s, Runs (stepRel (Zone.mk 1000 7).fleetNext) (Fleet.new 2) cleanDeath s ∧
    s.inProgress ((Zone.mk 1000 7).tag (lit "k")) = 1 ∧ (Zone.mk 1000 7).Counted s := by
  have hrun : ((runList (fun s e => if DiesClean s e then (Zone.mk 1000 7).fleetNext s e else none) (Fleet.new 2)
      cleanDeath).map fun s => s.inProgress ((Zone.mk 1000 7).tag (lit "k"))) = some 1 := by decide +kernel
  obtain ⟨s,hs,hlive⟩ := Option.map_eq_some_iff.mp hrun
  have hr := Runs.guarded_of_runList hs
  exact ⟨s,hr.forget,hlive,(run_counted_iff hr.forget).mpr hr⟩

/-- A worker dies in the middle of a request. -/
def midRequest : List FleetEvent := [.acquire 0 (lit "k") 1,.step 0,.step 0,.die 0,.respawn]

/-- The key stays at its limit with no request in progress. -/
theorem midRequest_leaks : ∃ s, Runs (stepRel (Zone.mk 1000 7).fleetNext) (Fleet.new 2) midRequest s ∧
    s.inProgress ((Zone.mk 1000 7).tag (lit "k")) = 0 ∧
    (Zone.mk 1000 7).inUse s.state.words ((Zone.mk 1000 7).tag (lit "k")) = 1 ∧ ¬ (Zone.mk 1000 7).Counted s := by
  have hrun : ((runList (Zone.mk 1000 7).fleetNext (Fleet.new 2) midRequest).map
      fun s => (s.inProgress ((Zone.mk 1000 7).tag (lit "k")),s.state.liveFor ((Zone.mk 1000 7).tag (lit "k")))) =
        some (0,1) := by decide +kernel
  obtain ⟨s,hs,hv⟩ := Option.map_eq_some_iff.mp hrun
  obtain ⟨hprog,hlive⟩ := Prod.mk.inj hv
  have hr := Runs.of_runList hs
  have hsound := run_sound hr
  have huse := (inUse_eq hsound.balanced.toExact hsound.tasks ((Zone.mk 1000 7).tag (lit "k"))).trans hlive
  refine ⟨s,hr,hprog,huse,fun hc => ?_⟩
  have hkey := hc (lit "k")
  rw [huse,hprog] at hkey
  cases hkey

end Run

end OxiServe.LimitConn
