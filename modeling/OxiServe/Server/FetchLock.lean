import OxiServe.Lib.Runs
import Mathlib.Logic.Function.Basic

/-! # One fetch for a key

Each process has a table of the keys that are being fetched. A request that misses
claims its key; one that finds it claimed waits, and looks again from time to time. It
fetches on its own when it has waited long enough, or when the key is free and there is
still no entry. The claim ends when the head of the response is there.
-/
namespace OxiServe.Server.FetchLock
variable {κ : Type}

/-- What `load` found. -/
inductive Loaded
  | hit | expired | none
deriving DecidableEq, Repr

/-- Why a request fetches. -/
inductive Reason
  | unguarded | holding
  | timedOut (since : ℕ)
  | released
deriving DecidableEq, Repr

inductive Phase
  | arrived
  | looked (stale : Bool)
  | waiting (since wake : ℕ)
  | fetching (reason : Reason)
  /-- The response is on its way and its body still comes from the upstream. -/
  | relaying
  | done
deriving DecidableEq, Repr

structure Req (κ : Type) where
  proc : ℕ
  key : κ
  bypassed : Bool
  lock : Bool
  lockTimeout : ℕ
  /-- An expired entry may be served while it is updated. -/
  updating : Bool
  phase : Phase

inductive Act
  | load (found : Loaded)
  | claim
  | wake (found : Loaded)
  | answer (streams : Bool)
  | relayed
  | cancel
deriving DecidableEq, Repr

/-- What an act does to the table. -/
inductive Effect
  | keep | insert | remove
deriving DecidableEq, Repr

def poll : ℕ := 10000000

namespace Req

/-- The request is to be kept from fetching what another fetches. -/
def guarded (x : Req κ) : Bool := x.lock && !x.bypassed

/-- The head of the loop in `wait_for_fetch`. -/
def await (x : Req κ) (since now : ℕ) : Phase :=
  if now < since + x.lockTimeout then .waiting since (now + poll) else .fetching (.timedOut since)

/-- Releases the lock when the request holds it. -/
def drop (x : Req κ) : Effect := if x.phase = .fetching .holding then .remove else .keep

def act (x : Req κ) (locked : Bool) (now : ℕ) : Act → Option (Phase × Effect)
  | .load found =>
    if x.phase = .arrived then
      if x.bypassed then some (.fetching .unguarded,.keep)
      else if found = .hit then some (.done,.keep)
      else if x.lock then some (.looked (found == .expired),.keep)
      else some (.fetching .unguarded,.keep)
    else none
  | .claim =>
    match x.phase with
    | .looked stale =>
      if !locked then some (.fetching .holding,.insert)
      else if stale && x.updating then some (.done,.keep)
      else some (x.await now now,.keep)
    | _ => none
  | .wake found =>
    match x.phase with
    | .waiting since wake =>
      if wake ≤ now then
        if !locked then
          if found = .hit then some (.done,.keep) else some (.fetching .released,.keep)
        else some (x.await since now,.keep)
      else none
    | _ => none
  | .answer streams =>
    match x.phase with
    | .fetching _ => some (if streams then .relaying else .done,x.drop)
    | _ => none
  | .relayed => if x.phase = .relaying then some (.done,.keep) else none
  | .cancel => some (.done,x.drop)

variable {x : Req κ} {locked : Bool} {now : ℕ}

theorem await_ne (x : Req κ) (since now : ℕ) : x.await since now ≠ .fetching .holding ∧
    x.await since now ≠ .fetching .unguarded ∧ x.await since now ≠ .fetching .released := by
  unfold await
  split
  · exact ⟨nofun,nofun,nofun⟩
  · exact ⟨nofun,nofun,nofun⟩

theorem await_timedOut {since since' : ℕ} (h : x.await since now = .fetching (.timedOut since')) :
    since' + x.lockTimeout ≤ now := by
  unfold await at h
  split at h
  · cases h
  · cases h
    omega

/-- What one act can do. -/
structure Moved (x : Req κ) (locked : Bool) (now : ℕ) (ph : Phase) (e : Effect) : Prop where
  free : e = .insert → locked = false ∧ x.phase ≠ .fetching .holding
  takes : ph = .fetching .holding ↔ e = .insert
  leaves : e = .remove ↔ x.phase = .fetching .holding
  waits : ∀ since, ph = .fetching (.timedOut since) → since + x.lockTimeout ≤ now
  bare : ph = .fetching .unguarded → x.guarded = false

theorem drop_remove : x.drop = .remove ↔ x.phase = .fetching .holding := by
  unfold drop
  split
  · rename_i h
    exact ⟨fun _ => h,fun _ => rfl⟩
  · rename_i h
    exact ⟨(fun he => nomatch he),fun he => absurd he h⟩

theorem drop_ne_insert : x.drop ≠ .insert := by
  unfold drop
  split
  · exact nofun
  · exact nofun

/-- An act of a request that does not hold the lock and does not take it. -/
theorem Moved.keep {ph : Phase} (hx : x.phase ≠ .fetching .holding) (hp : ph ≠ .fetching .holding)
    (hw : ∀ since, ph = .fetching (.timedOut since) → since + x.lockTimeout ≤ now)
    (hb : ph = .fetching .unguarded → x.guarded = false) : Moved x locked now ph .keep :=
  ⟨nofun,⟨fun h => absurd h hp,nofun⟩,⟨nofun,fun h => absurd h hx⟩,hw,hb⟩

theorem act_moved {a : Act} {ph : Phase} {e : Effect} (h : x.act locked now a = some (ph,e)) : Moved x locked now ph e := by
  cases a with
  | load found =>
    rw [act] at h
    split at h
    · rename_i hx
      have hx : x.phase ≠ .fetching .holding := by rw [hx]; exact nofun
      split at h
      · rename_i hb
        cases h
        exact .keep hx nofun nofun (fun _ => by rw [guarded,hb,Bool.not_true,Bool.and_false])
      · split at h
        · cases h
          exact .keep hx nofun nofun nofun
        · split at h
          · cases h
            exact .keep hx nofun nofun nofun
          · rename_i hl
            cases h
            exact .keep hx nofun nofun (fun _ => by rw [guarded,Bool.eq_false_iff.mpr hl,Bool.false_and])
    · cases h
  | claim =>
    rw [act] at h
    cases hph : x.phase with
    | looked stale =>
      have hx : x.phase ≠ .fetching .holding := by rw [hph]; exact nofun
      rw [hph] at h
      dsimp only at h
      split at h
      · rename_i hl
        cases h
        exact ⟨fun _ => ⟨by simpa using hl,hx⟩,⟨fun _ => rfl,fun _ => rfl⟩,⟨nofun,fun he => absurd he hx⟩,nofun,nofun⟩
      · split at h
        · cases h
          exact .keep hx nofun nofun nofun
        · cases h
          exact .keep hx (await_ne x now now).1 (fun _ => await_timedOut) (fun he => absurd he (await_ne x now now).2.1)
    | arrived => rw [hph] at h; cases h
    | waiting _ _ => rw [hph] at h; cases h
    | fetching _ => rw [hph] at h; cases h
    | relaying => rw [hph] at h; cases h
    | done => rw [hph] at h; cases h
  | wake found =>
    rw [act] at h
    cases hph : x.phase with
    | waiting since wake =>
      have hx : x.phase ≠ .fetching .holding := by rw [hph]; exact nofun
      rw [hph] at h
      dsimp only at h
      split at h
      · split at h
        · split at h
          · cases h
            exact .keep hx nofun nofun nofun
          · cases h
            exact .keep hx nofun nofun nofun
        · cases h
          exact .keep hx (await_ne x since now).1 (fun _ => await_timedOut) (fun he => absurd he (await_ne x since now).2.1)
      · cases h
    | arrived => rw [hph] at h; cases h
    | looked _ => rw [hph] at h; cases h
    | fetching _ => rw [hph] at h; cases h
    | relaying => rw [hph] at h; cases h
    | done => rw [hph] at h; cases h
  | answer streams =>
    rw [act] at h
    split at h
    · cases h
      have hph : ∀ r, (if streams then Phase.relaying else .done) ≠ .fetching r := by
        intro r
        split
        · exact nofun
        · exact nofun
      exact ⟨fun he => absurd he drop_ne_insert,⟨fun he => absurd he (hph _),fun he => absurd he drop_ne_insert⟩,
        drop_remove,fun since he => absurd he (hph _),fun he => absurd he (hph _)⟩
    · cases h
  | relayed =>
    rw [act] at h
    split at h
    · rename_i hx
      cases h
      exact .keep (by rw [hx]; exact nofun) nofun nofun nofun
    · cases h
  | cancel =>
    cases h
    exact ⟨fun he => absurd he drop_ne_insert,⟨nofun,fun he => absurd he drop_ne_insert⟩,drop_remove,nofun,nofun⟩

end Req

/-- The table of each process, and the requests there are. -/
structure State (κ : Type) where
  now : ℕ
  fetching : ℕ → κ → Bool
  reqs : ℕ → Option (Req κ)

inductive Event (κ : Type)
  | tick (now : ℕ)
  | arrive (r : ℕ) (x : Req κ)
  | act (r : ℕ) (a : Act)

section Steps

namespace State

def init : State κ := ⟨0,fun _ _ => false,fun _ => none⟩

/-- A request holds the lock of a key in a process. -/
def Holds (s : State κ) (r p : ℕ) (k : κ) : Prop :=
  ∃ x, s.reqs r = some x ∧ x.proc = p ∧ x.key = k ∧ x.phase = .fetching .holding

variable [DecidableEq κ]

def setKey (f : ℕ → κ → Bool) (p : ℕ) (k : κ) (b : Bool) : ℕ → κ → Bool :=
  fun p' k' => if p' = p ∧ k' = k then b else f p' k'

def apply (f : ℕ → κ → Bool) (p : ℕ) (k : κ) : Effect → ℕ → κ → Bool
  | .keep => f
  | .insert => setKey f p k true
  | .remove => setKey f p k false

def step (s : State κ) : Event κ → Option (State κ)
  | .tick now => if s.now ≤ now then some { s with now } else none
  | .arrive r x =>
    if s.reqs r = none && x.phase = .arrived then some { s with reqs := Function.update s.reqs r (some x) } else none
  | .act r a =>
    match s.reqs r with
    | none => none
    | some x =>
      match x.act (s.fetching x.proc x.key) s.now a with
      | none => none
      | some (ph,e) =>
        some ⟨s.now,apply s.fetching x.proc x.key e,Function.update s.reqs r (some { x with phase := ph })⟩

end State

end Steps

section Invariant
variable {s t : State κ} {ls : List (Event κ)}

/-- The table of a process has exactly the keys that are held, each by one request. -/
structure Inv (s : State κ) : Prop where
  held : ∀ r p k, s.Holds r p k → s.fetching p k = true
  one : ∀ r r' p k, s.Holds r p k → s.Holds r' p k → r = r'
  owned : ∀ p k, s.fetching p k = true → ∃ r, s.Holds r p k
  waited : ∀ r x since, s.reqs r = some x → x.phase = .fetching (.timedOut since) → since + x.lockTimeout ≤ s.now
  bare : ∀ r x, s.reqs r = some x → x.phase = .fetching .unguarded → x.guarded = false

theorem inv_init : Inv (State.init : State κ) :=
  ⟨(fun _ _ _ ⟨_,h,_⟩ => nomatch h),(fun _ _ _ _ ⟨_,h,_⟩ => nomatch h),(fun _ _ h => nomatch h),
    (fun _ _ _ h => nomatch h),(fun _ _ h => nomatch h)⟩

theorem holds_update {r r' p : ℕ} {k : κ} {f : ℕ → κ → Bool} {y : Req κ} :
    (⟨s.now,f,Function.update s.reqs r (some y)⟩ : State κ).Holds r' p k ↔
      if r' = r then y.proc = p ∧ y.key = k ∧ y.phase = .fetching .holding else s.Holds r' p k := by
  unfold State.Holds
  dsimp only
  by_cases h : r' = r
  · subst h
    rw [if_pos rfl,Function.update_self]
    exact ⟨fun ⟨x,hx,hh⟩ => by cases hx; exact hh,fun hh => ⟨y,rfl,hh⟩⟩
  · rw [if_neg h,Function.update_of_ne h]

theorem reqs_update {r r' : ℕ} {x y : Req κ} (h : Function.update s.reqs r (some y) r' = some x) :
    (r' = r ∧ x = y) ∨ s.reqs r' = some x := by
  by_cases he : r' = r
  · subst he
    rw [Function.update_self] at h
    exact .inl ⟨rfl,(Option.some.inj h).symm⟩
  · rw [Function.update_of_ne he] at h
    exact .inr h

theorem Inv.arrive {r : ℕ} {x : Req κ} (hi : Inv s) (hr : s.reqs r = none) (hx : x.phase = .arrived) :
    Inv { s with reqs := Function.update s.reqs r (some x) } := by
  have hsame {r' p : ℕ} {k : κ} : (⟨s.now,s.fetching,Function.update s.reqs r (some x)⟩ : State κ).Holds r' p k ↔
      s.Holds r' p k := by
    rw [holds_update]
    split
    · rename_i he
      rw [hx,he]
      refine ⟨(fun hh => nomatch hh.2.2),fun ⟨y,hy,_⟩ => ?_⟩
      rw [hr] at hy
      cases hy
    · exact .rfl
  refine ⟨fun r' p k hh => hi.held r' p k (hsame.mp hh),fun r1 r2 p k h1 h2 => hi.one r1 r2 p k (hsame.mp h1) (hsame.mp h2),
    fun p k hf => ?_,fun r' y since hy hp => ?_,fun r' y hy hp => ?_⟩
  · obtain ⟨r0,h0⟩ := hi.owned p k hf
    exact ⟨r0,hsame.mpr h0⟩
  · rcases reqs_update hy with ⟨-,rfl⟩ | hy
    · rw [hx] at hp
      cases hp
    · exact hi.waited r' y since hy hp
  · rcases reqs_update hy with ⟨-,rfl⟩ | hy
    · rw [hx] at hp
      cases hp
    · exact hi.bare r' y hy hp

variable [DecidableEq κ]

theorem apply_other {f : ℕ → κ → Bool} {p p' : ℕ} {k k' : κ} (e : Effect) (h : ¬ (p' = p ∧ k' = k)) :
    State.apply f p k e p' k' = f p' k' := by
  cases e with
  | keep => rfl
  | insert => exact if_neg h
  | remove => exact if_neg h

theorem apply_same {f : ℕ → κ → Bool} {p : ℕ} {k : κ} (e : Effect) :
    State.apply f p k e p k = match e with
      | .keep => f p k
      | .insert => true
      | .remove => false := by
  cases e with
  | keep => rfl
  | insert => exact if_pos ⟨rfl,rfl⟩
  | remove => exact if_pos ⟨rfl,rfl⟩

theorem Inv.act {r : ℕ} {x : Req κ} {ph : Phase} {e : Effect} (hi : Inv s) (hr : s.reqs r = some x)
    (hm : Req.Moved x (s.fetching x.proc x.key) s.now ph e) :
    Inv ⟨s.now,State.apply s.fetching x.proc x.key e,Function.update s.reqs r (some { x with phase := ph })⟩ := by
  have hmine {p : ℕ} {k : κ} : s.Holds r p k ↔ x.proc = p ∧ x.key = k ∧ x.phase = .fetching .holding := by
    refine ⟨fun ⟨y,hy,hh⟩ => ?_,fun hh => ⟨x,hr,hh⟩⟩
    rw [hr] at hy
    cases hy
    exact hh
  -- nobody else holds what is taken here
  have halone {r' : ℕ} (hins : e = .insert) : ¬ s.Holds r' x.proc x.key := by
    intro hh
    have hf := (hm.free hins).1
    rw [hi.held r' _ _ hh] at hf
    cases hf
  constructor
  · intro r' p k hh
    rw [holds_update] at hh
    split at hh
    · obtain ⟨rfl,rfl,hp⟩ := hh
      have hins := hm.takes.mp hp
      change State.apply s.fetching x.proc x.key e x.proc x.key = true
      rw [hins]
      exact apply_same .insert
    · rename_i hne
      have hf := hi.held r' p k hh
      change State.apply s.fetching x.proc x.key e p k = true
      by_cases hpk : p = x.proc ∧ k = x.key
      · obtain ⟨rfl,rfl⟩ := hpk
        rw [apply_same]
        cases he : e with
        | keep => exact hf
        | insert => rfl
        | remove =>
          have hph := hm.leaves.mp he
          exact absurd (hi.one r' r _ _ hh (hmine.mpr ⟨rfl,rfl,hph⟩)) hne
      · exact (apply_other e hpk).trans hf
  · intro r1 r2 p k h1 h2
    rw [holds_update] at h1 h2
    split at h1
    · rename_i e1
      split at h2
      · rename_i e2
        exact e1.trans e2.symm
      · obtain ⟨rfl,rfl,hp⟩ := h1
        exact absurd h2 (halone (hm.takes.mp hp))
    · split at h2
      · obtain ⟨rfl,rfl,hp⟩ := h2
        exact absurd h1 (halone (hm.takes.mp hp))
      · exact hi.one r1 r2 p k h1 h2
  · intro p k hf
    change State.apply s.fetching x.proc x.key e p k = true at hf
    by_cases hpk : p = x.proc ∧ k = x.key
    · obtain ⟨rfl,rfl⟩ := hpk
      rw [apply_same] at hf
      cases he : e with
      | keep =>
        rw [he] at hf
        obtain ⟨r0,h0⟩ := hi.owned _ _ hf
        have hne : r0 ≠ r := by
          rintro rfl
          have := hm.leaves.mpr (hmine.mp h0).2.2
          rw [he] at this
          cases this
        exact ⟨r0,holds_update.mpr (by rw [if_neg hne]; exact h0)⟩
      | insert => exact ⟨r,holds_update.mpr (by rw [if_pos rfl]; exact ⟨rfl,rfl,hm.takes.mpr he⟩)⟩
      | remove =>
        rw [he] at hf
        cases hf
    · rw [apply_other e hpk] at hf
      obtain ⟨r0,h0⟩ := hi.owned _ _ hf
      have hne : r0 ≠ r := by
        rintro rfl
        obtain ⟨h1,h2,-⟩ := hmine.mp h0
        exact hpk ⟨h1.symm,h2.symm⟩
      exact ⟨r0,holds_update.mpr (by rw [if_neg hne]; exact h0)⟩
  · intro r' y since hy hp
    rcases reqs_update hy with ⟨-,rfl⟩ | hy
    · exact hm.waits since hp
    · exact hi.waited r' y since hy hp
  · intro r' y hy hp
    rcases reqs_update hy with ⟨-,rfl⟩ | hy
    · exact hm.bare hp
    · exact hi.bare r' y hy hp

theorem Inv.step {ev : Event κ} (hi : Inv s) (h : s.step ev = some t) : Inv t := by
  cases ev with
  | tick now =>
    rw [State.step] at h
    split at h
    · rename_i hn
      cases h
      exact ⟨hi.held,hi.one,hi.owned,fun r x since hr hp => Nat.le_trans (hi.waited r x since hr hp) hn,hi.bare⟩
    · cases h
  | arrive r x =>
    rw [State.step] at h
    split at h
    · rename_i hc
      cases h
      obtain ⟨hr,hx⟩ := Bool.and_eq_true_iff.mp hc
      exact hi.arrive (of_decide_eq_true hr) (of_decide_eq_true hx)
    · cases h
  | act r a =>
    rw [State.step] at h
    cases hr : s.reqs r with
    | none =>
      rw [hr] at h
      cases h
    | some x =>
      rw [hr] at h
      dsimp only at h
      cases ha : x.act (s.fetching x.proc x.key) s.now a with
      | none =>
        rw [ha] at h
        cases h
      | some o =>
        rw [ha] at h
        cases h
        exact hi.act hr (Req.act_moved ha)

theorem inv_run (h : Runs (stepRel State.step) State.init ls s) : Inv s :=
  h.invariant (I := fun _ => Inv) inv_init (fun _ _ _ _ _ hi hs => hi.step hs)

/-- A request with the lock on that fetches for a key in a process, has not waited for
its whole time and has not found the key free and no entry. -/
def State.Fetches (s : State κ) (r p : ℕ) (k : κ) : Prop :=
  ∃ x reason, s.reqs r = some x ∧ x.proc = p ∧ x.key = k ∧ x.guarded = true ∧ x.phase = .fetching reason ∧
    reason ≠ .released ∧ ∀ since, reason = .timedOut since → s.now < since + x.lockTimeout

/-- In each process one request at most fetches for a key. -/
theorem fetches_unique {r r' p : ℕ} {k : κ} (h : Runs (stepRel State.step) State.init ls s)
    (h1 : s.Fetches r p k) (h2 : s.Fetches r' p k) : r = r' := by
  have hi := inv_run h
  have hholds {r : ℕ} (hf : s.Fetches r p k) : s.Holds r p k := by
    obtain ⟨x,reason,hx,hp,hk,hg,hph,hrel,hw⟩ := hf
    refine ⟨x,hx,hp,hk,?_⟩
    cases reason with
    | holding => exact hph
    | released => exact absurd rfl hrel
    | unguarded =>
      rw [hi.bare r x hx hph] at hg
      cases hg
    | timedOut since => exact absurd (hi.waited r x since hx hph) (Nat.not_le.mpr (hw since rfl))
  exact hi.one r r' p k (hholds h1) (hholds h2)

end Invariant

section Processes

/-- A request with the lock on, in one of the processes. -/
def asking (proc : ℕ) : Req Unit := ⟨proc,(),false,true,1000000000,false,.arrived⟩

/-- A request misses, and claims its key. -/
def misses (r proc : ℕ) : List (Event Unit) := [.arrive r (asking proc),.act r (.load .none),.act r .claim]

/-- Where some events lead. -/
def after (es : List (Event Unit)) : State Unit := (runList State.step State.init es).getD State.init

theorem run_after {es : List (Event Unit)} (h : (runList State.step State.init es).isSome = true) :
    Runs (stepRel State.step) State.init es (after es) := .of_isSome h

/-- In one process the second of two that miss waits. -/
theorem fetches_unique_misses :
    (after (misses 0 0 ++ misses 1 0)).Fetches 0 0 () ∧ ∀ r, (after (misses 0 0 ++ misses 1 0)).Fetches r 0 () → r = 0 := by
  have h0 : (after (misses 0 0 ++ misses 1 0)).Fetches 0 0 () :=
    ⟨{ asking 0 with phase := .fetching .holding },.holding,rfl,rfl,rfl,rfl,rfl,nofun,nofun⟩
  exact ⟨h0,fun r hr => fetches_unique (run_after rfl) hr h0⟩

/-- A request with the lock on whose response comes from the upstream, in any process,
and that has not waited for its whole time. -/
def State.Contends (s : State κ) (r : ℕ) (k : κ) : Prop :=
  ∃ x, s.reqs r = some x ∧ x.key = k ∧ x.guarded = true ∧ (x.phase = .relaying ∨ ∃ reason, x.phase = .fetching reason ∧
    ∀ since, reason = .timedOut since → s.now < since + x.lockTimeout)

/-- The key is free and there is no entry when two that waited look again. -/
def freed : List (Event Unit) :=
  misses 0 0 ++ misses 1 0 ++ misses 2 0 ++ [.act 0 (.answer false),.tick poll,.act 1 (.wake .none),.act 2 (.wake .none)]

/-- Two requests for a key fetch at once: in two processes, in one where the key is freed
without an entry, and in one where the body of a response is still on its way. -/
theorem processes_contend :
    (¬ ∀ (es : List (Event Unit)) (s : State Unit) (r r' : ℕ) (k : Unit), Runs (stepRel State.step) State.init es s →
      s.Contends r k → s.Contends r' k → r = r') ∧
    ((after freed).Contends 1 () ∧ (after freed).Contends 2 ()) ∧
    (after (misses 0 0 ++ [.act 0 (.answer true)] ++ misses 1 0)).Contends 0 () ∧
      (after (misses 0 0 ++ [.act 0 (.answer true)] ++ misses 1 0)).Contends 1 () := by
  refine ⟨fun hall => ?_,⟨?_,?_⟩,?_,?_⟩
  · have h := hall (misses 0 0 ++ misses 1 1) (after (misses 0 0 ++ misses 1 1)) 0 1 () (run_after rfl)
      ⟨{ asking 0 with phase := .fetching .holding },rfl,rfl,rfl,.inr ⟨.holding,rfl,nofun⟩⟩
      ⟨{ asking 1 with phase := .fetching .holding },rfl,rfl,rfl,.inr ⟨.holding,rfl,nofun⟩⟩
    cases h
  · exact ⟨{ asking 0 with phase := .fetching .released },rfl,rfl,rfl,.inr ⟨.released,rfl,nofun⟩⟩
  · exact ⟨{ asking 0 with phase := .fetching .released },rfl,rfl,rfl,.inr ⟨.released,rfl,nofun⟩⟩
  · exact ⟨{ asking 0 with phase := .relaying },rfl,rfl,rfl,.inl rfl⟩
  · exact ⟨{ asking 0 with phase := .fetching .holding },rfl,rfl,rfl,.inr ⟨.holding,rfl,nofun⟩⟩

end Processes

end OxiServe.Server.FetchLock
