import OxiServe.Lib.Counting
import OxiServe.Lib.Runs
import Mathlib.Logic.Function.Basic
import Mathlib.Data.List.Basic

/-! # UDP sessions

The reader of a UDP socket and the session tasks it feeds, as one machine: datagrams,
replies and failures come in any order, and a session that waits takes what is there in
any order. Next to the sessions stand what arrived from a client and the sessions that
ended, as they were.
-/
namespace OxiServe.Server.Udp
open Runs
variable {K D : Type}

/-- What `session` is doing. -/
inductive Phase (D : Type)
  /-- Looks for the backend, and binds and connects a socket. -/
  | opening
  /-- In `select!`. -/
  | selecting
  /-- Sends a datagram that it has taken from the channel. -/
  | sending (d : D)
  /-- Sends a reply to the client. -/
  | relaying
deriving DecidableEq, Repr

structure Session (D : Type) where
  queue : List D
  phase : Phase D
  /-- What was sent to the backend so far. -/
  forwarded : List D
  responses : ℕ
deriving DecidableEq, Repr

/-- What ended a session. -/
inductive End
  | noTarget | noAddress
  /-- Its socket could not be bound or connected, or failed. -/
  | socket
  /-- A reply could not be sent to the client. -/
  | client
  /-- `proxy_responses` -/
  | responses
  /-- `proxy_timeout` -/
  | idle
deriving DecidableEq, Repr

/-- What comes of the look for a backend. -/
inductive Opening
  | noTarget | noAddress | socketFails | connected
deriving DecidableEq, Repr

inductive Happens (D : Type)
  /-- A datagram of the client arrives. -/
  | recv (d : D)
  | opened (r : Opening)
  /-- `select!` takes a datagram from the channel. -/
  | take
  | sent (ok : Bool)
  /-- `select!` takes a reply, or a failure of the socket. -/
  | reply (ok : Bool)
  | relayed (ok : Bool)
  | timeout
deriving DecidableEq, Repr

namespace Session

/-- What it was given and has not sent. -/
def pending (s : Session D) : List D :=
  match s.phase with
  | .sending d => d :: s.queue
  | _ => s.queue

/-- The count that ends it is reached. -/
def enough (want : Option ℕ) (responses : ℕ) : Bool := want.any (fun w => w ≤ responses)

def step (want : Option ℕ) (s : Session D) (ev : Happens D) : Option (Session D × Option End) :=
  match s.phase, ev with
  | .opening, .opened .noTarget => some (s,some .noTarget)
  | .opening, .opened .noAddress => some (s,some .noAddress)
  | .opening, .opened .socketFails => some (s,some .socket)
  | .opening, .opened .connected => some ({ s with phase := .selecting },none)
  | .selecting, .take =>
    match s.queue with
    | [] => none
    | d :: q => some ({ s with queue := q, phase := .sending d },none)
  | .sending d, .sent ok =>
    some (if ok then ({ s with forwarded := s.forwarded ++ [d], phase := .selecting },none) else (s,some .socket))
  | .selecting, .reply ok => some (if ok then ({ s with phase := .relaying },none) else (s,some .socket))
  | .relaying, .relayed ok =>
    some (if ok then
      ({ s with responses := s.responses + 1, phase := .selecting },
        if enough want (s.responses + 1) then some .responses else none)
    else (s,some .client))
  | .selecting, .timeout => some (s,some .idle)
  | _, _ => none

/-- It ends here, and not by a failure of its socket. -/
def ends (want : Option ℕ) (s : Session D) : Happens D → Bool
  | .opened .noTarget => true
  | .opened .noAddress => true
  | .relayed ok => !ok || enough want (s.responses + 1)
  | .timeout => true
  | _ => false

end Session

/-- What there is about one client. -/
structure Client (D : Type) where
  arrived : List D
  ended : List (Session D × End)
  session : Option (Session D)
deriving DecidableEq, Repr

namespace Client

def new : Client D := ⟨[],[],none⟩

/-- Joins the session of the client, or starts one. -/
def recv (c : Client D) (d : D) : Client D :=
  { c with
    arrived := c.arrived ++ [d]
    session := some (match c.session with
      | some s => { s with queue := s.queue ++ [d] }
      | none => ⟨[d],.opening,[],0⟩) }

/-- A session that has ended is taken off the map. -/
def settle (c : Client D) : Session D × Option End → Client D
  | (s,none) => { c with session := some s }
  | (s,some e) => { c with ended := c.ended ++ [(s,e)], session := none }

def step (want : Option ℕ) (c : Client D) : Happens D → Option (Client D)
  | .recv d => some (c.recv d)
  | ev => c.session.bind (fun s => (s.step want ev).map c.settle)

end Client

/-- A step of the worker: something happens about one client. -/
def step [DecidableEq K] (want : Option ℕ) (s : K → Client D) (l : K × Happens D) : Option (K → Client D) :=
  ((s l.1).step want l.2).map (Function.update s l.1)

/-- What was given to the session there is. -/
def Client.live (c : Client D) : List D :=
  match c.session with
  | some s => s.forwarded ++ s.pending
  | none => []

/-- What arrived was forwarded by one session, once and in order, or is still queued, or was
not forwarded because a socket failed; and no session ends short of its replies with
datagrams queued. -/
structure Lossless (want : Option ℕ) (c : Client D) : Prop where
  forwarded : c.arrived =
    c.ended.flatMap (fun e => e.1.forwarded ++ if e.2 = .socket then e.1.pending else []) ++ c.live
  replies : ∀ w, want = some w → ∀ e ∈ c.ended, e.2 ≠ .socket →
    e.1.responses < w * e.1.forwarded.length → e.1.pending = []

/-- Where a session ends, and not by a failure of its socket, its channel is empty. -/
def Safe (want : Option ℕ) (c : Client D) (ev : Happens D) : Prop :=
  ∀ s, c.session = some s → s.ends want ev = true → s.queue = []

/-- Nothing is lost from the view of a client. -/
structure Kept (c : Client D) : Prop where
  arrived : c.arrived = c.ended.flatMap (fun e => e.1.forwarded ++ e.1.pending) ++ c.live

/-- No session has ended with something pending. -/
def Fine (c : Client D) : Prop := ∀ e ∈ c.ended, e.2 ≠ .socket → e.1.pending = []

section Steps
variable {want : Option ℕ} {s s' : Session D} {c c' : Client D} {ev : Happens D} {r : Option End}

/-- How it ended, against whether it was to end and what was in its channel. -/
def Settled (ends : Bool) (queue pending : List D) : Option End → Prop
  | none => ends = false
  | some .socket => ends = false
  | some _ => ends = true ∧ pending = queue

theorem Settled.of_end {ends : Bool} {queue pending : List D} {e : End} (h : Settled ends queue pending (some e))
    (he : e ≠ .socket) : ends = true ∧ pending = queue := by
  cases e with
  | socket => exact absurd rfl he
  | noTarget => exact h
  | noAddress => exact h
  | client => exact h
  | responses => exact h
  | idle => exact h

/-- What one step does to a session: nothing it was given goes, and where it ends what is
pending is its channel. -/
theorem session_step (h : s.step want ev = some (s',r)) :
    s'.forwarded ++ s'.pending = s.forwarded ++ s.pending ∧ Settled (s.ends want ev) s.queue s'.pending r := by
  obtain ⟨queue,phase,forwarded,responses⟩ := s
  unfold Session.step at h
  dsimp only at h
  split at h
  · cases h
    exact ⟨rfl,rfl,rfl⟩
  · cases h
    exact ⟨rfl,rfl,rfl⟩
  · cases h
    exact ⟨rfl,rfl⟩
  · cases h
    exact ⟨rfl,rfl⟩
  · cases queue with
    | nil => cases h
    | cons d q =>
      cases h
      exact ⟨rfl,rfl⟩
  · rename_i d ok
    cases ok with
    | true =>
      cases h
      exact ⟨List.append_assoc _ _ _,rfl⟩
    | false =>
      cases h
      exact ⟨rfl,rfl⟩
  · rename_i ok
    cases ok with
    | true =>
      cases h
      exact ⟨rfl,rfl⟩
    | false =>
      cases h
      exact ⟨rfl,rfl⟩
  · rename_i ok
    cases ok with
    | true =>
      cases h
      refine ⟨rfl,?_⟩
      cases he : Session.enough want (responses + 1) with
      | true => exact ⟨he,rfl⟩
      | false => exact he
    | false =>
      cases h
      exact ⟨rfl,rfl,rfl⟩
  · cases h
    exact ⟨rfl,rfl,rfl⟩
  · cases h

theorem kept_recv (h : Kept c) (d : D) : Kept (c.recv d) := by
  obtain ⟨h⟩ := h
  refine ⟨?_⟩
  change c.arrived ++ [d] = _
  rw [h,List.append_assoc]
  refine congrArg _ ?_
  obtain ⟨arrived,ended,session⟩ := c
  cases session with
  | none => rfl
  | some s =>
    obtain ⟨queue,phase,forwarded,responses⟩ := s
    cases phase with
    | sending e => exact (List.append_assoc _ _ _)
    | opening => exact (List.append_assoc _ _ _)
    | selecting => exact (List.append_assoc _ _ _)
    | relaying => exact (List.append_assoc _ _ _)

theorem kept_settle (h : Kept c) (hs : c.session = some s) (hf : s'.forwarded ++ s'.pending = s.forwarded ++ s.pending) :
    Kept (c.settle (s',r)) := by
  obtain ⟨h⟩ := h
  have hlive : c.live = s'.forwarded ++ s'.pending := by
    unfold Client.live
    rw [hs,hf]
  rw [hlive] at h
  cases r with
  | none => exact ⟨h⟩
  | some e =>
    refine ⟨?_⟩
    change c.arrived = (c.ended ++ [(s',e)]).flatMap _ ++ []
    rw [h,List.append_nil,List.flatMap_append,List.flatMap_singleton]

/-- A step is the arrival of a datagram, or one of the session. -/
theorem client_step_cases (h : c.step want ev = some c') : (∃ d, ev = .recv d ∧ c' = c.recv d) ∨
    ∃ s s' r, c.session = some s ∧ s.step want ev = some (s',r) ∧ c' = c.settle (s',r) := by
  unfold Client.step at h
  split at h
  · rename_i d
    cases h
    exact .inl ⟨d,rfl,rfl⟩
  · obtain ⟨s,hs,h⟩ := Option.bind_eq_some_iff.mp h
    obtain ⟨⟨s',r⟩,hr,h⟩ := Option.map_eq_some_iff.mp h
    exact .inr ⟨s,s',r,hs,hr,h.symm⟩

theorem kept_step (hk : Kept c) (h : c.step want ev = some c') : Kept c' := by
  rcases client_step_cases h with ⟨d,rfl,rfl⟩ | ⟨s,s',r,hs,hr,rfl⟩
  · exact kept_recv hk d
  · exact kept_settle hk hs (session_step hr).1

/-- A step leaves nothing pending behind exactly when it is safe. -/
theorem fine_step (h : c.step want ev = some c') : Fine c' ↔ Fine c ∧ Safe want c ev := by
  rcases client_step_cases h with ⟨d,rfl,rfl⟩ | ⟨s,s',r,hs,hr,rfl⟩
  · exact ⟨fun hf => ⟨hf,fun _ _ he => absurd he Bool.false_ne_true⟩,fun hf => hf.1⟩
  · obtain ⟨-,hends⟩ := session_step hr
    have hsafe : Safe want c ev ↔ (s.ends want ev = true → s.queue = []) := by
      constructor
      · intro hsafe
        exact hsafe s hs
      · intro hq u hu
        rw [hs] at hu
        cases hu
        exact hq
    rw [hsafe]
    cases r with
    | none =>
      exact ⟨fun hf => ⟨hf,fun he => absurd (Eq.trans (Eq.symm hends) he) Bool.false_ne_true⟩,fun hf => hf.1⟩
    | some e =>
      have hfine : Fine (c.settle (s',some e)) ↔ Fine c ∧ (e ≠ .socket → s'.pending = []) := by
        unfold Fine
        change (∀ x ∈ c.ended ++ [(s',e)], _) ↔ _
        rw [List.forall_mem_append,List.forall_mem_singleton]
      rw [hfine]
      by_cases he : e = .socket
      · subst he
        exact ⟨fun hf => ⟨hf.1,fun h => absurd (Eq.trans (Eq.symm hends) h) Bool.false_ne_true⟩,
          fun hf => ⟨hf.1,fun h => absurd rfl h⟩⟩
      · obtain ⟨h1,h2⟩ := hends.of_end he
        rw [h2]
        exact ⟨fun hf => ⟨hf.1,fun _ => hf.2 he⟩,fun hf => ⟨hf.1,fun _ => hf.2 h1⟩⟩

/-- Without a loss no session ended with something pending. -/
theorem lossless_iff_fine (hk : Kept c) : Lossless want c ↔ Fine c := by
  obtain ⟨hk⟩ := hk
  constructor
  · rintro ⟨hf,-⟩ e he hs
    have hlen := congrArg List.length (List.append_cancel_right (hk.symm.trans hf))
    have hle : ∀ e : Session D × End,
        (e.1.forwarded ++ if e.2 = .socket then e.1.pending else []).length ≤ (e.1.forwarded ++ e.1.pending).length := by
      intro e
      rw [List.length_append,List.length_append]
      split
      · exact Nat.le_refl _
      · exact Nat.add_le_add_left (Nat.zero_le _) _
    have h1 := (length_eq_of_flatMap hle c.ended).2 hlen e he
    rw [if_neg hs,List.length_append,List.length_append,List.length_nil] at h1
    exact List.length_eq_zero_iff.mp (Nat.add_left_cancel h1)
  · intro hf
    refine ⟨?_,fun w _ e he hs _ => hf e he hs⟩
    rw [hk]
    refine congrArg (· ++ c.live) (List.flatMap_congr (fun e he => ?_))
    by_cases hs : e.2 = .socket
    · rw [if_pos hs]
    · rw [if_neg hs,hf e he hs]

end Steps

section Runs
variable [DecidableEq K] {want : Option ℕ} {evs : List (K × Happens D)} {s t : K → Client D}

theorem step_at {l : K × Happens D} (h : step want s l = some t) :
    (s l.1).step want l.2 = some (t l.1) ∧ ∀ k, k ≠ l.1 → t k = s k := by
  obtain ⟨c,hc,rfl⟩ := Option.map_eq_some_iff.mp h
  rw [Function.update_self]
  exact ⟨hc,fun k hk => Function.update_of_ne hk c s⟩

theorem kept_run (h : Runs (stepRel (step want)) (fun _ => Client.new) evs s) : ∀ k, Kept (s k) := by
  refine h.invariant (I := fun _ s => ∀ k, Kept (s k)) (fun _ => ⟨rfl⟩) (fun _ u l v _ hk hs k => ?_)
  obtain ⟨h1,h2⟩ := step_at hs
  by_cases hkl : k = l.1
  · rw [hkl]
    exact kept_step (hk l.1) h1
  · rw [h2 k hkl]
    exact hk k

/-- A step leaves nothing pending behind for any client exactly when it is safe. -/
theorem fine_all_step {l : K × Happens D} (h : step want s l = some t) :
    (∀ k, Fine (t k)) ↔ (∀ k, Fine (s k)) ∧ Safe want (s l.1) l.2 := by
  obtain ⟨h1,h2⟩ := step_at h
  have hl := fine_step h1
  constructor
  · intro hf
    obtain ⟨hs,hsafe⟩ := hl.mp (hf l.1)
    refine ⟨fun k => ?_,hsafe⟩
    by_cases hkl : k = l.1
    · rw [hkl]
      exact hs
    · rw [← h2 k hkl]
      exact hf k
  · rintro ⟨hf,hsafe⟩ k
    by_cases hkl : k = l.1
    · rw [hkl]
      exact hl.mpr ⟨hf l.1,hsafe⟩
    · rw [h2 k hkl]
      exact hf k

/-- Over every run no datagram is lost, but to a socket that fails, exactly when no session
ends otherwise while its channel holds one. -/
theorem lossless_iff (h : Runs (stepRel (step want)) (fun _ => Client.new) evs s) : (∀ k, Lossless want (s k)) ↔
    Runs (guarded (stepRel (step want)) (fun s l => Safe want (s l.1) l.2)) (fun _ => Client.new) evs s := by
  have hk := kept_run h
  have hfine : (∀ k, Fine (s k)) ↔ Runs (guarded (stepRel (step want)) (fun s l => Safe want (s l.1) l.2)) _ evs s :=
    h.guarded_iff (fun _ _ he => by cases he) (fun _ _ _ _ _ hl => fine_all_step hl)
  rw [← hfine]
  exact forall_congr' (fun k => lossless_iff_fine (hk k))

/-- Where some events about one client lead. -/
def after (want : Option ℕ) (evs : List (Happens ℕ)) : Unit → Client ℕ :=
  (runList (step want) (fun _ => Client.new) (evs.map (fun ev => ((),ev)))).getD (fun _ => Client.new)

theorem run_after {want : Option ℕ} {evs : List (Happens ℕ)}
    (h : (runList (step want) (fun _ : Unit => Client.new) (evs.map (fun ev => ((),ev)))).isSome = true) :
    Runs (stepRel (step want)) (fun _ => Client.new) (evs.map (fun ev => ((),ev))) (after want evs) := .of_isSome h

/-- One datagram and one reply. -/
def exchange : List (Happens ℕ) := [.recv 1,.opened .connected,.take,.sent true,.reply true,.relayed true]

theorem lossless_exchange : Lossless (some 1) (after (some 1) exchange ()) := by
  have hr : Runs (guarded (stepRel (step (some 1))) (fun s l => Safe (some 1) (s l.1) l.2)) (fun _ : Unit => Client.new)
      ([] ++ [((),.recv 1)] ++ [((),.opened .connected)] ++ [((),.take)] ++ [((),.sent true)] ++ [((),.reply true)] ++
        [((),.relayed true)]) (after (some 1) exchange) :=
    .snoc (.snoc (.snoc (.snoc (.snoc (.snoc .nil ⟨nofun,rfl⟩) ⟨nofun,rfl⟩) ⟨nofun,rfl⟩) ⟨nofun,rfl⟩)
      ⟨nofun,rfl⟩) ⟨fun _ h _ => by cases h; rfl,rfl⟩
  exact (lossless_iff hr.forget).mpr hr ()

example : (after (some 1) exchange ()).arrived = [1] := by decide +kernel

/-- Two datagrams are forwarded and a third is queued when the first reply comes. -/
theorem third_lost : ¬ ∀ evs s, Runs (stepRel (step (some 1))) (fun _ : Unit => (Client.new : Client ℕ)) evs s →
    ∀ k, Lossless (some 1) (s k) := by
  intro hall
  have h := hall _ _ (run_after (rfl : (runList (step (some 1)) (fun _ : Unit => Client.new)
    ([.recv 1,.recv 2,.opened .connected,.take,.sent true,.take,.sent true,.recv 3,.reply true,.relayed true].map
      (fun ev : Happens ℕ => ((),ev)))).isSome = true)) ()
  exact absurd (h.replies 1 rfl _ List.mem_cons_self (by decide) (by decide)) (by decide)

end Runs

end OxiServe.Server.Udp
