import Mathlib.Algebra.Order.BigOperators.Group.List
import Mathlib.Algebra.Order.Group.Nat
import OxiServe.Lib.Counting
import OxiServe.Lib.Runs

/-! # Draining a worker

A worker that is told to stop gracefully waits for the requests that are counted. The
count is kept by guards on the path of an HTTP/1 request, from the first byte that is read
for it; the other transports hold none.
-/
namespace OxiServe.Server.Draining
open Runs

/-- `LiveRequest::enter` -/
def enter (live : ℕ) : ℕ := (live + 1) % 2 ^ 64

/-- The drop of a `LiveRequest`. -/
def leave (live : ℕ) : ℕ := (live + (2 ^ 64 - 1)) % 2 ^ 64

/-- The drop of an `Option<LiveRequest>`. -/
def leaveHeld (held : Bool) (live : ℕ) : ℕ := if held then leave live else live

/-- What `parse` makes of the bytes there are. -/
inductive Parse
  | complete | error | incomplete
deriving DecidableEq, Repr

/-- Where `serve_with_prefix` is. The mark tells whether `live` is taken. -/
inductive Http1
  /-- In `read_head`, with bytes to parse. -/
  | parsing (requests : ℕ) (live : Bool)
  /-- In `read_head`, waiting for bytes. -/
  | reading (requests : ℕ) (live : Bool)
  /-- Writes an error to what is no request. -/
  | refusing (live : Bool)
  /-- A head is complete, and `_live` is taken, up to the end of the response. -/
  | handling (requests : ℕ) (live : Bool)
  | closed
deriving DecidableEq, Repr

/-- A stream of an HTTP/2 connection. -/
inductive Http2
  | arriving
  /-- `spawn_stream` was called. -/
  | handling
  /-- Its frames are in the channel of the writer. -/
  | queued
  | closed
deriving DecidableEq, Repr

/-- A request stream of an HTTP/3 connection. -/
inductive Http3
  | reading
  /-- The head is decoded, and the body is read. -/
  | body
  | handling
  /-- The stream is finished and not yet sent. -/
  | sending
  | closed
deriving DecidableEq, Repr

inductive Conn
  | http1 (c : Http1)
  | http2 (c : Http2)
  | http3 (c : Http3)
deriving DecidableEq, Repr

/-- What happens on a connection, or on one of its streams. -/
inductive Happens
  /-- The buffered bytes are parsed; they fit the limit of a head or not. -/
  | parse (p : Parse) (fits : Bool)
  | read (n : ℕ)
  | readFails
  | timeout
  | refused
  /-- The whole request is there. -/
  | dispatch
  /-- The handler and the write path are through; `keep` and `left` tell whether the
  connection is kept and whether bytes of a next request were read. -/
  | answered (written keep left : Bool)
  | flushed
  /-- Nothing more is read or written here. -/
  | gone
deriving DecidableEq, Repr

def Http1.step (live : ℕ) : Http1 → Happens → Option (ℕ × Http1)
  | parsing r h, .parse .complete _ => some (enter live,handling (r + 1) h)
  | parsing _ h, .parse .error _ => some (live,refusing h)
  | parsing r h, .parse .incomplete fits => some (live,if fits then reading r h else refusing h)
  | reading _ h, .read 0 => some (leaveHeld h live,closed)
  | reading r h, .read (_ + 1) => some (if h then live else enter live,parsing r true)
  | reading _ h, .readFails => some (leaveHeld h live,closed)
  | reading r h, .timeout => some (if 0 < r then (leaveHeld h live,closed) else (live,refusing h))
  | refusing h, .refused => some (leaveHeld h live,closed)
  | handling r h, .answered written keep left =>
    some (leaveHeld h (leave live),
      if written && keep then (if left then parsing r false else reading r false) else closed)
  | _, _ => none

def Http2.step : Http2 → Happens → Option Http2
  | arriving, .dispatch => some handling
  | handling, .answered .. => some queued
  | queued, .flushed => some closed
  | _, .gone => some closed
  | _, _ => none

def Http3.step : Http3 → Happens → Option Http3
  | reading, .parse .complete _ => some body
  | body, .dispatch => some handling
  | handling, .answered .. => some sending
  | sending, .flushed => some closed
  | _, .gone => some closed
  | _, _ => none

namespace Conn

/-- How many guards are held. -/
def guards : Conn → ℕ
  | http1 (.parsing _ h) => h.toNat
  | http1 (.reading _ h) => h.toNat
  | http1 (.refusing h) => h.toNat
  | http1 (.handling _ h) => h.toNat + 1
  | _ => 0

/-- A request was accepted here, and its response is not completely written. -/
def accepted : Conn → Bool
  | http1 (.handling ..) => true
  | http2 .handling => true
  | http2 .queued => true
  | http3 .body => true
  | http3 .handling => true
  | http3 .sending => true
  | _ => false

/-- It is one of HTTP/2 or HTTP/3. -/
def multiplexed : Conn → Bool
  | http1 _ => false
  | _ => true

def step (live : ℕ) : Conn → Happens → Option (ℕ × Conn)
  | http1 c, ev => (c.step live ev).map (fun r => (r.1,http1 r.2))
  | http2 c, ev => (c.step ev).map (fun c => (live,http2 c))
  | http3 c, ev => (c.step ev).map (fun c => (live,http3 c))

end Conn

inductive Mode
  | serving
  /-- A graceful stop, until a time. -/
  | draining (deadline : ℕ)
  | exited
deriving DecidableEq, Repr

structure State where
  live : ℕ
  conns : List Conn
  mode : Mode
  now : ℕ
deriving DecidableEq, Repr

/-- `GRACEFUL_TIMEOUT`, in milliseconds -/
def gracefulTimeout : ℕ := 30000

inductive Event
  /-- A connection, with bytes that were read before it was known to be one of HTTP/1, or a stream. -/
  | http1 (prefixed : Bool)
  | http2
  | http3
  | conn (t : ℕ) (ev : Happens)
  | tick (n : ℕ)
  /-- `SIGQUIT` -/
  | quit
  /-- `SIGTERM` -/
  | term
  /-- The draining worker looks at the count. -/
  | poll
deriving DecidableEq, Repr

namespace State

def init : State := ⟨0,[],.serving,0⟩

def arrive (s : State) (c : Conn) : Option State :=
  if s.mode = .exited then none else some { s with conns := s.conns ++ [c] }

def step (s : State) : Event → Option State
  | .http1 prefixed => s.arrive (.http1 (if prefixed then .parsing 0 false else .reading 0 false))
  | .http2 => s.arrive (.http2 .arriving)
  | .http3 => s.arrive (.http3 .reading)
  | .conn t ev =>
    if s.mode = .exited then none
    else s.conns[t]?.bind (fun c => (c.step s.live ev).map (fun r => { s with live := r.1, conns := s.conns.set t r.2 }))
  | .tick n => some { s with now := s.now + n }
  | .quit => if s.mode = .serving then some { s with mode := .draining (s.now + gracefulTimeout) } else none
  | .term => if s.mode = .serving then some { s with mode := .exited } else none
  | .poll =>
    match s.mode with
    | .draining d => if 0 < s.live ∧ s.now < d then some s else some { s with mode := .exited }
    | _ => none

/-- A request was accepted and its response is not completely written. -/
def inProgress (s : State) : Bool := s.conns.any Conn.accepted

/-- One of HTTP/2 or HTTP/3 was. -/
def multiplexed (s : State) : Bool := s.conns.any (fun c => c.accepted && c.multiplexed)

def guards (s : State) : ℕ := (s.conns.map Conn.guards).sum

end State

/-- The count is of the guards there are. -/
def Counted (s : State) : Prop := Weighed (2 ^ 64) s.live Conn.guards s.conns

section Steps
variable {live live' : ℕ} {h : Bool} {c c' : Conn} {ev : Happens} {s t : State}

theorem enter_lt (live : ℕ) : enter live < 2 ^ 64 := Nat.mod_lt _ (by decide)

theorem leave_lt (live : ℕ) : leave live < 2 ^ 64 := Nat.mod_lt _ (by decide)

theorem enter_modEq (live g : ℕ) : enter live + g ≡ live + (g + 1) [MOD 2 ^ 64] := by
  have h1 : enter live ≡ live + 1 [MOD 2 ^ 64] := Nat.mod_modEq _ _
  have h2 := h1.add_right g
  rw [Nat.add_assoc,Nat.add_comm 1 g] at h2
  exact h2

theorem leave_modEq (live g : ℕ) : leave live + (g + 1) ≡ live + g [MOD 2 ^ 64] := by
  have h1 : leave live ≡ live + (2 ^ 64 - 1) [MOD 2 ^ 64] := Nat.mod_modEq _ _
  have h2 := h1.add_right (g + 1)
  refine h2.trans ?_
  have he : live + (2 ^ 64 - 1) + (g + 1) = live + g + 2 ^ 64 := by omega
  rw [he]
  exact Nat.add_modEq_right

theorem leaveHeld_modEq (h : Bool) (live g : ℕ) : leaveHeld h live + (g + h.toNat) ≡ live + g [MOD 2 ^ 64] := by
  cases h with
  | true =>
    rw [leaveHeld,if_pos rfl,Bool.toNat_true]
    exact leave_modEq live g
  | false =>
    rw [leaveHeld,if_neg Bool.false_ne_true,Bool.toNat_false,Nat.add_zero]

theorem leaveHeld_lt (h : Bool) (hl : live < 2 ^ 64) : leaveHeld h live < 2 ^ 64 := by
  cases h with
  | true =>
    rw [leaveHeld,if_pos rfl]
    exact leave_lt live
  | false =>
    rw [leaveHeld,if_neg Bool.false_ne_true]
    exact hl

/-- The counter follows the guards of an HTTP/1 connection. -/
theorem http1_step {a b : Http1} (hl : live < 2 ^ 64) (hs : a.step live ev = some (live',b)) :
    live' < 2 ^ 64 ∧ live' + (Conn.http1 a).guards ≡ live + (Conn.http1 b).guards [MOD 2 ^ 64] := by
  have hend (h : Bool) : leaveHeld h live < 2 ^ 64 ∧ leaveHeld h live + h.toNat ≡ live [MOD 2 ^ 64] := by
    have hm := leaveHeld_modEq h live 0
    rw [Nat.zero_add] at hm
    exact ⟨leaveHeld_lt h hl,hm⟩
  unfold Http1.step at hs
  split at hs
  · rename_i r h f
    cases hs
    exact ⟨enter_lt live,enter_modEq live h.toNat⟩
  · cases hs
    exact ⟨hl,rfl⟩
  · rename_i r h fits
    cases hs
    cases fits with
    | true => exact ⟨hl,rfl⟩
    | false => exact ⟨hl,rfl⟩
  · rename_i r h
    cases hs
    exact hend h
  · rename_i r h n
    cases hs
    cases h with
    | true => exact ⟨hl,rfl⟩
    | false => exact ⟨enter_lt live,enter_modEq live 0⟩
  · rename_i r h
    cases hs
    exact hend h
  · rename_i r h
    split at hs
    · cases hs
      exact hend h
    · cases hs
      exact ⟨hl,rfl⟩
  · rename_i h
    cases hs
    exact hend h
  · rename_i r h written keep left
    cases hs
    have hnone : (Conn.http1 (if (written && keep) = true then if left = true then .parsing r false else .reading r false
        else .closed)).guards = 0 := by
      split
      · split
        · rfl
        · rfl
      · rfl
    refine ⟨leaveHeld_lt h (leave_lt live),?_⟩
    rw [hnone]
    have h1 := leaveHeld_modEq h (leave live) 1
    rw [Nat.add_comm 1] at h1
    exact h1.trans (leave_modEq live 0)
  · cases hs

theorem conn_step (hl : live < 2 ^ 64) (hs : c.step live ev = some (live',c')) :
    live' < 2 ^ 64 ∧ live' + c.guards ≡ live + c'.guards [MOD 2 ^ 64] := by
  cases c with
  | http1 a =>
    obtain ⟨⟨l,b⟩,hb,he⟩ := Option.map_eq_some_iff.mp hs
    cases he
    exact http1_step hl hb
  | http2 a =>
    obtain ⟨b,-,he⟩ := Option.map_eq_some_iff.mp hs
    cases he
    exact ⟨hl,rfl⟩
  | http3 a =>
    obtain ⟨b,-,he⟩ := Option.map_eq_some_iff.mp hs
    cases he
    exact ⟨hl,rfl⟩

theorem counted_init : Counted .init := rfl

theorem Counted.lt (hc : Counted s) : s.live < 2 ^ 64 := by
  unfold Counted Weighed at hc
  rw [hc]
  exact Nat.mod_lt _ (by decide)

theorem counted_arrive (hc : Counted s) (hg : c.guards = 0) (hs : s.arrive c = some t) : Counted t := by
  unfold State.arrive at hs
  split at hs
  · cases hs
  · cases hs
    exact hc.concat hg

/-- Every step keeps the count that of the guards. -/
theorem counted_step {ev : Event} (hc : Counted s) (hs : s.step ev = some t) : Counted t := by
  unfold State.step at hs
  cases ev with
  | http1 prefixed =>
    refine counted_arrive hc ?_ hs
    cases prefixed with
    | true => rfl
    | false => rfl
  | http2 => exact counted_arrive hc rfl hs
  | http3 => exact counted_arrive hc rfl hs
  | conn i ev =>
    dsimp only at hs
    split at hs
    · cases hs
    · obtain ⟨c,hci,hs⟩ := Option.bind_eq_some_iff.mp hs
      obtain ⟨⟨l,c'⟩,hstep,he⟩ := Option.map_eq_some_iff.mp hs
      cases he
      obtain ⟨hlt,hmod⟩ := conn_step hc.lt hstep
      exact hc.set hci hlt hmod
  | tick n =>
    cases hs
    exact hc
  | quit =>
    dsimp only at hs
    split at hs
    · cases hs
      exact hc
    · cases hs
  | term =>
    dsimp only at hs
    split at hs
    · cases hs
      exact hc
    · cases hs
  | poll =>
    dsimp only at hs
    split at hs
    · split at hs
      · cases hs
        exact hc
      · cases hs
        exact hc
    · cases hs

end Steps

/-- A graceful stop sees every request. -/
structure Seen (s : State) : Prop where
  counted : s.inProgress = true → 1 ≤ s.live
  idle : s.inProgress = false → s.live = 0
  drains : ∀ d t, s.mode = .draining d → s.now < d → s.step .poll = some t → t.mode = .exited → s.inProgress = false

/-- A request of HTTP/2 or HTTP/3 is not alone, and no HTTP/1 head is partly read when there
is no request. Nor has the counter come round. -/
structure Covered (s : State) : Prop where
  multiplexed : s.guards < 2 ^ 64 → s.multiplexed = true → 0 < s.guards
  begun : s.guards < 2 ^ 64 → s.inProgress = false → s.guards = 0
  wrapped : 2 ^ 64 ≤ s.guards → (s.inProgress = true ↔ s.guards % 2 ^ 64 ≠ 0)

section Runs
variable {evs : List Event} {s : State}

theorem counted_run (h : Runs (stepRel State.step) .init evs s) : Counted s :=
  h.invariant (I := fun _ => Counted) counted_init (fun _ _ _ _ _ hc hs => counted_step hc hs)

/-- An accepted request is one of HTTP/1, which is counted, or one of the others. -/
theorem guards_or_multiplexed (h : s.inProgress = true) : 0 < s.guards ∨ s.multiplexed = true := by
  obtain ⟨c,hc,ha⟩ := List.any_eq_true.mp h
  cases c with
  | http1 a =>
    refine .inl ?_
    cases a with
    | handling r g =>
      have hle : (Conn.http1 (.handling r g)).guards ≤ s.guards :=
        List.single_le_sum (fun _ _ => Nat.zero_le _) _ (List.mem_map_of_mem hc)
      exact Nat.lt_of_lt_of_le (Nat.succ_pos _) hle
    | parsing r g => cases ha
    | reading r g => cases ha
    | refusing g => cases ha
    | closed => cases ha
  | http2 a => exact .inr (List.any_eq_true.mpr ⟨_,hc,by rw [ha]; rfl⟩)
  | http3 a => exact .inr (List.any_eq_true.mpr ⟨_,hc,by rw [ha]; rfl⟩)

theorem inProgress_of_multiplexed (h : s.multiplexed = true) : s.inProgress = true := by
  obtain ⟨c,hc,ha⟩ := List.any_eq_true.mp h
  exact List.any_eq_true.mpr ⟨c,hc,(Bool.and_eq_true_iff.mp ha).1⟩

/-- In every reachable state a graceful stop sees every request exactly when none of HTTP/2
or HTTP/3 is in progress without one of HTTP/1 that is counted. -/
theorem seen_iff_covered (h : Runs (stepRel State.step) .init evs s) : Seen s ↔ Covered s := by
  have hlive : s.live = s.guards % 2 ^ 64 := counted_run h
  constructor
  · intro hs
    refine ⟨fun hlt hm => ?_,fun hlt hn => ?_,fun _ => ⟨fun hp => ?_,fun hg => ?_⟩⟩
    · have h1 := hs.counted (inProgress_of_multiplexed hm)
      rw [hlive,Nat.mod_eq_of_lt hlt] at h1
      exact h1
    · have h0 := hs.idle hn
      rw [hlive,Nat.mod_eq_of_lt hlt] at h0
      exact h0
    · have h1 := hs.counted hp
      rw [hlive] at h1
      omega
    · cases hp : s.inProgress with
      | true => rfl
      | false => exact absurd (hlive.symm.trans (hs.idle hp)) hg
  · intro hc
    have hcounted : s.inProgress = true → 1 ≤ s.live := by
      intro hp
      rw [hlive]
      rcases Nat.lt_or_ge s.guards (2 ^ 64) with hlt | hge
      · rw [Nat.mod_eq_of_lt hlt]
        rcases guards_or_multiplexed hp with hg | hm
        · exact hg
        · exact hc.multiplexed hlt hm
      · exact Nat.pos_of_ne_zero ((hc.wrapped hge).mp hp)
    refine ⟨hcounted,fun hn => ?_,fun d t hd hnow hs ht => ?_⟩
    · rw [hlive]
      rcases Nat.lt_or_ge s.guards (2 ^ 64) with hlt | hge
      · rw [hc.begun hlt hn,Nat.zero_mod]
      · by_contra hne
        have hp := (hc.wrapped hge).mpr hne
        rw [hn] at hp
        cases hp
    · cases hp : s.inProgress with
      | false => rfl
      | true =>
        unfold State.step at hs
        rw [hd] at hs
        dsimp only at hs
        rw [if_pos ⟨hcounted hp,hnow⟩] at hs
        cases hs
        rw [hd] at ht
        cases ht

/-- Where some events lead. -/
def after (evs : List Event) : State := (runList State.step .init evs).getD .init

theorem run_after {evs : List Event} (h : (runList State.step .init evs).isSome = true) :
    Runs (stepRel State.step) .init evs (after evs) := .of_isSome h

/-- A stream that is handled while an HTTP/1 request is. -/
theorem seen_both : Seen (after [.http1 false,.conn 0 (.read 9),.http2,.conn 0 (.parse .complete true),
    .conn 1 .dispatch,.quit]) := by
  refine (seen_iff_covered (run_after rfl)).mpr ⟨fun _ _ => by decide,fun _ hn => ?_,fun hge => ?_⟩
  · exact absurd hn (by decide)
  · exact absurd hge (by decide)

/-- A worker that is told to stop gracefully exits at once while a stream is handled. -/
theorem stream_cut : ¬ ∀ evs s, Runs (stepRel State.step) .init evs s → Seen s := by
  intro hall
  have h := hall [.http2,.conn 0 .dispatch,.quit] _ (run_after rfl)
  exact absurd (h.drains _ _ rfl (by decide) rfl rfl) (by decide)

end Runs

end OxiServe.Server.Draining
