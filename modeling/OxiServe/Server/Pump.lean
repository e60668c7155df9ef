import OxiServe.Lib.Runs
import Mathlib.Logic.Function.Basic
import Mathlib.Data.List.Basic

/-! # The stream proxy

One connection of a `stream` server: the client's first bytes are looked at, a backend is
connected, and two loops copy the bytes, each with an idle timer of its own. The peers
send, close and fail at any time, a read takes any part of what is there, and a write may
be taken in parts.
-/
namespace OxiServe.Server.Pump
open Runs
variable {H : Type}

/-- What `preread::parse` says of the bytes so far. -/
inductive Preread (H : Type)
  | hello (h : H)
  | incomplete
  | notTls
deriving DecidableEq, Repr

structure Conf (H : Type) where
  sslPreread : Bool
  parse : List UInt8 → Preread H
  prereadBufferSize : ℕ
  prereadTimeout : ℕ
  /-- `proxy_timeout` -/
  timeout : ℕ

/-- Bytes per read of a copy loop. -/
def buf : ℕ := 32 * 1024

/-- Why a copy loop ended. -/
inductive Why
  | ended | failed
  /-- The other side could not be written. -/
  | sink
  /-- The timer, with the time and that of the last byte in either direction. -/
  | idle (time active : ℕ)
deriving DecidableEq, Repr

inductive Phase
  /-- The copy loop does not run yet. -/
  | waiting
  /-- In a read that began at that time. -/
  | reading (since : ℕ)
  | writing (chunk : List UInt8)
  /-- The loop is left and its sink shut down. -/
  | shut (why : Why)
deriving DecidableEq, Repr

/-- One direction: the half it reads and the half it writes. -/
structure Flow where
  /-- All that the source has sent. -/
  arrived : List UInt8
  unread : List UInt8
  ended : Bool
  failed : Bool
  written : List UInt8
  phase : Phase
deriving DecidableEq, Repr

def Flow.new : Flow := ⟨[],[],false,false,[],.waiting⟩

inductive Dir
  /-- From the client to the upstream. -/
  | up
  | down
deriving DecidableEq, Repr

/-- Where `serve` is. -/
inductive Pc
  /-- In `read_client_hello`, before the bytes so far are parsed. -/
  | looking (head : List UInt8) (deadline : ℕ)
  /-- In its read. -/
  | peeking (head : List UInt8) (want deadline : ℕ)
  | connecting (head : List UInt8)
  | pumping
  /-- No backend was found or reached, and the client is closed. -/
  | dropped (head : List UInt8)
deriving DecidableEq, Repr

structure State where
  now : ℕ
  /-- When `pump` began or the last byte was read or written by it. -/
  active : ℕ
  pc : Pc
  flow : Dir → Flow

/-- What a copy loop does next, or what comes of what it waits for. -/
inductive Copy
  | read (n : ℕ)
  | readEnds
  | readFails
  | idle
  | wrote (n : ℕ)
  | writeFails
deriving DecidableEq, Repr

inductive Event
  /-- The source of a direction sends, closes or fails. -/
  | arrive (d : Dir) (bytes : List UInt8)
  | close (d : Dir)
  | fail (d : Dir)
  | tick (n : ℕ)
  | look
  | peek (n : ℕ)
  /-- The client closed or failed, or the time to look is over. -/
  | peekStops
  | connected (ok : Bool)
  | copy (d : Dir) (ev : Copy)
deriving DecidableEq, Repr

namespace Flow

def arrive (f : Flow) (bytes : List UInt8) : Option Flow :=
  if f.ended || f.failed then none
  else some { f with arrived := f.arrived ++ bytes, unread := f.unread ++ bytes }

def step (timeout now active : ℕ) (f : Flow) (ev : Copy) : Option Flow :=
  match f.phase, ev with
  | .reading _, .read n =>
    if 0 < n ∧ n ≤ buf ∧ n ≤ f.unread.length then
      some { f with unread := f.unread.drop n, phase := .writing (f.unread.take n) }
    else none
  | .reading _, .readEnds => if f.ended ∧ f.unread = [] then some { f with phase := .shut .ended } else none
  | .reading _, .readFails => if f.failed then some { f with phase := .shut .failed } else none
  | .reading since, .idle => if since + timeout ≤ now then some { f with phase := .shut (.idle now active) } else none
  | .writing chunk, .wrote n =>
    if 0 < n ∧ n ≤ chunk.length then
      some { f with
        written := f.written ++ chunk.take n
        phase := if n = chunk.length then .reading now else .writing (chunk.drop n) }
    else none
  | .writing _, .writeFails => some { f with phase := .shut .sink }
  | _, _ => none

end Flow

/-- A byte was read or written. -/
def Copy.moves : Copy → Bool
  | read _ => true
  | wrote _ => true
  | _ => false

namespace State

def init (c : Conf H) : State :=
  ⟨0,0,if c.sslPreread then .looking [] c.prereadTimeout else .connecting [],fun _ => .new⟩

def put (s : State) (d : Dir) (f : Flow) : State := { s with flow := Function.update s.flow d f }

/-- The copy loops begin, with what was preread in front. -/
def pump (s : State) (head : List UInt8) : State :=
  { s with
    active := s.now
    pc := .pumping
    flow := fun d => { s.flow d with phase := match d with
      | .up => if head = [] then .reading s.now else .writing head
      | .down => .reading s.now } }

def step (c : Conf H) (s : State) : Event → Option State
  | .arrive d bytes => ((s.flow d).arrive bytes).map (s.put d)
  | .close d => some (s.put d { s.flow d with ended := true })
  | .fail d => some (s.put d { s.flow d with failed := true })
  | .tick n => some { s with now := s.now + n }
  | .look =>
    match s.pc with
    | .looking head deadline =>
      some { s with pc := match c.parse head with
        | .hello _ => .connecting head
        | .notTls => .connecting head
        | .incomplete =>
          if min (c.prereadBufferSize - head.length) 4096 = 0 then .connecting head
          else .peeking head (min (c.prereadBufferSize - head.length) 4096) deadline }
    | _ => none
  | .peek n =>
    match s.pc with
    | .peeking head want deadline =>
      let f := s.flow .up
      if 0 < n ∧ n ≤ want ∧ n ≤ f.unread.length then
        some { s.put .up { f with unread := f.unread.drop n } with pc := .looking (head ++ f.unread.take n) deadline }
      else none
    | _ => none
  | .peekStops =>
    match s.pc with
    | .peeking head _ deadline =>
      let f := s.flow .up
      if (f.ended ∧ f.unread = []) ∨ f.failed ∨ deadline ≤ s.now then some { s with pc := .connecting head } else none
    | _ => none
  | .connected ok =>
    match s.pc with
    | .connecting head => some (if ok then s.pump head else { s with pc := .dropped head })
    | _ => none
  | .copy d ev =>
    match s.pc with
    | .pumping =>
      ((s.flow d).step c.timeout s.now s.active ev).map
        (fun f => { s.put d f with active := if ev.moves then s.now else s.active })
    | _ => none

end State

/-- No byte is changed, added or put elsewhere. -/
def Ordered (f : Flow) : Prop := f.written <+: f.arrived

/-- All that was read is written when a direction is shut down, all that was sent when its
source has ended; and it is shut down for its source or because the whole connection was
idle. -/
structure Faithful (timeout : ℕ) (f : Flow) : Prop where
  whole : ∀ why, f.phase = .shut why → f.arrived = f.written ++ f.unread ∧ (why = .ended → f.written = f.arrived)
  shuts : ∀ why, f.phase = .shut why → (why = .ended ∧ f.ended = true) ∨ (why = .failed ∧ f.failed = true) ∨
    ∃ time active, why = .idle time active ∧ active + timeout ≤ time

/-- The timer of a loop fires only when no byte went either way for that long, and no write
fails. -/
def Safe (c : Conf H) (s : State) : Event → Prop
  | .copy _ .idle => s.active + c.timeout ≤ s.now
  | .copy _ .writeFails => False
  | _ => True

/-- What was preread. -/
def Pc.head : Pc → List UInt8
  | looking head _ => head
  | peeking head _ _ => head
  | connecting head => head
  | dropped head => head
  | pumping => []

/-- What is read from the source of a direction and not in its loop yet. -/
def State.head (s : State) : Dir → List UInt8
  | .up => s.pc.head
  | .down => []

/-- The bytes of one direction, by where its loop is. -/
def Sound (head : List UInt8) (f : Flow) : Prop :=
  match f.phase with
  | .waiting => f.written = [] ∧ f.arrived = head ++ f.unread
  | .reading _ => f.arrived = f.written ++ f.unread
  | .writing chunk => f.arrived = f.written ++ chunk ++ f.unread
  | .shut .ended => f.arrived = f.written ++ f.unread ∧ f.unread = [] ∧ f.ended = true
  | .shut .failed => f.arrived = f.written ++ f.unread ∧ f.failed = true
  | .shut (.idle _ _) => f.arrived = f.written ++ f.unread
  | .shut .sink => f.written <+: f.arrived

/-- It is not shut down for what is not its source and not the whole connection. -/
def Fair (timeout : ℕ) (f : Flow) : Prop :=
  f.phase ≠ .shut .sink ∧ ∀ time active, f.phase = .shut (.idle time active) → active + timeout ≤ time

section Flows
variable {head bytes : List UInt8} {timeout now active : ℕ} {f g : Flow} {ev : Copy}

theorem ordered_of_sound (h : Sound head f) : Ordered f := by
  unfold Sound at h
  unfold Ordered
  split at h
  · rw [h.1]
    exact List.nil_prefix
  · rw [h]
    exact List.prefix_append _ _
  · rw [h,List.append_assoc]
    exact List.prefix_append _ _
  · rw [h.1]
    exact List.prefix_append _ _
  · rw [h.1]
    exact List.prefix_append _ _
  · rw [h]
    exact List.prefix_append _ _
  · exact h

theorem sound_arrive (h : Sound head f) (hs : f.arrive bytes = some g) : Sound head g := by
  unfold Flow.arrive at hs
  split at hs
  · cases hs
  · rename_i hopen
    cases hs
    unfold Sound at h ⊢
    dsimp only
    split at h
    · exact ⟨h.1,by rw [h.2,List.append_assoc]⟩
    · rw [h,List.append_assoc]
    · rw [h,List.append_assoc]
    · rw [h.2.2] at hopen
      exact absurd rfl hopen
    · rw [h.2,Bool.or_true] at hopen
      exact absurd rfl hopen
    · rw [h,List.append_assoc]
    · exact h.trans (List.prefix_append _ _)

theorem sound_close (h : Sound head f) : Sound head { f with ended := true } := by
  unfold Sound at h ⊢
  dsimp only
  split at h
  · exact h
  · exact h
  · exact h
  · exact ⟨h.1,h.2.1,rfl⟩
  · exact h
  · exact h
  · exact h

theorem sound_fail (h : Sound head f) : Sound head { f with failed := true } := by
  unfold Sound at h ⊢
  dsimp only
  split at h
  · exact h
  · exact h
  · exact h
  · exact h
  · exact ⟨h.1,rfl⟩
  · exact h
  · exact h

theorem sound_step (h : Sound head f) (hs : f.step timeout now active ev = some g) : Sound head g := by
  obtain ⟨arrived,unread,ended,failed,written,phase⟩ := f
  unfold Flow.step at hs
  dsimp only at hs
  split at hs
  · rename_i since n
    split at hs
    · cases hs
      have h : arrived = written ++ unread := h
      change arrived = written ++ unread.take n ++ unread.drop n
      rw [List.append_assoc,List.take_append_drop]
      exact h
    · cases hs
  · split at hs
    · rename_i hend
      cases hs
      exact ⟨h,hend.2,hend.1⟩
    · cases hs
  · split at hs
    · rename_i hfail
      cases hs
      exact ⟨h,hfail⟩
    · cases hs
  · split at hs
    · cases hs
      exact h
    · cases hs
  · rename_i chunk n
    split at hs
    · cases hs
      have h : arrived = written ++ chunk ++ unread := h
      split
      · rename_i hn
        rw [hn,List.take_length]
        exact h
      · change arrived = written ++ chunk.take n ++ chunk.drop n ++ unread
        rw [List.append_assoc written,List.take_append_drop]
        exact h
    · cases hs
  · rename_i chunk
    cases hs
    have h : arrived = written ++ chunk ++ unread := h
    change written <+: arrived
    rw [h,List.append_assoc]
    exact List.prefix_append _ _
  · cases hs

/-- A step of a loop is fair when its timer fires for the whole connection and no write fails. -/
theorem fair_step (hs : f.step timeout now active ev = some g) : Fair timeout g ↔
    Fair timeout f ∧ (ev = .idle → active + timeout ≤ now) ∧ ev ≠ .writeFails := by
  obtain ⟨arrived,unread,ended,failed,written,phase⟩ := f
  have hrunning (f : Flow) (hf : ∀ why, f.phase ≠ .shut why) : Fair timeout f :=
    ⟨hf .sink,fun _ _ he => absurd he (hf _)⟩
  unfold Flow.step at hs
  dsimp only at hs
  split at hs
  · split at hs
    · cases hs
      exact ⟨fun _ => ⟨hrunning _ nofun,nofun,nofun⟩,fun _ => hrunning _ nofun⟩
    · cases hs
  · split at hs
    · cases hs
      exact ⟨fun _ => ⟨hrunning _ nofun,nofun,nofun⟩,fun _ => ⟨nofun,nofun⟩⟩
    · cases hs
  · split at hs
    · cases hs
      exact ⟨fun _ => ⟨hrunning _ nofun,nofun,nofun⟩,fun _ => ⟨nofun,nofun⟩⟩
    · cases hs
  · split at hs
    · cases hs
      refine ⟨fun hf => ⟨hrunning _ nofun,fun _ => hf.2 _ _ rfl,nofun⟩,fun hf => ⟨nofun,fun time act he => ?_⟩⟩
      cases he
      exact hf.2.1 rfl
    · cases hs
  · split at hs
    · cases hs
      refine ⟨fun _ => ⟨hrunning _ nofun,nofun,nofun⟩,fun _ => hrunning _ (fun why => ?_)⟩
      dsimp only
      split
      · exact nofun
      · exact nofun
    · cases hs
  · cases hs
    exact ⟨fun hf => absurd rfl hf.1,fun hf => absurd rfl hf.2.2⟩
  · cases hs

/-- With its bytes in order a direction is faithful exactly when it is fair. -/
theorem faithful_iff_fair (h : Sound head f) : Faithful timeout f ↔ Fair timeout f := by
  constructor
  · rintro ⟨-,hs⟩
    refine ⟨fun he => ?_,fun time act he => ?_⟩
    · rcases hs _ he with ⟨hw,-⟩ | ⟨hw,-⟩ | ⟨time,act,hw,-⟩
      · cases hw
      · cases hw
      · cases hw
    · rcases hs _ he with ⟨hw,-⟩ | ⟨hw,-⟩ | ⟨time',act',hw,hle⟩
      · cases hw
      · cases hw
      · cases hw
        exact hle
  · rintro ⟨hsink,hidle⟩
    refine ⟨fun why hp => ?_,fun why hp => ?_⟩
    · unfold Sound at h
      rw [hp] at h hsink
      cases why with
      | ended =>
        refine ⟨h.1,fun _ => ?_⟩
        rw [h.1,h.2.1,List.append_nil]
      | failed => exact ⟨h.1,nofun⟩
      | sink => exact absurd rfl hsink
      | idle time act => exact ⟨h,nofun⟩
    · unfold Sound at h
      rw [hp] at h hsink
      cases why with
      | ended => exact .inl ⟨rfl,h.2.2⟩
      | failed => exact .inr (.inl ⟨rfl,h.2⟩)
      | sink => exact absurd rfl hsink
      | idle time act => exact .inr (.inr ⟨time,act,rfl,hidle time act hp⟩)

end Flows

/-- The bytes of both directions are in their places, and no loop runs before `pump`. -/
structure InOrder (s : State) : Prop where
  sound : ∀ d, Sound (s.head d) (s.flow d)
  waits : s.pc ≠ .pumping → ∀ d, (s.flow d).phase = .waiting

section Steps
variable {c : Conf H} {s t : State} {d : Dir} {f : Flow} {ev : Event}

theorem flow_put (s : State) (d d' : Dir) (f : Flow) : (s.put d f).flow d' = if d' = d then f else s.flow d' :=
  Function.update_apply _ _ _ _

theorem inOrder_init (c : Conf H) : InOrder (.init c) := by
  refine ⟨fun d => ?_,fun _ _ => rfl⟩
  have hhead : (State.init c).head d = [] := by
    cases d with
    | down => rfl
    | up =>
      unfold State.init State.head
      dsimp only
      split
      · rfl
      · rfl
  rw [hhead]
  exact ⟨rfl,rfl⟩

/-- One flow is exchanged for another of the same phase. -/
theorem inOrder_put (h : InOrder s) (hf : Sound (s.head d) f) (hp : f.phase = (s.flow d).phase) : InOrder (s.put d f) := by
  refine ⟨fun d' => ?_,fun hpc d' => ?_⟩
  · rw [flow_put]
    split
    · rename_i hd
      rw [hd]
      exact hf
    · exact h.sound d'
  · rw [flow_put]
    split
    · rw [hp]
      exact h.waits hpc d
    · exact h.waits hpc d'

theorem inOrder_copy {ev : Copy} (h : InOrder s) (hpc : s.pc = .pumping)
    (hs : (s.flow d).step c.timeout s.now s.active ev = some f) (active : ℕ) :
    InOrder { s.put d f with active := active } := by
  refine ⟨fun d' => ?_,fun hn => absurd hpc hn⟩
  change Sound (s.head d') ((s.put d f).flow d')
  rw [flow_put]
  split
  · rename_i hd
    rw [hd]
    exact sound_step (h.sound d) hs
  · exact h.sound d'

theorem inOrder_pump {head : List UInt8} (h : InOrder s) (hpc : s.pc = .connecting head) : InOrder (s.pump head) := by
  refine ⟨fun d => ?_,fun hn => absurd rfl hn⟩
  have hd := h.sound d
  unfold Sound at hd
  rw [h.waits (by rw [hpc]; exact nofun) d] at hd
  obtain ⟨hw,ha⟩ := hd
  cases d with
  | down =>
    change (s.flow .down).arrived = (s.flow .down).written ++ (s.flow .down).unread
    rw [hw]
    exact ha
  | up =>
    have hhead : s.head .up = head := by
      unfold State.head
      rw [hpc]
      rfl
    rw [hhead] at ha
    unfold Sound State.pump
    dsimp only
    by_cases he : head = []
    · rw [if_pos he]
      dsimp only
      rw [hw,ha,he]
    · rw [if_neg he]
      dsimp only
      rw [hw,ha,List.nil_append]

/-- Where `serve` goes on with the same bytes in hand. -/
theorem inOrder_goto {pc : Pc} (h : InOrder s) (hn : s.pc ≠ .pumping) (hhead : pc.head = s.pc.head) :
    InOrder { s with pc := pc } := by
  refine ⟨fun d => ?_,fun _ => h.waits hn⟩
  have hd := h.sound d
  cases d with
  | down => exact hd
  | up =>
    change Sound pc.head (s.flow .up)
    rw [hhead]
    exact hd

theorem inOrder_peek {head : List UInt8} {want deadline n : ℕ} (h : InOrder s) (hpc : s.pc = .peeking head want deadline) :
    InOrder { s.put .up { s.flow .up with unread := (s.flow .up).unread.drop n } with
      pc := .looking (head ++ (s.flow .up).unread.take n) deadline } := by
  have hwaits := h.waits (by rw [hpc]; exact nofun)
  refine ⟨fun d => ?_,fun _ d => ?_⟩
  · have hd := h.sound d
    unfold Sound at hd
    rw [hwaits d] at hd
    cases d with
    | down => exact h.sound .down
    | up =>
      have hhead : s.head .up = head := by
        unfold State.head
        rw [hpc]
        rfl
      rw [hhead] at hd
      unfold Sound
      dsimp only
      rw [flow_put,if_pos rfl]
      dsimp only
      rw [hwaits .up]
      refine ⟨hd.1,?_⟩
      change (s.flow .up).arrived = head ++ (s.flow .up).unread.take n ++ (s.flow .up).unread.drop n
      rw [List.append_assoc,List.take_append_drop]
      exact hd.2
  · dsimp only
    rw [flow_put]
    split
    · exact hwaits .up
    · exact hwaits d

theorem inOrder_step (h : InOrder s) (hs : s.step c ev = some t) : InOrder t := by
  unfold State.step at hs
  cases ev with
  | arrive d bytes =>
    obtain ⟨f,hf,rfl⟩ := Option.map_eq_some_iff.mp hs
    refine inOrder_put h (sound_arrive (h.sound d) hf) ?_
    unfold Flow.arrive at hf
    split at hf
    · cases hf
    · cases hf
      rfl
  | close d =>
    cases hs
    exact inOrder_put h (sound_close (h.sound d)) rfl
  | fail d =>
    cases hs
    exact inOrder_put h (sound_fail (h.sound d)) rfl
  | tick n =>
    cases hs
    exact ⟨h.sound,h.waits⟩
  | look =>
    dsimp only at hs
    split at hs
    · rename_i head deadline hpc
      cases hs
      refine inOrder_goto h (by rw [hpc]; exact nofun) ?_
      rw [hpc]
      split
      · rfl
      · rfl
      · split
        · rfl
        · rfl
    · cases hs
  | peek n =>
    dsimp only at hs
    split at hs
    · rename_i head want deadline hpc
      split at hs
      · cases hs
        exact inOrder_peek h hpc
      · cases hs
    · cases hs
  | peekStops =>
    dsimp only at hs
    split at hs
    · rename_i head want deadline hpc
      split at hs
      · cases hs
        exact inOrder_goto h (by rw [hpc]; exact nofun) (by rw [hpc]; rfl)
      · cases hs
    · cases hs
  | connected ok =>
    dsimp only at hs
    split at hs
    · rename_i head hpc
      cases ok with
      | true =>
        cases hs
        exact inOrder_pump h hpc
      | false =>
        cases hs
        exact inOrder_goto h (by rw [hpc]; exact nofun) (by rw [hpc]; rfl)
    · cases hs
  | copy d ev =>
    dsimp only at hs
    split at hs
    · rename_i hpc
      obtain ⟨f,hf,rfl⟩ := Option.map_eq_some_iff.mp hs
      exact inOrder_copy h hpc hf _
    · cases hs

theorem fair_of_running {timeout : ℕ} (h : ∀ why, f.phase ≠ .shut why) : Fair timeout f :=
  ⟨h .sink,fun _ _ he => absurd he (h _)⟩

theorem fair_congr {timeout : ℕ} {g : Flow} (h : f.phase = g.phase) : Fair timeout f ↔ Fair timeout g := by
  unfold Fair
  rw [h]

/-- Where no loop moves on nothing is unfair that was not. -/
theorem fair_same {timeout : ℕ} (h : ∀ d, (t.flow d).phase = (s.flow d).phase) :
    (∀ d, Fair timeout (t.flow d)) ↔ (∀ d, Fair timeout (s.flow d)) ∧ True :=
  (forall_congr' (fun d => fair_congr (h d))).trans (and_iff_left trivial).symm

theorem phase_put (hp : f.phase = (s.flow d).phase) (d' : Dir) : ((s.put d f).flow d').phase = (s.flow d').phase := by
  rw [flow_put]
  split
  · rename_i hd
    rw [hd,hp]
  · rfl

theorem fair_copy {ev : Copy} (hs : (s.flow d).step c.timeout s.now s.active ev = some f) :
    (∀ d', Fair c.timeout ((s.put d f).flow d')) ↔ (∀ d', Fair c.timeout (s.flow d')) ∧ Safe c s (.copy d ev) := by
  have hstep := fair_step hs
  have hsafe : Safe c s (.copy d ev) ↔ (ev = .idle → s.active + c.timeout ≤ s.now) ∧ ev ≠ .writeFails := by
    cases ev with
    | idle => exact ⟨fun h => ⟨fun _ => h,nofun⟩,fun h => h.1 rfl⟩
    | writeFails => exact ⟨False.elim,fun h => absurd rfl h.2⟩
    | read n => exact ⟨fun _ => ⟨nofun,nofun⟩,fun _ => trivial⟩
    | readEnds => exact ⟨fun _ => ⟨nofun,nofun⟩,fun _ => trivial⟩
    | readFails => exact ⟨fun _ => ⟨nofun,nofun⟩,fun _ => trivial⟩
    | wrote n => exact ⟨fun _ => ⟨nofun,nofun⟩,fun _ => trivial⟩
  rw [hsafe]
  constructor
  · intro h
    have hd := h d
    rw [flow_put,if_pos rfl] at hd
    obtain ⟨hf,hev⟩ := hstep.mp hd
    refine ⟨fun d' => ?_,hev⟩
    by_cases he : d' = d
    · rw [he]
      exact hf
    · have hd' := h d'
      rw [flow_put,if_neg he] at hd'
      exact hd'
  · rintro ⟨h,hev⟩ d'
    rw [flow_put]
    split
    · exact hstep.mpr ⟨h d,hev⟩
    · exact h d'

/-- A step leaves both directions fair exactly when it is safe. -/
theorem fair_all_step (h : InOrder s) (hs : s.step c ev = some t) :
    (∀ d, Fair c.timeout (t.flow d)) ↔ (∀ d, Fair c.timeout (s.flow d)) ∧ Safe c s ev := by
  unfold State.step at hs
  cases ev with
  | arrive d bytes =>
    obtain ⟨f,hf,rfl⟩ := Option.map_eq_some_iff.mp hs
    unfold Flow.arrive at hf
    split at hf
    · cases hf
    · cases hf
      exact fair_same (phase_put rfl)
  | close d =>
    cases hs
    exact fair_same (phase_put rfl)
  | fail d =>
    cases hs
    exact fair_same (phase_put rfl)
  | tick n =>
    cases hs
    exact fair_same (fun _ => rfl)
  | look =>
    dsimp only at hs
    split at hs
    · cases hs
      exact fair_same (fun _ => rfl)
    · cases hs
  | peek n =>
    dsimp only at hs
    split at hs
    · split at hs
      · cases hs
        refine fair_same (fun d => ?_)
        exact phase_put (f := { s.flow .up with unread := (s.flow .up).unread.drop n }) rfl d
      · cases hs
    · cases hs
  | peekStops =>
    dsimp only at hs
    split at hs
    · split at hs
      · cases hs
        exact fair_same (fun _ => rfl)
      · cases hs
    · cases hs
  | connected ok =>
    dsimp only at hs
    split at hs
    · rename_i head hpc
      have hwaits := h.waits (by rw [hpc]; exact nofun)
      have hold (d : Dir) : Fair c.timeout (s.flow d) := fair_of_running (by rw [hwaits d]; exact nofun)
      cases ok with
      | true =>
        cases hs
        refine ⟨fun _ => ⟨hold,trivial⟩,fun _ d => fair_of_running (fun why => ?_)⟩
        cases d with
        | down => exact nofun
        | up =>
          change (if head = [] then Phase.reading s.now else .writing head) ≠ .shut why
          by_cases he : head = []
          · rw [if_pos he]
            exact nofun
          · rw [if_neg he]
            exact nofun
      | false =>
        cases hs
        exact fair_same (fun _ => rfl)
    · cases hs
  | copy d ev =>
    dsimp only at hs
    split at hs
    · obtain ⟨f,hf,rfl⟩ := Option.map_eq_some_iff.mp hs
      exact fair_copy hf
    · cases hs

end Steps

section Runs
variable {c : Conf H} {evs : List Event} {s : State}

theorem inOrder_run (h : Runs (stepRel (State.step c)) (.init c) evs s) : InOrder s :=
  h.invariant (I := fun _ => InOrder) (inOrder_init c) (fun _ _ _ _ _ hi hs => inOrder_step hi hs)

/-- In every run the bytes stay in order; and both directions are faithful exactly when no
timer fires while the other direction moves and no write fails. -/
theorem faithful_iff (h : Runs (stepRel (State.step c)) (.init c) evs s) : (∀ d, Ordered (s.flow d)) ∧
    ((∀ d, Faithful c.timeout (s.flow d)) ↔ Runs (guarded (stepRel (State.step c)) (Safe c)) (.init c) evs s) := by
  have hi := inOrder_run h
  refine ⟨fun d => ordered_of_sound (hi.sound d),?_⟩
  have hfair : (∀ d, Fair c.timeout (s.flow d)) ↔ Runs (guarded (stepRel (State.step c)) (Safe c)) (.init c) evs s := by
    have h0 : ∀ d, Fair c.timeout ((State.init c).flow d) := fun _ => ⟨nofun,nofun⟩
    exact h.guarded_iff h0 (fun _ _ _ _ hr hs => fair_all_step (inOrder_run hr) hs)
  rw [← hfair]
  exact forall_congr' (fun d => faithful_iff_fair (hi.sound d))

/-- Nothing is preread, and a second of silence is too long. -/
def plain : Conf Unit := ⟨false,fun _ => .notTls,0,0,1000⟩

def after (evs : List Event) : State := (runList (State.step plain) (.init plain) evs).getD (.init plain)

theorem run_after {evs : List Event} (h : (runList (State.step plain) (.init plain) evs).isSome = true) :
    Runs (stepRel (State.step plain)) (.init plain) evs (after evs) := .of_isSome h

/-- The client sends two bytes and closes. -/
def closing : List Event :=
  [.connected true,.arrive .up [1,2],.copy .up (.read 2),.copy .up (.wrote 2),.close .up,.copy .up .readEnds]

theorem faithful_closing : ((after closing).flow .up).written = [1,2] ∧ ∀ d, Faithful 1000 ((after closing).flow d) := by
  have hr : Runs (guarded (stepRel (State.step plain)) (Safe plain)) (.init plain)
      ([] ++ [.connected true] ++ [.arrive .up [1,2]] ++ [.copy .up (.read 2)] ++ [.copy .up (.wrote 2)] ++ [.close .up] ++
        [.copy .up .readEnds]) (after closing) :=
    .snoc (.snoc (.snoc (.snoc (.snoc (.snoc .nil ⟨trivial,rfl⟩) ⟨trivial,rfl⟩) ⟨trivial,rfl⟩) ⟨trivial,rfl⟩)
      ⟨trivial,rfl⟩) ⟨trivial,rfl⟩
  exact ⟨rfl,(faithful_iff hr.forget).2.mpr hr⟩

example : ((after closing).flow .down).written = [] := by decide +kernel

/-- The upstream sends all the time, and the client that only listens is cut off from it. -/
theorem listener_cut : ¬ ∀ evs s, Runs (stepRel (State.step plain)) (.init plain) evs s →
    ∀ d, Faithful 1000 (s.flow d) := by
  intro hall
  have h := hall [.connected true,.tick 999,.arrive .down [1],.copy .down (.read 1),.copy .down (.wrote 1),.tick 1,
    .copy .up .idle] _ (run_after rfl) .up
  rcases h.shuts _ rfl with ⟨hw,-⟩ | ⟨hw,-⟩ | ⟨time,active,hw,hle⟩
  · cases hw
  · cases hw
  · cases hw
    exact absurd hle (by decide)

end Runs

end OxiServe.Server.Pump
