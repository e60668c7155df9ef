import OxiServe.Lib.Counting
import OxiServe.Lib.Runs
import OxiServe.Server.ListedStatus

/-! # The load of a peer

Requests through one group, each at a point of its own: choosing a peer, waiting for
its response head under the in-flight guard, or passing the response on. The guard
is a local of one pass of the attempt loop.
-/
namespace OxiServe.Server
open Config Runs

section Requests

/-- `InFlightGuard::enter`. -/
def PeerHealth.enter (h : PeerHealth) : PeerHealth := { h with inFlight := (h.inFlight + 1) % 2 ^ 32 }

/-- The guard is dropped. -/
def PeerHealth.leave (h : PeerHealth) : PeerHealth := { h with inFlight := (h.inFlight + (2 ^ 32 - 1)) % 2 ^ 32 }

/-- A request for which an upstream is asked, with the entry kept in hand. -/
structure Job where
  env : Env
  ctx : Ctx
  loc : Location
  pp : ProxyPass
  cache : Option CacheCtx
  stale : Option Decoded

/-- How an attempt ends: another follows, the request ends without an upstream's
answer, or with one. -/
inductive Settled
  | again (r : Retry)
  | failed
  | answered (a : Answer)

namespace Job

def conf (j : Job) : ProxyConf := j.loc.core.proxy

def mayRetry (j : Job) : Bool := retryable j.conf j.ctx.req.method

/-- One pass of the loop once its peer is chosen. -/
def attempt (j : Job) (up : Upstream) (i : ℕ) (r : Retry) (p : Peer) : Settled :=
  match exchangeHead j.env j.ctx j.conf (some (up,i)) p with
  | .fails enabled code _ =>
    match nextPeer j.conf j.mayRetry (some (up,i)) enabled p.pastDeadline code r with
    | (true,r) => .again r
    | (false,_) => .failed
  | .answers a =>
    if j.conf.nextUpstream.statuses.contains a.status then
      match nextPeer j.conf j.mayRetry (some (up,i)) true p.pastDeadline a.status r with
      | (true,r) => .again r
      | (false,_) => .answered a
    else .answered a

/-- The answer itself goes to the client: no stale entry stands in for it and it is
not a switch the client did not ask for. -/
def passesOn (j : Job) (a : Answer) : Bool :=
  (if 400 ≤ answerStatus a then tryStale j.cache j.stale (.status (answerStatus a)) else none).isNone &&
    (answerReply j.ctx a).isOk

end Job

/-- Where a request is. -/
inductive Phase
  | choosing (r : Retry)
  | attempting (i : ℕ) (r : Retry)
  | delivering (i : ℕ)
  | over

/-- The guard is alive. -/
def Phase.holds (i : ℕ) : Phase → Bool
  | .attempting j _ => j == i
  | _ => false

def Phase.delivers (i : ℕ) : Phase → Bool
  | .delivering j => j == i
  | _ => false

structure Client where
  job : Job
  phase : Phase

namespace Group

/-- The health of the peers and every request so far. -/
structure State where
  health : Healths
  clients : List Client

inductive Event
  | arrive (j : Job)
  | select (t stickyMs nowMs cursor : ℕ)
  | settle (t : ℕ) (p : Peer) (noteMs switchMs : ℕ)
  | deliver (t : ℕ)
  | abandon (t : ℕ)
  | probe (i : ℕ) (ok : Bool) (fails passes : UInt32)

namespace State

def new : State := ⟨fun _ => .default,[]⟩

def held (s : State) (i : ℕ) : ℕ := s.clients.countP (fun c => c.phase.holds i)

def delivered (s : State) (i : ℕ) : ℕ := s.clients.countP (fun c => c.phase.delivers i)

/-- The requests served through a peer, from its selection to the end of the body. -/
def served (s : State) (i : ℕ) : ℕ := s.held i + s.delivered i

/-- A request comes to another point. -/
def move (s : State) (t : ℕ) (c : Client) (phase : Phase) (health : Healths) : State :=
  ⟨health,s.clients.set t { c with phase := phase }⟩

end State

variable (g : Group)

/-- The health a settled attempt leaves behind its guard. -/
def settled (s : State) (j : Job) (i : ℕ) (p : Peer) (noteMs switchMs : ℕ) : Settled → Healths
  | .answered a =>
    let t : Try := ⟨0,some (g.up,i),p,.answers a⟩
    settle g.conf switchMs j.ctx (note j.env j.loc g.conf (fun _ => noteMs) j.ctx.body s.health t) t (.answered a)
  | _ =>
    note j.env j.loc g.conf (fun _ => noteMs) j.ctx.body s.health
      ⟨0,some (g.up,i),p,exchangeHead j.env j.ctx j.conf (some (g.up,i)) p⟩

/-- Where an attempt leaves its request. -/
def after (j : Job) (i : ℕ) : Settled → Phase
  | .again r => .choosing r
  | .failed => .over
  | .answered a => if j.passesOn a then .delivering i else .over

def next (s : State) : Event → Option State
  | .arrive j => some ⟨s.health,s.clients ++ [⟨j,.choosing ⟨[],none⟩⟩]⟩
  | .select t stickyMs nowMs cursor =>
    match s.clients[t]? with
    | some ⟨j,.choosing r⟩ =>
      match ({ g with health := s.health } : Group).selectPeerExcluding j.ctx stickyMs nowMs cursor r.tried with
      | none => some (s.move t ⟨j,.choosing r⟩ .over s.health)
      | some i =>
        if j.pp.tls then some (s.move t ⟨j,.choosing r⟩ .over s.health)
        else
          some (s.move t ⟨j,.choosing r⟩ (.attempting i r) (Function.update s.health i (s.health i).enter))
    | _ => none
  | .settle t p noteMs switchMs =>
    match s.clients[t]? with
    | some ⟨j,.attempting i r⟩ =>
      let out := j.attempt g.up i r p
      let health := g.settled s j i p noteMs switchMs out
      some (s.move t ⟨j,.attempting i r⟩ (after j i out) (Function.update health i (health i).leave))
    | _ => none
  | .deliver t =>
    match s.clients[t]? with
    | some ⟨j,.delivering i⟩ => some (s.move t ⟨j,.delivering i⟩ .over s.health)
    | _ => none
  | .abandon t =>
    match s.clients[t]? with
    | some ⟨j,.attempting i r⟩ =>
      some (s.move t ⟨j,.attempting i r⟩ .over (Function.update s.health i (s.health i).leave))
    | some c => some (s.move t c .over s.health)
    | none => none
  | .probe i ok fails passes =>
    some ⟨Function.update s.health i ((s.health i).recordProbe ok fails passes),s.clients⟩

/-- A step that keeps the counts what they are to be: no count runs over, and the
attempt it settles does not answer the client. -/
def Meets (s : State) : Event → Prop
  | .select t stickyMs nowMs cursor => ∀ j r i, s.clients[t]? = some ⟨j,.choosing r⟩ →
      ({ g with health := s.health } : Group).selectPeerExcluding j.ctx stickyMs nowMs cursor r.tried = some i →
        j.pp.tls = false → s.served i + 1 < 2 ^ 32
  | .settle t p _ _ => ∀ j i r a, s.clients[t]? = some ⟨j,.attempting i r⟩ →
      j.attempt g.up i r p = .answered a → j.passesOn a = false
  | _ => True

/-- What a step does to the requests and the counts. -/
inductive Turn (s : State) (e : Event) : State → Prop
  | joins (c : Client) : (∀ i, c.phase.holds i = false ∧ c.phase.delivers i = false) → g.Meets s e →
      Turn s e ⟨s.health,s.clients ++ [c]⟩
  | rests {t : ℕ} {c : Client} {phase : Phase} : s.clients[t]? = some c → (∀ i, c.phase.holds i = false) →
      (∀ i, phase.holds i = false ∧ phase.delivers i = false) → g.Meets s e → Turn s e (s.move t c phase s.health)
  | enters {t i : ℕ} {j : Job} {r : Retry} : s.clients[t]? = some ⟨j,.choosing r⟩ →
      (g.Meets s e ↔ s.served i + 1 < 2 ^ 32) →
      Turn s e (s.move t ⟨j,.choosing r⟩ (.attempting i r) (Function.update s.health i (s.health i).enter))
  | leaves {t i : ℕ} {j : Job} {r : Retry} {phase : Phase} {health : Healths} :
      s.clients[t]? = some ⟨j,.attempting i r⟩ → (∀ k, phase.holds k = false) →
      (∀ k, (health k).inFlight = (s.health k).inFlight) → (g.Meets s e ↔ ∀ k, phase.delivers k = false) →
      Turn s e (s.move t ⟨j,.attempting i r⟩ phase (Function.update health i (health i).leave))
  | probes {health : Healths} : (∀ k, (health k).inFlight = (s.health k).inFlight) → g.Meets s e →
      Turn s e ⟨health,s.clients⟩

/-- The load is what it is said to be: each count is the number of requests served
through its peer, zero when there are none. -/
def State.Exact (s : State) : Prop := ∀ i, (s.health i).inFlight = s.served i

end Group

end Requests

section Health

theorem recordFailure_inFlight (h : PeerHealth) (now : ℕ) (maxFails : UInt32) (timeout : UInt64) :
    (h.recordFailure now maxFails timeout).inFlight = h.inFlight := by
  unfold PeerHealth.recordFailure PeerHealth.countFailure
  split
  · rfl
  · dsimp only
    split
    · split
      · rfl
      · rfl
    · split
      · rfl
      · rfl

theorem recordProbe_inFlight (h : PeerHealth) (ok : Bool) (fails passes : UInt32) :
    (h.recordProbe ok fails passes).inFlight = h.inFlight := by
  unfold PeerHealth.recordProbe
  dsimp only
  split
  · split
    · rfl
    · rfl
  · split
    · rfl
    · rfl

theorem update_inFlight {h : Healths} {i : ℕ} {x : PeerHealth} (hx : x.inFlight = (h i).inFlight) (k : ℕ) :
    (Function.update h i x k).inFlight = (h k).inFlight := by
  by_cases hk : k = i
  · subst hk
    rw [Function.update_self]
    exact hx
  · rw [Function.update_of_ne hk]

theorem note_inFlight {env : Env} {loc : Location} {peers : ℕ → PeerConf} {noteMs : ℕ → ℕ} {body : Bytes}
    {h : Healths} {t : Try} (k : ℕ) : (note env loc peers noteMs body h t k).inFlight = (h k).inFlight := by
  unfold note
  cases t.chosen with
  | none => rfl
  | some c =>
    dsimp only
    split
    · exact update_inFlight (recordFailure_inFlight _ _ _ _) k
    · rfl

theorem settle_inFlight {peers : ℕ → PeerConf} {switchMs : ℕ} {ctx : Ctx} {h : Healths} {t : Try} {out : Attempted}
    (k : ℕ) : (settle peers switchMs ctx h t out k).inFlight = (h k).inFlight := by
  unfold settle
  cases out with
  | status code => rfl
  | stale entry => rfl
  | answered a =>
    cases t.chosen with
    | none => rfl
    | some c =>
      dsimp only
      split
      · refine update_inFlight ?_ k
        rw [recordFailure_inFlight]
        rfl
      · have hkeep : ((h c.2).recordSuccess).inFlight = (h c.2).inFlight := rfl
        exact update_inFlight hkeep k

end Health

namespace Group
variable {g : Group} {s s' : State} {e : Event}

theorem settled_inFlight {j : Job} {i : ℕ} {p : Peer} {noteMs switchMs : ℕ} (out : Settled) (k : ℕ) :
    (g.settled s j i p noteMs switchMs out k).inFlight = (s.health k).inFlight := by
  unfold settled
  split
  · dsimp only
    rw [settle_inFlight,note_inFlight]
  · rw [note_inFlight]

theorem after_spec (j : Job) (i : ℕ) (out : Settled) (k : ℕ) : (after j i out).holds k = false ∧
    ((after j i out).delivers k = true → ∃ a, out = .answered a ∧ j.passesOn a = true) := by
  cases out with
  | again r => exact ⟨rfl,fun h => nomatch h⟩
  | failed => exact ⟨rfl,fun h => nomatch h⟩
  | answered a =>
    unfold after
    dsimp only
    split
    · rename_i hp
      exact ⟨rfl,fun _ => ⟨a,rfl,hp⟩⟩
    · exact ⟨rfl,fun h => nomatch h⟩

theorem next_turn (h : g.next s e = some s') : Turn g s e s' := by
  cases e with
  | arrive j =>
    cases h
    exact .joins _ (fun i => ⟨rfl,rfl⟩) trivial
  | select t stickyMs nowMs cursor =>
    simp only [next] at h
    split at h
    · rename_i j r hc
      split at h
      · rename_i hs
        cases h
        refine .rests hc (fun _ => rfl) (fun _ => ⟨rfl,rfl⟩) ?_
        intro j' r' i hc' hs'
        rw [hc] at hc'
        cases hc'
        rw [hs] at hs'
        cases hs'
      · rename_i i hs
        split at h
        · rename_i htls
          cases h
          refine .rests hc (fun _ => rfl) (fun _ => ⟨rfl,rfl⟩) ?_
          intro j' r' i' hc' _ htls'
          rw [hc] at hc'
          cases hc'
          rw [htls] at htls'
          cases htls'
        · rename_i htls
          cases h
          refine .enters hc ⟨fun hm => hm j r i hc hs (Bool.eq_false_iff.mpr htls),?_⟩
          intro hlt j' r' i' hc' hs' _
          rw [hc] at hc'
          cases hc'
          rw [hs] at hs'
          cases hs'
          exact hlt
    · cases h
  | settle t p noteMs switchMs =>
    simp only [next] at h
    split at h
    · rename_i j i r hc
      cases h
      refine .leaves hc (fun k => (after_spec _ _ _ k).1) (settled_inFlight _) ⟨?_,?_⟩
      · intro hm k
        cases hd : (after j i (j.attempt g.up i r p)).delivers k with
        | false => rfl
        | true =>
          obtain ⟨a,ha,hp⟩ := (after_spec _ _ _ k).2 hd
          rw [hm j i r a hc ha] at hp
          cases hp
      · intro hd j' i' r' a hc' ha
        rw [hc] at hc'
        cases hc'
        have hi := hd i
        rw [ha] at hi
        unfold after at hi
        cases hp : j.passesOn a with
        | false => rfl
        | true =>
          simp only [hp,if_true,Phase.delivers,beq_self_eq_true] at hi
          cases hi
    · cases h
  | deliver t =>
    simp only [next] at h
    split at h
    · rename_i hc
      cases h
      exact .rests hc (fun _ => rfl) (fun _ => ⟨rfl,rfl⟩) trivial
    · cases h
  | abandon t =>
    simp only [next] at h
    split at h
    · rename_i hc
      cases h
      exact .leaves hc (fun _ => rfl) (fun _ => rfl) ⟨fun _ _ => rfl,fun _ => trivial⟩
    · rename_i c hne hc
      cases h
      refine .rests hc (fun i => ?_) (fun _ => ⟨rfl,rfl⟩) trivial
      obtain ⟨j,phase⟩ := c
      cases phase with
      | attempting i r => exact absurd rfl (hne j i r)
      | _ => rfl
    · cases h
  | probe i ok fails passes =>
    cases h
    exact .probes (fun k => update_inFlight (recordProbe_inFlight _ _ _ _) k) trivial

/-- Every count follows the live guards. -/
def Balanced (s : State) : Prop :=
  ∀ i, Counter (2 ^ 32) (s.health i).inFlight (fun c => c.phase.holds i) s.clients

/-- No count has run over and nothing is being delivered. -/
def Clear (s : State) : Prop := ∀ i, s.held i < 2 ^ 32 ∧ s.delivered i = 0

theorem Balanced.exact_iff (hb : Balanced s) : s.Exact ↔ Clear s :=
  forall_congr' fun i => (hb i).eq_iff (Nat.two_pow_pos 32) (fun c => c.phase.delivers i)

theorem update_follows {h : Healths} {i : ℕ} {x : PeerHealth} {cs : List Client}
    (hi : Counter (2 ^ 32) x.inFlight (fun c => c.phase.holds i) cs)
    (hk : ∀ k, k ≠ i → Counter (2 ^ 32) (h k).inFlight (fun c => c.phase.holds k) cs) (k : ℕ) :
    Counter (2 ^ 32) (Function.update h i x k).inFlight (fun c => c.phase.holds k) cs := by
  by_cases hki : k = i
  · subst hki
    rw [Function.update_self]
    exact hi
  · rw [Function.update_of_ne hki]
    exact hk k hki

theorem Balanced.turn (hb : Balanced s) (h : Turn g s e s') : Balanced s' := by
  cases h with
  | joins c hc _ => exact fun i => (hb i).concat (hc i).1
  | rests hc hold hnew _ => exact fun i => (hb i).same hc ((hnew i).1.trans (hold i).symm)
  | enters hc _ =>
    refine update_follows ?_ (fun k hk => ?_)
    · exact (hb _).gain hc rfl (beq_self_eq_true _)
    · exact (hb k).same hc (beq_false_of_ne hk.symm)
  | leaves hc hnew hh _ =>
    refine update_follows ?_ (fun k hk => ?_)
    · unfold PeerHealth.leave
      dsimp only
      rw [hh]
      exact (hb _).lose (Nat.two_pow_pos 32) hc (beq_self_eq_true _) (hnew _)
    · rw [hh]
      exact (hb k).same hc ((hnew k).trans (beq_false_of_ne hk.symm).symm)
  | probes hh _ =>
    intro i
    dsimp only
    rw [hh]
    exact hb i

section Moves
variable {t i : ℕ} {c : Client} {phase : Phase} {health : Healths}

theorem held_move (h : s.clients[t]? = some c) (i : ℕ) : (s.move t c phase health).held i +
    (if c.phase.holds i then 1 else 0) = s.held i + (if phase.holds i then 1 else 0) :=
  countP_set (fun c : Client => c.phase.holds i) { c with phase := phase } h

theorem delivered_move (h : s.clients[t]? = some c) (i : ℕ) : (s.move t c phase health).delivered i +
    (if c.phase.delivers i then 1 else 0) = s.delivered i + (if phase.delivers i then 1 else 0) :=
  countP_set (fun c : Client => c.phase.delivers i) { c with phase := phase } h

end Moves

/-- A step keeps the counts clear exactly when it meets its condition. -/
theorem Clear.turn (hc : Clear s) (h : Turn g s e s') : Clear s' ↔ g.Meets s e := by
  cases h with
  | joins c hnew hm =>
    refine iff_of_true (fun i => ?_) hm
    obtain ⟨h1,h2⟩ := hc i
    unfold State.held State.delivered at *
    simp only [List.countP_append,List.countP_singleton,(hnew i).1,(hnew i).2,Bool.false_eq_true,if_false,Nat.add_zero]
    exact ⟨h1,h2⟩
  | @rests t c phase hget hold hnew hm =>
    refine iff_of_true (fun i => ?_) hm
    obtain ⟨h1,h2⟩ := hc i
    have hh := @held_move s t c phase s.health hget i
    have hd := @delivered_move s t c phase s.health hget i
    rw [hold i,(hnew i).1] at hh
    rw [(hnew i).2] at hd
    simp only [Bool.false_eq_true,if_false] at hh hd
    exact ⟨by omega,by omega⟩
  | @enters t i j r hget hm =>
    rw [hm]
    have hh := @held_move s t ⟨j,.choosing r⟩ (.attempting i r) (Function.update s.health i (s.health i).enter) hget
    have hd := @delivered_move s t ⟨j,.choosing r⟩ (.attempting i r) (Function.update s.health i (s.health i).enter)
      hget
    have hserved : s.served i = s.held i := by
      unfold State.served
      rw [(hc i).2,Nat.add_zero]
    rw [hserved]
    simp only [Phase.holds,beq_iff_eq,Bool.false_eq_true,if_false] at hh
    simp only [Phase.delivers,Bool.false_eq_true,if_false] at hd
    constructor
    · intro h
      have hi := hh i
      rw [if_pos rfl] at hi
      have hlt := (h i).1
      omega
    · intro h k
      have hk := hh k
      have hkd := hd k
      obtain ⟨h1,h2⟩ := hc k
      by_cases hik : i = k
      · subst hik
        rw [if_pos rfl] at hk
        exact ⟨by omega,by omega⟩
      · rw [if_neg hik] at hk
        exact ⟨by omega,by omega⟩
  | @leaves t i j r phase health hget hnew hh hm =>
    rw [hm]
    have hheld := @held_move s t ⟨j,.attempting i r⟩ phase (Function.update health i (health i).leave) hget
    have hd := @delivered_move s t ⟨j,.attempting i r⟩ phase (Function.update health i (health i).leave) hget
    constructor
    · intro h k
      have hk := hd k
      have h0 := (h k).2
      cases hdk : phase.delivers k with
      | false => rfl
      | true =>
        rw [hdk,if_pos rfl] at hk
        simp only [Phase.delivers,Bool.false_eq_true,if_false] at hk
        omega
    · intro h k
      obtain ⟨h1,h2⟩ := hc k
      have hk := hheld k
      have hkd := hd k
      rw [hnew k] at hk
      rw [h k] at hkd
      simp only [Phase.delivers,Bool.false_eq_true,if_false] at hk hkd
      exact ⟨by omega,by omega⟩
  | probes hh hm => exact iff_of_true hc hm

theorem balanced_new : Balanced .new := fun _ => rfl

theorem clear_new : Clear .new := fun _ => ⟨Nat.two_pow_pos 32,rfl⟩

theorem run_balanced {es : List Event} (hr : Runs (stepRel g.next) .new es s) : Balanced s :=
  hr.invariant (I := fun _ => Balanced) balanced_new fun _ _ _ _ _ hb hn => hb.turn (next_turn hn)

/-- In every state of a run each count is the number of requests served through its
peer exactly when every step meets its condition. It is zero when there are none. -/
theorem load_exact_iff (g : Group) (es : List Event) (s : State) (hr : Runs (stepRel g.next) .new es s) :
    ((∀ ks ls u, es = ks ++ ls → Runs (stepRel g.next) .new ks u → u.Exact) ↔
      ∀ ks e ls u, es = ks ++ e :: ls → Runs (stepRel g.next) .new ks u → g.Meets u e) ∧
      ∀ i, s.served i = 0 → (s.health i).inFlight = 0 := by
  refine ⟨⟨?_,?_⟩,?_⟩
  · intro hex ks e ls u hes hu
    have hrun := hr.runList_eq
    rw [hes,runList_append,hu.runList_eq,Option.bind_some] at hrun
    obtain ⟨v,hv,-⟩ := Option.bind_eq_some_iff.mp hrun
    have hub := run_balanced hu
    have hnext := next_turn hv
    have hu' := hub.exact_iff.mp (hex ks (e :: ls) u hes hu)
    have hv' := (hub.turn hnext).exact_iff.mp
      (hex (ks ++ [e]) ls v (by rw [hes,List.append_assoc,List.singleton_append]) (.snoc hu hv))
    exact (hu'.turn hnext).mp hv'
  · intro hm
    have hclear : ∀ ks u, Runs (stepRel g.next) .new ks u → ∀ ls, es = ks ++ ls → Clear u := by
      intro ks u hu
      induction hu with
      | nil => exact fun _ _ => clear_new
      | @snoc ks e v w hv he ih =>
        intro ls hes
        rw [List.append_assoc,List.singleton_append] at hes
        exact ((ih _ hes).turn (next_turn he)).mpr (hm ks e ls v hes hv)
    exact fun ks ls u hes hu => (run_balanced hu).exact_iff.mpr (hclear ks u hu ls hes)
  · intro i hz
    have hb := run_balanced hr i
    have hheld : s.clients.countP (fun c => c.phase.holds i) = 0 := (Nat.add_eq_zero_iff.mp hz).1
    unfold Counter at hb
    rw [hheld] at hb
    exact hb

/-- Two servers that balance on their load. -/
def leastLoaded : Group := ⟨twoPeers,.leastConn,twoFails,fun _ => .default⟩

def okHead : Bytes := lit "HTTP/1.1 200 OK\r\nContent-Length: 5\r\n\r\n"

/-- A request for the group, where a head that is complete is parsed. -/
def okJob : Job where
  env := { Env.idle with
    parseResponse := fun b =>
      if b = okHead then .ok (some ⟨okHead.length,some 200,[(lit "Content-Length",lit "5")]⟩) else .ok none }
  ctx := groupCtx
  loc := .bare (.pfx (lit "/")) (.proxy toGroup)
  pp := toGroup
  cache := none
  stale := none

/-- A server that refuses the connection, and one that answers with a body to come. -/
def refusing : Peer := ⟨false,false,true,true,[],false,false⟩

def answering : Peer := ⟨false,true,true,true,[.data okHead,.data (lit "hello")],false,false⟩

/-- A request that is made to one server, up to the end of the attempt. -/
def oneAttempt (p : Peer) : List Event := [.arrive okJob,.select 0 0 0 0,.settle 0 p 0 0]

theorem oneAttempt_refused : ∃ s, Runs (stepRel leastLoaded.next) .new (oneAttempt refusing) s ∧
    ∀ ks ls u, oneAttempt refusing = ks ++ ls → Runs (stepRel leastLoaded.next) .new ks u → u.Exact := by
  have hrun : (runList leastLoaded.next .new (oneAttempt refusing)).isSome = true := by decide +kernel
  obtain ⟨s,hs⟩ := Option.isSome_iff_exists.mp hrun
  have hr : Runs (stepRel leastLoaded.next) .new (oneAttempt refusing) s := .of_runList hs
  refine ⟨s,hr,(load_exact_iff leastLoaded (oneAttempt refusing) s hr).1.mpr ?_⟩
  intro ks e ls u hes hu
  have hrl := hu.runList_eq
  rcases ks with _ | ⟨a,_ | ⟨b,_ | ⟨c,ks⟩⟩⟩
  · cases hes
    trivial
  · cases hes
    cases hrl
    intro j r i _ _ _
    exact Nat.one_lt_two_pow (by decide)
  · cases hes
    cases hrl
    intro j i r a hc ha
    cases hc
    cases ha
  · simp only [oneAttempt,List.cons_append,List.cons.injEq] at hes
    obtain ⟨-,-,-,hes⟩ := hes
    simp at hes

/-- With the head received the server counts as idle while its response is delivered. -/
theorem oneAttempt_answered : ∃ s, Runs (stepRel leastLoaded.next) .new (oneAttempt answering) s ∧
    ¬ ∀ ks ls u, oneAttempt answering = ks ++ ls → Runs (stepRel leastLoaded.next) .new ks u → u.Exact := by
  have hrun : (runList leastLoaded.next .new (oneAttempt answering)).map
      (fun s => (s.served 0,(s.health 0).inFlight)) = some (1,0) := by decide +kernel
  obtain ⟨s,hs,hcounts⟩ := Option.map_eq_some_iff.mp hrun
  have hr : Runs (stepRel leastLoaded.next) .new (oneAttempt answering) s := .of_runList hs
  refine ⟨s,hr,fun h => ?_⟩
  obtain ⟨hserved,hload⟩ := Prod.mk.inj hcounts
  have hexact := h (oneAttempt answering) [] s (List.append_nil _).symm hr 0
  rw [hserved,hload] at hexact
  cases hexact

end Group

end OxiServe.Server
