import Mathlib.Logic.Function.Basic
import OxiServe.Server.Retries

/-! # A listed status as a failure

What a proxied request does to the health of the peers it tries: each failure is
noted where it happens, and the peer whose head ends the loop is cleared after it.
-/
namespace OxiServe.Server
open Config

namespace PeerHealth

/-- The failures of the window that is open, if one is. -/
def failCount (h : PeerHealth) (nowMs failTimeoutMs : ℕ) : ℕ :=
  if h.fails = 0 ∨ failTimeoutMs < nowMs - h.windowStartMs then 0 else h.fails

theorem failCount_of_fails {h : PeerHealth} (hf : h.fails = 0) (now timeout : ℕ) : h.failCount now timeout = 0 :=
  if_pos (Or.inl hf)

theorem failCount_countFailure {h : PeerHealth} {now timeout : ℕ} (hc : h.failCount now timeout + 1 < 2 ^ 32) :
    (h.countFailure now timeout).failCount now timeout = h.failCount now timeout + 1 := by
  unfold failCount at hc ⊢
  unfold countFailure
  by_cases hw : h.fails = 0 ∨ timeout < now - h.windowStartMs
  · rw [if_pos hw]
    rw [if_pos hw,if_neg]
    dsimp only
    omega
  · rw [if_neg hw] at hc ⊢
    rw [if_neg hw]
    have hs : succ32 h.fails = h.fails + 1 := Nat.mod_eq_of_lt hc
    dsimp only
    rw [hs,if_neg]
    omega

/-- A counter that wraps around stands at zero again. -/
theorem countFailure_wraps {h : PeerHealth} {now timeout : ℕ} (hf : h.fails < 2 ^ 32)
    (hc : ¬ h.failCount now timeout + 1 < 2 ^ 32) : h.countFailure now timeout = { h with fails := 0 } := by
  unfold failCount at hc
  unfold countFailure
  by_cases hw : h.fails = 0 ∨ timeout < now - h.windowStartMs
  · rw [if_pos hw] at hc
    omega
  · rw [if_neg hw] at hc ⊢
    have hs : succ32 h.fails = 0 := by
      unfold succ32
      omega
    rw [hs]

theorem failCount_penalty (h : PeerHealth) (penalty now timeout : ℕ) :
    ({ h with downUntilMs := penalty }).failCount now timeout = h.failCount now timeout := rfl

/-- One failure more than before, or the peer is out. -/
def CountedOnce (before later : PeerHealth) (nowMs failTimeoutMs : ℕ) : Prop :=
  later.failCount nowMs failTimeoutMs = before.failCount nowMs failTimeoutMs + 1 ∨ later.isDown nowMs = true

/-- A failure is counted, or its peer is out, unless failures do not count or the
counter wraps around. -/
theorem recordFailure_counts_iff {h : PeerHealth} {now : ℕ} {maxFails : UInt32} {failTimeoutMs : UInt64}
    (hf : h.fails < 2 ^ 32) :
    CountedOnce h (h.recordFailure now maxFails failTimeoutMs) now failTimeoutMs.toNat ↔
      h.isDown now = true ∨ maxFails ≠ 0 ∧ h.failCount now failTimeoutMs.toNat + 1 < 2 ^ 32 := by
  unfold CountedOnce recordFailure
  by_cases hm : maxFails = 0
  · rw [if_pos hm]
    constructor
    · intro h
      rcases h with h | h
      · exact absurd h (Nat.succ_ne_self _).symm
      · exact Or.inl h
    · intro h
      rcases h with h | h
      · exact Or.inr h
      · exact absurd hm h.1
  · rw [if_neg hm]
    by_cases hc : h.failCount now failTimeoutMs.toNat + 1 < 2 ^ 32
    · refine iff_of_true (Or.inl ?_) (Or.inr ⟨hm,hc⟩)
      dsimp only
      split
      · rw [failCount_penalty]
        exact failCount_countFailure hc
      · exact failCount_countFailure hc
    · have hpos : ¬ maxFails.toNat ≤ 0 := by
        intro hz
        exact hm (UInt32.toNat_inj.mp (Nat.le_zero.mp hz))
      rw [countFailure_wraps hf hc]
      simp only [if_neg hpos]
      rw [failCount_of_fails rfl]
      constructor
      · intro h
        rcases h with h | h
        · exact absurd h (Nat.succ_ne_zero _).symm
        · exact Or.inl h
      · intro h
        rcases h with h | h
        · exact Or.inr h
        · exact absurd h.2 hc

theorem fails_recordFailure_lt {h : PeerHealth} (hf : h.fails < 2 ^ 32) (now : ℕ) (maxFails : UInt32)
    (failTimeoutMs : UInt64) : (h.recordFailure now maxFails failTimeoutMs).fails < 2 ^ 32 := by
  have hc : (h.countFailure now failTimeoutMs.toNat).fails < 2 ^ 32 := by
    unfold countFailure
    split
    · dsimp only
      omega
    · exact Nat.mod_lt _ (by decide)
  unfold recordFailure
  split
  · exact hf
  · dsimp only
    split
    · exact hc
    · exact hc

/-- A success after it leaves nothing of a failure but what the probes say. -/
theorem success_counts_iff {h s : PeerHealth} {now timeout : ℕ} (hp : s.probeDown = h.probeDown) :
    CountedOnce h s.recordSuccess now timeout ↔ h.probeDown = true := by
  unfold CountedOnce
  have hd : s.recordSuccess.isDown now = h.probeDown := by
    simp [isDown,recordSuccess,hp]
  rw [failCount_of_fails rfl,hd]
  constructor
  · intro h
    rcases h with h | h
    · exact absurd h (Nat.succ_ne_zero _).symm
    · exact h
  · exact Or.inr

theorem probeDown_recordFailure (h : PeerHealth) (now : ℕ) (maxFails : UInt32) (failTimeoutMs : UInt64) :
    (h.recordFailure now maxFails failTimeoutMs).probeDown = h.probeDown := by
  unfold recordFailure countFailure
  split
  · rfl
  · split
    · dsimp only
      split
      · rfl
      · rfl
    · dsimp only
      split
      · rfl
      · rfl

end PeerHealth

section Notes

/-- Whether what a peer does is held against it. A connection from the pool that
is dead is not, nor is a head whose status is not listed. -/
def notesFailure (env : Env) (body : Bytes) (conf : ProxyConf) (p : Peer) : Bool :=
  if !p.reused && !p.connects then true
  else if !p.takesHead then !p.reused
  else if body ≠ [] && !p.takesBody then true
  else
    match readHead env (Source.size p.reads + 1) p.reads [] with
    | .ended => !(p.reused && (Source.read 8192 p.reads).1 == .data [])
    | .failed => p.timesOut || !(p.reused && (Source.read 8192 p.reads).1 == .failed)
    | .tooLong => true
    | .invalid => true
    | .complete _ head _ => conf.nextUpstream.statuses.contains (head.code.getD 502)

theorem notesFailure_of_answers {env : Env} {ctx : Ctx} {conf : ProxyConf} {chosen : Option (Upstream × ℕ)}
    {p : Peer} {a : Answer} (h : exchangeHead env ctx conf chosen p = .answers a) :
    notesFailure env ctx.body conf p = conf.nextUpstream.statuses.contains a.status := by
  simp only [exchangeHead] at h
  unfold notesFailure
  split at h
  · cases h
  · rename_i h₁
    rw [if_neg h₁]
    split at h
    · cases h
    · rename_i h₂
      rw [if_neg h₂]
      split at h
      · cases h
      · rename_i h₃
        rw [if_neg h₃]
        cases hr : readHead env (Source.size p.reads + 1) p.reads [] with
        | complete buf head rest =>
          rw [hr] at h
          cases h
          rfl
        | ended =>
          rw [hr] at h
          cases h
        | failed =>
          rw [hr] at h
          dsimp only at h
          split at h
          · cases h
          · cases h
        | tooLong =>
          rw [hr] at h
          cases h
        | invalid =>
          rw [hr] at h
          cases h

/-- The health of the peers of a group, by index. -/
abbrev Healths := ℕ → PeerHealth

variable (env : Env) (loc : Location) (pp : ProxyPass) (mayRetry : Bool) (cache : Option CacheCtx)
variable (stale : Option Decoded) (peers : ℕ → PeerConf) (noteMs : ℕ → ℕ) (switchMs : ℕ)

/-- `note_failure` at one try. -/
def note (body : Bytes) (h : Healths) (t : Try) : Healths :=
  match t.chosen with
  | none => h
  | some (_,i) =>
    if notesFailure env body loc.core.proxy t.peer then
      Function.update h i ((h i).recordFailure (noteMs t.k) (peers i).maxFails (peers i).failTimeoutMs)
    else h

/-- What follows the loop: the peer whose head ended it is cleared, and noted again
when it switches protocols unasked. -/
def settle (ctx : Ctx) (h : Healths) (t : Try) : Attempted → Healths
  | .answered a =>
    match t.chosen with
    | none => h
    | some (_,i) =>
      let s := (h i).recordSuccess
      if answerStatus a = 101 && (ctx.req.hotValue ctx.buf .upgrade).isNone then
        Function.update h i (s.recordFailure switchMs (peers i).maxFails (peers i).failTimeoutMs)
      else Function.update h i s
  | _ => h

/-- The health after the passes of the loop and what follows them. -/
def healthAfter : ℕ → ℕ → Ctx → Retry → Healths → Healths
  | 0, _, _, _, h => h
  | fuel + 1, k, ctx, r, h =>
    match peerPass env loc pp mayRetry cache stale k ctx r with
    | .quits _ => h
    | .ends t out => settle peers switchMs ctx (note env loc peers noteMs ctx.body h t) t out.2
    | .again t ctx' r => healthAfter fuel (k + 1) ctx' r (note env loc peers noteMs ctx.body h t)

variable {env loc pp mayRetry cache stale peers noteMs switchMs}

theorem note_of_ne {body : Bytes} {h : Healths} {t : Try} {up : Upstream} {i j : ℕ} (ht : t.chosen = some (up,j))
    (hne : i ≠ j) : note env loc peers noteMs body h t i = h i := by
  unfold note
  rw [ht]
  dsimp only
  split
  · exact Function.update_of_ne hne _ _
  · rfl

theorem settle_of_ne {ctx : Ctx} {h : Healths} {t : Try} {out : Attempted} {up : Upstream} {i j : ℕ}
    (ht : t.chosen = some (up,j)) (hne : i ≠ j) : settle peers switchMs ctx h t out i = h i := by
  cases out with
  | status code => rfl
  | stale entry => rfl
  | answered a =>
    simp only [settle,ht]
    split
    · exact Function.update_of_ne hne _ _
    · exact Function.update_of_ne hne _ _

/-- A listed status is noted. -/
theorem note_listed {ctx : Ctx} {h : Healths} {t : Try} {up : Upstream} {i : ℕ} {a : Answer}
    (ht : t.chosen = some (up,i)) (ho : t.outcome = exchangeHead env ctx loc.core.proxy t.chosen t.peer)
    (ha : t.outcome = .answers a) (hl : a.status ∈ loc.core.proxy.nextUpstream.statuses) :
    note env loc peers noteMs ctx.body h t i =
      (h i).recordFailure (noteMs t.k) (peers i).maxFails (peers i).failTimeoutMs := by
  rw [ha] at ho
  unfold note
  rw [ht]
  dsimp only
  rw [notesFailure_of_answers ho.symm,if_pos (List.contains_iff_mem.mpr hl),Function.update_self]

/-- After a listed status that is the client's answer, its peer is cleared. -/
theorem settle_listed {ctx : Ctx} {h : Healths} {t : Try} {up : Upstream} {i : ℕ} {a : Answer}
    (ht : t.chosen = some (up,i)) (hs : answerStatus a ≠ 101) :
    settle peers switchMs ctx h t (.answered a) i = (h i).recordSuccess := by
  simp only [settle,ht]
  rw [if_neg (by simp [hs]),Function.update_self]

theorem update_fails_lt {h : Healths} (hf : ∀ i, (h i).fails < 2 ^ 32) {s : PeerHealth} (hs : s.fails < 2 ^ 32)
    (j i : ℕ) : (Function.update h j s i).fails < 2 ^ 32 := by
  by_cases hij : i = j
  · rw [hij,Function.update_self]
    exact hs
  · rw [Function.update_of_ne hij]
    exact hf i

theorem note_fails_lt {body : Bytes} {h : Healths} {t : Try} (hf : ∀ i, (h i).fails < 2 ^ 32) (i : ℕ) :
    (note env loc peers noteMs body h t i).fails < 2 ^ 32 := by
  unfold note
  cases t.chosen with
  | none => exact hf i
  | some c =>
    dsimp only
    split
    · exact update_fails_lt hf (PeerHealth.fails_recordFailure_lt (hf c.2) _ _ _) _ i
    · exact hf i

theorem settle_fails_lt {ctx : Ctx} {h : Healths} {t : Try} {out : Attempted} (hf : ∀ i, (h i).fails < 2 ^ 32)
    (i : ℕ) : (settle peers switchMs ctx h t out i).fails < 2 ^ 32 := by
  cases out with
  | status code => exact hf i
  | stale entry => exact hf i
  | answered a =>
    have h0 : ∀ j, (h j).recordSuccess.fails < 2 ^ 32 := fun _ => Nat.two_pow_pos 32
    unfold settle
    cases t.chosen with
    | none => exact hf i
    | some c =>
      dsimp only
      split
      · exact update_fails_lt hf (PeerHealth.fails_recordFailure_lt (h0 c.2) _ _ _) _ i
      · exact update_fails_lt hf (h0 c.2) _ i

theorem healthAfter_fails_lt {fuel k : ℕ} {ctx : Ctx} {r : Retry} {h : Healths} (hf : ∀ i, (h i).fails < 2 ^ 32)
    (i : ℕ) :
    (healthAfter env loc pp mayRetry cache stale peers noteMs switchMs fuel k ctx r h i).fails < 2 ^ 32 := by
  induction fuel generalizing k ctx r h with
  | zero => exact hf i
  | succ fuel ih =>
    simp only [healthAfter]
    cases peerPass env loc pp mayRetry cache stale k ctx r with
    | quits out => exact hf i
    | ends t out => exact settle_fails_lt (note_fails_lt hf) i
    | again t ctx' r' => exact ih (note_fails_lt hf)

variable {name : Bytes} {up : Upstream}

/-- The health of a peer that is not tried stays as it is. -/
theorem healthAfter_of_not_tried (ht : pp.target = .upstream name) {fuel k : ℕ} {ctx : Ctx} {r : Retry}
    {h : Healths} {log : List Try} (hu : ctx.http.upstreams.lookup name = some up)
    (hl : tries env loc pp mayRetry cache stale fuel k ctx r = some log) {i : ℕ}
    (hi : ∀ t ∈ log, t.chosen ≠ some (up,i)) :
    healthAfter env loc pp mayRetry cache stale peers noteMs switchMs fuel k ctx r h i = h i := by
  induction fuel generalizing k ctx r h log with
  | zero => rfl
  | succ fuel ih =>
    simp only [tries] at hl
    simp only [healthAfter]
    cases hp : peerPass env loc pp mayRetry cache stale k ctx r with
    | quits out => rfl
    | ends t out =>
      rw [hp] at hl
      cases hl
      obtain ⟨addr,hd⟩ := (peerPass_ends hp).dest
      obtain ⟨j,hc,-⟩ := destination_group ht hu hd
      have hne : i ≠ j := by
        intro hij
        rw [hij] at hi
        exact hi t List.mem_cons_self hc
      dsimp only
      rw [settle_of_ne hc hne,note_of_ne hc hne]
    | again t ctx' r' =>
      rw [hp] at hl
      obtain ⟨rest,hr,hcons⟩ := Option.map_eq_some_iff.mp hl
      rw [← hcons] at hi
      have hf := peerPass_again hp
      obtain ⟨addr,hd⟩ := hf.dest
      obtain ⟨addr',hctx⟩ := hf.ctx
      obtain ⟨j,hc,-⟩ := destination_group ht hu hd
      have hne : i ≠ j := by
        intro hij
        rw [hij] at hi
        exact hi t List.mem_cons_self hc
      have hu' : ctx'.http.upstreams.lookup name = some up := by
        rw [hctx]
        exact hu
      dsimp only
      rw [ih hu' hr (fun u hm => hi u (List.mem_cons_of_mem _ hm)),note_of_ne hc hne]

/-- The request may go on to another peer after a try. -/
def GoesOn (conf : ProxyConf) (up : Upstream) (mayRetry : Bool) (t : Try) : Prop :=
  mayRetry = true ∧ ¬ (0 < conf.nextUpstreamTimeout ∧ t.peer.pastDeadline = true) ∧
    (conf.nextUpstreamTries = 0 ∨ t.k + 1 < conf.nextUpstreamTries) ∧ t.k + 1 < up.servers.length

/-- A listed status ends the loop only when the request may not go on. -/
theorem Ends.not_goesOn {k : ℕ} {ctx : Ctx} {r : Retry} {t : Try} {out : Attempted} {i : ℕ} {a : Answer}
    (h : Ends env loc pp mayRetry k ctx r t out) (hk : r.tried.length = k) (hn : i ∉ r.tried)
    (hi : t.chosen = some (up,i)) (ha : t.outcome = .answers a)
    (hs : a.status ∈ loc.core.proxy.nextUpstream.statuses) : ¬ GoesOn loc.core.proxy up mayRetry t := by
  intro hg
  have hf := (h.final a ha).2 hs
  rw [hi] at hf
  unfold GoesOn at hg
  rw [h.count,← hk] at hg
  rw [(nextPeer_fst_iff hn).mpr hg] at hf
  cases hf

theorem Follows.goesOn {k : ℕ} {ctx ctx' : Ctx} {r r' : Retry} {t : Try} {i : ℕ} {a : Answer}
    (h : Follows env loc pp mayRetry k ctx r t ctx' r') (hk : r.tried.length = k) (hn : i ∉ r.tried)
    (hi : t.chosen = some (up,i)) (ha : t.outcome = .answers a) : GoesOn loc.core.proxy up mayRetry t := by
  have hf := congrArg Prod.fst (h.listed a ha).2
  rw [hi] at hf
  unfold GoesOn
  rw [h.count,← hk]
  exact (nextPeer_fst_iff hn).mp hf

/-- A listed status is counted by the pass that receives it when another may
follow, and cleared after the loop when none may. -/
theorem listed_counts (ht : pp.target = .upstream name)
    (hsel : ∀ clock k tried i, env.selectPeer clock k name tried = some i → i < up.servers.length ∧ i ∉ tried)
    (hcodes : ∀ a : Answer, a.status ∈ loc.core.proxy.nextUpstream.statuses → answerStatus a ≠ 101)
    {fuel k : ℕ} {ctx : Ctx} {r : Retry} {h : Healths} {log : List Try}
    (hu : ctx.http.upstreams.lookup name = some up) (hf : up.servers.length + 1 ≤ fuel + r.tried.length)
    (hroom : Room loc.core.proxy up r.tried) (hk : r.tried.length = k)
    (hl : tries env loc pp mayRetry cache stale fuel k ctx r = some log) {t : Try} (hm : t ∈ log) {a : Answer}
    (ha : t.outcome = .answers a) (hs : a.status ∈ loc.core.proxy.nextUpstream.statuses) {i : ℕ}
    (hi : t.chosen = some (up,i)) (hw : (h i).fails < 2 ^ 32) :
    (h i).CountedOnce (healthAfter env loc pp mayRetry cache stale peers noteMs switchMs fuel k ctx r h i)
        (noteMs t.k) (peers i).failTimeoutMs.toNat ↔
      (h i).probeDown = true ∨ GoesOn loc.core.proxy up mayRetry t ∧
        ((h i).isDown (noteMs t.k) = true ∨
          (peers i).maxFails ≠ 0 ∧ (h i).failCount (noteMs t.k) (peers i).failTimeoutMs.toNat + 1 < 2 ^ 32) := by
  induction fuel generalizing k ctx r h log with
  | zero => cases hl
  | succ fuel ih =>
    simp only [tries] at hl
    simp only [healthAfter]
    cases hp : peerPass env loc pp mayRetry cache stale k ctx r with
    | quits out =>
      rw [hp] at hl
      cases hl
      cases hm
    | ends t₀ out =>
      rw [hp] at hl
      cases hl
      rw [List.mem_singleton.mp hm] at ha hi ⊢
      have he := peerPass_ends hp
      obtain ⟨addr,hd⟩ := he.dest
      obtain ⟨j,hc,hj⟩ := destination_group ht hu hd
      have hn := (hsel _ _ _ _ hj).2
      rw [hi] at hc
      cases hc
      have hstop := he.not_goesOn hk hn hi ha hs
      dsimp only
      rw [(he.final a ha).1,settle_listed hi (hcodes a hs),note_listed hi he.outcome ha hs,
        PeerHealth.success_counts_iff (PeerHealth.probeDown_recordFailure _ _ _ _)]
      exact ⟨Or.inl,fun hx => hx.elim id (fun hx => absurd hx.1 hstop)⟩
    | again t₀ ctx' r' =>
      rw [hp] at hl
      obtain ⟨rest,hr,hcons⟩ := Option.map_eq_some_iff.mp hl
      have hg := peerPass_again hp
      obtain ⟨j,-,hn,hc,-,htried,hlen,hu',hroom'⟩ := hg.onward ht hsel hu
      obtain ⟨rest',hr',hsafe⟩ := @tries_safe up mayRetry env loc pp cache stale name ht hsel fuel (k + 1) ctx' r'
        hu' (by omega) hroom'
      rw [hr] at hr'
      cases hr'
      dsimp only
      rw [← hcons] at hm
      rcases List.mem_cons.mp hm with hm | hm
      · rw [hm] at ha hi ⊢
        rw [hi] at hc
        cases hc
        have hfar : ∀ u ∈ rest, u.chosen ≠ some (up,i) := by
          intro u hu hui
          obtain ⟨j',-,hnj,hcj⟩ := hsafe.peers u hu
          rw [hcj] at hui
          cases hui
          rw [htried] at hnj
          exact hnj (List.mem_append_right _ List.mem_cons_self)
        have hon := hg.goesOn hk hn hi ha
        rw [healthAfter_of_not_tried ht hu' hr hfar,note_listed hi hg.outcome ha hs,
          PeerHealth.recordFailure_counts_iff hw]
        constructor
        · intro hx
          exact Or.inr ⟨hon,hx⟩
        · intro hx
          rcases hx with hx | hx
          · exact Or.inl (by rw [PeerHealth.isDown,hx,Bool.true_or])
          · exact hx.2
      · have hne : i ≠ j := by
          intro hij
          obtain ⟨j',-,hnj,hcj⟩ := hsafe.peers t hm
          rw [hi] at hcj
          cases hcj
          rw [htried,hij] at hnj
          exact hnj (List.mem_append_right _ List.mem_cons_self)
        have hsame : note env loc peers noteMs ctx.body h t₀ i = h i := note_of_ne hc hne
        have hrec := @ih (k + 1) ctx' r' (note env loc peers noteMs ctx.body h t₀) rest hu' (by omega) hroom'
          (by omega) hr hm (by rw [hsame]; exact hw)
        rw [hsame] at hrec
        exact hrec

end Notes

section Sequence

/-- The statuses that `proxy_next_upstream` accepts. -/
def listableStatuses : List ℕ := [403,404,429,500,502,503,504]

/-- A request to one group, with the world it meets and the times of its failures. -/
structure Sent (name : Bytes) (up : Upstream) (peers : ℕ → PeerConf) where
  env : Env
  balancing : Balancing
  ctx : Ctx
  loc : Location
  pp : ProxyPass
  cache : Option CacheCtx
  stale : Option Decoded
  noteMs : ℕ → ℕ
  switchMs : ℕ
  target : pp.target = .upstream name
  known : ctx.http.upstreams.lookup name = some up
  configured : balancing.conf name = peers
  listable : ∀ c ∈ loc.core.proxy.nextUpstream.statuses, c ∈ listableStatuses

variable {name : Bytes} {up : Upstream} {peers : ℕ → PeerConf}

namespace Sent

def world (s : Sent name up peers) : Env := s.env.selecting s.ctx s.balancing

def tries (s : Sent name up peers) : Option (List Try) :=
  requestTries s.world s.loc s.pp s.cache s.stale s.ctx

def mayRetry (s : Sent name up peers) : Bool := retryable s.loc.core.proxy s.ctx.req.method

/-- The health of the peers when the request is done. -/
def after (s : Sent name up peers) (h : Healths) : Healths :=
  healthAfter s.world s.loc s.pp s.mayRetry s.cache s.stale peers s.noteMs s.switchMs (attemptFuel s.ctx s.pp) 0
    s.ctx ⟨[],none⟩ h

/-- The health after requests one after another. -/
def afterAll (h : Healths) (ss : List (Sent name up peers)) : Healths := ss.foldl (fun h s => s.after h) h

theorem afterAll_fails_lt {h : Healths} (hw : ∀ i, (h i).fails < 2 ^ 32) (ss : List (Sent name up peers)) (i : ℕ) :
    (afterAll h ss i).fails < 2 ^ 32 := by
  induction ss generalizing h with
  | nil => exact hw i
  | cons s ss ih => exact ih (fun j => healthAfter_fails_lt hw j)

theorem answerStatus_ne {s : Sent name up peers} {a : Answer}
    (h : a.status ∈ s.loc.core.proxy.nextUpstream.statuses) : answerStatus a ≠ 101 := by
  have hl := s.listable a.status h
  unfold answerStatus
  split
  · decide
  · intro he
    rw [he] at hl
    exact absurd hl (by decide)

/-- After any requests, a listed status leaves its peer with one failure more, or
out, exactly when the request goes on to another peer and failures count, unless
the peer is out already. -/
theorem listed_counted_iff {h : Healths} (hw : ∀ i, (h i).fails < 2 ^ 32) (past : List (Sent name up peers))
    (s : Sent name up peers) {log : List Try} (hl : s.tries = some log) {t : Try} (hm : t ∈ log) {a : Answer}
    (ha : t.outcome = .answers a) (hs : a.status ∈ s.loc.core.proxy.nextUpstream.statuses) {i : ℕ}
    (hi : t.chosen = some (up,i)) :
    (afterAll h past i).CountedOnce (afterAll h (past ++ [s]) i) (s.noteMs t.k) (peers i).failTimeoutMs.toNat ↔
      (afterAll h past i).probeDown = true ∨ GoesOn s.loc.core.proxy up s.mayRetry t ∧
        ((afterAll h past i).isDown (s.noteMs t.k) = true ∨ (peers i).maxFails ≠ 0 ∧
          (afterAll h past i).failCount (s.noteMs t.k) (peers i).failTimeoutMs.toNat + 1 < 2 ^ 32) := by
  have hf : up.servers.length + 1 ≤ attemptFuel s.ctx s.pp + ([] : List ℕ).length := by
    simp only [attemptFuel,s.target,s.known,List.length_nil,Nat.add_zero]
    exact Nat.le_refl _
  have hall : afterAll h (past ++ [s]) = s.after (afterAll h past) := by
    unfold afterAll
    rw [List.foldl_append]
    rfl
  rw [hall]
  exact @listed_counts s.world s.loc s.pp s.mayRetry s.cache s.stale peers s.noteMs s.switchMs name up s.target
    (fun _ _ _ _ hx => selecting_spec s.known hx) (fun _ hx => answerStatus_ne hx) (attemptFuel s.ctx s.pp) 0 s.ctx
    ⟨[],none⟩ (afterAll h past) log s.known hf room_nil rfl hl t hm a ha hs i hi (afterAll_fails_lt hw past i)

end Sent

/-- Every peer answers with a bad gateway. -/
def badGateways : Env :=
  { Env.idle with
    peer := fun _ _ _ => ⟨false,true,true,true,[.data (lit "HTTP/1.1 502 Bad\r\n\r\n")],false,false⟩
    parseResponse := fun b => .ok (some ⟨b.length,some 502,[]⟩) }

/-- A location that retries a bad gateway, with the given limit of tries. -/
def retriesBadGateway (limit : ℕ) : Location :=
  let conf := { ProxyConf.default with nextUpstream := ⟨true,true,false,[502],false,false⟩, nextUpstreamTries := limit }
  { Location.bare (.pfx (lit "/")) (.proxy toGroup) with core := { defaultCore with proxy := conf } }

def twoFails : ℕ → PeerConf := fun _ => ⟨1,2,10000,false,false⟩

def sentWithin (limit : ℕ) : Sent (lit "app") twoPeers twoFails where
  env := badGateways
  balancing := { allUp with conf := fun _ => twoFails }
  ctx := groupCtx
  loc := retriesBadGateway limit
  pp := toGroup
  cache := none
  stale := none
  noteMs := fun k => k
  switchMs := 9
  target := rfl
  known := rfl
  configured := rfl
  listable := by
    intro c hc
    rw [List.mem_singleton.mp hc]
    decide

def allHealthy : Healths := fun _ => .default

/-- What a peer of the group answers. -/
def gatewayTry (k : ℕ) : Try where
  k := k
  chosen := some (twoPeers,k)
  peer := badGateways.peer 0 k []
  outcome := .answers ⟨(twoPeers.servers[k]?).map (fun s => (twoPeers,s)),[],lit "HTTP/1.1 502 Bad\r\n\r\n",20,502,.new⟩

theorem sentWithin_all : (sentWithin 0).tries = some [gatewayTry 0,gatewayTry 1] := rfl

theorem sentWithin_one : (sentWithin 1).tries = some [gatewayTry 0] := rfl

/-- The first of two peers is counted, since the second is asked next. -/
theorem retriedGateway_counted :
    PeerHealth.default.CountedOnce (Sent.afterAll allHealthy [sentWithin 0] 0) 0 10000 := by
  refine (Sent.listed_counted_iff (fun _ => Nat.two_pow_pos 32) [] (sentWithin 0) sentWithin_all
    (List.mem_cons_self : gatewayTry 0 ∈ [gatewayTry 0,gatewayTry 1]) rfl (List.mem_singleton.mpr rfl) rfl).mpr ?_
  right
  refine ⟨⟨rfl,?_,Or.inl rfl,by decide⟩,Or.inr ⟨by decide,by decide⟩⟩
  intro h
  exact absurd h.1 (Nat.lt_irrefl 0)

/-- With a single try the listed status is the client's answer and is forgotten. -/
theorem lastGateway_forgotten :
    (sentWithin 1).tries = some [gatewayTry 0] ∧
      (∃ a, (gatewayTry 0).outcome = .answers a ∧
        a.status ∈ (sentWithin 1).loc.core.proxy.nextUpstream.statuses) ∧
      (gatewayTry 0).chosen = some (twoPeers,0) ∧
      ¬ PeerHealth.default.CountedOnce (Sent.afterAll allHealthy [sentWithin 1] 0) 0 10000 := by
  have hz : Sent.afterAll allHealthy [sentWithin 1] 0 = .default := rfl
  refine ⟨sentWithin_one,⟨_,rfl,List.mem_singleton.mpr rfl⟩,rfl,?_⟩
  rw [hz]
  unfold PeerHealth.CountedOnce
  decide

end Sequence

end OxiServe.Server
