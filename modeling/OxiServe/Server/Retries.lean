import OxiServe.Server.Balance

/-! # Retries

The attempts over the peers of a group, one pass at a time, with what was tried
at each: the loop ends, no peer is tried twice, and a request is sent again only
when it may be and nothing final has been received.
-/
namespace OxiServe.Server
open Config

section Turn

/-- One contact with a peer and how it went. -/
structure Try where
  k : ℕ
  chosen : Option (Upstream × ℕ)
  peer : Peer
  outcome : Outcome

/-- How one pass of the loop goes on: no peer is contacted, one is and that was
the last, or another follows. -/
inductive PeerPass
  | quits (out : Ctx × Attempted)
  | ends (t : Try) (out : Ctx × Attempted)
  | again (t : Try) (ctx : Ctx) (r : Retry)

variable (env : Env) (loc : Location) (pp : ProxyPass) (mayRetry : Bool) (cache : Option CacheCtx)
variable (stale : Option Decoded)

def peerPass (k : ℕ) (ctx : Ctx) (r : Retry) : PeerPass :=
  let conf := loc.core.proxy
  match destination env ctx pp k r with
  | .refused code => .quits (ctx,.status code)
  | .exhausted => .quits (ctx,.status (r.firstError.getD 502))
  | .to addr tls chosen =>
    if tls then .quits (ctx,.status 502)
    else
      let ctx := { ctx with upstreamAddr := addr }
      let p := env.peer ctx.clock k addr
      let t : Try := ⟨k,chosen,p,exchangeHead env ctx conf chosen p⟩
      match exchangeHead env ctx conf chosen p with
      | .fails enabled code staleWhen =>
        match nextPeer conf mayRetry chosen enabled p.pastDeadline code r with
        | (true,r) => .again t ctx r
        | (false,_) =>
          match staleWhen.bind (tryStale cache stale) with
          | some entry => .ends t ({ ctx with cacheStatus := some .stale },.stale entry)
          | none => .ends t (ctx,.status code)
      | .answers a =>
        if conf.nextUpstream.statuses.contains a.status then
          match nextPeer conf mayRetry chosen true p.pastDeadline a.status r with
          | (true,r) => .again t ctx r
          | (false,_) => .ends t (ctx,.answered a)
        else .ends t (ctx,.answered a)

/-- The contacts a run of the loop makes, unless it runs out of fuel. -/
def tries : ℕ → ℕ → Ctx → Retry → Option (List Try)
  | 0, _, _, _ => none
  | fuel + 1, k, ctx, r =>
    match peerPass env loc pp mayRetry cache stale k ctx r with
    | .quits _ => some []
    | .ends t _ => some [t]
    | .again t ctx r => (tries fuel (k + 1) ctx r).map (t :: ·)

variable {env loc pp mayRetry cache stale}

theorem attempts_succ {fuel k : ℕ} {ctx : Ctx} {r : Retry} :
    attempts env loc pp mayRetry cache stale (fuel + 1) k ctx r =
      match peerPass env loc pp mayRetry cache stale k ctx r with
      | .quits out => out
      | .ends _ out => out
      | .again _ ctx r => attempts env loc pp mayRetry cache stale fuel (k + 1) ctx r := by
  simp only [attempts,peerPass]
  cases destination env ctx pp k r with
  | refused code => rfl
  | exhausted => rfl
  | «to» addr tls chosen =>
    cases tls with
    | true => rfl
    | false =>
      simp only [Bool.false_eq_true,if_false]
      cases exchangeHead env { ctx with upstreamAddr := addr } loc.core.proxy chosen (env.peer ctx.clock k addr) with
      | fails enabled code staleWhen =>
        dsimp only
        rcases nextPeer loc.core.proxy mayRetry chosen enabled (env.peer ctx.clock k addr).pastDeadline code r
          with ⟨b,r'⟩
        cases b with
        | true => rfl
        | false =>
          dsimp only
          cases staleWhen.bind (tryStale cache stale) with
          | none => rfl
          | some entry => rfl
      | answers a =>
        dsimp only
        split
        · rcases nextPeer loc.core.proxy mayRetry chosen true (env.peer ctx.clock k addr).pastDeadline a.status r
            with ⟨b,r'⟩
          cases b with
          | true => rfl
          | false => rfl
        · rfl

/-- A run that ends is not changed by more fuel. -/
theorem attempts_more {fuel k : ℕ} {ctx : Ctx} {r : Retry} {log : List Try}
    (h : tries env loc pp mayRetry cache stale fuel k ctx r = some log) (n : ℕ) :
    attempts env loc pp mayRetry cache stale (fuel + n) k ctx r =
      attempts env loc pp mayRetry cache stale fuel k ctx r := by
  induction fuel generalizing k ctx r log with
  | zero => cases h
  | succ fuel ih =>
    rw [Nat.succ_add,attempts_succ,attempts_succ]
    simp only [tries] at h
    cases ht : peerPass env loc pp mayRetry cache stale k ctx r with
    | quits out => rfl
    | ends t out => rfl
    | again t ctx' r' =>
      rw [ht] at h
      obtain ⟨rest,hr,-⟩ := Option.map_eq_some_iff.mp h
      exact ih hr

/-- When another peer follows, retrying is allowed, the peer was new and there are
peers and tries left. -/
theorem nextPeer_true {conf : ProxyConf} {chosen : Option (Upstream × ℕ)} {enabled past : Bool} {code : ℕ}
    {r r' : Retry} (h : nextPeer conf mayRetry chosen enabled past code r = (true,r')) :
    ∃ up idx, chosen = some (up,idx) ∧ mayRetry = true ∧ r'.tried = r.tried ++ [idx] ∧
      (conf.nextUpstreamTries = 0 ∨ r.tried.length + 1 < conf.nextUpstreamTries) ∧
      r.tried.length + 1 < up.servers.length := by
  unfold nextPeer at h
  cases chosen with
  | none => cases h
  | some c =>
    obtain ⟨up,idx⟩ := c
    dsimp only at h
    split at h
    · cases h
    · rename_i hm
      split at h
      · cases h
      · split at h
        · cases h
        · split at h
          · cases h
          · rename_i ht
            simp only [List.length_append,List.length_singleton] at ht h
            obtain ⟨hd,hr⟩ := Prod.mk.inj h
            rw [← hr]
            refine ⟨up,idx,rfl,?_,rfl,by omega,of_decide_eq_true hd⟩
            simp only [Bool.or_eq_true,Bool.not_eq_true',not_or,Bool.not_eq_false] at hm
            exact hm.1

/-- After an enabled failure of a new peer another follows where retrying is allowed and
there are time, tries and peers left. -/
theorem nextPeer_fst_iff {conf : ProxyConf} {up : Upstream} {i : ℕ} {past : Bool} {code : ℕ} {r : Retry}
    (hi : i ∉ r.tried) :
    (nextPeer conf mayRetry (some (up,i)) true past code r).1 = true ↔
      mayRetry = true ∧ ¬ (0 < conf.nextUpstreamTimeout ∧ past = true) ∧
        (conf.nextUpstreamTries = 0 ∨ r.tried.length + 1 < conf.nextUpstreamTries) ∧
        r.tried.length + 1 < up.servers.length := by
  have hc : ¬ r.tried.contains i = true := fun h => hi (List.contains_iff_mem.mp h)
  unfold nextPeer
  dsimp only
  cases hm : mayRetry with
  | false => simp
  | true =>
    rw [if_neg (by simp)]
    by_cases hd : 0 < conf.nextUpstreamTimeout ∧ past = true
    · rw [if_pos hd]
      simp [hd]
    · rw [if_neg hd,if_neg hc]
      simp only [List.length_append,List.length_singleton]
      by_cases ht : 0 < conf.nextUpstreamTries ∧ conf.nextUpstreamTries ≤ r.tried.length + 1
      · rw [if_pos ht]
        refine iff_of_false Bool.false_ne_true (fun h => ?_)
        have := h.2.2.1
        omega
      · rw [if_neg ht,decide_eq_true_eq]
        exact ⟨fun h => ⟨trivial,hd,by omega,h⟩,fun h => h.2.2.2⟩

/-- A pass that contacts a peer contacts its destination. -/
structure Contacts (env : Env) (loc : Location) (pp : ProxyPass) (k : ℕ) (ctx : Ctx) (r : Retry) (t : Try) : Prop where
  count : t.k = k
  dest : ∃ addr, destination env ctx pp k r = .to addr false t.chosen
  outcome : t.outcome = exchangeHead env ctx loc.core.proxy t.chosen t.peer

/-- The last pass answers with the head it received, unless that may be retried. -/
structure Ends (env : Env) (loc : Location) (pp : ProxyPass) (mayRetry : Bool) (k : ℕ) (ctx : Ctx) (r : Retry)
    (t : Try) (out : Attempted) : Prop extends Contacts env loc pp k ctx r t where
  final : ∀ a, t.outcome = .answers a → out = .answered a ∧
    (a.status ∈ loc.core.proxy.nextUpstream.statuses →
      (nextPeer loc.core.proxy mayRetry t.chosen true t.peer.pastDeadline a.status r).1 = false)

/-- A pass is followed by another only after a failure, such as a listed status. -/
structure Follows (env : Env) (loc : Location) (pp : ProxyPass) (mayRetry : Bool) (k : ℕ) (ctx : Ctx) (r : Retry)
    (t : Try) (ctx' : Ctx) (r' : Retry) : Prop extends Contacts env loc pp k ctx r t where
  ctx : ∃ addr, ctx' = { ctx with upstreamAddr := addr }
  next : ∃ enabled past code, nextPeer loc.core.proxy mayRetry t.chosen enabled past code r = (true,r')
  listed : ∀ a, t.outcome = .answers a → a.status ∈ loc.core.proxy.nextUpstream.statuses ∧
    nextPeer loc.core.proxy mayRetry t.chosen true t.peer.pastDeadline a.status r = (true,r')

variable (env loc pp mayRetry)

/-- What a pass may do. -/
def PassSpec (k : ℕ) (ctx : Ctx) (r : Retry) : PeerPass → Prop
  | .quits _ => True
  | .ends t out => Ends env loc pp mayRetry k ctx r t out.2
  | .again t ctx' r' => Follows env loc pp mayRetry k ctx r t ctx' r'

variable {env loc pp mayRetry}

theorem peerPass_spec {k : ℕ} {ctx : Ctx} {r : Retry} :
    PassSpec env loc pp mayRetry k ctx r (peerPass env loc pp mayRetry cache stale k ctx r) := by
  simp only [peerPass]
  cases hd : destination env ctx pp k r with
  | refused code => trivial
  | exhausted => trivial
  | «to» addr tls chosen =>
    cases tls with
    | true => trivial
    | false =>
      simp only [Bool.false_eq_true,if_false]
      cases ho : exchangeHead env { ctx with upstreamAddr := addr } loc.core.proxy chosen
          (env.peer ctx.clock k addr) with
      | fails enabled code staleWhen =>
        have hc : Contacts env loc pp k ctx r
            ⟨k,chosen,env.peer ctx.clock k addr,.fails enabled code staleWhen⟩ := ⟨rfl,⟨addr,hd⟩,ho.symm⟩
        dsimp only
        split
        · rename_i r' hn
          exact ⟨hc,⟨addr,rfl⟩,⟨_,_,_,hn⟩,fun a ha => nomatch ha⟩
        · split
          · exact ⟨hc,fun a ha => nomatch ha⟩
          · exact ⟨hc,fun a ha => nomatch ha⟩
      | answers a =>
        have hc : Contacts env loc pp k ctx r ⟨k,chosen,env.peer ctx.clock k addr,.answers a⟩ :=
          ⟨rfl,⟨addr,hd⟩,ho.symm⟩
        dsimp only
        by_cases hl : loc.core.proxy.nextUpstream.statuses.contains a.status = true
        · rw [if_pos hl]
          split
          · rename_i r' hn
            refine ⟨hc,⟨addr,rfl⟩,⟨_,_,_,hn⟩,?_⟩
            intro b hb
            cases hb
            exact ⟨List.contains_iff_mem.mp hl,hn⟩
          · rename_i r' hn
            refine ⟨hc,?_⟩
            intro b hb
            cases hb
            exact ⟨rfl,fun _ => congrArg Prod.fst hn⟩
        · rw [if_neg hl]
          refine ⟨hc,?_⟩
          intro b hb
          cases hb
          exact ⟨rfl,fun hm => absurd (List.contains_iff_mem.mpr hm) hl⟩

theorem peerPass_ends {k : ℕ} {ctx : Ctx} {r : Retry} {t : Try} {out : Ctx × Attempted}
    (h : peerPass env loc pp mayRetry cache stale k ctx r = .ends t out) :
    Ends env loc pp mayRetry k ctx r t out.2 := by
  have hs := @peerPass_spec env loc pp mayRetry cache stale k ctx r
  rw [h] at hs
  exact hs

theorem peerPass_again {k : ℕ} {ctx ctx' : Ctx} {r r' : Retry} {t : Try}
    (h : peerPass env loc pp mayRetry cache stale k ctx r = .again t ctx' r') :
    Follows env loc pp mayRetry k ctx r t ctx' r' := by
  have hs := @peerPass_spec env loc pp mayRetry cache stale k ctx r
  rw [h] at hs
  exact hs

end Turn

section Safety

/-- How often a request may be sent to a group of `n` servers. -/
def allowedTries (conf : ProxyConf) (n : ℕ) : ℕ :=
  if conf.nextUpstreamTries = 0 then n else min conf.nextUpstreamTries n

/-- There is room for another try. -/
structure Room (conf : ProxyConf) (up : Upstream) (tried : List ℕ) : Prop where
  tries : conf.nextUpstreamTries = 0 ∨ tried.length < conf.nextUpstreamTries
  peers : tried = [] ∨ tried.length < up.servers.length

/-- What holds of the tries of a request that has been to the peers `tried` before. -/
structure RetriedSafely (conf : ProxyConf) (up : Upstream) (mayRetry : Bool) (tried : List ℕ) (log : List Try) :
    Prop where
  bounded : log ≠ [] → tried.length + log.length ≤ allowedTries conf up.servers.length
  peers : ∀ t ∈ log, ∃ i < up.servers.length, i ∉ tried ∧ t.chosen = some (up,i)
  distinct : (log.map Try.chosen).Nodup
  again : 1 < log.length → mayRetry = true
  listed : ∀ t ∈ log.dropLast, ∀ a, t.outcome = .answers a → a.status ∈ conf.nextUpstream.statuses

variable {conf : ProxyConf} {up : Upstream} {mayRetry : Bool} {tried : List ℕ}

theorem room_nil : Room conf up [] := ⟨Nat.eq_zero_or_pos _,Or.inl rfl⟩

theorem retriedSafely_nil : RetriedSafely conf up mayRetry tried [] where
  bounded h := absurd rfl h
  peers _ h := nomatch h
  distinct := List.nodup_nil
  again h := nomatch h
  listed _ h := nomatch h

theorem Room.lt {i : ℕ} (h : Room conf up tried) (hi : i < up.servers.length) :
    tried.length + 1 ≤ allowedTries conf up.servers.length := by
  have hp : tried.length < up.servers.length := by
    rcases h.peers with hp | hp
    · rw [hp]
      exact Nat.lt_of_le_of_lt (Nat.zero_le i) hi
    · exact hp
  unfold allowedTries
  rcases h.tries with ht | ht
  · rw [if_pos ht]
    exact hp
  · rw [if_neg (by omega)]
    omega

theorem retriedSafely_single {t : Try} {i : ℕ} (h : Room conf up tried) (hi : i < up.servers.length)
    (hn : i ∉ tried) (ht : t.chosen = some (up,i)) : RetriedSafely conf up mayRetry tried [t] where
  bounded _ := h.lt hi
  peers := by
    intro u hu
    rw [List.mem_singleton.mp hu]
    exact ⟨i,hi,hn,ht⟩
  distinct := List.pairwise_singleton _ _
  again h := absurd h (Nat.lt_irrefl 1)
  listed _ hu := nomatch hu

/-- A try that others follow. -/
theorem RetriedSafely.cons {t : Try} {i : ℕ} {log : List Try} (h : Room conf up tried) (hi : i < up.servers.length)
    (hn : i ∉ tried) (ht : t.chosen = some (up,i)) (hm : mayRetry = true)
    (hl : ∀ a, t.outcome = .answers a → a.status ∈ conf.nextUpstream.statuses)
    (hs : RetriedSafely conf up mayRetry (tried ++ [i]) log) : RetriedSafely conf up mayRetry tried (t :: log) where
  bounded := by
    intro _
    cases log with
    | nil => exact h.lt hi
    | cons u log =>
      have hb := hs.bounded (List.cons_ne_nil _ _)
      simp only [List.length_append,List.length_cons,List.length_nil] at hb ⊢
      omega
  peers := by
    intro u hu
    rcases List.mem_cons.mp hu with hu | hu
    · rw [hu]
      exact ⟨i,hi,hn,ht⟩
    · obtain ⟨j,hj,hnj,hc⟩ := hs.peers u hu
      exact ⟨j,hj,fun hm => hnj (List.mem_append_left _ hm),hc⟩
  distinct := by
    rw [List.map_cons,List.nodup_cons]
    refine ⟨?_,hs.distinct⟩
    intro hmem
    obtain ⟨u,hu,hc⟩ := List.mem_map.mp hmem
    obtain ⟨j,-,hnj,hj⟩ := hs.peers u hu
    rw [hj,ht] at hc
    cases hc
    exact hnj (List.mem_append_right _ List.mem_cons_self)
  again _ := hm
  listed := by
    intro u hu a ha
    cases log with
    | nil => cases hu
    | cons v log =>
      rw [List.dropLast_cons_of_ne_nil (List.cons_ne_nil _ _)] at hu
      rcases List.mem_cons.mp hu with hu | hu
      · rw [hu] at ha
        exact hl a ha
      · exact hs.listed u hu a ha

variable {env : Env} {loc : Location} {pp : ProxyPass} {cache : Option CacheCtx} {stale : Option Decoded}
variable {name : Bytes}

/-- A pass over a group contacts a peer that the group chose. -/
theorem destination_group {ctx : Ctx} {k : ℕ} {r : Retry} {addr : Bytes} {tls : Bool}
    {chosen : Option (Upstream × ℕ)} (ht : pp.target = .upstream name)
    (hu : ctx.http.upstreams.lookup name = some up) (h : destination env ctx pp k r = .to addr tls chosen) :
    ∃ i, chosen = some (up,i) ∧ env.selectPeer ctx.clock k name r.tried = some i := by
  simp only [destination,ht,hu] at h
  cases hs : env.selectPeer ctx.clock k name r.tried with
  | none =>
    rw [hs] at h
    cases h
  | some i =>
    rw [hs] at h
    dsimp only at h
    split at h
    · cases h
    · cases h
      exact ⟨i,rfl,rfl⟩

/-- After a pass that is followed by another there is room for it, and the peer it
contacted is among those tried. -/
theorem Follows.onward {k : ℕ} {ctx ctx' : Ctx} {r r' : Retry} {t : Try} (ht : pp.target = .upstream name)
    (hsel : ∀ clock k tried i, env.selectPeer clock k name tried = some i → i < up.servers.length ∧ i ∉ tried)
    (hu : ctx.http.upstreams.lookup name = some up) (h : Follows env loc pp mayRetry k ctx r t ctx' r') :
    ∃ i < up.servers.length, i ∉ r.tried ∧ t.chosen = some (up,i) ∧ mayRetry = true ∧ r'.tried = r.tried ++ [i] ∧
      r'.tried.length = r.tried.length + 1 ∧ ctx'.http.upstreams.lookup name = some up ∧
      Room loc.core.proxy up r'.tried := by
  obtain ⟨addr,hd⟩ := h.dest
  obtain ⟨addr',hctx⟩ := h.ctx
  obtain ⟨enabled,past,code,hnext⟩ := h.next
  obtain ⟨i,hc,hs⟩ := destination_group ht hu hd
  obtain ⟨hi,hn⟩ := hsel _ _ _ _ hs
  obtain ⟨up',idx,hc',hm,htried,htries,hpeers⟩ := nextPeer_true hnext
  rw [hc] at hc'
  cases hc'
  have hlen : r'.tried.length = r.tried.length + 1 := by rw [htried,List.length_append,List.length_singleton]
  refine ⟨i,hi,hn,hc,hm,htried,hlen,?_,?_,Or.inr ?_⟩
  · rw [hctx]
    exact hu
  · rw [hlen]
    exact htries
  · rw [hlen]
    exact hpeers

/-- By induction on the fuel, which exceeds the number of peers not tried yet. -/
theorem tries_safe (ht : pp.target = .upstream name)
    (hsel : ∀ clock k tried i, env.selectPeer clock k name tried = some i → i < up.servers.length ∧ i ∉ tried)
    {fuel k : ℕ} {ctx : Ctx} {r : Retry} (hu : ctx.http.upstreams.lookup name = some up)
    (hf : up.servers.length + 1 ≤ fuel + r.tried.length) (hroom : Room loc.core.proxy up r.tried) :
    ∃ log, tries env loc pp mayRetry cache stale fuel k ctx r = some log ∧
      RetriedSafely loc.core.proxy up mayRetry r.tried log := by
  induction fuel generalizing k ctx r with
  | zero =>
    rcases hroom.peers with hp | hp
    · rw [hp,List.length_nil] at hf
      omega
    · omega
  | succ fuel ih =>
    simp only [tries]
    cases hp : peerPass env loc pp mayRetry cache stale k ctx r with
    | quits out => exact ⟨[],rfl,retriedSafely_nil⟩
    | ends t out =>
      obtain ⟨addr,hd⟩ := (peerPass_ends hp).dest
      obtain ⟨i,hc,hs⟩ := destination_group ht hu hd
      obtain ⟨hi,hn⟩ := hsel _ _ _ _ hs
      exact ⟨[t],rfl,retriedSafely_single hroom hi hn hc⟩
    | again t ctx' r' =>
      have hg := peerPass_again hp
      obtain ⟨i,hi,hn,hc,hm,htried,hlen,hu',hroom'⟩ := hg.onward ht hsel hu
      obtain ⟨log,hl,hsafe⟩ := @ih (k + 1) ctx' r' hu' (by omega) hroom'
      rw [htried] at hsafe
      dsimp only
      rw [hl]
      exact ⟨t :: log,rfl,hsafe.cons hroom hi hn hc hm (fun a ha => (hg.listed a ha).1)⟩

/-- Whether a failed request may be sent again. -/
def retryable (conf : ProxyConf) (m : Request.Method) : Bool :=
  !conf.nextUpstream.off && (isIdempotent m || conf.nextUpstream.nonIdempotent)

/-- The methods of requests that are safe to repeat. -/
def repeatable : List Request.Method := [.get,.head,.put,.delete,.options,.trace]

theorem mem_repeatable {m : Request.Method} (h : isIdempotent m = true) : m ∈ repeatable := by
  simp only [isIdempotent,Bool.or_eq_true,beq_iff_eq] at h
  simp only [repeatable,List.mem_cons,List.not_mem_nil,or_false]
  tauto

variable (env loc pp cache stale)

/-- The tries of a proxied request. -/
def requestTries (ctx : Ctx) : Option (List Try) :=
  tries env loc pp (retryable loc.core.proxy ctx.req.method) cache stale (attemptFuel ctx pp) 0 ctx ⟨[],none⟩

/-- The outcome of its attempts. -/
def requestAttempts (fuel : ℕ) (ctx : Ctx) : Ctx × Attempted :=
  attempts env loc pp (retryable loc.core.proxy ctx.req.method) cache stale fuel 0 ctx ⟨[],none⟩

variable {env loc pp cache stale}

/-- A request over a group ends after no more tries than allowed, each with a peer
of its own, and is sent again only when it may be and after nothing but failures. -/
theorem requestTries_safe {b : Balancing} {ctx : Ctx} (ht : pp.target = .upstream name)
    (hu : ctx.http.upstreams.lookup name = some up) :
    ∃ log, requestTries (env.selecting ctx b) loc pp cache stale ctx = some log ∧
      (∀ n, requestAttempts (env.selecting ctx b) loc pp cache stale (attemptFuel ctx pp + n) ctx =
        requestAttempts (env.selecting ctx b) loc pp cache stale (attemptFuel ctx pp) ctx) ∧
      log.length ≤ allowedTries loc.core.proxy up.servers.length ∧
      (∀ t ∈ log, ∃ i < up.servers.length, t.chosen = some (up,i)) ∧
      (log.map Try.chosen).Nodup ∧
      (1 < log.length → ctx.req.method ∈ repeatable ∨ loc.core.proxy.nextUpstream.nonIdempotent = true) ∧
      ∀ t ∈ log.dropLast, ∀ a, t.outcome = .answers a → a.status ∈ loc.core.proxy.nextUpstream.statuses := by
  have hf : up.servers.length + 1 ≤ attemptFuel ctx pp + ([] : List ℕ).length := by
    simp only [attemptFuel,ht,hu,List.length_nil,Nat.add_zero]
    exact Nat.le_refl _
  obtain ⟨log,hl,hs⟩ := @tries_safe up (retryable loc.core.proxy ctx.req.method) (env.selecting ctx b) loc pp cache
    stale name ht (fun _ _ _ _ h => selecting_spec hu h) (attemptFuel ctx pp) 0 ctx ⟨[],none⟩ hu hf room_nil
  refine ⟨log,hl,fun n => attempts_more hl n,?_,?_,hs.distinct,?_,hs.listed⟩
  · by_cases hn : log = []
    · rw [hn]
      exact Nat.zero_le _
    · have hb := hs.bounded hn
      rw [List.length_nil,Nat.zero_add] at hb
      exact hb
  · intro t hmem
    obtain ⟨i,hi,-,hc⟩ := hs.peers t hmem
    exact ⟨i,hi,hc⟩
  · intro hlen
    have hm := hs.again hlen
    simp only [retryable,Bool.and_eq_true,Bool.or_eq_true] at hm
    exact hm.2.imp mem_repeatable id

def twoPeers : Upstream := ⟨[⟨lit "a:80",[]⟩,⟨lit "b:80",[]⟩],0,none⟩

def groupCtx : Ctx := { getCtx (lit "/") with http := { Http.bare with upstreams := [(lit "app",twoPeers)] } }

def toGroup : ProxyPass := ⟨.upstream (lit "app"),none,false⟩

def allUp : Balancing where
  method := fun _ => .roundRobin
  conf := fun _ _ => ⟨1,1,10000,false,false⟩
  health := fun _ _ _ _ => .default
  stickyMs := fun _ _ => 0
  nowMs := fun _ _ => 0
  cursor := fun _ k => k

/-- Neither of two peers takes the connection, and each is tried once. -/
theorem twoPeers_tried :
    ∃ log, requestTries (Env.idle.selecting groupCtx allUp) (.bare (.pfx (lit "/")) (.proxy toGroup)) toGroup none none
        groupCtx = some log ∧ log.length ≤ 2 ∧ (log.map Try.chosen).Nodup := by
  obtain ⟨log,hl,-,hb,-,hd,-⟩ := @requestTries_safe twoPeers Env.idle (.bare (.pfx (lit "/")) (.proxy toGroup))
    toGroup none none (lit "app") allUp groupCtx rfl rfl
  exact ⟨log,hl,hb,hd⟩

end Safety

end OxiServe.Server
