import OxiServe.Server.Retries

/-! # Which failure is reported

The status of the first failed attempt is kept, and it is what a request gets that finds
no peer left. A loop that ends because its last failure may not be retried reports that
failure instead.
-/
namespace OxiServe.Server
open Config

namespace Try

/-- The peer of its group that was contacted. -/
def index (t : Try) : Option ℕ := t.chosen.map Prod.snd

/-- The status of a contact that brought no answer. -/
def code (t : Try) : Option ℕ :=
  match t.outcome with
  | .fails _ code _ => some code
  | .answers _ => none

/-- A failed contact after which another one is due, when those in `tried` came before it. -/
structure Retried (conf : ProxyConf) (mayRetry : Bool) (tried : List ℕ) (t : Try) : Prop where
  allowed : mayRetry = true
  enabled : ∃ code stale, t.outcome = .fails true code stale
  inTime : ¬ (0 < conf.nextUpstreamTimeout ∧ t.peer.pastDeadline = true)
  tries : conf.nextUpstreamTries = 0 ∨ tried.length + 1 < conf.nextUpstreamTries
  untried : ∃ up idx, t.chosen = some (up,idx) ∧ idx ∉ tried ∧ tried.length + 1 < up.servers.length

end Try

/-- After the last of the attempts another one is due, so that only the choice of a peer
can have ended the loop. -/
def Unfinished (conf : ProxyConf) (mayRetry : Bool) (log : List Try) : Prop :=
  ∃ t, log.getLast? = some t ∧ t.Retried conf mayRetry (log.dropLast.filterMap Try.index)

def firstCode (log : List Try) : Option ℕ := log.head?.bind Try.code

def lastCode (log : List Try) : Option ℕ := log.getLast?.bind Try.code

/-- Every attempt failed. -/
def AllFailed (log : List Try) : Prop := log ≠ [] ∧ ∀ t ∈ log, t.code.isSome = true

/-- The first failure is reported where another attempt was due, otherwise the last. -/
structure Reported (conf : ProxyConf) (mayRetry : Bool) (log : List Try) (c : ℕ) : Prop where
  first : Unfinished conf mayRetry log → firstCode log = some c
  last : ¬ Unfinished conf mayRetry log → lastCode log = some c

variable {env : Env} {loc : Location} {pp : ProxyPass} {mayRetry : Bool} {cache : Option CacheCtx}
variable {stale : Option Decoded} {conf : ProxyConf} {k : ℕ} {ctx : Ctx} {r : Retry} {t : Try} {log past : List Try}

section Log

theorem unfinished_concat :
    Unfinished conf mayRetry (past ++ [t]) ↔ t.Retried conf mayRetry (past.filterMap Try.index) := by
  unfold Unfinished
  rw [List.getLast?_concat,List.dropLast_concat]
  constructor
  · rintro ⟨u,hu,h⟩
    cases hu
    exact h
  · exact fun h => ⟨t,rfl,h⟩

theorem lastCode_concat : lastCode (past ++ [t]) = t.code := by
  unfold lastCode
  rw [List.getLast?_concat]
  rfl

theorem firstCode_concat {code : ℕ} (hc : t.code = some code) (hp : past ≠ [] → (firstCode past).isSome = true) :
    firstCode (past ++ [t]) = (firstCode past).or (some code) := by
  cases past with
  | nil => exact hc
  | cons u past =>
    obtain ⟨first,hf⟩ := Option.isSome_iff_exists.mp (hp (List.cons_ne_nil u past))
    rw [hf]
    exact hf

/-- The last failure is reported in place of the first one only where they differ. -/
theorem Reported.first_iff {c : ℕ} (h : Reported conf mayRetry log c) :
    firstCode log = some c ↔ Unfinished conf mayRetry log ∨ lastCode log = firstCode log := by
  by_cases hu : Unfinished conf mayRetry log
  · exact iff_of_true (h.first hu) (Or.inl hu)
  · rw [h.last hu]
    constructor
    · exact fun hf => Or.inr hf.symm
    · rintro (hg | hl)
      · exact absurd hg hu
      · exact hl.symm

end Log

section Step

theorem nextPeer_new {up : Upstream} {idx : ℕ} {enabled late : Bool} {code : ℕ}
    (h : (nextPeer conf mayRetry (some (up,idx)) enabled late code r).1 = true) : enabled = true ∧ idx ∉ r.tried := by
  unfold nextPeer at h
  dsimp only at h
  split at h
  · cases h
  · rename_i hm
    split at h
    · cases h
    · split at h
      · cases h
      · rename_i hc
        simp only [Bool.or_eq_true,Bool.not_eq_true',not_or,Bool.not_eq_false] at hm
        exact ⟨hm.2,fun hmem => hc (List.contains_iff_mem.mpr hmem)⟩

theorem nextPeer_iff {enabled : Bool} {code : ℕ} {sw : Option StaleWhen} (ho : t.outcome = .fails enabled code sw) :
    (nextPeer conf mayRetry t.chosen enabled t.peer.pastDeadline code r).1 = true ↔
      t.Retried conf mayRetry r.tried := by
  constructor
  · intro h
    cases hc : t.chosen with
    | none =>
      rw [hc] at h
      cases h
    | some c =>
      obtain ⟨up,idx⟩ := c
      rw [hc] at h
      obtain ⟨rfl,hn⟩ := nextPeer_new h
      obtain ⟨ha,hd,htries,hp⟩ := (nextPeer_fst_iff hn).mp h
      exact ⟨ha,⟨code,sw,ho⟩,hd,htries,⟨up,idx,hc,hn,hp⟩⟩
  · rintro ⟨ha,⟨code',sw',he⟩,hd,htries,⟨up,idx,hc,hn,hp⟩⟩
    rw [ho] at he
    cases he
    rw [hc]
    exact (nextPeer_fst_iff hn).mpr ⟨ha,hd,htries,hp⟩

/-- What is kept of a failure that is retried. -/
theorem nextPeer_kept {chosen : Option (Upstream × ℕ)} {enabled late : Bool} {code : ℕ} {r' : Retry}
    (h : nextPeer conf mayRetry chosen enabled late code r = (true,r')) :
    r'.tried = r.tried ++ (chosen.map Prod.snd).toList ∧ r'.firstError = r.firstError.or (some code) := by
  unfold nextPeer at h
  cases chosen with
  | none => cases h
  | some c =>
    dsimp only at h
    split at h
    · cases h
    · split at h
      · cases h
      · split at h
        · cases h
        · split at h
          · cases h
          · obtain ⟨-,rfl⟩ := Prod.mk.inj h
            exact ⟨rfl,rfl⟩

/-- The request goes to a group of upstreams that exists, without TLS. -/
def ToGroup (pp : ProxyPass) (ctx : Ctx) (up : Upstream) : Prop :=
  pp.tls = false ∧ ∃ name, pp.target = .upstream name ∧ ctx.http.upstreams.lookup name = some up

/-- A server is chosen from the group the request goes to. -/
theorem destination_chosen {addr : Bytes} {up : Upstream} {idx : ℕ}
    (h : destination env ctx pp k r = .to addr false (some (up,idx))) : ToGroup pp ctx up := by
  have hnone : ∀ {addr' : Bytes} {tls : Bool}, Dest.to addr' tls none ≠ .to addr false (some (up,idx)) := by
    intro addr' tls he
    exact nomatch (Dest.to.inj he).2.2
  unfold destination at h
  cases ht : pp.target with
  | addr host port =>
    rw [ht] at h
    exact absurd h hnone
  | unix path =>
    rw [ht] at h
    exact absurd h hnone
  | dynamic tm =>
    rw [ht] at h
    dsimp only at h
    split at h
    all_goals
      split at h
      · cases h
      · split at h
        · exact absurd h hnone
        · exact absurd h hnone
  | upstream name =>
    rw [ht] at h
    dsimp only at h
    split at h
    · cases h
    · rename_i up' hu
      split at h
      · cases h
      · split at h
        · cases h
        · obtain ⟨-,htls,hc⟩ := Dest.to.inj h
          cases hc
          exact ⟨htls,name,ht,hu⟩

/-- Only the choice of a server stops a pass over a group before its contact. -/
theorem destination_toGroup {up : Upstream} (hg : ToGroup pp ctx up) :
    destination env ctx pp k r = .exhausted ∨
      ∃ addr chosen, destination env ctx pp k r = .to addr false chosen := by
  obtain ⟨htls,name,ht,hu⟩ := hg
  simp only [destination,ht,hu]
  split
  · exact Or.inl rfl
  · split
    · exact Or.inl rfl
    · rw [htls]
      exact Or.inr ⟨_,_,rfl⟩

theorem Follows.toGroup {ctx' : Ctx} {r' : Retry} (h : Follows env loc pp mayRetry k ctx r t ctx' r') :
    ∃ up, ToGroup pp ctx' up ∧ r'.tried.length = r.tried.length + 1 ∧ r'.tried.length < up.servers.length := by
  obtain ⟨addr,hd⟩ := h.dest
  obtain ⟨addr',hctx⟩ := h.ctx
  obtain ⟨enabled,late,code,hn⟩ := h.next
  obtain ⟨up,idx,hc,-,htried,-,hlt⟩ := nextPeer_true hn
  rw [hc] at hd
  have hlen : r'.tried.length = r.tried.length + 1 := by rw [htried,List.length_append,List.length_singleton]
  obtain ⟨htls,name,ht,hu⟩ := destination_chosen hd
  refine ⟨up,⟨htls,name,ht,?_⟩,hlen,by omega⟩
  rw [hctx]
  exact hu

/-- What becomes of a contact that failed. -/
def FailedSpec (conf : ProxyConf) (mayRetry : Bool) (r : Retry) : PeerPass → Prop
  | .quits _ => True
  | .ends t out => ∀ code, t.code = some code →
    ¬ t.Retried conf mayRetry r.tried ∧ ((∃ e, out.2 = .stale e) ∨ out.2 = .status code)
  | .again t _ r' => ∀ code, t.code = some code →
    t.Retried conf mayRetry r.tried ∧ r'.tried = r.tried ++ t.index.toList ∧
      r'.firstError = r.firstError.or (some code)

theorem peerPass_failed (k : ℕ) (ctx : Ctx) (r : Retry) :
    FailedSpec loc.core.proxy mayRetry r (peerPass env loc pp mayRetry cache stale k ctx r) := by
  simp only [peerPass]
  cases destination env ctx pp k r with
  | refused code => trivial
  | exhausted => trivial
  | «to» addr tls chosen =>
    cases tls with
    | true => trivial
    | false =>
      simp only [Bool.false_eq_true,if_false]
      cases exchangeHead env { ctx with upstreamAddr := addr } loc.core.proxy chosen (env.peer ctx.clock k addr) with
      | fails enabled code sw =>
        have hiff := @nextPeer_iff mayRetry loc.core.proxy r
          ⟨k,chosen,env.peer ctx.clock k addr,.fails enabled code sw⟩ enabled code sw rfl
        dsimp only at hiff ⊢
        split
        · rename_i r' hn
          rw [hn] at hiff
          intro code' hcode
          cases hcode
          exact ⟨hiff.mp rfl,nextPeer_kept hn⟩
        · rename_i r' hn
          rw [hn] at hiff
          have hstop := fun h => Bool.false_ne_true (hiff.mpr h)
          split
          · rename_i e _
            intro code' hcode
            exact ⟨hstop,Or.inl ⟨e,rfl⟩⟩
          · intro code' hcode
            cases hcode
            exact ⟨hstop,Or.inr rfl⟩
      | answers a =>
        dsimp only
        split
        · split
          · intro code hcode
            cases hcode
          · intro code hcode
            cases hcode
        · intro code hcode
          cases hcode

/-- A pass over a group that contacts no server answers with the failure that was kept. -/
theorem peerPass_quits {up : Upstream} {out : Ctx × Attempted} (hg : ToGroup pp ctx up)
    (h : peerPass env loc pp mayRetry cache stale k ctx r = .quits out) : out.2 = .status (r.firstError.getD 502) := by
  simp only [peerPass] at h
  rcases @destination_toGroup env pp k ctx r up hg with hd | ⟨addr,chosen,hd⟩
  · rw [hd] at h
    cases h
    rfl
  · rw [hd] at h
    dsimp only at h
    rw [if_neg Bool.false_ne_true] at h
    split at h
    · split at h
      · cases h
      · split at h
        · cases h
        · cases h
    · split at h
      · split at h
        · cases h
        · cases h
      · cases h

end Step

section Run

/-- What the loop remembers of the failed attempts before a pass. -/
structure Remembers (conf : ProxyConf) (mayRetry : Bool) (pp : ProxyPass) (past : List Try) (ctx : Ctx) (r : Retry) :
    Prop where
  tried : r.tried = past.filterMap Try.index
  first : r.firstError = firstCode past
  failed : past ≠ [] → (firstCode past).isSome = true
  onward : past ≠ [] → Unfinished conf mayRetry past
  group : past ≠ [] → ∃ up, ToGroup pp ctx up

theorem remembers_nil : Remembers conf mayRetry pp [] ctx ⟨[],none⟩ where
  tried := rfl
  first := rfl
  failed h := absurd rfl h
  onward h := absurd rfl h
  group h := absurd rfl h

theorem Remembers.again {ctx' : Ctx} {r' : Retry} {code : ℕ} (h : Remembers loc.core.proxy mayRetry pp past ctx r)
    (hp : peerPass env loc pp mayRetry cache stale k ctx r = .again t ctx' r') (hc : t.code = some code) :
    Remembers loc.core.proxy mayRetry pp (past ++ [t]) ctx' r' := by
  have hs := @peerPass_failed env loc pp mayRetry cache stale k ctx r
  rw [hp] at hs
  obtain ⟨hr,htried,hfirst⟩ := hs code hc
  have hcode := firstCode_concat hc h.failed
  refine ⟨?_,?_,fun _ => ?_,fun _ => ?_,fun _ => ?_⟩
  · rw [htried,h.tried,List.filterMap_append]
    apply congrArg
    cases hi : t.index with
    | none =>
      rw [List.filterMap_cons_none hi]
      rfl
    | some i =>
      rw [List.filterMap_cons_some hi]
      rfl
  · rw [hfirst,hcode,h.first]
  · rw [hcode]
    cases firstCode past with
    | none => rfl
    | some c => rfl
  · rw [unfinished_concat,← h.tried]
    exact hr
  · obtain ⟨up,hg,-⟩ := (peerPass_again hp).toGroup
    exact ⟨up,hg⟩

/-- By induction on the fuel, with what the loop remembers of the attempts so far. -/
theorem attempts_reported {fuel : ℕ} (hr : Remembers loc.core.proxy mayRetry pp past ctx r)
    (hl : tries env loc pp mayRetry cache stale fuel k ctx r = some log) (hall : AllFailed (past ++ log)) :
    (∃ e, (attempts env loc pp mayRetry cache stale fuel k ctx r).2 = .stale e) ∨
      ∃ c, (attempts env loc pp mayRetry cache stale fuel k ctx r).2 = .status c ∧
        Reported loc.core.proxy mayRetry (past ++ log) c := by
  induction fuel generalizing k ctx r log past with
  | zero => cases hl
  | succ fuel ih =>
    simp only [tries] at hl
    rw [attempts_succ]
    have hs := @peerPass_failed env loc pp mayRetry cache stale k ctx r
    cases hp : peerPass env loc pp mayRetry cache stale k ctx r with
    | quits out =>
      rw [hp] at hl
      cases hl
      rw [List.append_nil] at hall ⊢
      obtain ⟨up,hg⟩ := hr.group hall.1
      obtain ⟨first,hf⟩ := Option.isSome_iff_exists.mp (hr.failed hall.1)
      refine Or.inr ⟨first,?_,⟨fun _ => hf,fun h => absurd (hr.onward hall.1) h⟩⟩
      have hq := peerPass_quits hg hp
      rw [hr.first,hf] at hq
      exact hq
    | ends t out =>
      rw [hp] at hl hs
      cases hl
      obtain ⟨code,hc⟩ := Option.isSome_iff_exists.mp
        (hall.2 t (List.mem_append_right _ (List.mem_singleton_self t)))
      obtain ⟨hstop,hout⟩ := hs code hc
      rcases hout with hout | hout
      · exact Or.inl hout
      · refine Or.inr ⟨code,hout,⟨fun h => ?_,fun _ => ?_⟩⟩
        · rw [unfinished_concat,← hr.tried] at h
          exact absurd h hstop
        · rw [lastCode_concat]
          exact hc
    | again t ctx' r' =>
      rw [hp] at hl
      obtain ⟨rest,hrest,rfl⟩ := Option.map_eq_some_iff.mp hl
      rw [List.append_cons] at hall ⊢
      obtain ⟨code,hc⟩ := Option.isSome_iff_exists.mp
        (hall.2 t (List.mem_append_left _ (List.mem_append_right _ (List.mem_singleton_self t))))
      exact ih (hr.again hp hc) hrest hall

/-- By induction on the fuel, which exceeds the number of servers not tried yet. -/
theorem tries_total {fuel : ℕ} (hf : 0 < fuel)
    (hu : ∀ up, ToGroup pp ctx up → up.servers.length + 1 ≤ fuel + r.tried.length) :
    ∃ log, tries env loc pp mayRetry cache stale fuel k ctx r = some log := by
  induction fuel generalizing k ctx r with
  | zero => exact absurd hf (Nat.lt_irrefl 0)
  | succ fuel ih =>
    simp only [tries]
    cases hp : peerPass env loc pp mayRetry cache stale k ctx r with
    | quits out => exact ⟨[],rfl⟩
    | ends t out => exact ⟨[t],rfl⟩
    | again t ctx' r' =>
      have hfol := peerPass_again hp
      obtain ⟨up,hg,hlen,hlt⟩ := hfol.toGroup
      have hsame : ∀ up', ToGroup pp ctx' up' → ToGroup pp ctx up' := by
        obtain ⟨addr,hctx⟩ := hfol.ctx
        rw [hctx]
        exact fun _ h => h
      have hroom := hu up (hsame up hg)
      obtain ⟨log,hl⟩ := @ih (k + 1) ctx' r' (by omega) (by
        intro up' hg'
        have := hu up' (hsame up' hg')
        omega)
      dsimp only
      rw [hl]
      exact ⟨t :: log,rfl⟩

theorem requestTries_total : ∃ log, requestTries env loc pp cache stale ctx = some log := by
  apply tries_total
  · unfold attemptFuel
    split
    · split
      · exact Nat.succ_pos _
      · exact Nat.one_pos
    · exact Nat.one_pos
  · rintro up ⟨-,name,ht,hu⟩
    simp only [attemptFuel,ht,hu]
    exact Nat.le_add_right _ _

theorem fetch_status {c : ℕ}
    (h : (requestAttempts env loc pp cache stale (attemptFuel ctx pp) ctx).2 = .status c) :
    (fetch env ctx loc pp cache stale).2 = .error c := by
  simp only [fetch]
  unfold requestAttempts retryable at h
  split
  · rename_i ctx' code he
    rw [he] at h
    cases h
    rfl
  · rename_i ctx' entry he
    rw [he] at h
    cases h
  · rename_i ctx' a he
    rw [he] at h
    cases h

theorem fetch_stale {e : Decoded}
    (h : (requestAttempts env loc pp cache stale (attemptFuel ctx pp) ctx).2 = .stale e) :
    (fetch env ctx loc pp cache stale).2 = .ok (.cached e) := by
  simp only [fetch]
  unfold requestAttempts retryable at h
  split
  · rename_i ctx' code he
    rw [he] at h
    cases h
  · rename_i ctx' entry he
    rw [he] at h
    cases h
    rfl
  · rename_i ctx' a he
    rw [he] at h
    cases h

variable (env loc pp cache stale ctx)

/-- When every attempt of a request fails, it gets a stale copy or an error, and the error
is that of the first attempt exactly if another attempt was due after the last one or the
last one failed with the same status. -/
theorem firstFailure_iff : ∃ log, requestTries env loc pp cache stale ctx = some log ∧
    (AllFailed log → (∃ e, (fetch env ctx loc pp cache stale).2 = .ok (.cached e)) ∨
      ∃ c, (fetch env ctx loc pp cache stale).2 = .error c ∧
        (firstCode log = some c ↔
          Unfinished loc.core.proxy (retryable loc.core.proxy ctx.req.method) log ∨ lastCode log = firstCode log)) := by
  obtain ⟨log,hl⟩ := @requestTries_total env loc pp cache stale ctx
  refine ⟨log,hl,fun hall => ?_⟩
  rcases attempts_reported remembers_nil hl hall with ⟨e,he⟩ | ⟨c,hc,hr⟩
  · exact Or.inl ⟨e,fetch_stale he⟩
  · exact Or.inr ⟨c,fetch_status hc,hr.first_iff⟩

/-- The first server refuses the connection, the others are silent until the read times out. -/
def thenSilent : Env :=
  { Env.idle with
    peer := fun _ k _ =>
      if k = 0 then ⟨false,false,true,true,[],false,false⟩ else ⟨false,true,true,true,[.failed],true,false⟩ }

/-- A refused connection is reported as a read timeout, since the last server timed out. -/
theorem thenSilent_timeout :
    let env := thenSilent.selecting groupCtx allUp
    let loc := Location.bare (.pfx (lit "/")) (.proxy toGroup)
    ∃ log, requestTries env loc toGroup none none groupCtx = some log ∧ AllFailed log ∧
      firstCode log = some 502 ∧ (fetch env groupCtx loc toGroup none none).2 = .error 504 := by
  intro env loc
  refine ⟨_,rfl,⟨List.cons_ne_nil _ _,?_⟩,rfl,rfl⟩
  intro t ht
  rcases List.mem_cons.mp ht with rfl | ht
  · rfl
  · rw [List.mem_singleton.mp ht]
    rfl

end Run

end OxiServe.Server
