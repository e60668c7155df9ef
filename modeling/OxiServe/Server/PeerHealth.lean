import OxiServe.Lib.Bytes
import OxiServe.Lib.Hysteresis
import OxiServe.Lib.Windows

/-! # Peer health

The counters of one upstream server and what a failure, a success and a probe do
to them, against the automaton they stand for: failures are counted in windows
that the first of them opens, and probes in runs of one result.
-/
namespace OxiServe.Server

/-- Counters are `u32` and times `u64` milliseconds; both wrap. -/
structure PeerHealth where
  fails : ℕ
  downUntilMs : ℕ
  windowStartMs : ℕ
  inFlight : ℕ
  probeFails : ℕ
  probePasses : ℕ
  probeDown : Bool
deriving DecidableEq, Repr

/-- The limits of one server, as configured. -/
structure HealthLimits where
  maxFails : UInt32
  failTimeoutMs : UInt64
  fails : UInt32
  passes : UInt32

namespace PeerHealth

def default : PeerHealth := ⟨0,0,0,0,0,0,false⟩

def isDown (h : PeerHealth) (nowMs : ℕ) : Bool :=
  h.probeDown || (h.downUntilMs != 0 && decide (nowMs < h.downUntilMs))

/-- `fetch_add(1) + 1`. -/
def succ32 (n : ℕ) : ℕ := (n + 1) % 2 ^ 32

def recordProbe (h : PeerHealth) (ok : Bool) (fails passes : UInt32) : PeerHealth :=
  if ok then
    let p := succ32 h.probePasses
    let h := { h with probeFails := 0, probePasses := p }
    if max passes.toNat 1 ≤ p then { h with probeDown := false, fails := 0, downUntilMs := 0 } else h
  else
    let f := succ32 h.probeFails
    let h := { h with probePasses := 0, probeFails := f }
    if max fails.toNat 1 ≤ f then { h with probeDown := true } else h

/-- Whether a window is open is decided by the counter. -/
def countFailure (h : PeerHealth) (nowMs failTimeoutMs : ℕ) : PeerHealth :=
  if h.fails = 0 ∨ failTimeoutMs < nowMs - h.windowStartMs then { h with windowStartMs := nowMs, fails := 1 }
  else { h with fails := succ32 h.fails }

def recordFailure (h : PeerHealth) (nowMs : ℕ) (maxFails : UInt32) (failTimeoutMs : UInt64) : PeerHealth :=
  if maxFails = 0 then h
  else
    let h := h.countFailure nowMs failTimeoutMs.toNat
    if maxFails.toNat ≤ h.fails then { h with downUntilMs := (nowMs + failTimeoutMs.toNat) % 2 ^ 64 } else h

def recordSuccess (h : PeerHealth) : PeerHealth := { h with fails := 0, windowStartMs := 0, downUntilMs := 0 }

inductive Event
  | failure (nowMs : ℕ)
  | success
  | probe (ok : Bool)
deriving DecidableEq, Repr

def record (l : HealthLimits) (h : PeerHealth) : Event → PeerHealth
  | .failure now => h.recordFailure now l.maxFails l.failTimeoutMs
  | .success => h.recordSuccess
  | .probe ok => h.recordProbe ok l.fails l.passes

/-- The state after a history, which lists the latest event first. -/
def after (l : HealthLimits) : List Event → PeerHealth
  | [] => default
  | e :: es => (after l es).record l e

section Automaton
variable (l : HealthLimits)

/-- The results of the probes, the latest first. -/
def probes : List Event → List Bool
  | [] => []
  | .probe ok :: es => ok :: probes es
  | _ :: es => probes es

def failsNeeded : ℕ := max l.fails.toNat 1

def passesNeeded : ℕ := max l.passes.toNat 1

/-- The probes just vouched for the peer. -/
def Vouched (ps : List Bool) : Prop := ps.head? = some true ∧ passesNeeded l ≤ latestRun true ps

instance (ps : List Bool) : Decidable (Vouched l ps) := inferInstanceAs (Decidable (_ ∧ _))

/-- Enough probes failed in a row, and no run of passes since was long enough. -/
def DownByProbes (ps : List Bool) : Prop := Tripped (failsNeeded l) (passesNeeded l) ps

/-- The times of the failures since the latest success or vouching probe, in order. -/
def failuresSince : List Event → List ℕ
  | [] => []
  | .failure now :: es => failuresSince es ++ [now]
  | .success :: _ => []
  | .probe ok :: es => if Vouched l (ok :: probes es) then [] else failuresSince es

/-- A failure opens a window that lasts for the timeout. -/
def within (start now : ℕ) : Bool := decide (now ≤ start + l.failTimeoutMs.toNat)

def failureWindows (es : List Event) : List (ℕ × List ℕ) := windows (within l) (failuresSince l es)

/-- Less than the timeout ago there was a failure that was at least the last
allowed one of its window. -/
def Penalised (es : List Event) (now : ℕ) : Prop :=
  l.maxFails ≠ 0 ∧ ∃ w ∈ failureWindows l es, ∃ t ∈ (w.1 :: w.2).drop (l.maxFails.toNat - 1),
    now < t + l.failTimeoutMs.toNat

/-- What the automaton says after a history. -/
def Unavailable (es : List Event) (now : ℕ) : Prop := DownByProbes l (probes es) ∨ Penalised l es now

/-- The times of a history do not decrease. -/
def InOrder (es : List Event) : Prop :=
  (es.filterMap (fun e => match e with | .failure now => some now | _ => none)).Pairwise (· ≥ ·)

/-- No counter and no time reaches its width. -/
def Fits : List Event → Prop
  | [] => True
  | e :: es => Fits es ∧
    match e with
    | .failure now => now + l.failTimeoutMs.toNat < 2 ^ 64 ∧
        ∀ w ∈ failureWindows l (.failure now :: es), w.2.length + 1 < 2 ^ 32
    | .success => True
    | .probe ok => ok = true → latestRun true (ok :: probes es) < 2 ^ 32

variable {l}

theorem failsNeeded_pos : 0 < failsNeeded l := Nat.lt_of_lt_of_le Nat.zero_lt_one (Nat.le_max_right _ _)

theorem passesNeeded_pos : 0 < passesNeeded l := Nat.lt_of_lt_of_le Nat.zero_lt_one (Nat.le_max_right _ _)

theorem failsNeeded_lt : failsNeeded l < 2 ^ 32 := by
  have := l.fails.toNat_lt
  unfold failsNeeded
  omega

theorem vouched_cons {ok : Bool} {ps : List Bool} :
    Vouched l (ok :: ps) ↔ ok = true ∧ passesNeeded l ≤ latestRun true (ok :: ps) := by
  simp [Vouched]

theorem mem_failuresSince {es : List Event} {t : ℕ} (h : t ∈ failuresSince l es) :
    t ∈ es.filterMap (fun e => match e with | .failure now => some now | _ => none) := by
  induction es with
  | nil => cases h
  | cons e es ih =>
    cases e with
    | failure now =>
      rcases List.mem_append.mp h with h | h
      · exact List.mem_cons_of_mem _ (ih h)
      · rw [List.mem_singleton.mp h]
        exact List.mem_cons_self
    | success => cases h
    | probe ok =>
      simp only [failuresSince] at h
      split at h
      · cases h
      · exact ih h

theorem InOrder.tail {e : Event} {es : List Event} (h : InOrder (e :: es)) : InOrder es := by
  unfold InOrder at h ⊢
  cases e with
  | failure now => exact (List.pairwise_cons.mp h).2
  | success => exact h
  | probe ok => exact h

/-- A failure comes after those counted so far. -/
theorem InOrder.le {now : ℕ} {es : List Event} (h : InOrder (.failure now :: es)) :
    ∀ t ∈ failuresSince l es, t ≤ now :=
  fun t ht => (List.pairwise_cons.mp h).1 t (mem_failuresSince ht)

theorem failureWindows_failure (now : ℕ) (es : List Event) :
    failureWindows l (.failure now :: es) = joinWindow (within l) (failureWindows l es) now :=
  windows_concat _ _

/-- The state follows the automaton. -/
structure Tracks (l : HealthLimits) (es : List Event) (s : PeerHealth) : Prop where
  fails : l.maxFails ≠ 0 → s.fails = ((failureWindows l es).getLast?.map (fun w => w.2.length + 1)).getD 0
  start : l.maxFails ≠ 0 → ∀ w, (failureWindows l es).getLast? = some w → s.windowStartMs = w.1
  down : ∀ now, (s.downUntilMs ≠ 0 ∧ now < s.downUntilMs) ↔ Penalised l es now
  passes : s.probePasses = latestRun true (probes es) % 2 ^ 32
  probeFails : s.probeFails = latestRun false (probes es) % 2 ^ 32
  probeDown : s.probeDown = true ↔ DownByProbes l (probes es)

theorem Tracks.out_iff {es : List Event} {s : PeerHealth} (h : Tracks l es s) (now : ℕ) :
    s.isDown now = true ↔ Unavailable l es now := by
  unfold isDown Unavailable
  rw [Bool.or_eq_true,Bool.and_eq_true,bne_iff_ne,decide_eq_true_eq,h.probeDown,← h.down]

theorem tracks_nil : Tracks l [] default where
  fails := by
    intro _
    simp [failureWindows,failuresSince,windows,default]
  start := by
    intro _ w hw
    simp [failureWindows,failuresSince,windows] at hw
  down := by
    intro now
    constructor
    · intro h
      exact absurd rfl h.1
    · rintro ⟨-,w,hw,-⟩
      simp [failureWindows,failuresSince,windows] at hw
  passes := rfl
  probeFails := rfl
  probeDown := by
    constructor
    · intro h
      cases h
    · intro h
      exact absurd h (not_tripped_nil failsNeeded_pos)

theorem Tracks.success {es : List Event} {s : PeerHealth} (h : Tracks l es s) :
    Tracks l (.success :: es) s.recordSuccess where
  fails := by
    intro _
    simp [failureWindows,failuresSince,windows,recordSuccess]
  start := by
    intro _ w hw
    simp [failureWindows,failuresSince,windows] at hw
  down := by
    intro now
    constructor
    · intro hn
      exact absurd rfl hn.1
    · rintro ⟨-,w,hw,-⟩
      simp [failureWindows,failuresSince,windows] at hw
  passes := h.passes
  probeFails := h.probeFails
  probeDown := h.probeDown

theorem Tracks.probeFailed {es : List Event} {s : PeerHealth} (h : Tracks l es s) :
    Tracks l (.probe false :: es) (s.recordProbe false l.fails l.passes) := by
  have hsince : failuresSince l (.probe false :: es) = failuresSince l es := by
    simp [failuresSince,Vouched]
  have hwin : failureWindows l (.probe false :: es) = failureWindows l es := congrArg (windows (within l)) hsince
  have hpen : ∀ now, Penalised l (.probe false :: es) now ↔ Penalised l es now := by
    intro now
    unfold Penalised
    rw [hwin]
  have hrun : succ32 s.probeFails = latestRun false (probes (.probe false :: es)) % 2 ^ 32 := by
    simp only [succ32,h.probeFails,probes,latestRun_cons_self]
    omega
  have hpasses : (0 : ℕ) = latestRun true (probes (.probe false :: es)) % 2 ^ 32 := by
    have hz : latestRun true (probes (.probe false :: es)) = 0 := latestRun_cons_of_ne (by decide) _
    simp only [hz,Nat.zero_mod]
  have hdown := @tripped_cons_bad (failsNeeded l) (passesNeeded l) passesNeeded_pos (probes es)
  have hlt := @failsNeeded_lt l
  simp only [recordProbe,Bool.false_eq_true,if_false]
  by_cases hf : max l.fails.toNat 1 ≤ succ32 s.probeFails
  · rw [if_pos hf]
    refine ⟨by rw [hwin]; exact h.fails,by rw [hwin]; exact h.start,?_,hpasses,hrun,?_⟩
    · intro now
      rw [hpen]
      exact h.down now
    · refine iff_of_true rfl (hdown.mpr (Or.inr ?_))
      rw [hrun] at hf
      exact Nat.le_trans hf (Nat.mod_le _ _)
  · rw [if_neg hf]
    refine ⟨by rw [hwin]; exact h.fails,by rw [hwin]; exact h.start,?_,hpasses,hrun,?_⟩
    · intro now
      rw [hpen]
      exact h.down now
    · change s.probeDown = true ↔ DownByProbes l (false :: probes es)
      rw [h.probeDown]
      refine ⟨fun hd => hdown.mpr (Or.inl hd),?_⟩
      intro hd
      rcases hdown.mp hd with hd | hd
      · exact hd
      · -- the counter wrapped, so the run was long enough before
        apply tripped_of_run passesNeeded_pos
        rw [hrun,probes,latestRun_cons_self] at hf
        rw [latestRun_cons_self] at hd
        unfold failsNeeded at hd hlt ⊢
        omega

theorem Tracks.probePassed {es : List Event} {s : PeerHealth} (h : Tracks l es s)
    (hfit : latestRun true (true :: probes es) < 2 ^ 32) :
    Tracks l (.probe true :: es) (s.recordProbe true l.fails l.passes) := by
  have hrun : succ32 s.probePasses = latestRun true (true :: probes es) := by
    rw [latestRun_cons_self] at hfit ⊢
    rw [succ32,h.passes]
    omega
  have hrun' : succ32 s.probePasses = latestRun true (probes (.probe true :: es)) % 2 ^ 32 := by
    rw [hrun,probes,Nat.mod_eq_of_lt hfit]
  have hfails : (0 : ℕ) = latestRun false (probes (.probe true :: es)) % 2 ^ 32 := by
    have hz : latestRun false (probes (.probe true :: es)) = 0 := latestRun_cons_of_ne (by decide) _
    simp only [hz,Nat.zero_mod]
  have hdown := @tripped_cons_good (failsNeeded l) (passesNeeded l) failsNeeded_pos (probes es)
  simp only [recordProbe,if_true]
  by_cases hp : max l.passes.toNat 1 ≤ succ32 s.probePasses
  · rw [if_pos hp]
    rw [hrun] at hp
    have hsince : failuresSince l (.probe true :: es) = [] := by
      simp only [failuresSince]
      exact if_pos (vouched_cons.mpr ⟨rfl,hp⟩)
    have hwin : failureWindows l (.probe true :: es) = [] := by
      rw [failureWindows,hsince,windows]
    refine ⟨?_,?_,?_,hrun',hfails,?_⟩
    · intro _
      rw [hwin]
      rfl
    · intro _ w hw
      rw [hwin] at hw
      cases hw
    · intro now
      constructor
      · intro hn
        exact absurd rfl hn.1
      · rintro ⟨-,w,hw,-⟩
        rw [hwin] at hw
        cases hw
    · refine iff_of_false Bool.false_ne_true (fun hd => (hdown.mp hd).2 hp)
  · rw [if_neg hp]
    rw [hrun] at hp
    have hsince : failuresSince l (.probe true :: es) = failuresSince l es := by
      simp only [failuresSince]
      exact if_neg (fun hv => hp (vouched_cons.mp hv).2)
    have hwin : failureWindows l (.probe true :: es) = failureWindows l es :=
      congrArg (windows (within l)) hsince
    refine ⟨by rw [hwin]; exact h.fails,by rw [hwin]; exact h.start,?_,hrun',hfails,?_⟩
    · intro now
      unfold Penalised
      rw [hwin]
      exact h.down now
    · change s.probeDown = true ↔ DownByProbes l (true :: probes es)
      rw [h.probeDown]
      exact ⟨fun hd => hdown.mpr ⟨hd,hp⟩,fun hd => (hdown.mp hd).1⟩

/-- A failure counts in the window it joins or opens. -/
theorem Tracks.countFailure {es : List Event} {s : PeerHealth} (h : Tracks l es s) (hm : l.maxFails ≠ 0) {now : ℕ}
    (hfit : ∀ w ∈ failureWindows l (.failure now :: es), w.2.length + 1 < 2 ^ 32) :
    ∃ w, (failureWindows l (.failure now :: es)).getLast? = some w ∧
      s.countFailure now l.failTimeoutMs.toNat = { s with windowStartMs := w.1, fails := w.2.length + 1 } := by
  rw [failureWindows_failure] at hfit ⊢
  have hfails := h.fails hm
  have hstart := h.start hm
  unfold PeerHealth.countFailure
  rcases joinWindow_cases (failureWindows l es) now with ⟨hj,hfar⟩ | ⟨init,v,hv,hnear,hj⟩
  · rw [hj,List.getLast?_concat]
    refine ⟨_,rfl,?_⟩
    rw [if_pos]
    · rfl
    · cases hl : (failureWindows l es).getLast? with
      | none =>
        left
        rw [hfails,hl]
        rfl
      | some w =>
        right
        have hw := hfar w hl
        rw [hstart w hl]
        unfold within at hw
        rw [decide_eq_false_iff_not] at hw
        omega
  · rw [hj] at hfit
    have hlen := hfit (v.1,v.2 ++ [now]) (List.mem_append_right _ List.mem_cons_self)
    rw [List.length_append,List.length_singleton] at hlen
    have hl : (failureWindows l es).getLast? = some v := by rw [hv,List.getLast?_concat]
    have hf : s.fails = v.2.length + 1 := by rw [hfails,hl]; rfl
    have hs := hstart v hl
    rw [hj,List.getLast?_concat]
    refine ⟨_,rfl,?_⟩
    unfold within at hnear
    rw [decide_eq_true_eq] at hnear
    rw [if_neg (by omega),succ32,hf,Nat.mod_eq_of_lt (by omega),List.length_append,List.length_singleton,← hs]

theorem mem_windows_le {es : List Event} {now : ℕ} (h : InOrder (.failure now :: es)) {w : ℕ × List ℕ}
    (hw : w ∈ failureWindows l (.failure now :: es)) : ∀ t ∈ w.1 :: w.2, t ≤ now := by
  intro t ht
  have hflat := @flatten_windows _ (within l) (failuresSince l (.failure now :: es))
  have hm : t ∈ failuresSince l (.failure now :: es) := by
    rw [← hflat]
    exact List.mem_flatten.mpr ⟨_,List.mem_map.mpr ⟨w,hw,rfl⟩,ht⟩
  rcases List.mem_append.mp hm with hm | hm
  · exact h.le t hm
  · exact Nat.le_of_eq (List.mem_singleton.mp hm)

/-- A failure that is not yet the last allowed one of its window changes no penalty. -/
theorem penalised_failure_of_few {es : List Event} {now : ℕ} {w : ℕ × List ℕ}
    (hl : (failureWindows l (.failure now :: es)).getLast? = some w) (hfew : w.2.length + 1 < l.maxFails.toNat)
    (u : ℕ) : Penalised l (.failure now :: es) u ↔ Penalised l es u := by
  have hnone : ∀ v : ℕ × List ℕ, v.2.length ≤ w.2.length → (v.1 :: v.2).drop (l.maxFails.toNat - 1) = [] := by
    intro v hv
    apply List.drop_eq_nil_of_le
    rw [List.length_cons]
    omega
  unfold Penalised
  rw [failureWindows_failure] at hl ⊢
  apply and_congr_right
  intro _
  rcases joinWindow_cases (failureWindows l es) now with ⟨hj,-⟩ | ⟨init,v,hv,-,hj⟩
  · rw [hj,List.getLast?_concat] at hl
    cases hl
    rw [hj]
    constructor
    · rintro ⟨x,hx,t,ht,hu⟩
      rcases List.mem_append.mp hx with hx | hx
      · exact ⟨x,hx,t,ht,hu⟩
      · rw [List.mem_singleton.mp hx,hnone _ (Nat.le_refl _)] at ht
        cases ht
    · rintro ⟨x,hx,hr⟩
      exact ⟨x,List.mem_append_left _ hx,hr⟩
  · rw [hj,List.getLast?_concat] at hl
    cases hl
    rw [hj,hv]
    constructor
    · rintro ⟨x,hx,t,ht,hu⟩
      rcases List.mem_append.mp hx with hx | hx
      · exact ⟨x,List.mem_append_left _ hx,t,ht,hu⟩
      · rw [List.mem_singleton.mp hx,hnone _ (Nat.le_refl _)] at ht
        cases ht
    · rintro ⟨x,hx,t,ht,hu⟩
      rcases List.mem_append.mp hx with hx | hx
      · exact ⟨x,List.mem_append_left _ hx,t,ht,hu⟩
      · rw [List.mem_singleton.mp hx,hnone v (by simp)] at ht
        cases ht

/-- One that is takes the peer out for the timeout from then on. -/
theorem penalised_failure_of_many {es : List Event} {now : ℕ} (ho : InOrder (.failure now :: es))
    (hm : l.maxFails ≠ 0) {w : ℕ × List ℕ} (hl : (failureWindows l (.failure now :: es)).getLast? = some w)
    (hmany : l.maxFails.toNat ≤ w.2.length + 1) (u : ℕ) :
    Penalised l (.failure now :: es) u ↔ u < now + l.failTimeoutMs.toNat := by
  have hmem : w ∈ failureWindows l (.failure now :: es) := List.mem_of_getLast? hl
  have hlast : (w.1 :: w.2).getLast? = some now := by
    rw [failureWindows_failure] at hl
    rcases joinWindow_cases (failureWindows l es) now with ⟨hj,-⟩ | ⟨init,v,-,-,hj⟩
    · rw [hj,List.getLast?_concat] at hl
      cases hl
      rfl
    · rw [hj,List.getLast?_concat] at hl
      cases hl
      rw [← List.cons_append,List.getLast?_concat]
  constructor
  · rintro ⟨-,x,hx,t,ht,hu⟩
    have := mem_windows_le ho hx t (List.mem_of_mem_drop ht)
    omega
  · intro hu
    refine ⟨hm,w,hmem,now,?_,hu⟩
    have hd : ((w.1 :: w.2).drop (l.maxFails.toNat - 1)).getLast? = some now := by
      rw [List.getLast?_drop,if_neg,hlast]
      rw [List.length_cons]
      have hpos : 0 < l.maxFails.toNat := by
        rw [Nat.pos_iff_ne_zero]
        intro hz
        exact hm (UInt32.toNat_inj.mp hz)
      omega
    exact List.mem_of_getLast? hd

theorem Tracks.failure {es : List Event} {s : PeerHealth} (h : Tracks l es s) {now : ℕ}
    (ho : InOrder (.failure now :: es)) (ht : now + l.failTimeoutMs.toNat < 2 ^ 64)
    (hfit : ∀ w ∈ failureWindows l (.failure now :: es), w.2.length + 1 < 2 ^ 32) :
    Tracks l (.failure now :: es) (s.recordFailure now l.maxFails l.failTimeoutMs) := by
  unfold recordFailure
  by_cases hm : l.maxFails = 0
  · rw [if_pos hm]
    refine ⟨fun hn => absurd hm hn,fun hn => absurd hm hn,?_,h.passes,h.probeFails,h.probeDown⟩
    intro u
    rw [h.down]
    exact iff_of_false (fun hp => hp.1 hm) (fun hp => hp.1 hm)
  · rw [if_neg hm]
    obtain ⟨w,hl,hc⟩ := h.countFailure hm hfit
    simp only [hc]
    have hfails : w.2.length + 1 =
        ((failureWindows l (.failure now :: es)).getLast?.map (fun w => w.2.length + 1)).getD 0 := by
      rw [hl]
      rfl
    have hstart : ∀ v, (failureWindows l (.failure now :: es)).getLast? = some v → w.1 = v.1 := by
      intro v hv
      rw [hl] at hv
      cases hv
      rfl
    by_cases hmany : l.maxFails.toNat ≤ w.2.length + 1
    · rw [if_pos hmany]
      refine ⟨fun _ => hfails,fun _ => hstart,?_,h.passes,h.probeFails,h.probeDown⟩
      intro u
      rw [penalised_failure_of_many ho hm hl hmany]
      change (now + l.failTimeoutMs.toNat) % 2 ^ 64 ≠ 0 ∧ u < (now + l.failTimeoutMs.toNat) % 2 ^ 64 ↔ _
      rw [Nat.mod_eq_of_lt ht]
      omega
    · rw [if_neg hmany]
      refine ⟨fun _ => hfails,fun _ => hstart,?_,h.passes,h.probeFails,h.probeDown⟩
      intro u
      rw [penalised_failure_of_few hl (by omega)]
      exact h.down u

theorem tracks_after {es : List Event} (ho : InOrder es) (hf : Fits l es) : Tracks l es (after l es) := by
  induction es with
  | nil => exact tracks_nil
  | cons e es ih =>
    obtain ⟨hf,he⟩ := hf
    have h := ih ho.tail hf
    cases e with
    | failure now => exact h.failure ho he.1 he.2
    | success => exact h.success
    | probe ok =>
      cases ok with
      | true => exact h.probePassed (he rfl)
      | false => exact h.probeFailed

/-- After any history in order whose counters and times fit, a peer is down
exactly when the automaton says so. -/
theorem isDown_iff {es : List Event} (ho : InOrder es) (hf : Fits l es) (now : ℕ) :
    (after l es).isDown now = true ↔ Unavailable l es now :=
  (tracks_after ho hf).out_iff now

def twoInTen : HealthLimits := ⟨2,10000,1,1⟩

/-- Two failures a millisecond apart take the peer out. -/
theorem twoFailures_unavailable :
    Unavailable twoInTen [.failure 1,.failure 0] 5000 ∧ ¬ Unavailable twoInTen [.success,.failure 1,.failure 0] 5000 := by
  have ho : InOrder [.failure 1,.failure 0] := by simp [InOrder]
  have hf : Fits twoInTen [.failure 1,.failure 0] := by
    simp [Fits,failureWindows,failuresSince,windows,within,twoInTen]
  constructor
  · exact (isDown_iff ho hf 5000).mp (by decide +kernel)
  · intro h
    have hd := (@isDown_iff twoInTen [.success,.failure 1,.failure 0] ho ⟨hf,trivial⟩ 5000).mpr h
    exact absurd hd (by decide +kernel)

/-- With the longest timeout the end of the penalty wraps around, and the peer
stays in. -/
def longTimeout : HealthLimits := ⟨1,18446744073709551615,1,1⟩

theorem longTimeout_ignored :
    InOrder [.failure 1] ∧ Unavailable longTimeout [.failure 1] 2 ∧
      (after longTimeout [.failure 1]).isDown 2 = false := by
  refine ⟨by simp [InOrder],Or.inr ⟨by decide,?_⟩,by decide +kernel⟩
  refine ⟨(1,[]),by simp [failureWindows,failuresSince,windows],1,?_,by decide +kernel⟩
  exact List.mem_singleton.mpr rfl

/-- A penalty comes from enough failures within the timeout of the first. -/
theorem Penalised.window {es : List Event} {now : ℕ} (h : Penalised l es now) :
    ∃ w ∈ failureWindows l es, l.maxFails.toNat ≤ w.2.length + 1 ∧
      ∀ t ∈ w.2, t ≤ w.1 + l.failTimeoutMs.toNat := by
  obtain ⟨-,w,hw,t,ht,-⟩ := h
  have hlt := List.length_pos_of_mem ht
  rw [List.length_drop,List.length_cons] at hlt
  refine ⟨w,hw,by omega,?_⟩
  intro u hu
  exact of_decide_eq_true (near_of_mem_windows hw u hu)

end Automaton

end PeerHealth

end OxiServe.Server
