import Mathlib.Data.List.Chain
import OxiServe.Server.LimitReq

/-! # What a rate and a burst promise

Over any sequence of requests for one key, as many are admitted as the burst and
the rate allow, provided the stored excess is never cut off: a word has room for
an excess below `2 ^ 24` and a time below `2 ^ 39`. With a larger burst the
excess stops growing, and past that time the bucket is always drained.
-/
namespace OxiServe.LimitReq
open Server (Decision)

/-- The requests of one key in turn, with their times: the state word behind
them and what was decided. -/
def serve (r : Rule) : ℕ → List ℕ → ℕ × List Decision
  | cur, [] => (cur,[])
  | cur, t :: ts => ((serve r (bumpWord r t cur).1 ts).1,(bumpWord r t cur).2 :: (serve r (bumpWord r t cur).1 ts).2)

def admitted (ds : List Decision) : ℕ := ds.countP (· ≠ .reject)

/-- Times that never go back, all of them below the horizon. -/
structure Timeline (horizon : ℕ) (ts : List ℕ) : Prop where
  sorted : ts.Pairwise (· ≤ ·)
  below : ∀ t ∈ ts, t < horizon

/-- What a burst promises at every rate, for requests before the horizon. -/
structure LeakyBucket (burst horizon : ℕ) : Prop where
  bounded : ∀ (r : Rule) (t : ℕ) (ts : List ℕ), 0 < r.rate → r.burst = burst → Timeline horizon (t :: ts) →
    1000 * (admitted (serve r 0 (t :: ts)).2 - 1) ≤ burst + r.rate * (ts.getLastD t - t) / 1000
  keeps : ∀ (r : Rule) (nowMs cur : ℕ), r.burst = burst → (bumpWord r nowMs cur).2 = .reject →
    (bumpWord r nowMs cur).1 = cur
  spaced : ∀ (r : Rule) (ts : List ℕ), 0 < r.rate → r.burst = burst → Timeline horizon ts →
    ts.IsChain (fun a b => 10 ^ 6 ≤ r.rate * (b - a)) → ∀ d ∈ (serve r 0 ts).2, d = .pass

section Excess
variable {r : Rule} {t last excess : ℕ}

theorem excessAt_zero (hr : 0 < r.rate) (t : ℕ) : excessAt r t 0 = 0 := by
  have hle : 1 * 18446744073709551 ≤ r.rate * 18446744073709551 := Nat.mul_le_mul_right _ hr
  rw [excessAt,reading_zero,excessOf,scale]
  dsimp only
  omega

theorem excessAt_stored (r : Rule) (t last excess : ℕ) : excessAt r t (pack last excess) =
    min excess excessMask + 1000 - min (r.rate * (t - last % 2 ^ 39)) (2 ^ 127 - 1) / 1000 := by
  rw [excessAt,reading_pack]
  rfl

theorem excessAt_pack (hl : last < 2 ^ 39) (he : excess ≤ excessMask) (r : Rule) (t : ℕ) :
    excessAt r t (pack last excess) = excess + 1000 - min (r.rate * (t - last)) (2 ^ 127 - 1) / 1000 := by
  rw [excessAt_stored,Nat.mod_eq_of_lt hl,Nat.min_eq_left he]

/-- Draining in two spans of time takes no more than draining in one. -/
theorem drain_split (rate : ℕ) {a b c : ℕ} (hab : a ≤ b) (hbc : b ≤ c) :
    rate * (b - a) / 1000 + rate * (c - b) / 1000 ≤ rate * (c - a) / 1000 := by
  have hsum : rate * (b - a) + rate * (c - b) = rate * (c - a) := by
    rw [← Nat.mul_add]
    congr 1
    omega
  rw [← hsum]
  exact Nat.div_add_div_le_add_div

/-- A request that finds room leaves its excess behind and counts as one. -/
theorem serve_admits {cur : ℕ} (h : excessAt r t cur ≤ r.burst) (ts : List ℕ) :
    (serve r cur (t :: ts)).1 = (serve r (pack t (excessAt r t cur)) ts).1 ∧
      admitted (serve r cur (t :: ts)).2 = admitted (serve r (pack t (excessAt r t cur)) ts).2 + 1 := by
  obtain ⟨d,hd,hne,-⟩ := bumpWord_admits h
  simp only [serve,hd,admitted,List.countP_cons]
  simp [hne]

theorem serve_reject {cur : ℕ} (h : r.burst < excessAt r t cur) (ts : List ℕ) :
    admitted (serve r cur (t :: ts)).2 = admitted (serve r cur ts).2 := by
  simp [serve,bumpWord_reject h,admitted]

end Excess

section Bounded
variable {r : Rule}

/-- A request is not before the one admitted last, unless there is no room for it. -/
def Ahead (r : Rule) (cur t : ℕ) : Prop := (unpack cur).1 ≤ t ∨ r.burst < (unpack cur).2 + scale

/-- Each request of a run is ahead of the state it finds. -/
def Forward (r : Rule) : ℕ → List ℕ → Prop
  | _, [] => True
  | cur, t :: ts => Ahead r cur t ∧ Forward r (bumpWord r t cur).1 ts

/-- A request that is admitted ahead of the state is not before it. -/
theorem le_of_ahead {last excess t : ℕ} (hl : last < 2 ^ 39) (he : excess ≤ excessMask) (h : Ahead r (pack last excess) t)
    (hadm : excessAt r t (pack last excess) ≤ r.burst) : last ≤ t := by
  unfold Ahead at h
  rw [unpack_pack,Nat.mod_eq_of_lt hl,Nat.min_eq_left he] at h
  rcases h with h | h
  · exact h
  · have hx := excessAt_pack hl he r t
    rcases Nat.lt_or_ge t last with hlt | hge
    · rw [Nat.sub_eq_zero_of_le (Nat.le_of_lt hlt),Nat.mul_zero] at hx
      simp only [scale] at h
      omega
    · exact hge

/-- From a stored excess on, each admission adds a whole request to it. -/
theorem admitted_forward (hb : r.burst ≤ excessMask) {ts : List ℕ} {last excess T : ℕ} (hl : last ≤ T) (hT : T < 2 ^ 39)
    (he : excess ≤ r.burst) (hf : Forward r (pack last excess) ts) (hts : ∀ t ∈ ts, t ≤ T) :
    1000 * admitted (serve r (pack last excess) ts).2 + excess ≤ r.burst + r.rate * (T - last) / 1000 := by
  induction ts generalizing last excess with
  | nil =>
    have hzero : admitted (serve r (pack last excess) []).2 = 0 := rfl
    omega
  | cons t ts ih =>
    obtain ⟨hahead,hrest⟩ := hf
    have hlt : last < 2 ^ 39 := Nat.lt_of_le_of_lt hl hT
    have htT : t ≤ T := hts t List.mem_cons_self
    have hx := excessAt_pack hlt (Nat.le_trans he hb) r t
    rcases Nat.lt_or_ge r.burst (excessAt r t (pack last excess)) with hrej | hadm
    · rw [bumpWord_reject hrej] at hrest
      have hih := ih hl he hrest (fun u hu => hts u (List.mem_cons_of_mem _ hu))
      rw [serve_reject hrej]
      exact hih
    · have hle := le_of_ahead hlt (Nat.le_trans he hb) hahead hadm
      obtain ⟨d,hd,-,-⟩ := bumpWord_admits hadm
      rw [hd] at hrest
      have hih := ih htT hadm hrest (fun u hu => hts u (List.mem_cons_of_mem _ hu))
      have hcount := (serve_admits hadm ts).2
      have hsplit := drain_split r.rate hle htT
      have hdrain : min (r.rate * (t - last)) (2 ^ 127 - 1) / 1000 ≤ r.rate * (t - last) / 1000 :=
        Nat.div_le_div_right (Nat.min_le_left _ _)
      rw [hcount]
      omega

theorem forward_of_sorted {ts : List ℕ} {last excess : ℕ} (hs : (last :: ts).Pairwise (· ≤ ·))
    (hl : ∀ t ∈ last :: ts, t < 2 ^ 39) : Forward r (pack last excess) ts := by
  induction ts generalizing last excess with
  | nil => trivial
  | cons t ts ih =>
    obtain ⟨hfirst,hrest⟩ := List.pairwise_cons.mp hs
    have hle : last ≤ t := hfirst t List.mem_cons_self
    refine ⟨.inl ?_,?_⟩
    · rw [unpack_pack,Nat.mod_eq_of_lt (hl last List.mem_cons_self)]
      exact hle
    · rcases Nat.lt_or_ge r.burst (excessAt r t (pack last excess)) with hrej | hadm
      · rw [bumpWord_reject hrej]
        refine ih (List.pairwise_cons.mpr ⟨fun u hu => hfirst u (List.mem_cons_of_mem _ hu),?_⟩) fun u hu => ?_
        · exact (List.pairwise_cons.mp hrest).2
        · rcases List.mem_cons.mp hu with rfl | hu
          · exact hl u List.mem_cons_self
          · exact hl u (List.mem_cons_of_mem _ (List.mem_cons_of_mem _ hu))
      · obtain ⟨d,hd,-,-⟩ := bumpWord_admits hadm
        rw [hd]
        exact ih hrest fun u hu => hl u (List.mem_cons_of_mem _ hu)

theorem bounded_of_burst {burst horizon : ℕ} (hb : burst ≤ excessMask) (hh : horizon ≤ 2 ^ 39) (r : Rule) (t : ℕ)
    (ts : List ℕ) (hr : 0 < r.rate) (hburst : r.burst = burst) (hts : Timeline horizon (t :: ts)) :
    1000 * (admitted (serve r 0 (t :: ts)).2 - 1) ≤ burst + r.rate * (ts.getLastD t - t) / 1000 := by
  subst hburst
  have hzero : excessAt r t 0 = 0 := excessAt_zero hr t
  have hadm : excessAt r t 0 ≤ r.burst := by omega
  have hcount := (serve_admits hadm ts).2
  have hlast : ts.getLastD t ∈ t :: ts := List.getLastD_mem_cons
  obtain ⟨hmin,hsorted⟩ := List.pairwise_cons.mp hts.sorted
  have hle : t ≤ ts.getLastD t := by
    rcases List.mem_cons.mp hlast with he | hm
    · exact Nat.le_of_eq he.symm
    · exact hmin _ hm
  have hmax : ∀ u ∈ ts, u ≤ ts.getLastD t := by
    intro u hu
    rcases List.eq_nil_or_concat ts with rfl | ⟨us,v,rfl⟩
    · cases hu
    · rw [List.concat_eq_append] at hu hsorted ⊢
      rw [List.getLastD_concat]
      rcases List.mem_append.mp hu with hu | hu
      · exact (List.pairwise_append.mp hsorted).2.2 u hu v (List.mem_singleton.mpr rfl)
      · exact Nat.le_of_eq (List.mem_singleton.mp hu)
  have hforward : Forward r (pack t 0) ts :=
    forward_of_sorted hts.sorted fun u hu => Nat.lt_of_lt_of_le (hts.below u hu) hh
  have hbound := admitted_forward hb hle (Nat.lt_of_lt_of_le (hts.below _ hlast) hh) (Nat.zero_le _) hforward hmax
  rw [hcount,hzero]
  omega

theorem keeps_of_reject (r : Rule) (nowMs cur : ℕ) (h : (bumpWord r nowMs cur).2 = .reject) :
    (bumpWord r nowMs cur).1 = cur := by
  rcases Nat.lt_or_ge r.burst (excessAt r nowMs cur) with hrej | hadm
  · rw [bumpWord_reject hrej]
  · obtain ⟨d,hd,hne,-⟩ := bumpWord_admits hadm
    rw [hd] at h
    exact absurd h hne

/-- An empty bucket that has had the time of one request is empty after the next. -/
theorem spaced_from {ts : List ℕ} {last : ℕ}
    (hc : (last :: ts).IsChain (fun a b => 10 ^ 6 ≤ r.rate * (b - a))) (hl : ∀ t ∈ last :: ts, t < 2 ^ 39) :
    ∀ d ∈ (serve r (pack last 0) ts).2, d = .pass := by
  induction ts generalizing last with
  | nil => exact fun d hd => by cases hd
  | cons t ts ih =>
    obtain ⟨hgap,hrest⟩ := List.isChain_cons_cons.mp hc
    have hx := excessAt_pack (hl last List.mem_cons_self) (Nat.zero_le _) r t
    have hzero : excessAt r t (pack last 0) = 0 := by omega
    have hadm : excessAt r t (pack last 0) ≤ r.burst := by omega
    obtain ⟨d,hd,-,hpass⟩ := bumpWord_admits hadm
    intro e he
    simp only [serve,hd,hzero,List.mem_cons] at he
    rcases he with rfl | he
    · exact hpass hzero
    · exact ih hrest (fun u hu => hl u (List.mem_cons_of_mem _ hu)) e he

theorem spaced_of_horizon {horizon : ℕ} (hh : horizon ≤ 2 ^ 39) {ts : List ℕ} (hr : 0 < r.rate)
    (hts : Timeline horizon ts) (hc : ts.IsChain (fun a b => 10 ^ 6 ≤ r.rate * (b - a))) :
    ∀ d ∈ (serve r 0 ts).2, d = .pass := by
  cases ts with
  | nil => exact fun d hd => by cases hd
  | cons t ts =>
    have hzero : excessAt r t 0 = 0 := excessAt_zero hr t
    have hadm : excessAt r t 0 ≤ r.burst := by omega
    obtain ⟨d,hd,-,hpass⟩ := bumpWord_admits hadm
    intro e he
    simp only [serve,hd,hzero,List.mem_cons] at he
    rcases he with rfl | he
    · exact hpass hzero
    · exact spaced_from hc (fun u hu => Nat.lt_of_lt_of_le (hts.below u hu) hh) e he

end Bounded

section Unbounded
variable {r : Rule} {burst horizon : ℕ}

theorem serve_append (r : Rule) (ts us : List ℕ) (cur : ℕ) :
    (serve r cur (ts ++ us)).1 = (serve r (serve r cur ts).1 us).1 ∧
      (serve r cur (ts ++ us)).2 = (serve r cur ts).2 ++ (serve r (serve r cur ts).1 us).2 := by
  induction ts generalizing cur with
  | nil => exact ⟨rfl,rfl⟩
  | cons t ts ih =>
    obtain ⟨h1,h2⟩ := ih (bumpWord r t cur).1
    exact ⟨h1,congrArg ((bumpWord r t cur).2 :: ·) h2⟩

/-- Where no stored excess is too much, every request of one moment is admitted. -/
theorem admitted_flood {t : ℕ} (h : ∀ excess, excessAt r t (pack t excess) ≤ r.burst) (n excess : ℕ) :
    admitted (serve r (pack t excess) (List.replicate n t)).2 = n := by
  induction n generalizing excess with
  | zero => rfl
  | succ n ih =>
    rw [List.replicate_succ,(serve_admits (h excess) _).2,ih]

/-- A burst that admits a whole flood is one request too generous in the end. -/
theorem not_leaky_of_flood {t : ℕ} (hr : 0 < r.rate) (ht : t < horizon)
    (h : ∀ excess, excessAt r t (pack t excess) ≤ r.burst) : ¬ LeakyBucket r.burst horizon := by
  intro hl
  have hzero : excessAt r t 0 = 0 := excessAt_zero hr t
  have hadm : excessAt r t 0 ≤ r.burst := by omega
  have hcount : admitted (serve r 0 (t :: List.replicate (r.burst + 1) t)).2 = r.burst + 2 := by
    rw [(serve_admits hadm _).2,admitted_flood h]
  have hts : Timeline horizon (t :: List.replicate (r.burst + 1) t) := by
    rw [← List.replicate_succ]
    refine ⟨List.pairwise_replicate.mpr (Or.inr (Nat.le_refl _)),fun u hu => ?_⟩
    rw [List.eq_of_mem_replicate hu]
    exact ht
  have hlast : (List.replicate (r.burst + 1) t).getLastD t = t := by
    rw [List.replicate_succ',List.getLastD_concat]
  have hb := hl.bounded r t _ hr rfl hts
  rw [hcount,hlast,Nat.sub_self,Nat.mul_zero] at hb
  omega

theorem burst_of_leaky (hl : LeakyBucket burst horizon) (hh : 0 < horizon) : burst < excessMask + 1000 := by
  rcases Nat.lt_or_ge burst (excessMask + 1000) with h | h
  · exact h
  · have hflood : ∀ excess, excessAt ⟨1,burst,true,0⟩ 0 (pack 0 excess) ≤ burst := by
      intro excess
      have hx := excessAt_stored ⟨1,burst,true,0⟩ 0 0 excess
      have hm : min excess excessMask ≤ excessMask := Nat.min_le_right _ _
      omega
    have hno : ¬ LeakyBucket burst horizon := not_leaky_of_flood (r := ⟨1,burst,true,0⟩) Nat.one_pos hh hflood
    exact absurd hl hno

theorem horizon_of_leaky (hl : LeakyBucket burst horizon) : horizon ≤ 2 ^ 39 := by
  rcases Nat.lt_or_ge (2 ^ 39) horizon with h | h
  · have hflood : ∀ excess, excessAt ⟨1000,burst,true,0⟩ (2 ^ 39) (pack (2 ^ 39) excess) ≤ burst := by
      intro excess
      have hx := excessAt_stored ⟨1000,burst,true,0⟩ (2 ^ 39) (2 ^ 39) excess
      have hm : min excess excessMask ≤ excessMask := Nat.min_le_right _ _
      simp only [excessMask,excessBits] at hm hx
      omega
    have hno : ¬ LeakyBucket burst horizon := not_leaky_of_flood (r := ⟨1000,burst,true,0⟩) (Nat.succ_pos 999) h hflood
    exact absurd hl hno
  · exact h

/-- Requests of one moment fill a bucket as long as there is room. -/
theorem serve_fill {t excess : ℕ} (ht : t < 2 ^ 39) (n : ℕ) (hb : excess + 1000 * n ≤ r.burst)
    (hm : excess + 1000 * n ≤ excessMask) : (serve r (pack t excess) (List.replicate n t)).1 = pack t (excess + 1000 * n) ∧
      admitted (serve r (pack t excess) (List.replicate n t)).2 = n := by
  induction n generalizing excess with
  | zero => exact ⟨rfl,rfl⟩
  | succ n ih =>
    have hx := excessAt_pack ht (by omega : excess ≤ excessMask) r t
    have hx' : excessAt r t (pack t excess) = excess + 1000 := by
      rw [hx,Nat.sub_self]
      simp
    have hadm : excessAt r t (pack t excess) ≤ r.burst := by omega
    obtain ⟨hs,hc⟩ := serve_admits hadm (List.replicate n t)
    obtain ⟨h1,h2⟩ := ih (by omega : excess + 1000 + 1000 * n ≤ r.burst) (by omega)
    rw [List.replicate_succ,hs,hc,hx',h1,h2,Nat.add_assoc,Nat.mul_succ,Nat.add_comm 1000]
    exact ⟨rfl,rfl⟩

/-- After the first request: a full bucket, one request that is cut off as it is
stored, and one that comes as soon as the stored excess allows. -/
def cutOff (burst : ℕ) : List ℕ := List.replicate 16777 0 ++
  [16778000 - burst,16778000 - burst + (excessMask + 1000 - burst)]

theorem cutOff_timeline (h : excessMask < burst) (hh : 2000 ≤ horizon) : Timeline horizon (0 :: cutOff burst) := by
  have hmask : excessMask = 16777215 := rfl
  refine ⟨List.pairwise_cons.mpr ⟨fun u _ => Nat.zero_le u,List.pairwise_append.mpr
    ⟨List.pairwise_replicate.mpr (Or.inr (Nat.le_refl 0)),?_,?_⟩⟩,?_⟩
  · exact List.pairwise_pair.mpr (Nat.le_add_right _ _)
  · intro u hu v _
    rw [List.eq_of_mem_replicate hu]
    exact Nat.zero_le v
  · intro u hu
    simp only [cutOff,List.mem_cons,List.mem_append,List.mem_replicate,List.not_mem_nil,or_false] at hu
    omega

theorem cutOff_admitted (hr : r.rate = 1000) (h : excessMask < r.burst) (hlt : r.burst < excessMask + 1000) :
    admitted (serve r 0 (0 :: cutOff r.burst)).2 = 16780 := by
  have hmask : excessMask = 16777215 := rfl
  have hzero : excessAt r 0 0 = 0 := excessAt_zero (by omega) 0
  have hfirst := (serve_admits (by omega : excessAt r 0 0 ≤ r.burst) (cutOff r.burst)).2
  have hsplit := (serve_append r (List.replicate 16777 0)
    [16778000 - r.burst,16778000 - r.burst + (excessMask + 1000 - r.burst)] (pack 0 0)).2
  have hfits : 0 + 1000 * 16777 ≤ r.burst := by omega
  obtain ⟨hfill,hcount⟩ := serve_fill (t := 0) (by omega) 16777 hfits (by omega)
  have hx := excessAt_stored r (16778000 - r.burst) 0 (0 + 1000 * 16777)
  rw [hr] at hx
  have hsecond := (serve_admits (by omega : excessAt r (16778000 - r.burst) (pack 0 (0 + 1000 * 16777)) ≤ r.burst)
    [16778000 - r.burst + (excessMask + 1000 - r.burst)]).2
  generalize excessAt r (16778000 - r.burst) (pack 0 (0 + 1000 * 16777)) = excess at hx hsecond
  have hy := excessAt_stored r (16778000 - r.burst + (excessMask + 1000 - r.burst)) (16778000 - r.burst) excess
  rw [hr] at hy
  have hthird := (serve_admits (by omega : excessAt r (16778000 - r.burst + (excessMask + 1000 - r.burst))
    (pack (16778000 - r.burst) excess) ≤ r.burst) []).2
  rw [hfirst,hzero,cutOff,hsplit,hfill,admitted,List.countP_append]
  simp only [admitted,serve,List.countP_nil] at hcount hsecond hthird ⊢
  omega

/-- With a burst just above the stored excess, a full bucket that is cut off
admits one request more than the rate pays for. -/
theorem burst_le_of_leaky (hl : LeakyBucket burst horizon) (hh : 2000 ≤ horizon) : burst ≤ excessMask := by
  rcases Nat.lt_or_ge excessMask burst with h | h
  · exfalso
    have hlt := burst_of_leaky hl (by omega)
    have hmask : excessMask = 16777215 := rfl
    have hbound := hl.bounded ⟨1000,burst,true,0⟩ 0 (cutOff burst) (Nat.succ_pos 999) rfl (cutOff_timeline h hh)
    have htotal : admitted (serve ⟨1000,burst,true,0⟩ 0 (0 :: cutOff burst)).2 = 16780 := cutOff_admitted rfl h hlt
    have hlast : (cutOff burst).getLastD 0 = 16778000 - burst + (excessMask + 1000 - burst) := by
      rw [cutOff,List.getLastD_eq_getLast?,List.getLast?_append]
      rfl
    rw [htotal,hlast] at hbound
    dsimp only at hbound
    omega
  · exact h

/-- The promises hold for exactly the bursts that fit the stored excess, over
exactly the times that fit the stored time. -/
theorem leakyBucket_iff (hh : 2000 ≤ horizon) : LeakyBucket burst horizon ↔ burst ≤ excessMask ∧ horizon ≤ 2 ^ 39 := by
  constructor
  · intro hl
    exact ⟨burst_le_of_leaky hl hh,horizon_of_leaky hl⟩
  · rintro ⟨hb,hhorizon⟩
    exact ⟨bounded_of_burst hb hhorizon,fun r nowMs cur _ h => keeps_of_reject r nowMs cur h,
      fun _ _ hr _ hts hc => spaced_of_horizon hhorizon hr hts hc⟩

theorem smallBurst_leaky : (2000 ≤ 2 ^ 39 ∧ 5000 ≤ excessMask) ∧ LeakyBucket 5000 (2 ^ 39) :=
  ⟨by decide,(leakyBucket_iff (by decide)).mpr (by decide)⟩

/-- `burst=20000` is past the stored excess, and no flood uses it up. -/
theorem largeBurst_floods : ¬ LeakyBucket 20000000 (2 ^ 39) ∧
    admitted (serve ⟨1,20000000,true,0⟩ (pack 0 0) (List.replicate 30000 0)).2 = 30000 := by
  have hflood : ∀ excess, excessAt ⟨1,20000000,true,0⟩ 0 (pack 0 excess) ≤ 20000000 := by
    intro excess
    have hx := excessAt_stored ⟨1,20000000,true,0⟩ 0 0 excess
    have hm : min excess excessMask ≤ excessMask := Nat.min_le_right _ _
    simp only [excessMask,excessBits] at hm hx
    omega
  refine ⟨fun hl => ?_,admitted_flood hflood 30000 0⟩
  have hlt := burst_of_leaky hl (by decide)
  exact absurd hlt (by decide)

end Unbounded

end OxiServe.LimitReq
