import OxiServe.Config.Units
import OxiServe.Server.CheckRace
import OxiServe.Server.ReqZones

/-! # Runs of checks of one key

The checks of a key that has a fresh bucket, one after the other, come to the
turns of `bump` against its state word. What they admit is bounded where no
admitted request is before the last one, and they decide as a bucket that is not
packed at all where the burst has room in the word.
-/
namespace OxiServe.LimitReq
open Server (Decision)

/-- The key has its entry in its window, or room for one, and an empty bucket. -/
def Zone.Fresh (z : Zone) (t : Table) (key : Bytes) : Prop :=
  ∃ p < probe, z.Homed t (z.hashKey key) p ∧ t.state (z.slotAt (z.hashKey key) p) = 0

/-- The same directive's checks at the given instants. -/
def asksOf (l : Config.LimitReq) (ts : List ℕ) : List Ask := ts.map (fun t => ⟨t,l.burst,l.nodelay,l.delayAfter⟩)

def Zone.decisions (z : Zone) (l : Config.LimitReq) (key : Bytes) (t : Table) (ts : List ℕ) : List Decision :=
  z.inTurn key t (asksOf l ts)

section Words
variable {z : Zone} {l : Config.LimitReq} {key : Bytes} {t : Table} {ts : List ℕ} {p : ℕ}

theorem turns_serve (w : ℕ) : (z.turns w (asksOf l ts)).2 = (serve (ruleOf z l) w ts).2 := by
  induction ts generalizing w with
  | nil => rfl
  | cons now ts ih => exact congrArg ((bumpWord (ruleOf z l) now w).2 :: ·) (ih _)

/-- The checks of a key are the turns against its word. -/
theorem decisions_homed (hh : z.Homed t (z.hashKey key) p) (hp : p < probe) :
    z.decisions l key t ts = (serve (ruleOf z l) (t.state (z.slotAt (z.hashKey key) p)) ts).2 := by
  unfold Zone.decisions
  rw [inTurn_turns hh hp,turns_serve]

theorem decisions_fresh (hf : z.Fresh t key) : z.decisions l key t ts = (serve (ruleOf z l) 0 ts).2 := by
  obtain ⟨p,hp,hh,h0⟩ := hf
  rw [decisions_homed hh hp,h0]

theorem bucket_homed (hh : z.Homed t (z.hashKey key) p) (hp : p < probe) :
    z.bucket t key = t.state (z.slotAt (z.hashKey key) p) := by
  obtain ⟨t',hl,-,hstate,-⟩ := locate_homed hh probe 0 none (Nat.zero_le _) (by omega)
  unfold Zone.bucket
  rw [hl]
  exact hstate

theorem fresh_new (z : Zone) (key : Bytes) : z.Fresh Table.new key :=
  ⟨0,by decide,⟨fun q hq => by omega,.inr ⟨rfl,rfl⟩⟩,rfl⟩

end Words

section AnyOrder
variable {z : Zone} {l : Config.LimitReq} {key : Bytes} {t : Table} {ts : List ℕ} {p : ℕ}

/-- The time from the earliest instant to the latest. -/
def span (ts : List ℕ) : ℕ := ts.foldr max 0 - ts.foldr min (ts.foldr max 0)

/-- As many are admitted as the burst and the rate allow. -/
def Zone.Bound (z : Zone) (l : Config.LimitReq) (key : Bytes) (t : Table) (ts : List ℕ) : Prop :=
  1000 * (admitted (z.decisions l key t ts) - 1) ≤ l.burst + z.rate * span ts / 1000

/-- Each check of a run is ahead of the bucket it finds. -/
def Zone.Forward (z : Zone) (l : Config.LimitReq) (key : Bytes) : Table → List ℕ → Prop
  | _, [] => True
  | t, now :: ts => Ahead (ruleOf z l) (z.bucket t key) now ∧
      z.Forward l key (z.check t key now l.burst l.nodelay l.delayAfter).1 ts

theorem forward_word (hh : z.Homed t (z.hashKey key) p) (hp : p < probe) (hf : z.Forward l key t ts) :
    Forward (ruleOf z l) (t.state (z.slotAt (z.hashKey key) p)) ts := by
  induction ts generalizing t with
  | nil => trivial
  | cons now ts ih =>
    obtain ⟨hahead,hrest⟩ := hf
    obtain ⟨-,hnext,hw⟩ := check_homed hh hp ⟨now,l.burst,l.nodelay,l.delayAfter⟩
    have hih := ih hnext hrest
    rw [hw] at hih
    rw [bucket_homed hh hp] at hahead
    exact ⟨hahead,hih⟩

theorem le_foldr_max {u : ℕ} (h : u ∈ ts) : u ≤ ts.foldr max 0 := by
  induction ts with
  | nil => cases h
  | cons v ts ih =>
    rcases List.mem_cons.mp h with rfl | h
    · exact Nat.le_max_left _ _
    · exact Nat.le_trans (ih h) (Nat.le_max_right _ _)

theorem foldr_min_le {u m : ℕ} (h : u ∈ ts) : ts.foldr min m ≤ u := by
  induction ts with
  | nil => cases h
  | cons v ts ih =>
    rcases List.mem_cons.mp h with rfl | h
    · exact Nat.min_le_left _ _
    · exact Nat.le_trans (Nat.min_le_right _ _) (ih h)

theorem foldr_max_lt {m : ℕ} (hm : 0 < m) (h : ∀ u ∈ ts, u < m) : ts.foldr max 0 < m := by
  induction ts with
  | nil => exact hm
  | cons v ts ih =>
    exact Nat.max_lt.mpr ⟨h v List.mem_cons_self,ih fun u hu => h u (List.mem_cons_of_mem _ hu)⟩

/-- The latest instant is no further from any other than the span. -/
theorem latest_sub_le {u : ℕ} (h : u ∈ ts) : ts.foldr max 0 - u ≤ span ts := by
  have hmin : ts.foldr min (ts.foldr max 0) ≤ u := foldr_min_le h
  unfold span
  omega

/-- A run that never goes back is within the bound. -/
theorem bound_of_forward (hb : l.burst ≤ excessMask) (hf : z.Fresh t key) (hts : ∀ u ∈ ts, u < 2 ^ 39)
    (hforward : z.Forward l key t ts) : z.Bound l key t ts := by
  unfold Zone.Bound
  rw [decisions_fresh hf]
  cases ts with
  | nil => exact Nat.zero_le _
  | cons now rest =>
    obtain ⟨p,hp,hh,h0⟩ := hf
    have hword := forward_word hh hp hforward
    rw [h0] at hword
    have hzero : excessAt (ruleOf z l) now 0 = 0 := excessAt_zero z.rate_pos now
    have hadm : excessAt (ruleOf z l) now 0 ≤ (ruleOf z l).burst := by omega
    obtain ⟨d,hd,-,-⟩ := bumpWord_admits hadm
    obtain ⟨-,hrest⟩ := hword
    rw [hd,hzero] at hrest
    have hlatest : ∀ u ∈ rest, u ≤ (now :: rest).foldr max 0 := fun u hu => le_foldr_max (List.mem_cons_of_mem _ hu)
    have hbound := admitted_forward (r := ruleOf z l) hb (le_foldr_max List.mem_cons_self)
      (foldr_max_lt (by decide) hts) (Nat.zero_le _) hrest hlatest
    have hcount := (serve_admits hadm rest).2
    have hspan : z.rate * ((now :: rest).foldr max 0 - now) / 1000 ≤ z.rate * span (now :: rest) / 1000 :=
      Nat.div_le_div_right (Nat.mul_le_mul_left _ (latest_sub_le List.mem_cons_self))
    rw [hcount,hzero]
    change 1000 * admitted _ + 0 ≤ l.burst + z.rate * _ / 1000 at hbound
    omega

/-- Where there is no room for a second request, none before the first is admitted. -/
theorem forward_of_small (hb : l.burst < 1000) : z.Forward l key t ts := by
  induction ts generalizing t with
  | nil => trivial
  | cons now ts ih =>
    refine ⟨.inr ?_,ih⟩
    change l.burst < _ + 1000
    omega

/-- Instants that go back and forth. -/
def seesaw (m : ℕ) : ℕ → List ℕ
  | 0 => []
  | n + 1 => m :: 0 :: seesaw m n

theorem seesaw_mem {m n u : ℕ} (h : u ∈ seesaw m n) : u ≤ m := by
  induction n with
  | zero => cases h
  | succ n ih =>
    rcases List.mem_cons.mp h with rfl | h
    · exact Nat.le_refl _
    · rcases List.mem_cons.mp h with rfl | h
      · exact Nat.zero_le _
      · exact ih h

theorem span_seesaw (m n : ℕ) : span (seesaw m n) ≤ m := by
  have hlt := foldr_max_lt (Nat.succ_pos m) fun u hu => Nat.lt_succ_of_le (seesaw_mem (n := n) hu)
  unfold span
  omega

/-- Where the rate drains two requests between the instants, each turn back and
forth drains them again. -/
theorem admitted_seesaw {r : Rule} (hb : 1000 ≤ r.burst) {m cur : ℕ} (hm : m < 2 ^ 39) (hr : 2000000 ≤ r.rate * m)
    (hcur : excessAt r m cur = 0) (n : ℕ) : admitted (serve r cur (seesaw m n)).2 = 2 * n := by
  induction n generalizing cur with
  | zero => rfl
  | succ n ih =>
    have hback : excessAt r 0 (pack m 0) = 1000 := by
      rw [excessAt_pack hm (Nat.zero_le _),Nat.zero_sub,Nat.mul_zero]
      rfl
    have hforth : excessAt r m (pack 0 1000) = 0 := by
      rw [excessAt_pack (by decide) (by decide),Nat.sub_zero]
      omega
    rw [seesaw,(serve_admits (by omega) _).2,hcur,(serve_admits (by omega) _).2,hback,ih hforth]
    omega

theorem seesaw_exceeds (hb : 1000 ≤ l.burst) (hf : z.Fresh t key) {m : ℕ} (hm : m < 2 ^ 39) (hr : 2000000 ≤ z.rate * m) :
    ¬ z.Bound l key t (seesaw m (l.burst + z.rate * m)) := by
  intro h
  unfold Zone.Bound at h
  rw [decisions_fresh hf,admitted_seesaw hb hm hr (excessAt_zero z.rate_pos _)] at h
  have hspan : z.rate * span (seesaw m (l.burst + z.rate * m)) / 1000 ≤ z.rate * m / 1000 :=
    Nat.div_le_div_right (Nat.mul_le_mul_left _ (span_seesaw _ _))
  omega

theorem span_replicate (n u : ℕ) : span (List.replicate (n + 1) u) = 0 := by
  have hmax : ∀ m, (List.replicate (m + 1) u).foldr max 0 = u := by
    intro m
    induction m with
    | zero => exact Nat.max_zero u
    | succ m ih => rw [List.replicate_succ,List.foldr_cons,ih,Nat.max_self]
  have hmin : ∀ m, (List.replicate m u).foldr min u = u := by
    intro m
    induction m with
    | zero => rfl
    | succ m ih => rw [List.replicate_succ,List.foldr_cons,ih,Nat.min_self]
  rw [span,hmax,hmin,Nat.sub_self]

/-- An instant that a word has no room for is far from the one that it keeps. -/
theorem excessAt_wrapped {r : Rule} (hr : 0 < r.rate) {u : ℕ} (h0 : u % 2 ^ 39 = 0) (hu : 2 ^ 39 ≤ u) (excess : ℕ) :
    excessAt r u (pack u excess) = 0 := by
  have hx := excessAt_stored r u u excess
  have hm : min excess excessMask ≤ 16777215 := Nat.min_le_right _ _
  have hmul : 1 * u ≤ r.rate * u := Nat.mul_le_mul_right _ hr
  rw [h0,Nat.sub_zero] at hx
  omega

/-- Past the last instant that a word has room for, every request is admitted. -/
theorem flood_exceeds (hf : z.Fresh t key) {u : ℕ} (h0 : u % 2 ^ 39 = 0) (hu : 2 ^ 39 ≤ u) :
    ¬ z.Bound l key t (List.replicate (l.burst + 2) u) := by
  intro h
  unfold Zone.Bound at h
  have hfirst : excessAt (ruleOf z l) u 0 = 0 := excessAt_zero z.rate_pos u
  have hnext : ∀ excess, excessAt (ruleOf z l) u (pack u excess) ≤ (ruleOf z l).burst := by
    intro excess
    rw [excessAt_wrapped z.rate_pos h0 hu]
    exact Nat.zero_le _
  have hcount : admitted (serve (ruleOf z l) 0 (List.replicate (l.burst + 2) u)).2 = l.burst + 2 := by
    rw [List.replicate_succ,(serve_admits (by omega) _).2,admitted_flood hnext]
  rw [decisions_fresh hf,hcount,span_replicate (l.burst + 1) u,Nat.mul_zero,Nat.zero_div] at h
  omega

/-- A run is within the bound as long as each check is ahead of the bucket it
finds. All runs are, in any order of the instants, exactly where the burst has no
room for a second request and the instants have room in the word. -/
theorem unordered_bound_iff (z : Zone) (l : Config.LimitReq) (hb : l.burst ≤ excessMask) :
    (∀ key t ts, z.Fresh t key → (∀ u ∈ ts, u < 2 ^ 39) → z.Forward l key t ts → z.Bound l key t ts) ∧
    ∀ horizon, 2000000 < horizon →
      ((∀ key t ts, z.Fresh t key → (∀ u ∈ ts, u < horizon) → z.Bound l key t ts) ↔
        l.burst < 1000 ∧ horizon ≤ 2 ^ 39) := by
  refine ⟨fun key t ts hf hts hforward => bound_of_forward hb hf hts hforward,fun horizon hh => ⟨?_,?_⟩⟩
  · intro hall
    constructor
    · by_contra hbig
      have hrate : 1 * 2000000 ≤ z.rate * 2000000 := Nat.mul_le_mul_right _ z.rate_pos
      have hbelow : ∀ u ∈ seesaw 2000000 (l.burst + z.rate * 2000000), u < horizon :=
        fun u hu => Nat.lt_of_le_of_lt (seesaw_mem hu) hh
      exact seesaw_exceeds (by omega) (fresh_new z []) (by decide) hrate (hall [] _ _ (fresh_new z []) hbelow)
    · by_contra hbig
      have hbelow : ∀ u ∈ List.replicate (l.burst + 2) (2 ^ 39), u < horizon := by
        intro u hu
        rw [List.eq_of_mem_replicate hu]
        omega
      exact flood_exceeds (fresh_new z []) (Nat.mod_self _) (Nat.le_refl _) (hall [] _ _ (fresh_new z []) hbelow)
  · rintro ⟨hsmall,hle⟩ key t ts hf hts
    exact bound_of_forward hb hf (fun u hu => Nat.lt_of_lt_of_le (hts u hu) hle) (forward_of_small hsmall)

theorem unordered_bound_iff_small : perSecond.Bound ⟨[],500,true,0⟩ [107] Table.new [2000,5,2001,7] :=
  ((unordered_bound_iff perSecond ⟨[],500,true,0⟩ (by decide)).2 (2 ^ 39) (by decide)).mpr (by decide) [107] Table.new
    [2000,5,2001,7] (fresh_new _ _) (by decide)

/-- At 1000 requests a second with a burst of one, any number is admitted at
instants that are 2 ms apart. -/
theorem seesaw_unbounded : ¬ ∀ (z : Zone) (l : Config.LimitReq) key t ts, l.burst ≤ excessMask → z.Fresh t key →
    z.Bound l key t ts :=
  fun h => seesaw_exceeds (z := ⟨1000000,by decide,64,0⟩) (l := ⟨[],1000,true,0⟩) (m := 2) (by decide)
    (fresh_new _ [107]) (by decide) (by decide) (h _ _ _ _ _ (by decide) (fresh_new _ [107]))

end AnyOrder

section Exact
variable {r : Rule} {s : Option (ℕ × ℕ)} {cur : ℕ} {ts : List ℕ}

/-- What a request finds in a bucket that is not packed: the excess and the time
since the last one. -/
def exactReading (nowMs : ℕ) : Option (ℕ × ℕ) → ℕ × ℕ
  | none => (0,maxU64 / scale)
  | some (last,excess) => (excess,nowMs - last)

/-- The steps of a bucket that is not packed. -/
def exactServe (r : Rule) : Option (ℕ × ℕ) → List ℕ → List Decision
  | _, [] => []
  | s, t :: ts =>
    match step (exactReading t s).1 (exactReading t s).2 r with
    | (_,.reject) => .reject :: exactServe r s ts
    | (excess,d) => d :: exactServe r (some (t,excess)) ts

/-- A word that says the same as the bucket that is not packed. -/
inductive Packs : ℕ → Option (ℕ × ℕ) → Prop
  | fresh : Packs 0 none
  | stored {last excess : ℕ} (hl : last < 2 ^ 39) (he : excess ≤ excessMask) :
      Packs (pack last excess) (some (last,excess))

theorem Packs.reading (h : Packs cur s) (t : ℕ) : reading t cur = exactReading t s := by
  cases h with
  | fresh => rfl
  | stored hl he => rw [reading_pack,Nat.mod_eq_of_lt hl,Nat.min_eq_left he,exactReading]

/-- With a burst that has room in the word, the word loses nothing. -/
theorem exactServe_eq (hb : r.burst ≤ excessMask) (hp : Packs cur s) (hts : ∀ u ∈ ts, u < 2 ^ 39) :
    exactServe r s ts = (serve r cur ts).2 := by
  induction ts generalizing cur s with
  | nil => rfl
  | cons t ts ih =>
    have hrest : ∀ u ∈ ts, u < 2 ^ 39 := fun u hu => hts u (List.mem_cons_of_mem _ hu)
    rw [exactServe,← hp.reading,serve]
    rcases Nat.lt_or_ge r.burst (excessAt r t cur) with hrej | hadm
    · rw [step_reject (reading_le t cur) hrej,bumpWord_reject hrej]
      exact congrArg (_ :: ·) (ih hp hrest)
    · obtain ⟨d,hd,hne,-⟩ := step_admits (reading_le t cur) hadm
      have hnext : Packs (pack t (excessAt r t cur)) (some (t,excessAt r t cur)) :=
        .stored (hts t List.mem_cons_self) (Nat.le_trans hadm hb)
      rw [bumpWord_eq,hd]
      cases d with
      | reject => exact absurd rfl hne
      | pass => exact congrArg (_ :: ·) (ih hnext hrest)
      | delay ms => exact congrArg (_ :: ·) (ih hnext hrest)

theorem length_serve (r : Rule) (cur : ℕ) (ts : List ℕ) : (serve r cur ts).2.length = ts.length := by
  induction ts generalizing cur with
  | nil => rfl
  | cons t ts ih => exact congrArg (· + 1) (ih _)

/-- A full bucket and one request more. -/
theorem admitted_fillThen (hr : 0 < r.rate) {k : ℕ} (hk : 1000 * k ≤ r.burst) (hm : 1000 * k ≤ excessMask) (t : ℕ) :
    admitted (serve r 0 (0 :: (List.replicate k 0 ++ [t]))).2 =
      k + 1 + if 1000 * k + 1000 - min (r.rate * t) (2 ^ 127 - 1) / 1000 ≤ r.burst then 1 else 0 := by
  have hzero : excessAt r 0 0 = 0 := excessAt_zero hr 0
  obtain ⟨hfill,hcount⟩ := @serve_fill r 0 0 (by decide) k (by omega) (by omega)
  have hlast := excessAt_pack (by decide : 0 < 2 ^ 39) hm r t
  rw [Nat.sub_zero] at hlast
  rw [(serve_admits (by omega) _).2,hzero,(serve_append r _ _ _).2,hfill,admitted,List.countP_append]
  change admitted _ + admitted _ + 1 = _
  rw [hcount,Nat.zero_add]
  by_cases hadm : 1000 * k + 1000 - min (r.rate * t) (2 ^ 127 - 1) / 1000 ≤ r.burst
  · rw [if_pos hadm,(serve_admits (by omega) _).2]
    exact Nat.add_right_comm k 1 1
  · rw [if_neg hadm,serve_reject (by omega)]
    rfl

theorem fillThen_timeline {k t : ℕ} (ht : t < 2 ^ 39) : Timeline (2 ^ 39) (0 :: (List.replicate k 0 ++ [t])) := by
  refine ⟨List.pairwise_cons.mpr ⟨fun u _ => Nat.zero_le u,List.pairwise_append.mpr
    ⟨List.pairwise_replicate.mpr (Or.inr (Nat.le_refl 0)),List.pairwise_singleton _ _,?_⟩⟩,?_⟩
  · intro u hu v _
    rw [List.eq_of_mem_replicate hu]
    exact Nat.zero_le v
  · intro u hu
    simp only [List.mem_cons,List.mem_append,List.mem_replicate,List.not_mem_nil,or_false] at hu
    omega

end Exact

section Burst
variable {d : Config.Directive} {l lr : Config.LimitReq} {n : ℕ}

/-- The number of the last `burst=`, or 0. -/
def burstFrom (n : ℕ) (args : List Bytes) : ℕ :=
  args.foldl (fun n a => ((stripPrefix (lit "burst=") a).bind (parseUnsigned 64)).getD n) n

def burstNumber (d : Config.Directive) : ℕ := burstFrom 0 d.args

theorem burst_arg {a : Bytes} (h : Config.limitReqArg d lr a = .ok l) (hl : lr.burst = n * 1000 % 2 ^ 64) (hn : n < 2 ^ 64) :
    l.burst = burstFrom n [a] * 1000 % 2 ^ 64 ∧ burstFrom n [a] < 2 ^ 64 := by
  have hsingle : burstFrom n [a] = ((stripPrefix (lit "burst=") a).bind (parseUnsigned 64)).getD n := rfl
  rw [hsingle]
  cases hb : stripPrefix (lit "burst=") a with
  | some v =>
    obtain rfl := stripPrefix_eq_some.mp hb
    rw [Config.limitReqArg_burst] at h
    rw [Option.bind_some]
    cases hv : parseUnsigned 64 v with
    | some m =>
      rw [hv] at h
      cases h
      exact ⟨rfl,(Config.parseUnsigned_denotes hv).2⟩
    | none =>
      rw [hv] at h
      cases h
  | none =>
    refine ⟨?_,hn⟩
    rw [Option.bind_none,Option.getD_none,← hl]
    unfold Config.limitReqArg at h
    rw [hb] at h
    split at h
    · cases h
      rfl
    · dsimp only at h
      split at h
      · cases h
        rfl
      · split at h
        · split at h
          · cases h
            rfl
          · cases h
        · cases h

theorem burst_args {args : List Bytes} (h : args.foldlM (Config.limitReqArg d) lr = .ok l)
    (hl : lr.burst = n * 1000 % 2 ^ 64) (hn : n < 2 ^ 64) :
    l.burst = burstFrom n args * 1000 % 2 ^ 64 ∧ burstFrom n args < 2 ^ 64 := by
  induction args generalizing lr n with
  | nil =>
    cases h
    exact ⟨hl,hn⟩
  | cons a args ih =>
    rw [List.foldlM_cons] at h
    obtain ⟨lr',h1,h2⟩ := Config.bind_ok.mp h
    obtain ⟨hl',hn'⟩ := burst_arg h1 hl hn
    exact ih h2 hl' hn'

/-- The burst of a directive in thousandths is its number times 1000, in 64 bits. -/
theorem limitReq_burst (h : Config.limitReq d = .ok l) :
    l.burst = burstNumber d * 1000 % 2 ^ 64 ∧ burstNumber d < 2 ^ 64 := by
  obtain ⟨u,-,h⟩ := Config.bind_ok.mp h
  obtain ⟨lr,hargs,h⟩ := Config.bind_ok.mp h
  have hburst := burst_args (n := 0) hargs rfl (by decide)
  split at h
  · cases h
  · split at h
    · cases h
    · cases h
      exact hburst

/-- The directive's checks decide as those of a bucket that is not packed, with a
burst of `n` or the largest that is documented, and some are refused. -/
structure Refines (l : Config.LimitReq) (n : ℕ) : Prop where
  decides : ∀ (z : Zone) key t ts, z.Fresh t key → Timeline (2 ^ 39) ts →
    z.decisions l key t ts = exactServe ⟨z.rate,min (1000 * n) excessMask,l.nodelay,l.delayAfter⟩ none ts
  limits : ∀ (z : Zone) key t, z.Fresh t key → ∃ ts, Timeline (2 ^ 39) ts ∧ .reject ∈ z.decisions l key t ts

theorem refines_of_le (hl : l.burst = n * 1000 % 2 ^ 64) (hn : n ≤ 16777) : Refines l n := by
  have hmask : excessMask = 16777215 := rfl
  have hburst : l.burst = 1000 * n := by omega
  have hmin : min (1000 * n) excessMask = l.burst := by omega
  constructor
  · intro z key t ts hf hts
    rw [decisions_fresh hf,hmin]
    exact (exactServe_eq (r := ruleOf z l) (by change l.burst ≤ _; omega) .fresh hts.below).symm
  · intro z key t hf
    refine ⟨0 :: (List.replicate n 0 ++ [0]),fillThen_timeline (by decide),?_⟩
    have hcount := admitted_fillThen (r := ruleOf z l) z.rate_pos (k := n) (by change _ ≤ l.burst; omega) (by omega) 0
    rw [Nat.mul_zero,Nat.zero_min,Nat.zero_div,Nat.sub_zero,if_neg (by change ¬ _ ≤ l.burst; omega)] at hcount
    rw [decisions_fresh hf]
    by_contra hnone
    have hall : admitted (serve (ruleOf z l) 0 (0 :: (List.replicate n 0 ++ [0]))).2 =
        (serve (ruleOf z l) 0 (0 :: (List.replicate n 0 ++ [0]))).2.length := by
      refine List.countP_eq_length.mpr fun d hd => decide_eq_true fun he => ?_
      rw [he] at hd
      exact hnone hd
    rw [hcount,length_serve,List.length_cons,List.length_append,List.length_replicate] at hall
    exact absurd hall (by simp)

/-- Where both decide alike, both have room for the same excesses. -/
theorem Refines.room (h : Refines l n) (hn : 16777 < n) {k t : ℕ} (hk : 1000 * k ≤ l.burst) (hm : k ≤ 16777)
    (ht : t < 1000) : 1000 * k + 1000 - t ≤ l.burst ↔ 1000 * k + 1000 - t ≤ 16777215 := by
  have hmask : excessMask = 16777215 := rfl
  have hmin : min (1000 * n) excessMask = 16777215 := by omega
  have htimes := fillThen_timeline (k := k) (by omega : t < 2 ^ 39)
  have hsame := h.decides perSecond [] Table.new _ (fresh_new _ _) htimes
  rw [decisions_fresh (fresh_new _ _),hmin,exactServe_eq (Nat.le_refl _) .fresh htimes.below] at hsame
  have hdrain : min (1000 * t) (2 ^ 127 - 1) / 1000 = t := by omega
  have hcount := admitted_fillThen (r := ruleOf perSecond l) (Nat.succ_pos 999) hk (by omega) t
  have hexact := admitted_fillThen (r := ⟨1000,16777215,l.nodelay,l.delayAfter⟩) (Nat.succ_pos 999) (k := k)
    (by dsimp only; omega) (by omega) t
  change _ = k + 1 + if 1000 * k + 1000 - min (1000 * t) (2 ^ 127 - 1) / 1000 ≤ l.burst then 1 else 0 at hcount
  dsimp only at hexact
  rw [hdrain] at hcount hexact
  rw [hsame] at hcount
  change admitted (serve ⟨1000,16777215,l.nodelay,l.delayAfter⟩ 0 _).2 = _ at hcount
  rw [hexact] at hcount
  split_ifs at hcount with h1 h2 h2
  · exact iff_of_true h2 h1
  · omega
  · omega
  · exact iff_of_false h2 h1

theorem not_refines (hl : l.burst = n * 1000 % 2 ^ 64) (hn : 16777 < n) : ¬ Refines l n := by
  intro h
  rcases Nat.lt_or_ge l.burst 16777000 with hlt | hge
  · have hroom := h.room hn (k := l.burst / 1000) (t := 0) (by omega) (by omega) (by decide)
    omega
  · rcases Nat.lt_or_ge 16777215 l.burst with hbig | hsmall
    · have hroom := h.room hn (k := 16777) (t := 784) (by omega) (by decide) (by decide)
      omega
    · have hroom := h.room hn (k := 16777) (t := 785) (by omega) (by decide) (by decide)
      omega

/-- A directive's checks keep to its burst exactly where it has room in the word. -/
theorem packed_refines_iff (h : Config.limitReq d = .ok l) : Refines l (burstNumber d) ↔ burstNumber d ≤ 16777 := by
  obtain ⟨hl,-⟩ := limitReq_burst h
  constructor
  · intro hr
    by_contra hn
    exact not_refines hl (by omega) hr
  · exact refines_of_le hl

/-- `limit_req` with a zone and a burst. -/
def burstDirective (v : Bytes) : Config.Directive := .mk (lit "limit_req") [lit "zone=one",lit "burst=" ++ v] [] []

theorem packed_refines_iff_five : ∃ l, Config.limitReq (burstDirective (lit "5")) = .ok l ∧
    (Refines l (burstNumber (burstDirective (lit "5"))) ↔ burstNumber (burstDirective (lit "5")) ≤ 16777) :=
  ⟨⟨lit "one",5000,false,0⟩,rfl,packed_refines_iff rfl⟩

/-- A burst of 20000 requests turns the limit off. -/
theorem large_burst_differs : ¬ ∀ d l, Config.limitReq d = .ok l → Refines l (burstNumber d) := by
  intro h
  have hr := h (burstDirective (lit "20000")) ⟨lit "one",20000000,false,0⟩ rfl
  have hn : burstNumber (burstDirective (lit "20000")) = 20000 := rfl
  rw [hn] at hr
  exact not_refines rfl (by decide) hr

end Burst

end OxiServe.LimitReq
