import OxiServe.Lib.Runs
import OxiServe.Server.LeakyBucket

/-! # Checks of one key at a time

The workers share a zone's table and run their checks against it without a lock.
A check is a task that makes one atomic access at a time, in any order with the
others. Claiming an empty slot and clearing its state are two of them.
-/
namespace OxiServe.LimitReq
open Runs
open Server (Decision)

/-- Where a check is, named by its next atomic access: the load of a hash, the
exchange that claims an empty slot, the load of a state to compare its age, the
takeover of a slot, the store that clears a slot taken, and the load of the hash,
the load of the state and the exchange of `bump`. -/
inductive Phase
  | probing (p : ℕ) (stalest : Option (ℕ × ℕ))
  | claiming (p : ℕ) (stalest : Option (ℕ × ℕ))
  | comparing (p : ℕ) (stalest : Option (ℕ × ℕ))
  | evicting (i : ℕ)
  | clearing (i : ℕ)
  | checking (i : ℕ)
  | loading (i : ℕ)
  | swapping (i cur : ℕ)
  | done (d : Decision)
  | panicked
deriving DecidableEq, Repr

/-- What one check is called with, next to the key. -/
structure Ask where
  nowMs : ℕ
  burst : ℕ
  nodelay : Bool
  delayAfter : ℕ
deriving DecidableEq, Repr

def Ask.rule (a : Ask) (z : Zone) : Rule := ⟨z.rate,a.burst,a.nodelay,a.delayAfter⟩

/-- The next turn of the probe, or what follows the last one. -/
def onward (p : ℕ) (stalest : Option (ℕ × ℕ)) : Phase :=
  if p < probe then .probing p stalest
  else match stalest with
    | some (i,_) => .evicting i
    | none => .panicked

/-- One atomic step of a check for the hash `h`. -/
def Zone.advance (z : Zone) (h : ℕ) (a : Ask) (t : Table) : Phase → Option (Table × Phase)
  | .probing p stalest =>
    let i := z.slotAt h p
    if t.hash i = h then some (t,.checking i)
    else if t.hash i = 0 then some (t,.claiming p stalest)
    else some (t,.comparing p stalest)
  | .claiming p stalest =>
    let i := z.slotAt h p
    if t.hash i = 0 then some ({ t with hash := write t.hash i h },.clearing i)
    else if t.hash i = h then some (t,.checking i)
    else some (t,onward (p + 1) stalest)
  | .comparing p stalest => some (t,onward (p + 1) (staler t stalest (z.slotAt h p)))
  | .evicting i => some ({ t with hash := write t.hash i h },.clearing i)
  | .clearing i => some ({ t with state := write t.state i 0 },.checking i)
  | .checking i =>
    if t.hash i = h then some (t,.loading i)
    else some (t,.done (step 0 (maxU64 / scale) (a.rule z)).2)
  | .loading i =>
    if (bumpWord (a.rule z) a.nowMs (t.state i)).2 = .reject then some (t,.done .reject)
    else some (t,.swapping i (t.state i))
  | .swapping i cur =>
    if t.state i = cur then
      some ({ t with state := write t.state i (bumpWord (a.rule z) a.nowMs cur).1 },
        .done (bumpWord (a.rule z) a.nowMs cur).2)
    else some (t,.checking i)
  | .done _ => none
  | .panicked => none

/-- The shared table and where each check is. -/
structure Race where
  table : Table
  phases : List Phase

def Race.start (t : Table) (asks : List Ask) : Race := ⟨t,asks.map (fun _ => .probing 0 none)⟩

/-- One step of the check with number `i`. -/
def Zone.raceStep (z : Zone) (key : Bytes) (asks : List Ask) (s : Race) (i : ℕ) : Option Race :=
  match asks[i]?, s.phases[i]? with
  | some a, some k => (z.advance (z.hashKey key) a s.table k).map fun r => ⟨r.1,s.phases.set i r.2⟩
  | _, _ => none

/-- The decision of a check that has one. -/
def Race.decided (s : Race) (i : ℕ) : Option Decision :=
  match s.phases[i]? with
  | some (.done d) => some d
  | _ => none

/-- Whole checks, one after the other. -/
def Zone.inTurn (z : Zone) (key : Bytes) : Table → List Ask → List Decision
  | _, [] => []
  | t, a :: as => (z.check t key a.nowMs a.burst a.nodelay a.delayAfter).2 ::
      z.inTurn key (z.check t key a.nowMs a.burst a.nodelay a.delayAfter).1 as

/-- The requests admitted so far are those that the same checks admit when they
are made one after the other in some order. -/
def Zone.AsInTurn (z : Zone) (key : Bytes) (t : Table) (asks : List Ask) (s : Race) : Prop :=
  ∃ order : List ℕ, order.Nodup ∧ (∀ i, i ∈ order ↔ (s.decided i).isSome) ∧
    (z.inTurn key t (order.filterMap (asks[·]?))).map (fun d => decide (d ≠ .reject)) =
      order.map (fun i => decide (s.decided i ≠ some .reject))

/-- The window of a key has its entry or room for it. -/
def Zone.Room (z : Zone) (t : Table) (key : Bytes) : Prop :=
  ∃ p < probe, t.hash (z.slotAt (z.hashKey key) p) = z.hashKey key ∨ t.hash (z.slotAt (z.hashKey key) p) = 0

/-- An empty slot has no state. -/
def Table.Clean (t : Table) : Prop := ∀ i, t.hash i = 0 → t.state i = 0

/-- A check that clears a slot finds nothing accounted in it. -/
def ClearsNothing (s : Race) (i : ℕ) : Prop :=
  match s.phases[i]? with
  | some (.clearing j) => s.table.state j = 0
  | _ => True

instance (s : Race) (i : ℕ) : Decidable (ClearsNothing s i) := by
  unfold ClearsNothing
  split
  · infer_instance
  · infer_instance

section Home
variable {z : Zone} {t : Table} {key : Bytes} {h p₀ : ℕ}

/-- The position `p₀` is the first with the hash or with nothing, and holds no
state in the second case. -/
structure Zone.Homed (z : Zone) (t : Table) (h p₀ : ℕ) : Prop where
  others : ∀ p < p₀, t.hash (z.slotAt h p) ≠ h ∧ t.hash (z.slotAt h p) ≠ 0
  home : t.hash (z.slotAt h p₀) = h ∨ t.hash (z.slotAt h p₀) = 0 ∧ t.state (z.slotAt h p₀) = 0

theorem homed_of_room (hr : z.Room t key) (hc : t.Clean) : ∃ p₀ < probe, z.Homed t (z.hashKey key) p₀ := by
  classical
  let h := z.hashKey key
  have hex : ∃ p, t.hash (z.slotAt h p) = h ∨ t.hash (z.slotAt h p) = 0 := by
    obtain ⟨p,-,hp⟩ := hr
    exact ⟨p,hp⟩
  obtain ⟨p,hlt,hp⟩ := hr
  refine ⟨Nat.find hex,Nat.lt_of_le_of_lt (Nat.find_min' hex hp) hlt,?_,?_⟩
  · intro q hq
    exact not_or.mp (Nat.find_min hex hq)
  · rcases Nat.find_spec hex with he | he
    · exact .inl he
    · exact .inr ⟨he,hc _ he⟩

theorem homed_ne (hh : z.Homed t h p₀) {p : ℕ} (hp : p < p₀) : z.slotAt h p ≠ z.slotAt h p₀ := by
  intro he
  obtain ⟨h1,h2⟩ := hh.others p hp
  rw [he] at h1 h2
  rcases hh.home with h3 | ⟨h3,-⟩
  · exact h1 h3
  · exact h2 h3

/-- The probe of a check ends at the key's home, which is then its own. -/
theorem locate_homed (hh : z.Homed t h p₀) (left p : ℕ) (stalest : Option (ℕ × ℕ)) (hp : p ≤ p₀)
    (hl : p₀ < p + left) : ∃ t', z.locate t h left p stalest = (t',z.slotAt h p₀) ∧ t'.hash (z.slotAt h p₀) = h ∧
      t'.state (z.slotAt h p₀) = t.state (z.slotAt h p₀) ∧ ∀ j, j ≠ z.slotAt h p₀ → t'.hash j = t.hash j := by
  induction left generalizing p stalest with
  | zero => omega
  | succ left ih =>
    simp only [Zone.locate]
    rcases Nat.lt_or_eq_of_le hp with hlt | rfl
    · obtain ⟨h1,h2⟩ := hh.others p hlt
      rw [if_neg h1,if_neg h2]
      exact ih (p + 1) _ hlt (by omega)
    · by_cases he : t.hash (z.slotAt h p) = h
      · exact ⟨t,if_pos he,he,rfl,fun j _ => rfl⟩
      · rcases hh.home with h3 | ⟨h3,h4⟩
        · exact absurd h3 he
        · rw [if_neg he,if_pos h3]
          refine ⟨_,rfl,if_pos rfl,?_,fun j hj => if_neg hj⟩
          rw [h4]
          exact if_pos rfl

theorem homed_of_same {t' : Table} (hh : z.Homed t h p₀) (hown : t'.hash (z.slotAt h p₀) = h)
    (hother : ∀ j, j ≠ z.slotAt h p₀ → t'.hash j = t.hash j) : z.Homed t' h p₀ := by
  refine ⟨?_,.inl hown⟩
  intro p hp
  rw [hother _ (homed_ne hh hp)]
  exact hh.others p hp

/-- A whole check is one turn of `bump` against the word at home. -/
theorem check_homed (hh : z.Homed t (z.hashKey key) p₀) (hp : p₀ < probe) (a : Ask) :
    (z.check t key a.nowMs a.burst a.nodelay a.delayAfter).2 =
        (bumpWord (a.rule z) a.nowMs (t.state (z.slotAt (z.hashKey key) p₀))).2 ∧
      z.Homed (z.check t key a.nowMs a.burst a.nodelay a.delayAfter).1 (z.hashKey key) p₀ ∧
      (z.check t key a.nowMs a.burst a.nodelay a.delayAfter).1.state (z.slotAt (z.hashKey key) p₀) =
        (bumpWord (a.rule z) a.nowMs (t.state (z.slotAt (z.hashKey key) p₀))).1 := by
  obtain ⟨t',hl,hown,hstate,hother⟩ := locate_homed hh probe 0 none (Nat.zero_le _) (by omega)
  have he : z.check t key a.nowMs a.burst a.nodelay a.delayAfter =
      (if (bumpWord (a.rule z) a.nowMs (t'.state (z.slotAt (z.hashKey key) p₀))).2 = .reject then t'
        else ⟨t'.hash,write t'.state (z.slotAt (z.hashKey key) p₀)
          (bumpWord (a.rule z) a.nowMs (t'.state (z.slotAt (z.hashKey key) p₀))).1⟩,
        (bumpWord (a.rule z) a.nowMs (t'.state (z.slotAt (z.hashKey key) p₀))).2) := by
    rw [Zone.check,hl]
    rfl
  have hhomed := homed_of_same hh hown hother
  rw [he,hstate]
  refine ⟨rfl,?_⟩
  by_cases hd : (bumpWord (a.rule z) a.nowMs (t.state (z.slotAt (z.hashKey key) p₀))).2 = .reject
  · rw [if_pos hd,hstate,keeps_of_reject _ _ _ hd]
    exact ⟨hhomed,rfl⟩
  · rw [if_neg hd]
    exact ⟨homed_of_same hh hown hother,if_pos rfl⟩

/-- The turns of `bump` against one word. -/
def Zone.turns (z : Zone) : ℕ → List Ask → ℕ × List Decision
  | w, [] => (w,[])
  | w, a :: as => ((z.turns (bumpWord (a.rule z) a.nowMs w).1 as).1,
      (bumpWord (a.rule z) a.nowMs w).2 :: (z.turns (bumpWord (a.rule z) a.nowMs w).1 as).2)

theorem turns_snoc (z : Zone) (w : ℕ) (as : List Ask) (a : Ask) : z.turns w (as ++ [a]) =
    ((bumpWord (a.rule z) a.nowMs (z.turns w as).1).1,
      (z.turns w as).2 ++ [(bumpWord (a.rule z) a.nowMs (z.turns w as).1).2]) := by
  induction as generalizing w with
  | nil => rfl
  | cons b as ih => simp only [List.cons_append,Zone.turns,ih]

theorem inTurn_turns (hh : z.Homed t (z.hashKey key) p₀) (hp : p₀ < probe) (as : List Ask) :
    z.inTurn key t as = (z.turns (t.state (z.slotAt (z.hashKey key) p₀)) as).2 := by
  induction as generalizing t with
  | nil => rfl
  | cons a as ih =>
    obtain ⟨hd,hnext,hw⟩ := check_homed hh hp a
    rw [Zone.inTurn,Zone.turns,ih hnext,hd,hw]

end Home

section Race
variable {z : Zone} {t t₀ t' : Table} {h p₀ : ℕ} {k k' : Phase} {a : Ask} {key : Bytes} {asks : List Ask}
variable {s s' : Race} {order : List ℕ} {i : ℕ}

/-- How far a check can be when the key's home is at `p₀`: past the probe only
once the home has the key's hash. -/
def Phase.Near (z : Zone) (t : Table) (h p₀ : ℕ) : Phase → Prop
  | .probing p _ => p ≤ p₀
  | .claiming p _ => p = p₀
  | .comparing p _ => p < p₀
  | .evicting _ => False
  | .clearing i => i = z.slotAt h p₀ ∧ t.hash (z.slotAt h p₀) = h
  | .checking i => i = z.slotAt h p₀ ∧ t.hash (z.slotAt h p₀) = h
  | .loading i => i = z.slotAt h p₀ ∧ t.hash (z.slotAt h p₀) = h
  | .swapping i _ => i = z.slotAt h p₀ ∧ t.hash (z.slotAt h p₀) = h
  | .done _ => True
  | .panicked => False

def Phase.decision : Phase → Option Decision
  | .done d => some d
  | _ => none

theorem near_mono (hk : k.Near z t h p₀) (hm : t.hash (z.slotAt h p₀) = h → t'.hash (z.slotAt h p₀) = h) :
    k.Near z t' h p₀ := by
  cases k with
  | probing p st => exact hk
  | claiming p st => exact hk
  | comparing p st => exact hk
  | evicting i => exact hk
  | clearing i => exact ⟨hk.1,hm hk.2⟩
  | checking i => exact ⟨hk.1,hm hk.2⟩
  | loading i => exact ⟨hk.1,hm hk.2⟩
  | swapping i cur => exact ⟨hk.1,hm hk.2⟩
  | done d => exact hk
  | panicked => exact hk

/-- What one access does to the key's home: nothing that counts, or the turn of
`bump` that the check stands for. -/
inductive Effect (z : Zone) (a : Ask) (t t' : Table) (h p₀ : ℕ) (k' : Phase) : Prop
  | quiet : k'.decision = none → k'.Near z t' h p₀ → t'.state (z.slotAt h p₀) = t.state (z.slotAt h p₀) →
      Effect z a t t' h p₀ k'
  | decides : k' = .done (bumpWord (a.rule z) a.nowMs (t.state (z.slotAt h p₀))).2 →
      t'.state (z.slotAt h p₀) = (bumpWord (a.rule z) a.nowMs (t.state (z.slotAt h p₀))).1 → Effect z a t t' h p₀ k'

theorem onward_near {p : ℕ} (stalest : Option (ℕ × ℕ)) (hp : p < p₀) (hlt : p₀ < probe) :
    onward (p + 1) stalest = .probing (p + 1) stalest := by
  unfold onward
  rw [if_pos (by omega)]

theorem advance_effect (hh : z.Homed t h p₀) (hlt : p₀ < probe) (hk : k.Near z t h p₀)
    (hg : ∀ i, k = .clearing i → t.state i = 0) (ha : z.advance h a t k = some (t',k')) :
    z.Homed t' h p₀ ∧ (t.hash (z.slotAt h p₀) = h → t'.hash (z.slotAt h p₀) = h) ∧ Effect z a t t' h p₀ k' := by
  cases k with
  | probing p st =>
    simp only [Zone.advance] at ha
    rcases Nat.lt_or_eq_of_le hk with hp | rfl
    · obtain ⟨h1,h2⟩ := hh.others p hp
      rw [if_neg h1,if_neg h2] at ha
      cases ha
      exact ⟨hh,id,.quiet rfl hp rfl⟩
    · split at ha
      · next he =>
        cases ha
        exact ⟨hh,id,.quiet rfl ⟨rfl,he⟩ rfl⟩
      · next he =>
        rw [if_pos (hh.home.resolve_left he).1] at ha
        cases ha
        exact ⟨hh,id,.quiet rfl rfl rfl⟩
  | claiming p st =>
    cases hk
    simp only [Zone.advance] at ha
    split at ha
    · cases ha
      have hown : write t.hash (z.slotAt h p₀) h (z.slotAt h p₀) = h := if_pos rfl
      exact ⟨homed_of_same hh hown fun j hj => if_neg hj,fun _ => hown,.quiet rfl ⟨rfl,hown⟩ rfl⟩
    · next he =>
      have hown : t.hash (z.slotAt h p₀) = h := hh.home.resolve_right fun hc => he hc.1
      rw [if_pos hown] at ha
      cases ha
      exact ⟨hh,id,.quiet rfl ⟨rfl,hown⟩ rfl⟩
  | comparing p st =>
    simp only [Zone.advance] at ha
    rw [onward_near _ hk hlt] at ha
    cases ha
    exact ⟨hh,id,.quiet rfl hk rfl⟩
  | evicting i => cases hk
  | clearing i =>
    obtain ⟨rfl,hown⟩ := hk
    cases ha
    refine ⟨homed_of_same hh hown fun _ _ => rfl,id,.quiet rfl ⟨rfl,hown⟩ ?_⟩
    rw [hg _ rfl]
    exact if_pos rfl
  | checking i =>
    obtain ⟨rfl,hown⟩ := hk
    simp only [Zone.advance,if_pos hown] at ha
    cases ha
    exact ⟨hh,id,.quiet rfl ⟨rfl,hown⟩ rfl⟩
  | loading i =>
    obtain ⟨rfl,hown⟩ := hk
    simp only [Zone.advance] at ha
    split at ha
    · next hd =>
      cases ha
      exact ⟨hh,id,.decides (congrArg Phase.done hd.symm) (keeps_of_reject _ _ _ hd).symm⟩
    · cases ha
      exact ⟨hh,id,.quiet rfl ⟨rfl,hown⟩ rfl⟩
  | swapping i cur =>
    obtain ⟨rfl,hown⟩ := hk
    simp only [Zone.advance] at ha
    split at ha
    · next he =>
      cases ha
      rw [← he]
      exact ⟨homed_of_same hh hown fun _ _ => rfl,id,.decides rfl (if_pos rfl)⟩
    · cases ha
      exact ⟨hh,id,.quiet rfl ⟨rfl,hown⟩ rfl⟩
  | done d => cases ha
  | panicked => cases hk

/-- The checks that are through, in the order in which they took effect: the
turns of `bump` in that order lead to the word at home and to their decisions. -/
structure Tracked (z : Zone) (key : Bytes) (asks : List Ask) (p₀ w₀ : ℕ) (s : Race) (order : List ℕ) : Prop where
  homed : z.Homed s.table (z.hashKey key) p₀
  near : ∀ k ∈ s.phases, k.Near z s.table (z.hashKey key) p₀
  nodup : order.Nodup
  through : ∀ i, i ∈ order ↔ (s.decided i).isSome
  word : (z.turns w₀ (order.filterMap (asks[·]?))).1 = s.table.state (z.slotAt (z.hashKey key) p₀)
  decisions : (z.turns w₀ (order.filterMap (asks[·]?))).2.map some = order.map s.decided

theorem decided_eq (s : Race) (i : ℕ) : s.decided i = s.phases[i]?.bind Phase.decision := by
  rw [Race.decided]
  cases s.phases[i]? with
  | none => rfl
  | some k => cases k <;> rfl

/-- Only the check that steps changes what it has decided. -/
theorem decided_set {t : Table} (hi : s.phases[i]? = some k) (j : ℕ) :
    (Race.mk t (s.phases.set i k')).decided j = if j = i then k'.decision else s.decided j := by
  obtain ⟨hlt,-⟩ := List.getElem?_eq_some_iff.mp hi
  rw [decided_eq,decided_eq,List.getElem?_set]
  by_cases hj : i = j
  · subst hj
    simp [hlt]
  · simp [hj,Ne.symm hj]

theorem tracked_step (hlt : p₀ < probe) {w₀ : ℕ} (ht : Tracked z key asks p₀ w₀ s order) (hg : ClearsNothing s i)
    (hs : z.raceStep key asks s i = some s') : ∃ order', Tracked z key asks p₀ w₀ s' order' := by
  unfold Zone.raceStep at hs
  cases hask : asks[i]? with
  | none => simp [hask] at hs
  | some a =>
    cases hphase : s.phases[i]? with
    | none => simp [hask,hphase] at hs
    | some k =>
      simp only [hask,hphase] at hs
      obtain ⟨⟨t',k'⟩,ha,rfl⟩ := Option.map_eq_some_iff.mp hs
      have hclear : ∀ j, k = .clearing j → s.table.state j = 0 := by
        rintro j rfl
        simpa [ClearsNothing,hphase] using hg
      have hopen : s.decided i = none := by
        rw [decided_eq,hphase]
        cases k with
        | done d => cases ha
        | _ => rfl
      obtain ⟨hhomed,hmono,heffect⟩ := advance_effect ht.homed hlt (ht.near k (List.mem_of_getElem? hphase)) hclear ha
      have hnear : k'.Near z t' (z.hashKey key) p₀ → ∀ l ∈ s.phases.set i k', l.Near z t' (z.hashKey key) p₀ := by
        intro hk' l hl
        rcases List.mem_or_eq_of_mem_set hl with hl | rfl
        · exact near_mono (ht.near l hl) hmono
        · exact hk'
      have hout : i ∉ order := by
        rw [ht.through,hopen]
        simp
      cases heffect with
      | quiet hnone hk' hstate =>
        have hdec : ∀ j, (Race.mk t' (s.phases.set i k')).decided j = s.decided j := by
          intro j
          rw [decided_set hphase]
          split
          · next hj => rw [hj,hopen,hnone]
          · rfl
        refine ⟨order,hhomed,hnear hk',ht.nodup,?_,?_,?_⟩
        · intro j
          rw [hdec]
          exact ht.through j
        · rw [ht.word]
          exact hstate.symm
        · rw [ht.decisions]
          exact (List.map_congr_left fun j _ => hdec j).symm
      | decides hdone hstate =>
        subst hdone
        have hsnoc : (order ++ [i]).filterMap (asks[·]?) = order.filterMap (asks[·]?) ++ [a] := by
          rw [List.filterMap_append]
          simp [hask]
        refine ⟨order ++ [i],hhomed,hnear trivial,?_,?_,?_,?_⟩
        · exact List.nodup_append.mpr ⟨ht.nodup,List.nodup_singleton i,by
            intro j hj l hl he
            rw [List.mem_singleton.mp hl] at he
            exact hout (he ▸ hj)⟩
        · intro j
          rw [decided_set hphase,List.mem_append,List.mem_singleton,ht.through]
          by_cases hj : j = i
          · simp [hj,Phase.decision]
          · simp [hj]
        · rw [hsnoc,turns_snoc,ht.word]
          exact hstate.symm
        · rw [hsnoc,turns_snoc,List.map_append,ht.decisions,ht.word,List.map_append]
          congr 1
          · refine List.map_congr_left fun j hj => ?_
            have hne : j ≠ i := fun he => hout (he ▸ hj)
            rw [decided_set hphase,if_neg hne]
          · rw [List.map_singleton,List.map_singleton,decided_set hphase,if_pos rfl]
            rfl

theorem tracked_start (hh : z.Homed t (z.hashKey key) p₀) (asks : List Ask) :
    Tracked z key asks p₀ (t.state (z.slotAt (z.hashKey key) p₀)) (Race.start t asks) [] := by
  refine ⟨hh,?_,List.nodup_nil,?_,rfl,rfl⟩
  · intro k hk
    obtain ⟨a,-,rfl⟩ := List.mem_map.mp hk
    exact Nat.zero_le _
  · intro i
    rw [decided_eq,Race.start,List.getElem?_map]
    cases asks[i]? <;> simp [Phase.decision]

end Race

/-- As long as no check clears what another one has accounted, the requests
admitted are those of some order of the checks. -/
theorem race_asInTurn (z : Zone) (key : Bytes) (t : Table) (asks : List Ask) {s : Race} {ls : List ℕ}
    (hroom : z.Room t key) (hclean : t.Clean)
    (hr : Runs (guarded (stepRel (z.raceStep key asks)) ClearsNothing) (Race.start t asks) ls s) :
    z.AsInTurn key t asks s := by
  obtain ⟨p₀,hlt,hh⟩ := homed_of_room hroom hclean
  obtain ⟨order,ht⟩ := hr.invariant (I := fun _ s => ∃ order,
    Tracked z key asks p₀ (t.state (z.slotAt (z.hashKey key) p₀)) s order) ⟨[],tracked_start hh asks⟩
    (fun ks u i v _ ⟨order,ht⟩ hs => tracked_step hlt ht hs.1 hs.2)
  refine ⟨order,ht.nodup,ht.through,?_⟩
  rw [inTurn_turns hh hlt]
  have hdec := congrArg (List.map fun d : Option Decision => decide (d ≠ some .reject)) ht.decisions
  simpa [List.map_map,Function.comp_def] using hdec

section Instance

def perSecond : Zone := ⟨1000,by decide,64,0⟩

/-- Two requests of one millisecond, without a burst. -/
def pair : List Ask := [⟨0,0,true,0⟩,⟨0,0,true,0⟩]

example : (pair.map (fun a => a.burst)).sum = 0 := by decide +kernel

/-- The second check finds the claimed entry and waits until it has been cleared. -/
theorem clearedFirst_asInTurn : (perSecond.Room Table.new [107] ∧ Table.new.Clean) ∧
    ∃ s, Runs (guarded (stepRel (perSecond.raceStep [107] pair)) ClearsNothing) (Race.start Table.new pair)
      [0,0,1,0,0,0,0,1,1] s ∧ [s.decided 0,s.decided 1] = [some .pass,some .reject] ∧
      perSecond.AsInTurn [107] Table.new pair s := by
  have hroom : perSecond.Room Table.new [107] := ⟨0,by decide,.inr rfl⟩
  have hclean : Table.new.Clean := fun _ _ => rfl
  have hrun : (runList (fun s i => if ClearsNothing s i then perSecond.raceStep [107] pair s i else none)
      (Race.start Table.new pair) [0,0,1,0,0,0,0,1,1]).map (fun s => [s.decided 0,s.decided 1]) =
        some [some .pass,some .reject] := by decide +kernel
  obtain ⟨s,hs,hd⟩ := Option.map_eq_some_iff.mp hrun
  have hr := Runs.guarded_of_runList hs
  exact ⟨⟨hroom,hclean⟩,s,hr,hd,race_asInTurn perSecond [107] Table.new pair hroom hclean hr⟩

/-- The first check claims the entry, the second is accounted in it, and the
clearing wipes that out: both are admitted, where any order admits one. -/
theorem clearedLate_admitsBoth : ∃ s, Runs (stepRel (perSecond.raceStep [107] pair)) (Race.start Table.new pair)
    [0,0,1,1,1,1,0,0,0,0] s ∧ ¬ perSecond.AsInTurn [107] Table.new pair s := by
  have hrun : (runList (perSecond.raceStep [107] pair) (Race.start Table.new pair) [0,0,1,1,1,1,0,0,0,0]).map
      (fun s => s.phases) = some [.done .pass,.done .pass] := by decide +kernel
  obtain ⟨s,hs,hd⟩ := Option.map_eq_some_iff.mp hrun
  refine ⟨s,Runs.of_runList hs,?_⟩
  rintro ⟨order,hnodup,hthrough,hsame⟩
  have hdec : ∀ i, s.decided i = ([.done .pass,.done .pass] : List Phase)[i]?.bind Phase.decision := by
    intro i
    rw [decided_eq,hd]
  have hperm : order.Perm [0,1] := by
    refine (List.perm_ext_iff_of_nodup hnodup (by decide)).mpr fun i => ?_
    rw [hthrough,hdec]
    match i with
    | 0 => decide
    | 1 => decide
    | i + 2 => simp
  obtain ⟨a,b,rfl⟩ := List.length_eq_two.mp hperm.length_eq
  have ha : a = 0 ∨ a = 1 := by simpa using hperm.mem_iff.mp (List.mem_cons_self (a := a))
  have hb : b = 0 ∨ b = 1 := by
    have hmem : b ∈ [a,b] := by simp
    simpa using hperm.mem_iff.mp hmem
  rw [List.map_cons,List.map_cons,List.map_nil,hdec,hdec] at hsame
  rcases ha with rfl | rfl
  · rcases hb with rfl | rfl
    · exact absurd hsame (by decide +kernel)
    · exact absurd hsame (by decide +kernel)
  · rcases hb with rfl | rfl
    · exact absurd hsame (by decide +kernel)
    · exact absurd hsame (by decide +kernel)

end Instance

end OxiServe.LimitReq
