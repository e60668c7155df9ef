import OxiServe.Server.Balance

/-! # Which peer is chosen

A healthy primary before a healthy backup, and only when neither is left one that is
out. That one is the first of the least by the end of its penalty; a peer the probes
have taken out has no penalty, and so it comes before peers whose penalty is about to
end.
-/
namespace OxiServe.Server
open Config

namespace Group
variable (g : Group) (nowMs : ℕ) (cookie : Option Bytes) (hash : Option UInt64) (cursor : ℕ) (exclude : List ℕ)

/-- The peer is in service and has not been tried. -/
def Eligible (i : ℕ) : Prop := i < g.up.servers.length ∧ (g.conf i).down = false ∧ i ∉ exclude

/-- Neither its failures nor the probes keep it out. -/
def Healthy (i : ℕ) : Prop := g.Eligible exclude i ∧ (g.health i).isDown nowMs = false

/-- What the choice of a peer is to do. -/
structure Respectful : Prop where
  isSome_iff : (g.selectExcluding nowMs hash cursor exclude).isSome ↔ ∃ i, g.Eligible exclude i
  eligible : ∀ i, g.selectExcluding nowMs hash cursor exclude = some i → g.Eligible exclude i
  primary : ∀ i, g.selectExcluding nowMs hash cursor exclude = some i →
    (∃ j, g.Healthy nowMs exclude j ∧ (g.conf j).backup = false) →
    g.Healthy nowMs exclude i ∧ (g.conf i).backup = false
  backup : ∀ i, g.selectExcluding nowMs hash cursor exclude = some i → (∃ j, g.Healthy nowMs exclude j) →
    (¬ ∃ j, g.Healthy nowMs exclude j ∧ (g.conf j).backup = false) →
    g.Healthy nowMs exclude i ∧ (g.conf i).backup = true
  /-- When all are out, one the probes have not taken out if there is any, and among those
  that are left the one whose penalty ends first. -/
  lastResort : ∀ i, g.selectExcluding nowMs hash cursor exclude = some i → (¬ ∃ j, g.Healthy nowMs exclude j) →
    ∀ j, g.Eligible exclude j →
      ((g.health i).probeDown = true → (g.health j).probeDown = true) ∧
      ((g.health i).probeDown = (g.health j).probeDown → (g.health i).downUntilMs ≤ (g.health j).downUntilMs)
  sticky : ∀ i, g.stickyPeer nowMs cookie exclude = some i → g.Healthy nowMs exclude i

/-- Its penalty ends earlier, or at the same time and it is listed earlier. -/
def Sooner (i j : ℕ) : Prop :=
  (g.health i).downUntilMs < (g.health j).downUntilMs ∨
    (g.health i).downUntilMs = (g.health j).downUntilMs ∧ i < j

/-- Each peer the probes have taken out comes after one they have not, if there is one. -/
def ProbesLast : Prop :=
  ∀ i, g.Eligible exclude i → (g.health i).probeDown = true →
    (∃ j, g.Eligible exclude j ∧ (g.health j).probeDown = false) →
    ∃ j, g.Eligible exclude j ∧ (g.health j).probeDown = false ∧ g.Sooner j i

variable {g nowMs cookie hash cursor exclude}

theorem minByKey_isSome (key : ℕ → ℕ) {l : List ℕ} (h : l ≠ []) : (minByKey key l).isSome := by
  cases l with
  | nil => exact absurd rfl h
  | cons i l =>
    simp only [minByKey]
    split
    · rfl
    · split <;> rfl

theorem minByKey_least {key : ℕ → ℕ} {l : List ℕ} {i : ℕ} (hs : l.Pairwise (· < ·)) (h : minByKey key l = some i) :
    ∀ j ∈ l, j = i ∨ key i < key j ∨ key i = key j ∧ i < j := by
  induction l generalizing i with
  | nil => cases h
  | cons a l ih =>
    obtain ⟨ha,hl⟩ := List.pairwise_cons.mp hs
    simp only [minByKey] at h
    cases hm : minByKey key l with
    | none =>
      rw [hm] at h
      cases h
      have hnil : l = [] := by
        apply Decidable.byContradiction
        intro hne
        have hsome := minByKey_isSome key hne
        rw [hm] at hsome
        cases hsome
      subst hnil
      intro j hj
      exact Or.inl (List.mem_singleton.mp hj)
    | some m =>
      have hleast := ih hl hm
      have hlt := ha m (minByKey_mem hm)
      rw [hm] at h
      dsimp only at h
      split at h
      · rename_i hkey
        cases h
        intro j hj
        rcases List.mem_cons.mp hj with rfl | hj
        · exact Or.inr (Or.inl hkey)
        · exact hleast j hj
      · rename_i hkey
        cases h
        intro j hj
        rcases List.mem_cons.mp hj with rfl | hj
        · exact Or.inl rfl
        · have haj := ha j hj
          rcases hleast j hj with rfl | h' | ⟨h',-⟩ <;> omega

theorem mem_candidates {want : Bool} {i : ℕ} :
    i ∈ g.candidates nowMs exclude want ↔ g.Healthy nowMs exclude i ∧ (g.conf i).backup = want := by
  simp only [candidates,indices,List.mem_filter,List.mem_range,Healthy,Eligible,Bool.and_eq_true,Bool.not_eq_true',
    beq_iff_eq,List.contains_eq_mem,decide_eq_false_iff_not]
  tauto

theorem candidates_eq_nil_iff {want : Bool} :
    g.candidates nowMs exclude want = [] ↔ ¬ ∃ j, g.Healthy nowMs exclude j ∧ (g.conf j).backup = want := by
  simp only [← mem_candidates]
  exact List.eq_nil_iff_forall_not_mem.trans not_exists.symm

theorem pickFrom_isSome (l : List ℕ) (hash : Option UInt64) (cursor : ℕ) (h : l ≠ []) :
    (g.pickFrom l hash cursor).isSome := by
  have hlen := List.length_pos_iff.mpr h
  unfold pickFrom
  cases g.method with
  | ipHash => simpa using Nat.mod_lt _ hlen
  | leastConn => exact minByKey_isSome _ h
  | random => simpa using Nat.mod_lt _ hlen
  | roundRobin =>
    cases l with
    | nil => exact absurd rfl h
    | cons a l => simp

/-- The peers of the last resort, in the order they are listed. -/
def left (g : Group) (exclude : List ℕ) : List ℕ :=
  g.indices.filter (fun i => !(g.conf i).down && !exclude.contains i)

theorem mem_left {i : ℕ} : i ∈ g.left exclude ↔ g.Eligible exclude i := by
  simp only [left,indices,List.mem_filter,List.mem_range,Eligible,Bool.and_eq_true,Bool.not_eq_true',
    List.contains_eq_mem,decide_eq_false_iff_not]

theorem left_sorted (g : Group) (exclude : List ℕ) : (g.left exclude).Pairwise (· < ·) :=
  List.Pairwise.filter _ List.pairwise_lt_range

/-- The three ways a peer is chosen. -/
theorem selectExcluding_cases (g : Group) (nowMs : ℕ) (hash : Option UInt64) (cursor : ℕ) (exclude : List ℕ) :
    (∃ want l, l = g.candidates nowMs exclude want ∧ l ≠ [] ∧
      (want = true → g.candidates nowMs exclude false = []) ∧
      g.selectExcluding nowMs hash cursor exclude = g.pickFrom l hash cursor) ∨
    ((¬ ∃ j, g.Healthy nowMs exclude j) ∧
      g.selectExcluding nowMs hash cursor exclude = minByKey (fun i => (g.health i).downUntilMs) (g.left exclude)) := by
  unfold selectExcluding
  split
  · rename_i hp
    exact Or.inl ⟨false,_,rfl,hp,fun h => Bool.noConfusion h,rfl⟩
  · rename_i hp
    have hp := Decidable.not_not.mp hp
    split
    · rename_i hb
      exact Or.inl ⟨true,_,rfl,hb,fun _ => hp,rfl⟩
    · rename_i hb
      have hb := Decidable.not_not.mp hb
      refine Or.inr ⟨?_,rfl⟩
      rintro ⟨j,hj⟩
      cases hk : (g.conf j).backup with
      | false => exact candidates_eq_nil_iff.mp hp ⟨j,hj,hk⟩
      | true => exact candidates_eq_nil_iff.mp hb ⟨j,hj,hk⟩

theorem selectExcluding_isSome_iff :
    (g.selectExcluding nowMs hash cursor exclude).isSome ↔ ∃ i, g.Eligible exclude i := by
  rcases selectExcluding_cases g nowMs hash cursor exclude with ⟨want,l,rfl,hne,-,he⟩ | ⟨-,he⟩
  · rw [he]
    obtain ⟨i,hi⟩ := List.exists_mem_of_ne_nil _ hne
    exact ⟨fun _ => ⟨i,(mem_candidates.mp hi).1.1⟩,fun _ => pickFrom_isSome _ _ _ hne⟩
  · rw [he]
    constructor
    · intro h
      obtain ⟨i,hi⟩ := Option.isSome_iff_exists.mp h
      exact ⟨i,mem_left.mp (minByKey_mem hi)⟩
    · rintro ⟨i,hi⟩
      exact minByKey_isSome _ (List.ne_nil_of_mem (mem_left.mpr hi))

theorem selectExcluding_healthy {i : ℕ} (h : g.selectExcluding nowMs hash cursor exclude = some i)
    (hh : ∃ j, g.Healthy nowMs exclude j) :
    g.Healthy nowMs exclude i ∧
      ((g.conf i).backup = true → ¬ ∃ j, g.Healthy nowMs exclude j ∧ (g.conf j).backup = false) := by
  rcases selectExcluding_cases g nowMs hash cursor exclude with ⟨want,l,rfl,-,hw,he⟩ | ⟨hn,-⟩
  · rw [he] at h
    obtain ⟨hi,hk⟩ := mem_candidates.mp (pickFrom_mem h)
    exact ⟨hi,fun hb => candidates_eq_nil_iff.mp (hw (hk.symm.trans hb))⟩
  · exact absurd hh hn

theorem selectExcluding_eligible {i : ℕ} (h : g.selectExcluding nowMs hash cursor exclude = some i) :
    g.Eligible exclude i := by
  rcases selectExcluding_cases g nowMs hash cursor exclude with ⟨want,l,rfl,-,-,he⟩ | ⟨-,he⟩
  · exact (mem_candidates.mp (pickFrom_mem (he.symm.trans h))).1.1
  · exact mem_left.mp (minByKey_mem (he.symm.trans h))

theorem stickyPeer_healthy {i : ℕ} (h : g.stickyPeer nowMs cookie exclude = some i) :
    g.Healthy nowMs exclude i := by
  have hspec := stickyPeer_spec h
  unfold stickyPeer at h
  split at h
  · split at h
    · cases h
    · split at h
      · rename_i hp
        cases h
        simp only [Bool.and_eq_true,Bool.not_eq_true'] at hp
        exact ⟨⟨hspec.1,hp.1.1,hspec.2⟩,hp.1.2⟩
      · cases h
  · cases h

/-- In the last resort the peer chosen comes before all the others. -/
theorem lastResort_sooner {i : ℕ} (hn : ¬ ∃ j, g.Healthy nowMs exclude j)
    (h : g.selectExcluding nowMs hash cursor exclude = some i) : ∀ j, g.Eligible exclude j → j = i ∨ g.Sooner i j := by
  rcases selectExcluding_cases g nowMs hash cursor exclude with ⟨want,l,rfl,hne,-,-⟩ | ⟨-,he⟩
  · obtain ⟨j,hj⟩ := List.exists_mem_of_ne_nil _ hne
    exact absurd ⟨j,(mem_candidates.mp hj).1⟩ hn
  · intro j hj
    exact minByKey_least (left_sorted g exclude) (he.symm.trans h) j (mem_left.mpr hj)

theorem Sooner.asymm {i j : ℕ} (h : g.Sooner i j) : ¬ g.Sooner j i := by
  unfold Sooner at h ⊢
  omega

theorem Sooner.le {i j : ℕ} (h : j = i ∨ g.Sooner i j) : (g.health i).downUntilMs ≤ (g.health j).downUntilMs := by
  rcases h with rfl | h | ⟨h,-⟩
  · exact Nat.le_refl _
  · exact Nat.le_of_lt h
  · exact Nat.le_of_eq h

/-- The choice does what it is to do just when some peer is healthy or the penalties put
the peers the probes have taken out last. -/
theorem respectful_iff (g : Group) (nowMs : ℕ) (cookie : Option Bytes) (hash : Option UInt64) (cursor : ℕ)
    (exclude : List ℕ) :
    Respectful g nowMs cookie hash cursor exclude ↔
      (∃ i, g.Healthy nowMs exclude i) ∨ g.ProbesLast exclude := by
  constructor
  · intro hr
    apply or_iff_not_imp_left.mpr
    rintro hn i hi hpi ⟨j,hj,hpj⟩
    obtain ⟨k,hk⟩ := Option.isSome_iff_exists.mp (hr.isSome_iff.mpr ⟨i,hi⟩)
    have hpk : (g.health k).probeDown = false := by
      cases hp : (g.health k).probeDown with
      | false => rfl
      | true =>
        have hup := (hr.lastResort k hk hn j hj).1 hp
        rw [hpj] at hup
        cases hup
    rcases lastResort_sooner hn hk i hi with rfl | hs
    · rw [hpi] at hpk
      cases hpk
    · exact ⟨k,hr.eligible k hk,hpk,hs⟩
  · intro hc
    refine ⟨selectExcluding_isSome_iff,fun i => selectExcluding_eligible,?_,?_,?_,fun i => stickyPeer_healthy⟩
    · rintro i hi ⟨j,hj,hb⟩
      obtain ⟨hh,hk⟩ := selectExcluding_healthy hi ⟨j,hj⟩
      cases hbi : (g.conf i).backup with
      | false => exact ⟨hh,rfl⟩
      | true => exact absurd ⟨j,hj,hb⟩ (hk hbi)
    · intro i hi hh hp
      have hhi := (selectExcluding_healthy hi hh).1
      cases hbi : (g.conf i).backup with
      | false => exact absurd ⟨i,hhi,hbi⟩ hp
      | true => exact ⟨hhi,rfl⟩
    · intro i hi hn j hj
      have hsooner := lastResort_sooner hn hi
      refine ⟨?_,fun _ => Sooner.le (hsooner j hj)⟩
      intro hpi
      cases hpj : (g.health j).probeDown with
      | true => rfl
      | false =>
        obtain ⟨k,hk,hpk,hs⟩ :=
          (hc.resolve_left hn) i (selectExcluding_eligible hi) hpi ⟨j,hj,hpj⟩
        rcases hsooner k hk with rfl | hik
        · rw [hpi] at hpk
          cases hpk
        · exact absurd hs hik.asymm

/-- Two servers. The first failed a request five seconds ago and is out for ten, the second
has failed its probe. -/
def failedAndProbed : Group where
  up := ⟨[⟨lit "a:80",[]⟩,⟨lit "b:80",[]⟩],0,none⟩
  method := .roundRobin
  conf := fun _ => ⟨1,1,10000,false,false⟩
  health := fun i =>
    if i = 0 then PeerHealth.default.recordFailure 0 1 10000 else PeerHealth.default.recordProbe false 1 1

/-- The request goes to the peer the probes keep out. -/
theorem probed_chosen :
    failedAndProbed.selectExcluding 5000 none 0 [] = some 1 ∧ ¬ Respectful failedAndProbed 5000 none none 0 [] := by
  have hsel : failedAndProbed.selectExcluding 5000 none 0 [] = some 1 := by decide
  refine ⟨hsel,fun hr => ?_⟩
  have hn : ¬ ∃ j, failedAndProbed.Healthy 5000 [] j := by
    rintro ⟨j,-,hj⟩
    by_cases h0 : j = 0
    · subst h0
      revert hj
      decide
    · simp only [failedAndProbed,if_neg h0] at hj
      revert hj
      decide
  have hup := (hr.lastResort 1 hsel hn 0 ⟨by decide,rfl,List.not_mem_nil⟩).1 (by decide)
  revert hup
  decide

end Group
end OxiServe.Server
