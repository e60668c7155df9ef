import Mathlib.Data.List.Infix
import Mathlib.Data.List.TakeWhile

/-! # Two thresholds on runs of results

A switch trips after enough bad results in a row and recovers after enough good
ones in a row. Results are listed with the latest first.
-/
namespace OxiServe

/-- How many of the latest results in a row are `ok`. -/
def latestRun (ok : Bool) (ps : List Bool) : ℕ := (ps.takeWhile (· == ok)).length

/-- Enough bad results in a row, and no long enough run of good ones since. -/
def Tripped (bad good : ℕ) (ps : List Bool) : Prop :=
  ∃ since before, ps = since ++ List.replicate bad false ++ before ∧ ¬ List.replicate good true <:+: since

section Run

@[simp] theorem latestRun_nil (ok : Bool) : latestRun ok [] = 0 := rfl

@[simp] theorem latestRun_cons_self (ok : Bool) (ps : List Bool) :
    latestRun ok (ok :: ps) = latestRun ok ps + 1 := by
  simp [latestRun]

theorem latestRun_cons_of_ne {ok a : Bool} (h : a ≠ ok) (ps : List Bool) : latestRun ok (a :: ps) = 0 := by
  simp [latestRun,h]

theorem le_latestRun_iff {ok : Bool} {ps : List Bool} {k : ℕ} :
    k ≤ latestRun ok ps ↔ List.replicate k ok <+: ps := by
  induction ps generalizing k with
  | nil =>
    rw [latestRun_nil,Nat.le_zero,List.prefix_nil,List.replicate_eq_nil_iff]
  | cons a ps ih =>
    cases k with
    | zero => simp
    | succ k =>
      rw [List.replicate_succ,List.cons_prefix_cons]
      by_cases ha : a = ok
      · subst ha
        rw [latestRun_cons_self,Nat.succ_le_succ_iff,ih]
        simp
      · rw [latestRun_cons_of_ne ha]
        constructor
        · intro h
          omega
        · intro h
          exact absurd h.1.symm ha

end Run

section Switch
variable {bad good : ℕ}

theorem not_tripped_nil (hb : 0 < bad) : ¬ Tripped bad good [] := by
  rintro ⟨since,before,h,-⟩
  have hl := congrArg List.length h
  simp only [List.length_nil,List.length_append,List.length_replicate] at hl
  omega

theorem tripped_of_run (hg : 0 < good) {ps : List Bool} (h : bad ≤ latestRun false ps) : Tripped bad good ps := by
  obtain ⟨before,hb⟩ := le_latestRun_iff.mp h
  refine ⟨[],before,hb.symm,?_⟩
  intro hi
  have hl := congrArg List.length (List.infix_nil.mp hi)
  rw [List.length_replicate,List.length_nil] at hl
  omega

theorem tripped_cons_bad (hg : 0 < good) (ps : List Bool) :
    Tripped bad good (false :: ps) ↔ Tripped bad good ps ∨ bad ≤ latestRun false (false :: ps) := by
  constructor
  · rintro ⟨since,before,h,hn⟩
    cases since with
    | nil =>
      right
      rw [le_latestRun_iff,h]
      exact List.prefix_append _ _
    | cons a since =>
      left
      rw [List.cons_append,List.cons_append,List.cons.injEq] at h
      exact ⟨since,before,h.2,fun hi => hn (hi.trans (List.suffix_cons a since).isInfix)⟩
  · rintro (⟨since,before,h,hn⟩ | h)
    · refine ⟨false :: since,before,by rw [h]; rfl,?_⟩
      intro hi
      rcases List.infix_cons_iff.mp hi with hp | hp
      · obtain ⟨k,rfl⟩ : ∃ k, good = k + 1 := ⟨good - 1,by omega⟩
        rw [List.replicate_succ,List.cons_prefix_cons] at hp
        cases hp.1
      · exact hn hp
    · exact tripped_of_run hg h

theorem tripped_cons_good (hb : 0 < bad) (ps : List Bool) :
    Tripped bad good (true :: ps) ↔ Tripped bad good ps ∧ ¬ good ≤ latestRun true (true :: ps) := by
  obtain ⟨k,rfl⟩ : ∃ k, bad = k + 1 := ⟨bad - 1,by omega⟩
  constructor
  · rintro ⟨since,before,h,hn⟩
    cases since with
    | nil =>
      rw [List.nil_append,List.replicate_succ] at h
      cases h
    | cons a since =>
      have ha := h
      rw [List.cons_append,List.cons_append,List.cons.injEq] at ha
      refine ⟨⟨since,before,ha.2,fun hi => hn (hi.trans (List.suffix_cons a since).isInfix)⟩,?_⟩
      rw [le_latestRun_iff,h]
      intro hp
      apply hn
      rw [List.append_assoc] at hp
      rcases List.prefix_or_prefix_of_prefix hp (List.prefix_append _ _) with hq | ⟨t,ht⟩
      · exact hq.isInfix
      · cases t with
        | nil =>
          rw [List.append_nil] at ht
          exact ht ▸ List.infix_rfl
        | cons b t =>
          rw [← ht,List.prefix_append_right_inj,List.replicate_succ,List.cons_append,
            List.cons_prefix_cons] at hp
          have hm : false ∈ List.replicate good true := by
            rw [← ht,hp.1]
            simp
          exact absurd (List.eq_of_mem_replicate hm) (by decide)
  · rintro ⟨⟨since,before,h,hn⟩,hrun⟩
    refine ⟨true :: since,before,by rw [h]; rfl,?_⟩
    intro hi
    rcases List.infix_cons_iff.mp hi with hp | hp
    · apply hrun
      rw [le_latestRun_iff,h,List.append_assoc,← List.cons_append]
      exact hp.trans (List.prefix_append _ _)
    · exact hn hp

end Switch

end OxiServe
