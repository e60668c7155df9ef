import Mathlib.Data.Nat.Notation
import Mathlib.Logic.Relation

/-! # Runs of a labelled transition system

A run lists the labels in the order they were taken. Properties of every state
a run reaches come from a base case and one step, and a guard on the steps
restricts the runs considered.
-/
namespace OxiServe
variable {σ ι : Type*}

inductive Runs (step : σ → ι → σ → Prop) (s : σ) : List ι → σ → Prop
  | nil : Runs step s [] s
  | snoc {ls : List ι} {l : ι} {t u : σ} : Runs step s ls t → step t l u → Runs step s (ls ++ [l]) u

namespace Runs

/-- A step relation restricted to the steps a guard admits. -/
def guarded (step : σ → ι → σ → Prop) (guard : σ → ι → Prop) : σ → ι → σ → Prop :=
  fun s l t => guard s l ∧ step s l t

theorem invariant {step : σ → ι → σ → Prop} {I : List ι → σ → Prop} {s t : σ} {ls : List ι}
    (hr : Runs step s ls t) (h0 : I [] s)
    (hs : ∀ ks u l v, Runs step s ks u → I ks u → step u l v → I (ks ++ [l]) v) : I ls t := by
  induction hr with
  | nil => exact h0
  | snoc hr hl ih => exact hs _ _ _ _ hr ih hl

theorem forget {step : σ → ι → σ → Prop} {guard : σ → ι → Prop} {s t : σ} {ls : List ι}
    (hr : Runs (guarded step guard) s ls t) : Runs step s ls t := by
  induction hr with
  | nil => exact .nil
  | snoc _ hl ih => exact .snoc ih hl.2

theorem guarded_snoc {step : σ → ι → σ → Prop} {guard : σ → ι → Prop} {s t : σ} {ls : List ι} {l : ι}
    (hr : Runs (guarded step guard) s (ls ++ [l]) t) :
    ∃ u, Runs (guarded step guard) s ls u ∧ guard u l ∧ step u l t := by
  generalize hk : ls ++ [l] = ks at hr
  cases hr with
  | nil => simp at hk
  | snoc hr hl =>
    obtain ⟨rfl,he⟩ := List.append_inj' hk rfl
    cases he
    exact ⟨_,hr,hl⟩

theorem single {step : σ → ι → σ → Prop} {s t : σ} {l : ι} (h : step s l t) : Runs step s [l] t := by
  have hs : Runs step s ([] ++ [l]) t := .snoc .nil h
  exact hs

theorem append {step : σ → ι → σ → Prop} {s t u : σ} {ks ls : List ι}
    (h1 : Runs step s ks t) (h2 : Runs step t ls u) : Runs step s (ks ++ ls) u := by
  induction h2 with
  | nil => simpa using h1
  | snoc _ hl ih =>
    rw [← List.append_assoc]
    exact .snoc ih hl

end Runs

section Functional

/-- The relation of a step function. -/
def stepRel (next : σ → ι → Option σ) : σ → ι → σ → Prop := fun s l t => next s l = some t

/-- Takes every label of a list in turn. -/
def runList (next : σ → ι → Option σ) (s : σ) : List ι → Option σ
  | [] => some s
  | l :: ls => (next s l).bind (fun t => runList next t ls)

theorem Runs.of_runList {next : σ → ι → Option σ} {s t : σ} {ls : List ι} (h : runList next s ls = some t) :
    Runs (stepRel next) s ls t := by
  induction ls generalizing s with
  | nil =>
    cases h
    exact .nil
  | cons l ls ih =>
    obtain ⟨u,hu,ht⟩ := Option.bind_eq_some_iff.mp h
    exact (Runs.single hu).append (ih ht)

/-- The run to where some labels lead. -/
theorem Runs.of_isSome {next : σ → ι → Option σ} {s d : σ} {ls : List ι} (h : (runList next s ls).isSome = true) :
    Runs (stepRel next) s ls ((runList next s ls).getD d) := by
  obtain ⟨t,ht⟩ := Option.isSome_iff_exists.mp h
  rw [ht,Option.getD_some]
  exact .of_runList ht

theorem runList_append (next : σ → ι → Option σ) (s : σ) (ks ls : List ι) :
    runList next s (ks ++ ls) = (runList next s ks).bind (fun t => runList next t ls) := by
  induction ks generalizing s with
  | nil => rfl
  | cons k ks ih =>
    simp only [List.cons_append,runList]
    cases next s k with
    | none => rfl
    | some t => exact ih t

theorem Runs.runList_eq {next : σ → ι → Option σ} {s t : σ} {ls : List ι} (h : Runs (stepRel next) s ls t) :
    runList next s ls = some t := by
  induction h with
  | nil => rfl
  | snoc _ hl ih =>
    have hn : next _ _ = some _ := hl
    simp [runList_append,ih,runList,hn]

/-- What holds after a step exactly when it held before and the guard admitted the step,
holds after a run exactly when every step was admitted. -/
theorem Runs.guarded_iff {next : σ → ι → Option σ} {guard : σ → ι → Prop} {P : σ → Prop} {s t : σ} {ls : List ι}
    (h : Runs (stepRel next) s ls t) (h0 : P s)
    (hs : ∀ ks u l v, Runs (stepRel next) s ks u → next u l = some v → (P v ↔ P u ∧ guard u l)) :
    P t ↔ Runs (guarded (stepRel next) guard) s ls t := by
  induction h with
  | nil => exact ⟨fun _ => .nil,fun _ => h0⟩
  | snoc hr hl ih =>
    rw [hs _ _ _ _ hr hl,ih]
    constructor
    · rintro ⟨hg,hguard⟩
      exact .snoc hg ⟨hguard,hl⟩
    · intro hg
      obtain ⟨u,hu,hguard,-⟩ := hg.guarded_snoc
      have he := Option.some.inj (hu.forget.runList_eq.symm.trans hr.runList_eq)
      subst he
      exact ⟨hu,hguard⟩

/-- A weight of the steps, summed along a run. -/
def tally (next : σ → ι → Option σ) (w : σ → ι → ℕ) (s : σ) : List ι → ℕ
  | [] => 0
  | l :: ls => w s l + (next s l).elim 0 (fun t => tally next w t ls)

theorem tally_snoc {next : σ → ι → Option σ} {s t : σ} {ls : List ι} (w : σ → ι → ℕ)
    (h : Runs (stepRel next) s ls t) (l : ι) : tally next w s (ls ++ [l]) = tally next w s ls + w t l := by
  have hr := h.runList_eq
  clear h
  induction ls generalizing s with
  | nil =>
    cases hr
    cases hn : next t l with
    | none => simp [tally,hn]
    | some u => simp [tally,hn]
  | cons k ls ih =>
    obtain ⟨u,hu,ht⟩ := Option.bind_eq_some_iff.mp hr
    simp only [List.cons_append,tally,hu,Option.elim_some,ih ht]
    omega

theorem Runs.guarded_of_runList {next : σ → ι → Option σ} {guard : σ → ι → Prop}
    [∀ s l, Decidable (guard s l)] {s t : σ} {ls : List ι}
    (h : runList (fun s l => if guard s l then next s l else none) s ls = some t) :
    Runs (guarded (stepRel next) guard) s ls t := by
  induction ls generalizing s with
  | nil =>
    cases h
    exact .nil
  | cons l ls ih =>
    obtain ⟨u,hu,ht⟩ := Option.bind_eq_some_iff.mp h
    dsimp only at hu
    split at hu
    · rename_i hg
      exact (Runs.single ⟨hg,hu⟩).append (ih ht)
    · cases hu

end Functional

end OxiServe
