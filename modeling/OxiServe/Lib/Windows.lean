import Mathlib.Data.List.Basic
import Mathlib.Data.List.TakeWhile

/-! # Windows of a sequence

The first element opens a window that holds what follows while it is near, and
the first that is not near opens the next. A window is its opener and what it
holds besides. What a late element changes is settled by the last window alone.
-/
namespace OxiServe

variable {α : Type} (near : α → α → Bool)

/-- The windows of a sequence, in order. -/
def windows : List α → List (α × List α)
  | [] => []
  | a :: l => (a,l.takeWhile (near a)) :: windows (l.dropWhile (near a))
termination_by l => l.length
decreasing_by
  have := (List.dropWhile_sublist (near a) (l := l)).length_le
  simp only [List.length_cons]
  omega

/-- A late element joins the last window when it is near its opener. -/
def joinWindow (ws : List (α × List α)) (t : α) : List (α × List α) :=
  match ws.getLast? with
  | none => [(t,[])]
  | some w => if near w.1 t then ws.dropLast ++ [(w.1,w.2 ++ [t])] else ws ++ [(t,[])]

variable {near}

theorem joinWindow_cons {w : α × List α} {ws : List (α × List α)} (h : ws ≠ []) (t : α) :
    joinWindow near (w :: ws) t = w :: joinWindow near ws t := by
  have hl : (w :: ws).getLast? = ws.getLast? := by
    obtain ⟨v,vs,rfl⟩ := List.exists_cons_of_ne_nil h
    exact List.getLast?_cons_cons
  unfold joinWindow
  rw [hl]
  cases hg : ws.getLast? with
  | none => exact absurd (List.getLast?_eq_none_iff.mp hg) h
  | some v =>
    dsimp only
    split
    · rw [List.dropLast_cons_of_ne_nil h,List.cons_append]
    · rw [List.cons_append]

/-- The last window ends with the late element, and the others are as they were. -/
theorem joinWindow_cases (ws : List (α × List α)) (t : α) :
    (joinWindow near ws t = ws ++ [(t,[])] ∧ ∀ v, ws.getLast? = some v → near v.1 t = false) ∨
      ∃ init v, ws = init ++ [v] ∧ near v.1 t = true ∧ joinWindow near ws t = init ++ [(v.1,v.2 ++ [t])] := by
  unfold joinWindow
  cases hl : ws.getLast? with
  | none =>
    left
    rw [List.getLast?_eq_none_iff.mp hl]
    exact ⟨rfl,fun v hv => nomatch hv⟩
  | some v =>
    by_cases hv : near v.1 t = true
    · right
      exact ⟨ws.dropLast,v,(List.dropLast_append_getLast? v hl).symm,hv,if_pos hv⟩
    · left
      refine ⟨if_neg hv,?_⟩
      intro u hu
      cases hu
      simpa using hv

theorem windows_ne_nil {l : List α} (h : l ≠ []) : windows near l ≠ [] := by
  obtain ⟨a,r,rfl⟩ := List.exists_cons_of_ne_nil h
  rw [windows]
  exact List.cons_ne_nil _ _

theorem windows_concat (l : List α) (t : α) : windows near (l ++ [t]) = joinWindow near (windows near l) t := by
  induction hn : l.length using Nat.strongRecOn generalizing l with
  | ind n ih =>
    cases l with
    | nil => simp [windows,joinWindow]
    | cons a r =>
      rw [List.cons_append,windows,windows]
      by_cases hall : r.dropWhile (near a) = []
      · have hmem : ∀ x ∈ r, near a x = true := List.dropWhile_eq_nil_iff.mp hall
        have htake : r.takeWhile (near a) = r := List.takeWhile_eq_self_iff.mpr hmem
        rw [List.takeWhile_append_of_pos hmem,List.dropWhile_append_of_pos hmem,hall,htake,windows]
        by_cases ht : near a t = true
        · simp [joinWindow,ht,windows]
        · simp [joinWindow,ht,windows]
      · have hlt : (r.dropWhile (near a)).length < n := by
          have := (List.dropWhile_sublist (near a) (l := r)).length_le
          rw [← hn,List.length_cons]
          omega
        have hdrop : (r ++ [t]).dropWhile (near a) = r.dropWhile (near a) ++ [t] := by
          rw [List.dropWhile_append,if_neg (by simpa using hall)]
        have htake : (r ++ [t]).takeWhile (near a) = r.takeWhile (near a) := by
          rw [List.takeWhile_append,if_neg]
          intro hlen
          have hpre := (List.takeWhile_prefix (near a) (l := r)).eq_of_length hlen
          exact hall (List.dropWhile_eq_nil_iff.mpr (List.takeWhile_eq_self_iff.mp hpre))
        rw [hdrop,htake,ih _ hlt _ rfl,joinWindow_cons (windows_ne_nil hall)]

/-- Every element of a window is near the one that opened it. -/
theorem near_of_mem_windows {l : List α} {w : α × List α} (h : w ∈ windows near l) : ∀ x ∈ w.2, near w.1 x = true := by
  induction hn : l.length using Nat.strongRecOn generalizing l with
  | ind n ih =>
    cases l with
    | nil =>
      rw [windows] at h
      cases h
    | cons a r =>
      rw [windows] at h
      rcases List.mem_cons.mp h with rfl | h
      · intro x hx
        exact List.mem_takeWhile_imp hx
      · have := (List.dropWhile_sublist (near a) (l := r)).length_le
        rw [List.length_cons] at hn
        exact ih _ (by omega) h rfl

/-- The windows hold every element once, in order. -/
theorem flatten_windows (l : List α) : ((windows near l).map (fun w => w.1 :: w.2)).flatten = l := by
  induction hn : l.length using Nat.strongRecOn generalizing l with
  | ind n ih =>
    cases l with
    | nil =>
      rw [windows]
      rfl
    | cons a r =>
      have := (List.dropWhile_sublist (near a) (l := r)).length_le
      rw [List.length_cons] at hn
      rw [windows,List.map_cons,List.flatten_cons,ih _ (by omega) _ rfl,List.cons_append,
        List.takeWhile_append_dropWhile]

end OxiServe
