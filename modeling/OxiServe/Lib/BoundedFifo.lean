import Mathlib.Algebra.Ring.Nat
import Mathlib.Data.List.Induction
import Mathlib.Order.Basic

/-! # Queues bounded by a total cost

`fit` keeps the longest run of newest entries whose total cost fits a budget.
Popping from the old end while the total exceeds the budget computes it.
-/
namespace OxiServe.BoundedFifo
variable {α : Type*} (cost : α → ℕ)

def total (l : List α) : ℕ := (l.map cost).sum

/-- The longest prefix of total cost at most `n`; entries are newest first. -/
def fit : ℕ → List α → List α
  | _, [] => []
  | n, a :: l => if cost a ≤ n then a :: fit (n - cost a) l else []

/-- Pops entries while the running size exceeds `n`; entries are oldest first. -/
def popWhile (n : ℕ) : List α → ℕ → List α × ℕ
  | [], size => if n < size then ([],0) else ([],size)
  | a :: l, size => if n < size then popWhile n l (size - cost a) else (a :: l,size)

/-- The running size and the cost of the entry at each pop. -/
def pops (n : ℕ) : List α → ℕ → List (ℕ × ℕ)
  | [], _ => []
  | a :: l, size => if n < size then (size,cost a) :: pops n l (size - cost a) else []

@[simp] theorem total_nil : total cost [] = 0 := rfl

@[simp] theorem total_cons (a : α) (l : List α) : total cost (a :: l) = cost a + total cost l := by
  simp [total]

theorem total_append (l m : List α) : total cost (l ++ m) = total cost l + total cost m := by
  simp [total]

theorem total_fit_le (n : ℕ) (l : List α) : total cost (fit cost n l) ≤ n := by
  induction l generalizing n with
  | nil => simp [fit]
  | cons a l ih =>
    unfold fit
    split
    · have h := ih (n - cost a)
      simp only [total_cons]
      omega
    · simp

theorem fit_of_total_le {n : ℕ} {l : List α} (h : total cost l ≤ n) : fit cost n l = l := by
  induction l generalizing n with
  | nil => rfl
  | cons a l ih =>
    simp only [total_cons] at h
    rw [fit,if_pos (by omega),ih (by omega)]

theorem fit_append_singleton {n : ℕ} {l : List α} {a : α} (h : n < total cost (l ++ [a])) :
    fit cost n (l ++ [a]) = fit cost n l := by
  induction l generalizing n with
  | nil =>
    simp only [List.nil_append,total_cons,total_nil,Nat.add_zero] at h
    simp only [List.nil_append,fit]
    rw [if_neg (by omega)]
  | cons b l ih =>
    simp only [List.cons_append,total_cons] at h
    simp only [List.cons_append,fit]
    split
    · rw [ih (by omega)]
    · rfl

/-- Popping from the old end with an exact running size keeps what fits. -/
theorem popWhile_eq_fit (n : ℕ) (l : List α) :
    popWhile cost n l.reverse (total cost l) = ((fit cost n l).reverse,total cost (fit cost n l)) := by
  induction l using List.reverseRecOn with
  | nil => simp [popWhile,fit]
  | append_singleton l a ih =>
    simp only [List.reverse_append,List.reverse_cons,List.reverse_nil,List.nil_append,List.cons_append,popWhile]
    by_cases h : n < total cost (l ++ [a])
    · have hs : total cost (l ++ [a]) - cost a = total cost l := by
        rw [total_append]
        simp
      rw [if_pos h,fit_append_singleton cost h,hs,ih]
    · rw [if_neg h,fit_of_total_le cost (by omega)]
      simp

/-- With an exact running size no pop takes off more than is there. -/
theorem pops_le {n size : ℕ} {l : List α} (h : size = total cost l) : ∀ p ∈ pops cost n l size, p.2 ≤ p.1 := by
  induction l generalizing size with
  | nil => simp [pops]
  | cons a l ih =>
    rw [total_cons] at h
    intro p hp
    rw [pops] at hp
    split at hp
    · rcases List.mem_cons.mp hp with rfl | hp
      · dsimp only
        omega
      · exact ih (by omega) p hp
    · cases hp

theorem total_reverse (l : List α) : total cost l.reverse = total cost l := by
  rw [total,List.map_reverse,List.sum_reverse,total]

theorem fit_prefix (n : ℕ) (l : List α) : fit cost n l <+: l := by
  induction l generalizing n with
  | nil => exact List.prefix_refl _
  | cons a l ih =>
    unfold fit
    split
    · exact List.cons_prefix_cons.mpr ⟨rfl,ih _⟩
    · exact List.nil_prefix

/-- Every prefix within the budget is kept. -/
theorem prefix_fit {n : ℕ} {l m : List α} (hm : m <+: l) (h : total cost m ≤ n) : m <+: fit cost n l := by
  induction l generalizing n m with
  | nil =>
    rw [List.prefix_nil.mp hm]
    exact List.nil_prefix
  | cons a l ih =>
    cases m with
    | nil => exact List.nil_prefix
    | cons b m =>
      obtain ⟨rfl,hrest⟩ := List.cons_prefix_cons.mp hm
      rw [total_cons] at h
      rw [fit,if_pos (by omega)]
      exact List.cons_prefix_cons.mpr ⟨rfl,ih hrest (by omega)⟩

end OxiServe.BoundedFifo
