import Mathlib.Data.List.Basic
import Mathlib.Data.Nat.Notation
import Mathlib.Data.Nat.ModEq

/-! # Counting marked entries

A list of parties of which some are marked, and a wrapping counter that is to
follow their number. One party changes at a time: the counter goes up when it gains
the mark and down when it loses it. The same for parties of some weight.
-/
namespace OxiServe
variable {α : Type*} {p : α → Bool} {l : List α} {t : ℕ} {a b : α} {m c : ℕ}

theorem countP_set (p : α → Bool) {l : List α} {t : ℕ} {a : α} (b : α) (h : l[t]? = some a) :
    (l.set t b).countP p + (if p a then 1 else 0) = l.countP p + (if p b then 1 else 0) := by
  induction l generalizing t with
  | nil => cases h
  | cons c l ih =>
    cases t with
    | zero =>
      cases h
      simp only [List.set_cons_zero,List.countP_cons]
      omega
    | succ t =>
      have hrest := ih h
      simp only [List.set_cons_succ,List.countP_cons]
      omega

theorem countP_set_same (h : l[t]? = some a) (hab : p b = p a) : (l.set t b).countP p = l.countP p := by
  have hset := countP_set p b h
  rw [hab] at hset
  omega

theorem countP_set_gain (h : l[t]? = some a) (ha : p a = false) (hb : p b = true) :
    (l.set t b).countP p = l.countP p + 1 := by
  have hset := countP_set p b h
  rw [ha,hb] at hset
  simpa using hset

theorem countP_set_lose (h : l[t]? = some a) (ha : p a = true) (hb : p b = false) :
    (l.set t b).countP p + 1 = l.countP p := by
  have hset := countP_set p b h
  rw [ha,hb] at hset
  simpa using hset

/-- The counter is the number of marked entries, as far as it can count. -/
def Counter (m c : ℕ) (p : α → Bool) (l : List α) : Prop := c = l.countP p % m

theorem Counter.gain (hf : Counter m c p l) (h : l[t]? = some a) (ha : p a = false) (hb : p b = true) :
    Counter m ((c + 1) % m) p (l.set t b) := by
  unfold Counter at hf ⊢
  rw [countP_set_gain h ha hb,hf,Nat.mod_add_mod]

theorem Counter.lose (hf : Counter m c p l) (hm : 0 < m) (h : l[t]? = some a) (ha : p a = true) (hb : p b = false) :
    Counter m ((c + (m - 1)) % m) p (l.set t b) := by
  have hset := countP_set_lose h ha hb
  unfold Counter at hf ⊢
  rw [hf,Nat.mod_add_mod,← hset,Nat.add_assoc,Nat.add_sub_cancel' hm,Nat.add_mod_right]

theorem Counter.same (hf : Counter m c p l) (h : l[t]? = some a) (hab : p b = p a) : Counter m c p (l.set t b) := by
  unfold Counter at hf ⊢
  rw [countP_set_same h hab]
  exact hf

theorem Counter.concat (hf : Counter m c p l) (ha : p a = false) : Counter m c p (l ++ [a]) := by
  unfold Counter at hf ⊢
  rw [List.countP_append,List.countP_singleton,ha]
  exact hf

/-- It is the number of entries that are marked either way only when none has the
second mark and it has not wrapped. -/
theorem Counter.eq_iff (hf : Counter m c p l) (hm : 0 < m) (q : α → Bool) :
    c = l.countP p + l.countP q ↔ l.countP p < m ∧ l.countP q = 0 := by
  unfold Counter at hf
  have hlt := Nat.mod_lt (l.countP p) hm
  have hle := Nat.mod_le (l.countP p) m
  constructor
  · intro he
    omega
  · rintro ⟨hp,hq⟩
    rw [hf,Nat.mod_eq_of_lt hp,hq,Nat.add_zero]

section Weights
variable {w : α → ℕ} {c' : ℕ}

theorem sum_map_set (w : α → ℕ) {l : List α} {t : ℕ} {a : α} (b : α) (h : l[t]? = some a) :
    ((l.set t b).map w).sum + w a = (l.map w).sum + w b := by
  induction l generalizing t with
  | nil => cases h
  | cons c l ih =>
    cases t with
    | zero =>
      cases h
      simp only [List.set_cons_zero,List.map_cons,List.sum_cons]
      omega
    | succ t =>
      have hrest := ih h
      simp only [List.set_cons_succ,List.map_cons,List.sum_cons]
      omega

/-- The counter is the sum of the weights, as far as it can count. -/
def Weighed (m c : ℕ) (w : α → ℕ) (l : List α) : Prop := c = (l.map w).sum % m

theorem Weighed.set (h : Weighed m c w l) (ha : l[t]? = some a) (hlt : c' < m)
    (hc : c' + w a ≡ c + w b [MOD m]) : Weighed m c' w (l.set t b) := by
  have hsum := sum_map_set w b ha
  unfold Weighed at h ⊢
  have hmod : c ≡ (l.map w).sum [MOD m] := by
    rw [h]
    exact Nat.mod_modEq _ _
  have hnew : c' + w a ≡ ((l.set t b).map w).sum + w a [MOD m] := by
    rw [hsum]
    exact hc.trans (hmod.add_right _)
  have heq : c' % m = ((l.set t b).map w).sum % m := Nat.ModEq.add_right_cancel' _ hnew
  rw [← heq,Nat.mod_eq_of_lt hlt]

theorem Weighed.concat (h : Weighed m c w l) (ha : w a = 0) : Weighed m c w (l ++ [a]) := by
  unfold Weighed at h ⊢
  rw [List.map_append,List.sum_append,List.map_singleton,List.sum_singleton,ha,Nat.add_zero]
  exact h

end Weights

/-- Shorter parts are as long together only where each is as long. -/
theorem length_eq_of_flatMap {α β : Type*} {f g : α → List β} (hle : ∀ a, (g a).length ≤ (f a).length) (l : List α) :
    (l.flatMap g).length ≤ (l.flatMap f).length ∧
      ((l.flatMap f).length = (l.flatMap g).length → ∀ a ∈ l, (f a).length = (g a).length) := by
  induction l with
  | nil => exact ⟨Nat.le_refl _,fun _ _ h => by cases h⟩
  | cons a l ih =>
    have ha := hle a
    simp only [List.flatMap_cons,List.length_append]
    refine ⟨Nat.add_le_add ha ih.1,fun he b hb => ?_⟩
    rcases List.mem_cons.mp hb with rfl | hb
    · omega
    · exact ih.2 (by omega) b hb

end OxiServe
