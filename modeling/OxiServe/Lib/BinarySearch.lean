import Mathlib.Data.Nat.Notation
import Mathlib.Data.List.Basic

/-! # Binary search

The range left to search is halved until one entry remains, which is compared once
more. On a list that is ascending by the comparison an entry is found if there is one;
which of several equal entries it is, is left open.
-/
namespace OxiServe
variable {α : Type*}

section Search

/-- The search for the last entry that is not greater, over `size` entries from `base`;
every round leaves fewer of them. -/
def bisect (f : ℕ → Ordering) : ℕ → ℕ → ℕ → ℕ
  | 0, base, _ => base
  | fuel + 1, base, size =>
    if 1 < size then bisect f fuel (if f (base + size / 2) = .gt then base else base + size / 2) (size - size / 2)
    else base

/-- The index of an equal entry, or where one would stand. -/
def binarySearchBy (l : List α) (f : α → Ordering) : Except ℕ ℕ :=
  let base := bisect (fun i => (l[i]?.map f).getD .gt) l.length 0 l.length
  match l[base]?.map f with
  | some .eq => .ok base
  | some .lt => .error (base + 1)
  | _ => .error base

/-- The entry that is found. -/
def searchBy (l : List α) (f : α → Ordering) : Option α :=
  match binarySearchBy l f with
  | .ok i => l[i]?
  | .error _ => none

/-- Less before equal before greater. -/
def Ascending (f : α → Ordering) (l : List α) : Prop :=
  l.Pairwise (fun a b => (f a = .gt → f b = .gt) ∧ (f b = .lt → f a = .lt))

end Search

section Found
variable {l : List α} {f : α → Ordering} {a : α}

/-- What is left behind on either side of the range stays behind. -/
theorem bisect_spec {g : ℕ → Ordering} {fuel base size : ℕ} (hf : size ≤ fuel) (hs : 0 < size)
    (hlow : base = 0 ∨ g base ≠ .gt) (hhigh : ∀ i, base + size ≤ i → g i = .gt)
    (hmono : ∀ i j, i ≤ j → g i = .gt → g j = .gt) :
    (bisect g fuel base size = 0 ∨ g (bisect g fuel base size) ≠ .gt) ∧
      ∀ i, bisect g fuel base size < i → g i = .gt := by
  induction fuel generalizing base size with
  | zero => omega
  | succ fuel ih =>
    rw [bisect]
    by_cases hone : 1 < size
    · rw [if_pos hone]
      by_cases hmid : g (base + size / 2) = .gt
      · rw [if_pos hmid]
        refine ih (by omega) (by omega) hlow ?_
        intro i hi
        exact hmono _ i (by omega) hmid
      · rw [if_neg hmid]
        refine ih (by omega) (by omega) (Or.inr hmid) ?_
        intro i hi
        exact hhigh i (by omega)
    · rw [if_neg hone]
      exact ⟨hlow,fun i hi => hhigh i (by omega)⟩

theorem searchBy_some (h : searchBy l f = some a) : a ∈ l ∧ f a = .eq := by
  unfold searchBy binarySearchBy at h
  dsimp only at h
  generalize bisect (fun i => (l[i]?.map f).getD .gt) l.length 0 l.length = base at h
  cases hb : l[base]? with
  | none =>
    rw [hb] at h
    cases h
  | some b =>
    cases ho : f b with
    | eq =>
      rw [hb,Option.map_some,ho] at h
      dsimp only at h
      rw [hb] at h
      cases h
      exact ⟨List.mem_of_getElem? hb,ho⟩
    | lt =>
      rw [hb,Option.map_some,ho] at h
      cases h
    | gt =>
      rw [hb,Option.map_some,ho] at h
      cases h

/-- Nothing is found only if there is nothing to find. -/
theorem searchBy_none (hl : Ascending f l) (h : searchBy l f = none) : ∀ a ∈ l, f a ≠ .eq := by
  intro a ha heq
  have hl := List.pairwise_iff_getElem.mp hl
  obtain ⟨k,hk,hget⟩ := List.mem_iff_getElem.mp ha
  have hpos : 0 < l.length := Nat.lt_of_le_of_lt (Nat.zero_le k) hk
  have hat {i : ℕ} (hi : i < l.length) : (l[i]?.map f).getD .gt = f l[i] := by
    rw [List.getElem?_eq_getElem hi]
    rfl
  have hpair {i j : ℕ} (hij : i < j) (hj : j < l.length) :
      (f l[i] = .gt → f l[j] = .gt) ∧ (f l[j] = .lt → f l[i] = .lt) :=
    hl i j (Nat.lt_trans hij hj) hj hij
  have hmono : ∀ i j : ℕ, i ≤ j → (l[i]?.map f).getD .gt = .gt → (l[j]?.map f).getD .gt = .gt := by
    intro i j hij hi
    by_cases hj : j < l.length
    · rcases Nat.eq_or_lt_of_le hij with rfl | hlt
      · exact hi
      · rw [hat (Nat.lt_trans hlt hj)] at hi
        rw [hat hj]
        exact (hpair hlt hj).1 hi
    · rw [List.getElem?_eq_none (Nat.not_lt.mp hj)]
      rfl
  have hend : ∀ i : ℕ, 0 + l.length ≤ i → (l[i]?.map f).getD .gt = .gt := by
    intro i hi
    rw [List.getElem?_eq_none (by omega)]
    rfl
  obtain ⟨hlow,hhigh⟩ := bisect_spec (Nat.le_refl l.length) hpos (Or.inl rfl) hend hmono
  unfold searchBy binarySearchBy at h
  dsimp only at h
  generalize bisect (fun i => (l[i]?.map f).getD .gt) l.length 0 l.length = base at h hlow hhigh
  have hkb : k ≤ base := by
    by_contra hlt
    have hgt := hhigh k (Nat.not_le.mp hlt)
    rw [hat hk,hget,heq] at hgt
    cases hgt
  have hb : base < l.length := by
    by_contra hge
    rcases hlow with h0 | hne
    · omega
    · exact hne (hend base (by omega))
  rw [hat hb] at hlow
  have hfound : f l[base] = .eq := by
    rcases Nat.eq_or_lt_of_le hkb with rfl | hlt
    · rw [hget]
      exact heq
    · have hnl : f l[base] ≠ .lt := by
        intro hb'
        have hkl := (hpair hlt hb).2 hb'
        rw [hget,heq] at hkl
        cases hkl
      have hng : f l[base] ≠ .gt := hlow.resolve_left (by omega)
      cases hc : f l[base] with
      | eq => rfl
      | lt => exact absurd hc hnl
      | gt => exact absurd hc hng
  rw [List.getElem?_eq_getElem hb,Option.map_some,hfound] at h
  dsimp only at h
  rw [List.getElem?_eq_getElem hb] at h
  cases h

end Found

end OxiServe
