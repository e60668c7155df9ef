import Mathlib.Data.List.Induction
import Mathlib.Data.Option.Basic

/-! # Prefix codes and the trees that read them

Words over one bit with the symbol each of them stands for, a check that no
word begins another, and trees given by the children of their numbered nodes:
what a walk from the root reaches and when two walks end at one node.
-/
namespace OxiServe.PrefixCode

section Words

variable {σ : Type*}

/-- No entry's word begins the word of another entry. -/
def PrefixFree (code : List (List Bool × σ)) : Prop :=
  ∀ e ∈ code, ∀ f ∈ code, e.1 <+: f.1 → e = f

/-- What is left of the words that start with `b`. -/
def after (b : Bool) (code : List (List Bool × σ)) : List (List Bool × σ) :=
  code.filterMap fun e => match e.1 with
    | [] => none
    | c :: p => if c = b then some (p,e.2) else none

/-- Splits the words by their bits until each stands alone; `fuel` bounds their length. -/
def separates : ℕ → List (List Bool × σ) → Bool
  | _, [] => true
  | _, [_] => true
  | 0, _ => false
  | fuel + 1, code =>
    code.all (fun e => !e.1.isEmpty) && separates fuel (after false code) && separates fuel (after true code)

theorem mem_after {b : Bool} {p : List Bool} {s : σ} {code : List (List Bool × σ)} :
    (p,s) ∈ after b code ↔ (b :: p,s) ∈ code := by
  simp only [after,List.mem_filterMap]
  constructor
  · rintro ⟨⟨w,t⟩,hmem,heq⟩
    cases w with
    | nil => cases heq
    | cons c q =>
      simp only at heq
      split at heq
      · next hc => cases heq; subst hc; exact hmem
      · cases heq
  · intro hmem
    exact ⟨(b :: p,s),hmem,by simp⟩

theorem prefixFree_of_after {code : List (List Bool × σ)} (hne : ∀ e ∈ code, e.1 ≠ [])
    (hcut : ∀ b, PrefixFree (after b code)) : PrefixFree code := by
  rintro ⟨w,s⟩ he ⟨v,t⟩ hf hpre
  cases w with
  | nil => exact absurd rfl (hne _ he)
  | cons b p =>
    cases v with
    | nil => exact absurd rfl (hne _ hf)
    | cons c q =>
      obtain ⟨rfl,hpq⟩ := List.cons_prefix_cons.mp hpre
      have heq := hcut b (p,s) (mem_after.mpr he) (q,t) (mem_after.mpr hf) hpq
      obtain ⟨rfl,rfl⟩ := Prod.mk.inj heq
      rfl

theorem prefixFree_of_separates {fuel : ℕ} {code : List (List Bool × σ)} (h : separates fuel code = true) :
    PrefixFree code := by
  induction fuel, code using separates.induct with
  | case1 => intro e he; cases he
  | case2 _ a =>
    intro e he f hf _
    rw [List.mem_singleton.mp he,List.mem_singleton.mp hf]
  | case3 code h0 h1 =>
    unfold separates at h
    split at h <;> simp_all
  | case4 fuel code h0 h1 ihf iht =>
    rw [separates] at h
    · simp only [Bool.and_eq_true,List.all_eq_true] at h
      obtain ⟨⟨hne,hf⟩,ht⟩ := h
      refine prefixFree_of_after (fun e he hw => ?_) (fun b => ?_)
      · simpa [hw] using hne e he
      · cases b with
        | false => exact ihf hf
        | true => exact iht ht
    · exact h0
    · exact h1

/-- In a prefix-free code without repeats two entries never share a word. -/
theorem PrefixFree.word_ne {code : List (List Bool × σ)} (hfree : PrefixFree code) {e f : List Bool × σ}
    (he : e ∈ code) (hf : f ∈ code) (hne : e ≠ f) : e.1 ≠ f.1 := by
  intro hw
  exact hne (hfree e he f hf (hw ▸ List.prefix_refl _))

end Words

section Trees

variable (child : ℕ → Bool → Option ℕ)

/-- Where the walk along `p` from node `i` ends. -/
def reach (i : ℕ) (p : List Bool) : Option ℕ := p.foldlM child i

/-- Children come after their parent and have one parent only. -/
structure Rooted : Prop where
  forward {i j : ℕ} {b : Bool} : child i b = some j → i < j
  single {i i' j : ℕ} {b b' : Bool} : child i b = some j → child i' b' = some j → i = i' ∧ b = b'

variable {child}

@[simp] theorem reach_nil (i : ℕ) : reach child i [] = some i := rfl

theorem reach_cons (i : ℕ) (b : Bool) (p : List Bool) :
    reach child i (b :: p) = (child i b).bind fun j => reach child j p := rfl

theorem reach_append (i : ℕ) (p q : List Bool) :
    reach child i (p ++ q) = (reach child i p).bind fun j => reach child j q := by
  simp only [reach,List.foldlM_append]
  rfl

theorem reach_snoc {i j : ℕ} {p : List Bool} {b : Bool} (h : reach child i (p ++ [b]) = some j) :
    ∃ k, reach child i p = some k ∧ child k b = some j := by
  rw [reach_append] at h
  obtain ⟨k,hk,hj⟩ := Option.bind_eq_some_iff.mp h
  rw [reach_cons] at hj
  obtain ⟨l,hl,heq⟩ := Option.bind_eq_some_iff.mp hj
  cases heq
  exact ⟨k,hk,hl⟩

namespace Rooted
variable (hr : Rooted child)
include hr

theorem length_le {i j : ℕ} {p : List Bool} (h : reach child i p = some j) : i + p.length ≤ j := by
  induction p generalizing i with
  | nil => cases h; simp
  | cons b p ih =>
    rw [reach_cons] at h
    obtain ⟨k,hk,hj⟩ := Option.bind_eq_some_iff.mp h
    have hlt := hr.forward hk
    have hle := ih hj
    simp only [List.length_cons]
    omega

/-- Two walks from the root that end at one node are the same walk. -/
theorem reach_inj {j : ℕ} {p q : List Bool} (hp : reach child 0 p = some j) (hq : reach child 0 q = some j) :
    p = q := by
  induction p using List.reverseRecOn generalizing q j with
  | nil =>
    cases hp
    have hlen := hr.length_le hq
    exact (List.length_eq_zero_iff.mp (by omega)).symm
  | append_singleton p b ih =>
    obtain ⟨k,hk,hkj⟩ := reach_snoc hp
    cases q using List.reverseRecOn with
    | nil =>
      cases hq
      exact absurd (hr.forward hkj) (Nat.not_lt_zero k)
    | append_singleton q c =>
      obtain ⟨l,hl,hlj⟩ := reach_snoc hq
      obtain ⟨rfl,rfl⟩ := hr.single hkj hlj
      rw [ih hk hl]

end Rooted

end Trees

end OxiServe.PrefixCode
