import Mathlib.Data.List.Sort

/-! # Stable sorting

Entries that compare equal keep the order they had, so that the first of a sorted
list to meet a test is, among the least of those that meet it, the one that was
first before.
-/
namespace OxiServe
variable {α : Type*} {le : α → α → Bool} {l : List α} {a : α} {p : α → Bool}
variable (trans : ∀ a b c : α, le a b → le b c → le a c) (total : ∀ a b : α, le a b || le b a)

/-- As early as another and no earlier. -/
def equally (le : α → α → Bool) (a b : α) : Bool := le a b && le b a

include trans total

theorem filter_mergeSort (a : α) : (l.mergeSort le).filter (equally le a) = l.filter (equally le a) := by
  have hpair : (l.filter (equally le a)).Pairwise (fun x y => le x y) := by
    rw [List.pairwise_iff_forall_sublist]
    intro x y hxy
    have hx := (List.mem_filter.mp (hxy.subset List.mem_cons_self)).2
    have hy := (List.mem_filter.mp (hxy.subset (List.mem_cons_of_mem _ List.mem_cons_self))).2
    simp only [equally,Bool.and_eq_true] at hx hy
    exact trans x a y hx.2 hy.1
  have hsub := (List.sublist_mergeSort trans total hpair List.filter_sublist).filter (equally le a)
  rw [List.filter_filter] at hsub
  simp only [Bool.and_self] at hsub
  refine (hsub.eq_of_length ?_).symm
  exact ((List.mergeSort_perm l le).filter (equally le a)).length_eq.symm

/-- Before it stand only entries that sort after it, and after it none that sorts before. -/
theorem find?_mergeSort (h : (l.mergeSort le).find? p = some a) :
    ∃ pre post, l = pre ++ a :: post ∧ p a ∧ (∀ b ∈ pre, p b → le a b ∧ ¬ le b a) ∧ ∀ b ∈ post, p b → le a b := by
  have hself : le a a := by simpa using total a a
  have hsorted := List.pairwise_mergeSort trans total l
  obtain ⟨hp,front,back,hl,hfront⟩ := List.find?_eq_some_iff_append.mp h
  have hle : ∀ b ∈ l, p b → le a b := by
    intro b hb hpb
    rw [← @List.mem_mergeSort _ le,hl] at hb
    rw [hl] at hsorted
    rcases List.mem_append.mp hb with hb | hb
    · have := hfront b hb
      rw [hpb] at this
      cases this
    · rcases List.mem_cons.mp hb with rfl | hb
      · exact hself
      · exact List.rel_of_pairwise_cons (List.pairwise_append.mp hsorted).2.1 hb
  have hequal : (l.filter (equally le a)).find? p = some a := by
    rw [← filter_mergeSort trans total a,List.find?_filter,List.find?_eq_some_iff_append]
    refine ⟨by simp [equally,hself,hp],front,back,hl,?_⟩
    intro b hb
    have := hfront b hb
    simp only [Bool.not_eq_true'] at this
    simp [this]
  rw [List.find?_filter,List.find?_eq_some_iff_append] at hequal
  obtain ⟨-,pre,post,hl',hpre⟩ := hequal
  subst hl'
  refine ⟨pre,post,rfl,hp,?_,?_⟩
  · intro b hb hpb
    have hab := hle b (List.mem_append_left _ hb) hpb
    refine ⟨hab,fun hba => ?_⟩
    have := hpre b hb
    simp [equally,hab,hba,hpb] at this
  · exact fun b hb => hle b (List.mem_append_right _ (List.mem_cons_of_mem _ hb))

end OxiServe
