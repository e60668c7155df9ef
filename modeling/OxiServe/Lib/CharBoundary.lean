import OxiServe.Lib.Bytes

/-! # Where a text may be cut

A position is a boundary unless a character goes on there. Whatever stands behind an
ASCII character of a text, and in front of one, is a text again.
-/
namespace OxiServe
variable {s : Bytes} {c : UInt8}

/-- `str::is_char_boundary`. -/
def isCharBoundary (s : Bytes) (i : ℕ) : Bool :=
  i == 0 || match s[i]? with
    | none => i == s.length
    | some c => !isCont c

theorem isCont_of_isThreeSecond {a c : UInt8} (h : isThreeSecond a c = true) : isCont c = true := by
  unfold isThreeSecond at h
  unfold isCont at h ⊢
  grind

theorem isCont_of_isFourSecond {a c : UInt8} (h : isFourSecond a c = true) : isCont c = true := by
  unfold isFourSecond at h
  unfold isCont at h ⊢
  grind

theorem not_isCont_of_ascii (hc : c < 0x80) : isCont c = false := by
  unfold isCont
  grind

/-- A text is ASCII in front, or begins with a character of two to four bytes. -/
theorem utf8Valid_cons (h : utf8Valid (c :: s) = true) :
    (c < 0x80 ∧ utf8Valid s = true) ∨ ∃ r t, s = r ++ t ∧ ¬ c < 0x80 ∧ isCont c = false ∧
      (∀ d ∈ r, isCont d = true) ∧ utf8Valid (c :: r) = true ∧ utf8Valid t = true := by
  rw [utf8Valid.eq_def] at h
  dsimp only at h
  split at h
  · rename_i hc
    exact .inl ⟨hc,h⟩
  · rename_i hc
    refine .inr ?_
    split at h
    · cases h
    · rename_i d r2
      split at h
      · rename_i h2
        obtain ⟨hd,hr⟩ := Bool.and_eq_true_iff.mp h
        refine ⟨[d],r2,rfl,hc,?_,by simpa using hd,?_,hr⟩
        · unfold isCont
          grind
        · simp [utf8Valid.eq_def,hc,h2,hd]
      · rename_i h2
        split at h
        · cases h
        · rename_i e r3
          split at h
          · rename_i h3
            simp only [Bool.and_eq_true] at h
            refine ⟨[d,e],r3,rfl,hc,?_,?_,?_,h.2⟩
            · unfold isCont
              grind
            · simpa using ⟨isCont_of_isThreeSecond h.1.1,h.1.2⟩
            · rw [utf8Valid.eq_def]
              simp [hc,h2,h3,h.1.1,h.1.2,utf8Valid]
          · rename_i h3
            split at h
            · cases h
            · rename_i f r4
              simp only [Bool.and_eq_true] at h
              refine ⟨[d,e,f],r4,rfl,hc,?_,?_,?_,h.2⟩
              · unfold isCont
                grind
              · simpa using ⟨isCont_of_isFourSecond h.1.1.1.2,h.1.1.2,h.1.2⟩
              · rw [utf8Valid.eq_def]
                simp [hc,h2,h3,h.1.1.1.1,h.1.1.1.2,h.1.1.2,h.1.2,utf8Valid]

theorem not_isCont_head (h : utf8Valid (c :: s) = true) : isCont c = false := by
  rcases utf8Valid_cons h with ⟨hc,-⟩ | ⟨-,-,-,-,hc,-⟩
  · exact not_isCont_of_ascii hc
  · exact hc

theorem isCharBoundary_append {t : Bytes} {i : ℕ} (r : Bytes) (h : isCharBoundary t (i + 1) = true) :
    isCharBoundary (r ++ t) (r.length + i + 1) = true := by
  unfold isCharBoundary at h ⊢
  rw [Nat.add_assoc,List.getElem?_append_right (Nat.le_add_right _ _),Nat.add_sub_cancel_left]
  cases ht : t[i + 1]? with
  | none =>
    rw [ht] at h
    have hlen : i + 1 = t.length := by simpa using h
    simp [hlen]
  | some d =>
    rw [ht] at h
    have hd : isCont d = false := by simpa using h
    simp [hd]

/-- Behind an ASCII character there is a boundary. -/
theorem isCharBoundary_succ {s : Bytes} {c : UInt8} {i : ℕ} (h : utf8Valid s = true) (hi : s[i]? = some c) (hc : c < 0x80) :
    isCharBoundary s (i + 1) = true := by
  cases s with
  | nil => cases hi
  | cons a s =>
    rcases utf8Valid_cons h with ⟨-,hs⟩ | ⟨r,t,rfl,ha,-,hr,-,ht⟩
    · cases i with
      | zero =>
        unfold isCharBoundary
        cases s with
        | nil => rfl
        | cons d s => simp [not_isCont_head hs]
      | succ j =>
        have := isCharBoundary_append [a] (isCharBoundary_succ hs (by simpa using hi) hc)
        simpa [Nat.add_comm] using this
    · cases i with
      | zero =>
        cases hi
        exact absurd hc ha
      | succ j =>
        rw [List.getElem?_cons_succ] at hi
        by_cases hj : j < r.length
        · rw [List.getElem?_append_left hj] at hi
          have := hr c (List.mem_of_getElem? hi)
          rw [not_isCont_of_ascii hc] at this
          cases this
        · rw [List.getElem?_append_right (Nat.not_lt.mp hj)] at hi
          have := isCharBoundary_append (a :: r) (isCharBoundary_succ ht hi hc)
          have hlen : (a :: r).length + (j - r.length) + 1 = j + 1 + 1 := by
            rw [List.length_cons]
            omega
          rwa [hlen] at this
termination_by s.length

/-- An ASCII character at the end may be left off. -/
theorem utf8Valid_of_append_ascii {s : Bytes} {c : UInt8} (hc : c < 0x80) (h : utf8Valid (s ++ [c]) = true) :
    utf8Valid s = true := by
  cases s with
  | nil => rfl
  | cons a s =>
    rw [List.cons_append] at h
    rcases utf8Valid_cons h with ⟨ha,hs⟩ | ⟨r,t,hrt,-,-,hr,har,ht⟩
    · rw [utf8Valid.eq_def]
      simp only [if_pos ha]
      exact utf8Valid_of_append_ascii hc hs
    · rcases List.append_eq_append_iff.mp hrt with ⟨m,rfl,hm⟩ | ⟨m,rfl,rfl⟩
      · cases m with
        | nil =>
          rw [List.append_nil] at har
          exact har
        | cons x m =>
          have hx : c = x := (List.cons.inj hm).1
          have := hr c (by simp [hx])
          rw [not_isCont_of_ascii hc] at this
          cases this
      · exact utf8Valid_append har (utf8Valid_of_append_ascii hc ht)
termination_by s.length

end OxiServe
