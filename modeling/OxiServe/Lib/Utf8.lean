import OxiServe.Lib.CharBoundary

/-! # Texts character by character

An induction over the characters of a text. A text may be split at an ASCII character,
and reading it with replacement gives it back.
-/
namespace OxiServe
variable {s : Bytes} {c : UInt8}

/-- A property of texts that holds of the empty one, and that a character in front keeps. -/
theorem utf8Valid_induction {P : Bytes → Prop} (nil : P [])
    (ascii : ∀ c s, c < 0x80 → utf8Valid s = true → P s → P (c :: s))
    (wide : ∀ c r t, ¬ c < 0x80 → (∀ d ∈ r, isCont d = true) → utf8Valid (c :: r) = true → utf8Valid t = true →
      P t → P (c :: (r ++ t))) (s : Bytes) (h : utf8Valid s = true) : P s := by
  induction hn : s.length using Nat.strongRecOn generalizing s with
  | ind n ih =>
    cases s with
    | nil => exact nil
    | cons c s =>
      rw [List.length_cons] at hn
      rcases utf8Valid_cons h with ⟨hc,hs⟩ | ⟨r,t,rfl,hc,-,hr,hcr,ht⟩
      · exact ascii c s hc hs (ih s.length (by omega) s hs rfl)
      · rw [List.length_append] at hn
        exact wide c r t hc hr hcr ht (ih t.length (by omega) t ht rfl)

theorem utf8Valid_cons_ascii (hc : c < 0x80) : utf8Valid (c :: s) = utf8Valid s := by
  rw [utf8Valid.eq_def]
  exact if_pos hc

/-- A text ends in front of an ASCII character of it, and another goes on behind. -/
theorem utf8Valid_split {a b : Bytes} (hc : c < 0x80) (h : utf8Valid (a ++ c :: b) = true) :
    utf8Valid a = true ∧ utf8Valid b = true := by
  refine utf8Valid_induction (P := fun s => ∀ a, s = a ++ c :: b → utf8Valid a = true ∧ utf8Valid b = true)
    ?_ ?_ ?_ _ h a rfl
  · intro a ha
    exact absurd ha (by simp)
  · intro d s hd hs ih a ha
    cases a with
    | nil =>
      obtain ⟨-,rfl⟩ := List.cons.inj ha
      exact ⟨rfl,hs⟩
    | cons x a =>
      obtain ⟨rfl,rfl⟩ := List.cons.inj ha
      obtain ⟨h1,h2⟩ := ih a rfl
      exact ⟨(utf8Valid_cons_ascii hd).trans h1,h2⟩
  · intro d r t hd hr hdr ht ih a ha
    cases a with
    | nil =>
      obtain ⟨rfl,-⟩ := List.cons.inj ha
      exact absurd hc hd
    | cons x a =>
      obtain ⟨rfl,hrt⟩ := List.cons.inj ha
      rcases List.append_eq_append_iff.mp hrt with ⟨m,rfl,rfl⟩ | ⟨m,rfl,hm⟩
      · obtain ⟨h1,h2⟩ := ih m rfl
        exact ⟨utf8Valid_append hdr h1,h2⟩
      · cases m with
        | nil =>
          rw [List.append_nil] at hdr
          exact ⟨hdr,(ih [] hm.symm).2⟩
        | cons y m =>
          have hy := hr y (List.mem_append_right _ List.mem_cons_self)
          rw [← (List.cons.inj hm).1,not_isCont_of_ascii hc] at hy
          cases hy

theorem eq_nil_of_conts {r : Bytes} (h : utf8Valid r = true) (hr : ∀ d ∈ r, isCont d = true) : r = [] := by
  cases r with
  | nil => rfl
  | cons d r =>
    have hd := hr d List.mem_cons_self
    rw [not_isCont_head h] at hd
    cases hd

/-- The character in front is found. -/
theorem utf8Front_wide {r : Bytes} (t : Bytes) (hc : ¬ c < 0x80) (hr : ∀ d ∈ r, isCont d = true)
    (h : utf8Valid (c :: r) = true) : utf8Front (c :: (r ++ t)) = (r.length + 1,true) := by
  rw [utf8Valid.eq_def] at h
  dsimp only at h
  rw [if_neg hc] at h
  unfold utf8Front
  dsimp only
  rw [if_neg hc]
  cases r with
  | nil => cases h
  | cons d r =>
    have hcons := fun e he => hr e (List.mem_cons_of_mem _ he)
    dsimp only at h
    split at h
    · rename_i h2
      obtain ⟨hd,hv⟩ := Bool.and_eq_true_iff.mp h
      rw [eq_nil_of_conts hv hcons]
      simp [h2,hd]
    · rename_i h2
      cases r with
      | nil => cases h
      | cons e r =>
        have hcons := fun f hf => hcons f (List.mem_cons_of_mem _ hf)
        dsimp only at h
        split at h
        · rename_i h3
          simp only [Bool.and_eq_true] at h
          rw [eq_nil_of_conts h.2 hcons]
          simp [h2,h3,h.1.1,h.1.2]
        · rename_i h3
          cases r with
          | nil => cases h
          | cons f r =>
            simp only [Bool.and_eq_true] at h
            rw [eq_nil_of_conts h.2 (fun g hg => hcons g (List.mem_cons_of_mem _ hg))]
            have h4 : (0xF0 ≤ c && c ≤ 0xF4) = true := by simpa using h.1.1.1.1
            simp [h2,h3,h4,h.1.1.1.2,h.1.1.2,h.1.2]

/-- What follows a text in a text is a text. -/
theorem utf8Valid_suffix {a : Bytes} (ha : utf8Valid a = true) : ∀ b, utf8Valid (a ++ b) = true → utf8Valid b = true := by
  refine utf8Valid_induction (P := fun a => ∀ b, utf8Valid (a ++ b) = true → utf8Valid b = true) ?_ ?_ ?_ a ha
  · exact fun b hb => hb
  · intro c s hc _ ih b hb
    rw [List.cons_append,utf8Valid_cons_ascii hc] at hb
    exact ih b hb
  · intro c r t hc hr hcr _ ih b hb
    rw [List.cons_append,List.append_assoc] at hb
    rcases utf8Valid_cons hb with ⟨hlt,-⟩ | ⟨r',t',he,-,-,hr',hcr',ht'⟩
    · exact absurd hlt hc
    · have h1 := utf8Front_wide (t ++ b) hc hr hcr
      rw [he,utf8Front_wide t' hc hr' hcr'] at h1
      obtain ⟨-,rfl⟩ := List.append_inj he (Nat.succ.inj (congrArg Prod.fst h1)).symm
      exact ih b ht'

theorem utf8LossyLoop_of_valid (h : utf8Valid s = true) : ∀ fuel, s.length ≤ fuel → utf8LossyLoop fuel s = s := by
  refine utf8Valid_induction (P := fun s => ∀ fuel, s.length ≤ fuel → utf8LossyLoop fuel s = s) ?_ ?_ ?_ s h
  · intro fuel _
    cases fuel with
    | zero => rfl
    | succ fuel => rfl
  · intro c s hc _ ih fuel hf
    cases fuel with
    | zero => exact absurd hf (Nat.not_succ_le_zero _)
    | succ fuel =>
      have hfront : utf8Front (c :: s) = (1,true) := by
        unfold utf8Front
        exact if_pos hc
      rw [utf8LossyLoop,if_neg (List.cons_ne_nil _ _),hfront]
      simp [ih fuel (Nat.le_of_succ_le_succ hf)]
  · intro c r t hc hr hcr _ ih fuel hf
    cases fuel with
    | zero => exact absurd hf (Nat.not_succ_le_zero _)
    | succ fuel =>
      rw [List.length_cons,List.length_append] at hf
      rw [utf8LossyLoop,if_neg (List.cons_ne_nil _ _),utf8Front_wide t hc hr hcr]
      simp [ih fuel (by omega)]

/-- Nothing is replaced in a text. -/
theorem utf8Lossy_of_valid (h : utf8Valid s = true) : utf8Lossy s = s := utf8LossyLoop_of_valid h _ (Nat.le_refl _)

end OxiServe
