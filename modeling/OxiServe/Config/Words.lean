import OxiServe.Config.Lexer
import OxiServe.Lib.Utf8

/-! # Words that read back

A word stands for itself outside quotes when nothing in it ends it or is resolved. In
double quotes any word does, with a backslash before each quote and backslash of it.
-/
namespace OxiServe.Config.Lexer
variable {w s rest : Bytes} {c : UInt8}

section Plain

/-- No delimiter ends the word early and no backslash of it is resolved or left over. -/
def isPlainRest : Bytes → Bool
  | [] => true
  | [c] => c != 92 && !isDelim c
  | c :: d :: r =>
    if c == 92 then (escape d).isNone && isPlainRest r
    else !isDelim c && isPlainRest (d :: r)

/-- The word stands for itself outside quotes. -/
def isPlain (w : Bytes) : Bool := w.head?.any (fun c => !isQuote c && c != 35) && isPlainRest w

theorem isDelim_ne_backslash {d : UInt8} (h : isDelim d = true) : d ≠ 92 := by
  rintro rfl
  exact absurd h (by decide)

/-- A word ends in front of a delimiter. -/
theorem scanBare_nil (h : s.head?.all isDelim = true) : scanBare s = ([],s) := by
  cases s with
  | nil => rfl
  | cons d r =>
    have hd : isDelim d = true := h
    cases r with
    | nil => rw [scanBare,if_pos hd]
    | cons e r => rw [scanBare,if_neg (fun he => isDelim_ne_backslash hd (beq_iff_eq.mp he)),if_pos hd]

theorem scanBare_cons (hc : c ≠ 92) (hd : isDelim c = false) (s : Bytes) :
    scanBare (c :: s) = (c :: (scanBare s).1,(scanBare s).2) := by
  cases s with
  | nil =>
    change scanBare [c] = ([c],[])
    rw [scanBare,if_neg (by rw [hd]; exact Bool.false_ne_true)]
  | cons e r => rw [scanBare,if_neg (fun he => hc (beq_iff_eq.mp he)),if_neg (by rw [hd]; exact Bool.false_ne_true)]

theorem scanBare_pair (d : UInt8) (s : Bytes) :
    scanBare (92 :: d :: s) = (92 :: d :: (scanBare s).1,(scanBare s).2) := by
  rw [scanBare,if_pos (beq_self_eq_true _)]

theorem scanBare_plain (h : isPlainRest w = true) (hr : rest.head?.all isDelim = true) :
    scanBare (w ++ rest) = (w,rest) := by
  induction w using isPlainRest.induct with
  | case1 => exact scanBare_nil hr
  | case2 c =>
    obtain ⟨hc,hd⟩ := Bool.and_eq_true_iff.mp h
    rw [List.singleton_append,scanBare_cons (bne_iff_ne.mp hc) ((Bool.not_eq_true' _).mp hd),scanBare_nil hr]
  | case3 c d r hc ih =>
    rw [isPlainRest,if_pos hc] at h
    rw [beq_iff_eq.mp hc,List.cons_append,List.cons_append,scanBare_pair,ih (Bool.and_eq_true_iff.mp h).2]
  | case4 c d r hc ih =>
    rw [isPlainRest,if_neg hc] at h
    obtain ⟨hd,hr⟩ := Bool.and_eq_true_iff.mp h
    rw [List.cons_append,scanBare_cons (fun he => hc (beq_iff_eq.mpr he)) ((Bool.not_eq_true' _).mp hd),ih hr]

theorem escape_backslash : escape 92 = some 92 := rfl

theorem resolve_plain (h : isPlainRest w = true) : resolve w = w := by
  induction w using isPlainRest.induct with
  | case1 => rfl
  | case2 c => rfl
  | case3 c d r hc ih =>
    rw [isPlainRest,if_pos hc] at h
    obtain ⟨hd,hr⟩ := Bool.and_eq_true_iff.mp h
    have hd := Option.isNone_iff_eq_none.mp hd
    have hne : d ≠ 92 := by
      rintro rfl
      rw [escape_backslash] at hd
      cases hd
    rw [beq_iff_eq.mp hc,resolve_kept hd,resolve_cons hne,ih hr]
  | case4 c d r hc ih =>
    rw [isPlainRest,if_neg hc] at h
    rw [resolve_cons (fun he => hc (beq_iff_eq.mpr he)),ih (Bool.and_eq_true_iff.mp h).2]

theorem length_resolve_le (s : Bytes) : (resolve s).length ≤ s.length := by
  induction s using resolve.induct with
  | case1 => exact Nat.le_refl _
  | case2 c => exact Nat.le_refl _
  | case3 c d r e he ih =>
    rw [resolve,he]
    simp only [List.length_cons] at ih ⊢
    omega
  | case4 c d r he ih =>
    rw [resolve,he]
    simp only [List.length_cons] at ih ⊢
    omega

/-- What does not get shorter is not changed. -/
theorem resolve_eq_of_length (h : (resolve s).length = s.length) : resolve s = s := by
  induction s using resolve.induct with
  | case1 => rfl
  | case2 c => rfl
  | case3 c d r e he ih =>
    have hl := length_resolve_le r
    rw [resolve,he] at h
    simp only [List.length_cons] at h
    omega
  | case4 c d r he ih =>
    rw [resolve,he] at h ⊢
    rw [ih (by simpa using h)]

/-- A word that is read whole in front of a delimiter, and not changed. -/
theorem isPlainRest_of_scan (h : scanBare (w ++ rest) = (w,rest)) (hr : rest.head?.any isDelim = true)
    (hw : resolve w = w) : isPlainRest w = true := by
  induction w using isPlainRest.induct with
  | case1 => rfl
  | case2 c =>
    rw [isPlainRest]
    refine Bool.and_eq_true_iff.mpr ⟨?_,?_⟩
    · refine bne_iff_ne.mpr ?_
      rintro rfl
      cases rest with
      | nil => cases hr
      | cons d r =>
        rw [List.singleton_append,scanBare_pair] at h
        have := congrArg List.length (congrArg Prod.fst h)
        simp at this
    · refine (Bool.not_eq_true' _).mpr (Bool.eq_false_iff.mpr ?_)
      intro hd
      rw [List.singleton_append,scanBare_nil (s := c :: rest) hd] at h
      cases h
  | case3 c d r hc ih =>
    rw [beq_iff_eq.mp hc] at h hw ⊢
    rw [List.cons_append,List.cons_append,scanBare_pair] at h
    have hd : escape d = none := by
      cases he : escape d with
      | none => rfl
      | some e =>
        have hl := length_resolve_le r
        rw [resolve_escape he] at hw
        have := congrArg List.length hw
        simp only [List.length_cons] at this
        omega
    have hne : d ≠ 92 := by
      rintro rfl
      rw [escape_backslash] at hd
      cases hd
    rw [resolve_kept hd,resolve_cons hne] at hw
    rw [isPlainRest,if_pos (beq_self_eq_true _)]
    refine Bool.and_eq_true_iff.mpr ⟨Option.isNone_iff_eq_none.mpr hd,ih ?_ ?_⟩
    · obtain ⟨h1,h2⟩ := Prod.mk.inj h
      exact Prod.ext (List.cons.inj (List.cons.inj h1).2).2 h2
    · exact (List.cons.inj (List.cons.inj hw).2).2
  | case4 c d r hc ih =>
    have hne : c ≠ 92 := fun he => hc (beq_iff_eq.mpr he)
    rw [resolve_cons hne] at hw
    rw [isPlainRest,if_neg hc]
    cases hd : isDelim c with
    | true =>
      rw [List.cons_append,scanBare_nil (s := c :: (d :: r ++ rest)) hd] at h
      cases h
    | false =>
      rw [List.cons_append,scanBare_cons hne hd] at h
      obtain ⟨h1,h2⟩ := Prod.mk.inj h
      exact ih (Prod.ext (List.cons.inj h1).2 h2) (List.cons.inj hw).2

end Plain

section Quoted

/-- A backslash stands before each double quote and each backslash. -/
def escapeAll (s : Bytes) : Bytes := s.flatMap (fun c => if c == 92 || c == 34 then [92,c] else [c])

theorem escapeAll_special (h : c = 92 ∨ c = 34) (s : Bytes) : escapeAll (c :: s) = 92 :: c :: escapeAll s := by
  rcases h with rfl | rfl
  · rfl
  · rfl

theorem escapeAll_cons (h : c ≠ 92) (h' : c ≠ 34) (s : Bytes) : escapeAll (c :: s) = c :: escapeAll s := by
  rw [escapeAll,List.flatMap_cons,if_neg (by simp [h,h'])]
  rfl

theorem escape_special (h : c = 92 ∨ c = 34) : escape c = some c := by
  rcases h with rfl | rfl
  · rfl
  · rfl

/-- Each backslash of the escaped word is resolved, whatever follows. -/
theorem resolve_escapeAll (w s : Bytes) : resolve (escapeAll w ++ s) = w ++ resolve s := by
  induction w with
  | nil => rfl
  | cons c w ih =>
    by_cases h : c = 92 ∨ c = 34
    · rw [escapeAll_special h,List.cons_append,List.cons_append,resolve_escape (escape_special h),ih]
      rfl
    · rw [not_or] at h
      rw [escapeAll_cons h.1 h.2,List.cons_append,resolve_cons h.1,ih]
      rfl

theorem scanQuoted_special (q : UInt8) (d : UInt8) (s : Bytes) :
    scanQuoted q (92 :: d :: s) = (scanQuoted q s).map (fun p => (92 :: d :: p.1,p.2)) := by
  rw [scanQuoted,if_pos (beq_self_eq_true _)]

theorem scanQuoted_close {q : UInt8} (hq : q ≠ 92) (s : Bytes) : scanQuoted q (q :: s) = some ([],s) := by
  cases s with
  | nil => rw [scanQuoted,if_pos (beq_self_eq_true _)]
  | cons d s => rw [scanQuoted,if_neg (by simpa using hq),if_pos (beq_self_eq_true _)]

theorem scanQuoted_other {q : UInt8} (hc : c ≠ 92) (hq : c ≠ q) (s : Bytes) :
    scanQuoted q (c :: s) = (scanQuoted q s).map (fun p => (c :: p.1,p.2)) := by
  cases s with
  | nil =>
    change scanQuoted q [c] = none
    rw [scanQuoted,if_neg (by simpa using hq)]
  | cons d s => rw [scanQuoted,if_neg (by simpa using hc),if_neg (by simpa using hq)]

/-- The escaped word ends at the quote behind it. -/
theorem scanQuoted_escapeAll (w rest : Bytes) : scanQuoted 34 (escapeAll w ++ 34 :: rest) = some (escapeAll w,rest) := by
  induction w with
  | nil => exact scanQuoted_close (by decide) rest
  | cons c w ih =>
    by_cases h : c = 92 ∨ c = 34
    · rw [escapeAll_special h,List.cons_append,List.cons_append,scanQuoted_special,ih]
      rfl
    · rw [not_or] at h
      rw [escapeAll_cons h.1 h.2,List.cons_append,scanQuoted_other h.1 h.2,ih]
      rfl

end Quoted

section Valid

theorem utf8Valid_resolve (h : utf8Valid s = true) : utf8Valid (resolve s) = true := by
  induction hn : s.length using Nat.strongRecOn generalizing s with
  | ind n ih =>
    cases s with
    | nil => rfl
    | cons c s =>
      rw [List.length_cons] at hn
      rcases utf8Valid_cons h with ⟨hc,hs⟩ | ⟨r,t,rfl,hc,-,hr,hcr,ht⟩
      · by_cases hb : c = 92
        · cases s with
          | nil => exact h
          | cons d s =>
            rw [List.length_cons] at hn
            cases he : escape d with
            | none =>
              rw [hb,resolve_kept he,utf8Valid_cons_ascii (by decide)]
              exact ih (s.length + 1) (by omega) hs rfl
            | some e =>
              have hde : d < 0x80 ∧ e < 0x80 := by
                unfold escape at he
                split at he
                · rename_i hd
                  cases he
                  simp only [Bool.or_eq_true,beq_iff_eq] at hd
                  rcases hd with (rfl | rfl) | rfl
                  all_goals decide
                · split at he
                  · rename_i hd
                    cases he
                    rw [beq_iff_eq.mp hd]
                    decide
                  · split at he
                    · rename_i hd
                      cases he
                      rw [beq_iff_eq.mp hd]
                      decide
                    · split at he
                      · rename_i hd
                        cases he
                        rw [beq_iff_eq.mp hd]
                        decide
                      · cases he
              rw [utf8Valid_cons_ascii hde.1] at hs
              rw [hb,resolve_escape he,utf8Valid_cons_ascii hde.2]
              exact ih s.length (by omega) hs rfl
        · rw [resolve_cons hb,utf8Valid_cons_ascii hc]
          exact ih s.length (by omega) hs rfl
      · rw [List.length_append] at hn
        have hkeep : ∀ r : Bytes, (∀ d ∈ r, isCont d = true) → resolve (r ++ t) = r ++ resolve t := by
          intro r hr
          induction r with
          | nil => rfl
          | cons d r ihr =>
            have hd : d ≠ 92 := by
              rintro rfl
              exact absurd (hr 92 List.mem_cons_self) (by decide)
            rw [List.cons_append,resolve_cons hd,ihr (fun e he => hr e (List.mem_cons_of_mem _ he))]
            rfl
        have hb : c ≠ 92 := by
          rintro rfl
          exact hc (by decide)
        rw [resolve_cons hb,hkeep r hr,← List.cons_append]
        exact utf8Valid_append hcr (ih t.length (by omega) ht rfl)

theorem unescape_of_valid (h : utf8Valid s = true) : unescape s = resolve s := by
  rw [unescape_eq,utf8Lossy_of_valid (utf8Valid_resolve h)]

end Valid

end OxiServe.Config.Lexer
