import Mathlib.Data.List.Basic

/-! # Steps in turn

The steps of a sequence change a state one after another, up to the one that ends
the sequence and says how.
-/
namespace OxiServe
variable {α β σ ε : Type} {run : α → σ → σ × Option ε} {as bs : List α} {s t : σ}

def inTurn (run : α → σ → σ × Option ε) : List α → σ → σ × Option ε
  | [], s => (s,none)
  | a :: as, s =>
    match run a s with
    | (t,none) => inTurn run as t
    | (t,some e) => (t,some e)

theorem inTurn_cons_goes {a : α} (h : run a s = (t,none)) : inTurn run (a :: as) s = inTurn run as t := by
  rw [inTurn,h]

theorem inTurn_cons_ends {a : α} {e : ε} (h : run a s = (t,some e)) :
    inTurn run (a :: as) s = (t,some e) := by
  rw [inTurn,h]

theorem inTurn_append_goes (h : inTurn run as s = (t,none)) :
    inTurn run (as ++ bs) s = inTurn run bs t := by
  induction as generalizing s with
  | nil =>
    cases h
    rfl
  | cons a as ih =>
    rw [List.cons_append,inTurn]
    rw [inTurn] at h
    rcases hr : run a s with ⟨u,_ | e⟩
    · rw [hr] at h
      exact ih h
    · rw [hr] at h
      cases h

theorem inTurn_append_ends {e : ε} (h : inTurn run as s = (t,some e)) :
    inTurn run (as ++ bs) s = (t,some e) := by
  induction as generalizing s with
  | nil => cases h
  | cons a as ih =>
    rw [List.cons_append,inTurn]
    rw [inTurn] at h
    rcases hr : run a s with ⟨u,_ | d⟩
    · rw [hr] at h
      exact ih h
    · rw [hr] at h
      exact h

/-- Steps that do nothing may be left out. -/
theorem inTurn_idle (h : ∀ a ∈ as, run a s = (s,none)) : inTurn run as s = (s,none) := by
  induction as with
  | nil => rfl
  | cons a as ih =>
    rw [inTurn_cons_goes (h a List.mem_cons_self)]
    exact ih (fun b hb => h b (List.mem_cons_of_mem _ hb))

/-- What every step keeps is kept, however the sequence ends. -/
theorem inTurn_keeps {P : σ → Prop} (h : ∀ a ∈ as, ∀ s, P s → P (run a s).1) (hs : P s) :
    P (inTurn run as s).1 := by
  induction as generalizing s with
  | nil => exact hs
  | cons a as ih =>
    have ha := h a List.mem_cons_self s hs
    rcases hr : run a s with ⟨u,_ | e⟩
    · rw [hr] at ha
      rw [inTurn_cons_goes hr]
      exact ih (fun b hb => h b (List.mem_cons_of_mem _ hb)) ha
    · rw [hr] at ha
      rw [inTurn_cons_ends hr]
      exact ha

/-- A sequence ends the way one of its steps does. -/
theorem inTurn_end {P : ε → Prop} (h : ∀ a ∈ as, ∀ s t e, run a s = (t,some e) → P e) {e : ε}
    (he : inTurn run as s = (t,some e)) : P e := by
  induction as generalizing s with
  | nil => cases he
  | cons a as ih =>
    rcases hr : run a s with ⟨u,_ | d⟩
    · rw [inTurn_cons_goes hr] at he
      exact ih (fun b hb => h b (List.mem_cons_of_mem _ hb)) he
    · rw [inTurn_cons_ends hr] at he
      cases he
      exact h a List.mem_cons_self _ _ _ hr

end OxiServe
