import Mathlib.Data.Nat.Count
import Mathlib.Tactic.Ring

/-! # Slots taken in turn

Rounds of `W` slots are gone through one slot a turn, and a counter that wraps says
whose turn it is. What a party with the slots from `a` on gets of a run of turns is
counted, also when the counter wraps within the run.
-/
namespace OxiServe.Slots
variable {W a w n r q s M : ℕ}

/-- How often the first `n` turns fall on the `w` slots from `a` on. -/
def turns (W a w n : ℕ) : ℕ := n / W * w + min (n % W - a) w

/-- The turn is on one of the slots. -/
def On (W a w n : ℕ) : Prop := a ≤ n % W ∧ n % W < a + w

instance : DecidablePred (On W a w) := fun _ => inferInstanceAs (Decidable (_ ∧ _))

theorem exists_round (hW : 0 < W) (n : ℕ) : ∃ q r, r < W ∧ n = q * W + r :=
  ⟨n / W,n % W,Nat.mod_lt n hW,(Nat.div_add_mod' n W).symm⟩

theorem turns_round (hr : r < W) : turns W a w (q * W + r) = q * w + min (r - a) w := by
  have hdiv : (q * W + r) / W = q := by
    rw [Nat.mul_comm,Nat.mul_add_div (Nat.zero_lt_of_lt hr),Nat.div_eq_of_lt hr,Nat.add_zero]
  unfold turns
  rw [hdiv,Nat.mul_add_mod_self_right,Nat.mod_eq_of_lt hr]

theorem on_round (hr : r < W) : On W a w (q * W + r) ↔ a ≤ r ∧ r < a + w := by
  unfold On
  rw [Nat.mul_add_mod_self_right,Nat.mod_eq_of_lt hr]

theorem turns_lt (h : n < W) : turns W a w n = min (n - a) w := by
  have hround := @turns_round W a w n 0 h
  simpa using hround

/-- A whole round is worth all of the slots. -/
theorem turns_add_round (hW : 0 < W) : turns W a w (n + W) = turns W a w n + w := by
  obtain ⟨q,r,hr,rfl⟩ := exists_round hW n
  have hnext : q * W + r + W = (q + 1) * W + r := by ring
  rw [hnext,turns_round hr,turns_round hr,Nat.succ_mul]
  omega

theorem turns_succ (ha : a + w ≤ W) (hW : 0 < W) :
    turns W a w (n + 1) = turns W a w n + if On W a w n then 1 else 0 := by
  obtain ⟨q,r,hr,rfl⟩ := exists_round hW n
  simp only [on_round hr]
  rcases Nat.lt_or_ge (r + 1) W with h | h
  · rw [Nat.add_assoc,turns_round h,turns_round hr]
    split <;> omega
  · have hlast : r + 1 = W := by omega
    have hnext : q * W + r + 1 = (q + 1) * W + 0 := by
      rw [Nat.add_assoc,hlast,Nat.succ_mul,Nat.add_zero]
    rw [hnext,turns_round hW,turns_round hr,Nat.succ_mul]
    split <;> omega

theorem count_on (ha : a + w ≤ W) (hW : 0 < W) (n : ℕ) : Nat.count (On W a w) n = turns W a w n := by
  induction n with
  | zero => rw [Nat.count_zero,turns_lt hW,Nat.zero_sub,Nat.zero_min]
  | succ n ih => rw [Nat.count_succ,ih,turns_succ ha hW]

theorem count_on_from (ha : a + w ≤ W) (hW : 0 < W) (s n : ℕ) :
    turns W a w s + Nat.count (fun k => On W a w (s + k)) n = turns W a w (s + n) := by
  rw [← count_on ha hW s,← count_on ha hW (s + n),Nat.count_add]

theorem count_congr {p p' : ℕ → Prop} [DecidablePred p] [DecidablePred p'] (h : ∀ k < n, p k ↔ p' k) :
    Nat.count p n = Nat.count p' n :=
  Nat.le_antisymm (Nat.count_mono_left fun k hk => (h k hk).mp) (Nat.count_mono_left fun k hk => (h k hk).mpr)

/-- The round of turns from `s` on leaves each party its slots, though the counter wraps
at `M`: it does not wrap within the round, or what is left out of one round there is put
back by the turns from zero on. -/
def Even (W a w M s : ℕ) : Prop :=
  s + W ≤ M ∨ turns W a w M + turns W a w (s + W - M) = turns W a w s + w

instance : Decidable (Even W a w M s) := inferInstanceAs (Decidable (_ ∨ _))

/-- A party gets as many turns of a round as it has slots just when the counter wraps evenly. -/
theorem count_wrapping_iff (ha : a + w ≤ W) (hW : 0 < W) (hs : s < M) (hM : W ≤ M) :
    Nat.count (fun k => On W a w ((s + k) % M)) W = w ↔ Even W a w M s := by
  rcases Nat.lt_or_ge M (s + W) with h | h
  · have hsplit : W = (M - s) + (s + W - M) := by omega
    have hbefore : Nat.count (fun k => On W a w ((s + k) % M)) (M - s) =
        Nat.count (fun k => On W a w (s + k)) (M - s) := by
      apply count_congr
      intro k hk
      rw [Nat.mod_eq_of_lt (by omega)]
    have hafter : Nat.count (fun k => On W a w ((s + ((M - s) + k)) % M)) (s + W - M) =
        Nat.count (On W a w) (s + W - M) := by
      apply count_congr
      intro k hk
      have hwrap : s + (M - s + k) = k + M := by omega
      rw [hwrap,Nat.add_mod_right,Nat.mod_eq_of_lt (by omega)]
    have hfrom := count_on_from ha hW s (M - s)
    rw [Nat.add_sub_cancel' (Nat.le_of_lt hs)] at hfrom
    have hall : Nat.count (fun k => On W a w ((s + k) % M)) W =
        Nat.count (fun k => On W a w (s + k)) (M - s) + turns W a w (s + W - M) := by
      rw [← hbefore,← count_on ha hW (s + W - M),← hafter,← Nat.count_add,← hsplit]
    rw [hall]
    unfold Even
    omega
  · have hplain : Nat.count (fun k => On W a w ((s + k) % M)) W = Nat.count (fun k => On W a w (s + k)) W := by
      apply count_congr
      intro k hk
      rw [Nat.mod_eq_of_lt (by omega)]
    have hfrom := count_on_from ha hW s W
    rw [turns_add_round hW] at hfrom
    rw [hplain]
    exact ⟨fun _ => Or.inl h,fun _ => by omega⟩

/-- Rounds that end with the counter are even. -/
theorem even_of_dvd (hW : 0 < W) (hd : W ∣ M) (hs : s < M) : Even W a w M s := by
  obtain ⟨m,rfl⟩ := hd
  obtain ⟨q,r,hr,rfl⟩ := exists_round hW s
  have hq : q < m := by
    apply Nat.lt_of_mul_lt_mul_left (a := W)
    rw [Nat.mul_comm W q]
    omega
  rcases Nat.lt_or_ge (q + 1) m with h | h
  · apply Or.inl
    have hle : (q + 1 + 1) * W ≤ m * W := Nat.mul_le_mul_right W h
    rw [Nat.succ_mul,Nat.succ_mul] at hle
    rw [Nat.mul_comm W m]
    omega
  · obtain rfl : m = q + 1 := by omega
    apply Or.inr
    have hrest : q * W + r + W - W * (q + 1) = r := by
      rw [Nat.mul_comm W,Nat.succ_mul]
      omega
    have hend : W * (q + 1) = (q + 1) * W + 0 := by ring
    rw [hrest,hend,turns_round hW,turns_round hr,turns_lt hr,Nat.succ_mul]
    omega

/-- A party that has all of the slots gets all of the turns. -/
theorem even_of_all (hW : 0 < W) : Even W 0 W M s := by
  have hall : ∀ n, turns W 0 W n = n := by
    intro n
    have hlt := Nat.mod_lt n hW
    unfold turns
    rw [Nat.sub_zero,Nat.min_eq_left (Nat.le_of_lt hlt)]
    exact Nat.div_add_mod' n W
  unfold Even
  rw [hall,hall,hall]
  omega

/-- The party with the last slots misses a turn when the counter wraps just after them,
unless it has all the slots or rounds end with the counter. -/
theorem not_even_last (ha : a + w = W) (ha' : 0 < a) (hw : 0 < w) (hM : W ≤ M) (hd : ¬ W ∣ M) :
    ¬ Even W a w M (M - w) := by
  have hW : 0 < W := by omega
  obtain ⟨q,r,hr,rfl⟩ := exists_round hW M
  have hr0 : r ≠ 0 := by
    rintro rfl
    exact hd ⟨q,by ring⟩
  cases q with
  | zero => omega
  | succ q =>
    have hrest : (q + 1) * W + r - w + W - ((q + 1) * W + r) = a := by
      rw [Nat.succ_mul]
      omega
    unfold Even
    rw [hrest,turns_lt (by omega : a < W),turns_round hr,Nat.sub_self,Nat.zero_min,Nat.add_zero]
    rintro (h | h)
    · rw [Nat.succ_mul] at h
      omega
    · rcases Nat.lt_or_ge r w with hrw | hrw
      · have hstart : (q + 1) * W + r - w = q * W + (r + a) := by
          rw [Nat.succ_mul]
          omega
        rw [hstart,turns_round (by omega),Nat.succ_mul] at h
        omega
      · have hstart : (q + 1) * W + r - w = (q + 1) * W + (r - w) := Nat.add_sub_assoc hrw _
        rw [hstart,turns_round (by omega)] at h
        omega

end OxiServe.Slots
