import OxiServe.Lib.Slots
import OxiServe.Server.Balance

/-! # Weighted round robin

A candidate takes as many slots as it weighs, and the cursor goes through the slots. It
is cut to 32 bits first, so that a round that crosses a multiple of `2 ^ 32` breaks off
and starts again at the first slot.
-/
namespace OxiServe.Server
open Slots

namespace Group

/-- `c.wrapping_add(1)` of the counter that is kept for the group. -/
def nextCursor (c : ℕ) : ℕ := (c + 1) % 2 ^ 64

variable (g : Group) (l : List ℕ) (hash : Option UInt64) (start : UInt64)

def slots : ℕ := (l.map g.weightOf).sum

def firstSlot : List ℕ → ℕ → ℕ
  | [], _ => 0
  | j :: rest, i => if j = i then 0 else g.weightOf j + firstSlot rest i

/-- In a round of consecutive cursors each candidate is picked as often as it weighs, and
the weights are added up without overflow. -/
structure ExactRound : Prop where
  noOverflow : g.slots l < 2 ^ 32
  share : ∀ i ∈ l,
    Nat.count (fun k => g.pickFrom l hash (nextCursor^[k] start.toNat) = some i) (g.slots l) = g.weightOf i

variable {g l hash start} {i slot : ℕ}

theorem weightOf_pos (g : Group) (i : ℕ) : 0 < g.weightOf i := Nat.le_max_right _ _

theorem iterate_nextCursor (start : UInt64) (k : ℕ) : nextCursor^[k] start.toNat = (start.toNat + k) % 2 ^ 64 := by
  induction k with
  | zero => exact (Nat.mod_eq_of_lt start.toNat_lt).symm
  | succ k ih => rw [Function.iterate_succ_apply',ih,nextCursor,Nat.mod_add_mod,Nat.add_assoc]

theorem slots_cons (g : Group) (j : ℕ) (l : List ℕ) : g.slots (j :: l) = g.weightOf j + g.slots l := by
  simp only [slots,List.map_cons,List.sum_cons]

theorem firstSlot_add_le (hi : i ∈ l) : g.firstSlot l i + g.weightOf i ≤ g.slots l := by
  induction l with
  | nil => cases hi
  | cons j l ih =>
    rw [slots_cons]
    simp only [firstSlot]
    split
    · rename_i hji
      rw [hji]
      omega
    · rename_i hji
      have hrest := ih ((List.mem_cons.mp hi).resolve_left (Ne.symm hji))
      omega

theorem slotPeer_isSome (h : slot < g.slots l) : (g.slotPeer l slot).isSome := by
  induction l generalizing slot with
  | nil => simp [slots] at h
  | cons j l ih =>
    rw [slots_cons] at h
    simp only [slotPeer]
    split
    · rfl
    · apply ih
      omega

/-- A candidate has its own slots and no others. -/
theorem slotPeer_eq_some_iff (hn : l.Nodup) (hi : i ∈ l) :
    g.slotPeer l slot = some i ↔ g.firstSlot l i ≤ slot ∧ slot < g.firstSlot l i + g.weightOf i := by
  induction l generalizing slot with
  | nil => cases hi
  | cons j l ih =>
    obtain ⟨hj,hn⟩ := List.nodup_cons.mp hn
    simp only [slotPeer,firstSlot]
    by_cases hji : j = i
    · subst hji
      rw [if_pos rfl]
      split
      · rename_i hlt
        exact ⟨fun _ => ⟨Nat.zero_le _,by omega⟩,fun _ => rfl⟩
      · rename_i hge
        constructor
        · intro h
          exact absurd (slotPeer_mem h) hj
        · rintro ⟨-,h⟩
          omega
    · have hil := (List.mem_cons.mp hi).resolve_left (Ne.symm hji)
      rw [if_neg hji]
      split
      · rename_i hlt
        constructor
        · intro h
          exact absurd (Option.some.inj h) hji
        · rintro ⟨h,-⟩
          omega
      · rw [ih hn hil]
        omega

/-- A cursor is on the slots of the candidate it picks. -/
theorem pickFrom_eq_some_iff (hm : g.method = .roundRobin) (hn : l.Nodup) (hW : g.slots l < 2 ^ 32) (hi : i ∈ l)
    (c : ℕ) :
    g.pickFrom l hash c = some i ↔ On (g.slots l) (g.firstSlot l i) (g.weightOf i) (c % 2 ^ 32) := by
  have hle := firstSlot_add_le (g := g) hi
  have hpos := weightOf_pos g i
  have hsum : (l.map g.weightOf).sum = g.slots l := rfl
  have hlt : c % 2 ^ 32 % g.slots l < g.slots l := Nat.mod_lt _ (by omega)
  obtain ⟨j,hj⟩ := Option.isSome_iff_exists.mp (slotPeer_isSome hlt)
  simp only [pickFrom,hm,hsum,Nat.mod_eq_of_lt hW,Nat.max_eq_left (show 1 ≤ g.slots l by omega)]
  rw [hj,Option.some_or,← hj,slotPeer_eq_some_iff hn hi,On]

theorem count_picks (hm : g.method = .roundRobin) (hn : l.Nodup) (hW : g.slots l < 2 ^ 32) (hi : i ∈ l) :
    Nat.count (fun k => g.pickFrom l hash (nextCursor^[k] start.toNat) = some i) (g.slots l) =
      Nat.count (fun k => On (g.slots l) (g.firstSlot l i) (g.weightOf i) ((start.toNat % 2 ^ 32 + k) % 2 ^ 32))
        (g.slots l) := by
  apply count_congr
  intro k _
  rw [pickFrom_eq_some_iff hm hn hW hi,iterate_nextCursor,Nat.mod_mod_of_dvd _ (by decide : 2 ^ 32 ∣ 2 ^ 64),
    Nat.mod_add_mod]

theorem share_iff (hm : g.method = .roundRobin) (hn : l.Nodup) (hW : g.slots l < 2 ^ 32) (hi : i ∈ l) :
    Nat.count (fun k => g.pickFrom l hash (nextCursor^[k] start.toNat) = some i) (g.slots l) = g.weightOf i ↔
      Even (g.slots l) (g.firstSlot l i) (g.weightOf i) (2 ^ 32) (start.toNat % 2 ^ 32) := by
  have hle := firstSlot_add_le (g := g) hi
  have hpos := weightOf_pos g i
  rw [count_picks hm hn hW hi]
  exact count_wrapping_iff hle (by omega) (Nat.mod_lt _ (by decide)) (Nat.le_of_lt hW)

/-- A round is exact just when the weights fit and the cut cursor wraps evenly for each
candidate. -/
theorem exactRound_iff (hm : g.method = .roundRobin) (hn : l.Nodup) (hash : Option UInt64) (start : UInt64) :
    ExactRound g l hash start ↔
      g.slots l < 2 ^ 32 ∧
        ∀ i ∈ l, Even (g.slots l) (g.firstSlot l i) (g.weightOf i) (2 ^ 32) (start.toNat % 2 ^ 32) := by
  constructor
  · rintro ⟨hW,hs⟩
    exact ⟨hW,fun i hi => (share_iff hm hn hW hi).mp (hs i hi)⟩
  · rintro ⟨hW,he⟩
    exact ⟨hW,fun i hi => (share_iff hm hn hW hi).mpr (he i hi)⟩

/-- Two servers, the second of twice the weight. -/
def oneAndTwo : Group where
  up := ⟨[⟨lit "a:80",[]⟩,⟨lit "b:80",[]⟩],0,none⟩
  method := .roundRobin
  conf := fun i => if i = 0 then ⟨0,1,10000,false,false⟩ else ⟨2,1,10000,false,false⟩
  health := fun _ => PeerHealth.default

theorem oneAndTwo_exact :
    oneAndTwo.method = .roundRobin ∧ [0,1].Nodup ∧
      (ExactRound oneAndTwo [0,1] none 0xffffffff ↔
        oneAndTwo.slots [0,1] < 2 ^ 32 ∧ ∀ i ∈ [0,1], Even (oneAndTwo.slots [0,1]) (oneAndTwo.firstSlot [0,1] i)
          (oneAndTwo.weightOf i) (2 ^ 32) ((0xffffffff : UInt64).toNat % 2 ^ 32)) :=
  ⟨rfl,by decide,exactRound_iff rfl (by decide) none _⟩

/-- The round that starts with the last cursor of 32 bits gives the lighter server two
turns of three. -/
theorem oneAndTwo_uneven :
    Nat.count (fun k => oneAndTwo.pickFrom [0,1] none (nextCursor^[k] 0xffffffff) = some 0) 3 = 2 ∧
      ¬ ExactRound oneAndTwo [0,1] none 0xffffffff := by
  have htwo : Nat.count (fun k => oneAndTwo.pickFrom [0,1] none (nextCursor^[k] 0xffffffff) = some 0) 3 = 2 := by
    decide +kernel
  refine ⟨htwo,fun h => ?_⟩
  have hone := h.share 0 (by decide)
  exact absurd (htwo.symm.trans hone) (by decide)

theorem firstSlot_concat (hi : i ∉ l) : g.firstSlot (l ++ [i]) i = g.slots l := by
  induction l with
  | nil => simp only [List.nil_append,firstSlot,slots,List.map_nil,List.sum_nil,if_true]
  | cons j l ih =>
    rw [List.cons_append,slots_cons,firstSlot,if_neg (fun h => hi (List.mem_cons.mpr (Or.inl h.symm))),
      ih (fun h => hi (List.mem_cons_of_mem _ h))]

theorem slots_concat (g : Group) (l : List ℕ) (i : ℕ) : g.slots (l ++ [i]) = g.slots l + g.weightOf i := by
  simp only [slots,List.map_append,List.sum_append,List.map_singleton,List.sum_singleton]

theorem even_of_dvd_or_single (hd : g.slots l ∣ 2 ^ 32 ∨ l.length ≤ 1) (hi : i ∈ l) {s : ℕ} (hs : s < 2 ^ 32) :
    Even (g.slots l) (g.firstSlot l i) (g.weightOf i) (2 ^ 32) s := by
  have hle := firstSlot_add_le (g := g) hi
  have hpos := weightOf_pos g i
  rcases hd with hd | hone
  · exact even_of_dvd (by omega) hd hs
  · obtain ⟨j,rfl⟩ := List.length_eq_one_iff.mp (Nat.le_antisymm hone (List.length_pos_of_mem hi))
    obtain rfl := List.mem_singleton.mp hi
    have hall : g.slots [i] = g.weightOf i := by simp [slots]
    have hfirst : g.firstSlot [i] i = 0 := by simp only [firstSlot,if_true]
    rw [hall,hfirst]
    exact even_of_all hpos

/-- Rounds are exact from every cursor on just when the weights fit and rounds end with
the cut cursor, or there is nothing to share. -/
theorem exactRound_forall_iff (hm : g.method = .roundRobin) (hn : l.Nodup) (hash : Option UInt64) :
    (∀ start, ExactRound g l hash start) ↔ g.slots l < 2 ^ 32 ∧ (g.slots l ∣ 2 ^ 32 ∨ l.length ≤ 1) := by
  constructor
  · intro h
    refine ⟨(h 0).noOverflow,?_⟩
    apply Decidable.or_iff_not_imp_left.mpr
    intro hd
    rcases List.eq_nil_or_concat l with rfl | ⟨l,i,rfl⟩
    · exact Nat.zero_le _
    · rw [List.concat_eq_append] at h hn hd ⊢
      have hil : i ∉ l := fun hi => (List.nodup_append.mp hn).2.2 i hi i (List.mem_singleton_self i) rfl
      have hpos := weightOf_pos g i
      have hW := (h 0).noOverflow
      have hsum := slots_concat g l i
      apply Decidable.byContradiction
      intro hlen
      have hl : 0 < g.slots l := by
        cases l with
        | nil => exact absurd (Nat.le_refl 1) hlen
        | cons j l =>
          have hj := weightOf_pos g j
          rw [slots_cons]
          omega
      have hstart : (UInt64.ofNat (2 ^ 32 - g.weightOf i)).toNat % 2 ^ 32 = 2 ^ 32 - g.weightOf i := by
        rw [UInt64.toNat_ofNat',Nat.mod_eq_of_lt (by omega),Nat.mod_eq_of_lt (by omega)]
      have heven := (share_iff hm hn hW (by simp)).mp ((h (UInt64.ofNat (2 ^ 32 - g.weightOf i))).share i (by simp))
      rw [hstart,firstSlot_concat hil] at heven
      exact not_even_last hsum.symm hl hpos (Nat.le_of_lt hW) hd heven
  · rintro ⟨hW,hd⟩ start
    exact ⟨hW,fun i hi => (share_iff hm hn hW hi).mpr (even_of_dvd_or_single hd hi (Nat.mod_lt _ (by decide)))⟩

end Group
end OxiServe.Server
