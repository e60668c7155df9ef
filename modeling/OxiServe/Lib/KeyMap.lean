import Mathlib.Data.List.Nodup
import Mathlib.Data.List.Sort
import Mathlib.Data.List.Perm.Subperm

/-! # Finite maps with an iteration order

A map is its list of entries together with the proof that no key is listed
twice. Lookups decide every statement about a map except its counts, which are
taken over the entries.
-/
namespace OxiServe

structure KeyMap (κ α : Type*) where
  entries : List (κ × α)
  nodup : (entries.map Prod.fst).Nodup

namespace KeyMap
variable {κ α : Type*} [DecidableEq κ]

omit [DecidableEq κ] in
@[ext] theorem ext {m n : KeyMap κ α} (h : m.entries = n.entries) : m = n := by
  cases m
  cases n
  cases h
  rfl

def empty : KeyMap κ α := ⟨[],List.nodup_nil⟩

def get? (m : KeyMap κ α) (k : κ) : Option α := (m.entries.find? (fun e => e.1 = k)).map Prod.snd

def mapVals (m : KeyMap κ α) (f : κ → α → α) : KeyMap κ α where
  entries := m.entries.map (fun e => (e.1,f e.1 e.2))
  nodup := by
    rw [List.map_map]
    exact m.nodup

def modify (m : KeyMap κ α) (k : κ) (f : α → α) : KeyMap κ α :=
  m.mapVals (fun j a => if j = k then f a else a)

def retain (m : KeyMap κ α) (p : κ → α → Bool) : KeyMap κ α where
  entries := m.entries.filter (fun e => p e.1 e.2)
  nodup := m.nodup.sublist (List.filter_sublist.map _)

def insert (m : KeyMap κ α) (k : κ) (a : α) : KeyMap κ α where
  entries := (m.retain (fun j _ => j ≠ k)).entries ++ [(k,a)]
  nodup := by
    rw [List.map_append,List.nodup_append]
    refine ⟨(m.retain _).nodup,List.nodup_singleton _,?_⟩
    intro j hj i hi
    obtain ⟨e,he,rfl⟩ := List.mem_map.mp hj
    obtain rfl : i = k := by simpa using hi
    simpa using (List.mem_filter.mp he).2

def size (m : KeyMap κ α) : ℕ := m.entries.length

def count (m : KeyMap κ α) (p : κ → α → Bool) : ℕ := m.entries.countP (fun e => p e.1 e.2)

section Lookup

theorem get?_eq_some_iff {m : KeyMap κ α} {k : κ} {a : α} :
    m.get? k = some a ↔ (k,a) ∈ m.entries := by
  rcases m with ⟨es,hn⟩
  simp only [get?]
  induction es with
  | nil => simp
  | cons e es ih =>
    rcases e with ⟨j,b⟩
    simp only [List.map_cons,List.nodup_cons] at hn
    by_cases hj : j = k
    · subst hj
      have hno : (j,a) ∉ es := fun h => hn.1 (List.mem_map.mpr ⟨_,h,rfl⟩)
      simp [hno,eq_comm]
    · rw [List.find?_cons_of_neg (by simpa using hj),ih hn.2]
      simp [Ne.symm hj]

@[simp] theorem get?_empty (k : κ) : (empty : KeyMap κ α).get? k = none := rfl

theorem get?_mapVals (m : KeyMap κ α) (f : κ → α → α) (k : κ) :
    (m.mapVals f).get? k = (m.get? k).map (f k) := by
  ext a
  simp only [get?_eq_some_iff,mapVals,Option.map_eq_some_iff,List.mem_map]
  constructor
  · rintro ⟨⟨j,b⟩,hb,he⟩
    cases he
    exact ⟨b,hb,rfl⟩
  · rintro ⟨b,hb,rfl⟩
    exact ⟨(k,b),hb,rfl⟩

theorem get?_modify (m : KeyMap κ α) (k j : κ) (f : α → α) :
    (m.modify k f).get? j = if j = k then (m.get? j).map f else m.get? j := by
  rw [modify,get?_mapVals]
  by_cases h : j = k
  · simp [h]
  · simp [h]

theorem get?_retain (m : KeyMap κ α) (p : κ → α → Bool) (k : κ) :
    (m.retain p).get? k = (m.get? k).filter (p k) := by
  ext a
  simp only [get?_eq_some_iff,retain,Option.filter_eq_some_iff,List.mem_filter]

theorem get?_insert (m : KeyMap κ α) (k j : κ) (a : α) :
    (m.insert k a).get? j = if j = k then some a else m.get? j := by
  ext b
  rw [get?_eq_some_iff]
  simp only [insert,retain,List.mem_append,List.mem_filter,List.mem_singleton,Prod.mk.injEq]
  by_cases h : j = k
  · simp [h,eq_comm]
  · simp [h,get?_eq_some_iff]

theorem retain_of_none {m : KeyMap κ α} {k : κ} (h : m.get? k = none) : m.retain (fun j _ => j ≠ k) = m := by
  refine ext (List.filter_eq_self.mpr (fun e he => decide_eq_true (fun hk => ?_)))
  have := get?_eq_some_iff.mpr (hk ▸ he : (k,e.2) ∈ m.entries)
  rw [h] at this
  cases this

end Lookup

section Count

omit [DecidableEq κ] in
@[simp] theorem size_mapVals (m : KeyMap κ α) (f : κ → α → α) : (m.mapVals f).size = m.size := by
  simp [size,mapVals]

@[simp] theorem size_modify (m : KeyMap κ α) (k : κ) (f : α → α) : (m.modify k f).size = m.size :=
  size_mapVals m _

omit [DecidableEq κ] in
theorem count_mapVals (m : KeyMap κ α) (f : κ → α → α) (p : κ → α → Bool) :
    (m.mapVals f).count p = m.count (fun k a => p k (f k a)) := by
  simp only [count,mapVals,List.countP_map]
  rfl

theorem count_mono {m : KeyMap κ α} {p q : κ → α → Bool}
    (h : ∀ k a, m.get? k = some a → p k a = true → q k a = true) : m.count p ≤ m.count q := by
  apply List.countP_mono_left
  rintro ⟨k,a⟩ he hp
  exact h k a (get?_eq_some_iff.mpr he) hp

omit [DecidableEq κ] in
theorem count_retain_le (m : KeyMap κ α) (p q : κ → α → Bool) : (m.retain q).count p ≤ m.count p :=
  List.filter_sublist.countP_le

theorem count_insert_le (m : KeyMap κ α) (k : κ) (a : α) (p : κ → α → Bool) :
    (m.insert k a).count p ≤ m.count p + 1 := by
  have h := count_retain_le m p (fun j _ => j ≠ k)
  simp only [count,insert,List.countP_append] at h ⊢
  have h1 := List.countP_le_length (p := fun e : κ × α => p e.1 e.2) (l := [(k,a)])
  simp only [List.length_cons,List.length_nil] at h1
  omega

theorem size_insert_le (m : KeyMap κ α) (k : κ) (a : α) : (m.insert k a).size ≤ m.size + 1 := by
  simp only [size,insert,retain,List.length_append,List.length_cons,List.length_nil]
  have h := List.length_filter_le (fun e : κ × α => decide (e.1 ≠ k)) m.entries
  omega

theorem size_insert_of_none {m : KeyMap κ α} {k : κ} (h : m.get? k = none) (a : α) :
    (m.insert k a).size = m.size + 1 := by
  unfold size insert
  dsimp only
  rw [retain_of_none h,List.length_append,List.length_singleton]

theorem size_eq_count {m : KeyMap κ α} {p : κ → α → Bool}
    (h : ∀ k a, m.get? k = some a → p k a = true) : m.size = m.count p := by
  rw [size,count,eq_comm,List.countP_eq_length]
  rintro ⟨k,a⟩ he
  exact h k a (get?_eq_some_iff.mpr he)

theorem count_eq_zero {m : KeyMap κ α} {p : κ → α → Bool}
    (h : ∀ k a, m.get? k = some a → p k a = false) : m.count p = 0 := by
  rw [count,List.countP_eq_zero]
  rintro ⟨k,a⟩ he
  simpa using h k a (get?_eq_some_iff.mpr he)

/-- Distinct keys with the property number at most its count. -/
theorem length_le_count {m : KeyMap κ α} {p : κ → α → Bool} {ks : List κ} (hn : ks.Nodup)
    (h : ∀ k ∈ ks, ∃ a, m.get? k = some a ∧ p k a = true) : ks.length ≤ m.count p := by
  have hsub : ks ⊆ (m.entries.filter (fun e => p e.1 e.2)).map Prod.fst := by
    intro k hk
    obtain ⟨a,ha,hp⟩ := h k hk
    exact List.mem_map.mpr ⟨(k,a),List.mem_filter.mpr ⟨get?_eq_some_iff.mp ha,hp⟩,rfl⟩
  have hle := (List.subperm_of_subset hn hsub).length_le
  rwa [List.length_map,← List.countP_eq_length_filter] at hle

theorem count_insert_of_none {m : KeyMap κ α} {k : κ} (h : m.get? k = none) (a : α) (p : κ → α → Bool) :
    (m.insert k a).count p = m.count p + (p k a).toNat := by
  unfold count insert
  dsimp only
  rw [retain_of_none h,List.countP_append,List.countP_singleton]
  cases p k a with
  | true => rfl
  | false => rfl

/-- Dropping keys that have the property takes as many from its count. -/
theorem count_drop {m : KeyMap κ α} {p : κ → α → Bool} {q : κ → Bool} {ks : List κ} (hn : ks.Nodup)
    (h : ∀ k ∈ ks, ∃ a, m.get? k = some a ∧ p k a = true) (hq : ∀ k, q k = true ↔ k ∉ ks) :
    (m.retain (fun k _ => q k)).count p + ks.length = m.count p := by
  have hperm : ((m.entries.filter (fun e => p e.1 e.2 && !q e.1)).map Prod.fst).Perm ks := by
    refine (List.perm_ext_iff_of_nodup (m.nodup.sublist (List.filter_sublist.map _)) hn).mpr (fun k => ?_)
    rw [List.mem_map]
    constructor
    · rintro ⟨e,he,rfl⟩
      obtain ⟨-,hp⟩ := List.mem_filter.mp he
      rw [Bool.and_eq_true,Bool.not_eq_true'] at hp
      by_contra hk
      rw [(hq e.1).mpr hk] at hp
      exact absurd hp.2 (by decide)
    · intro hk
      obtain ⟨a,ha,hp⟩ := h k hk
      refine ⟨(k,a),List.mem_filter.mpr ⟨get?_eq_some_iff.mp ha,?_⟩,rfl⟩
      rw [hp,Bool.eq_false_iff.mpr (fun hkq => (hq k).mp hkq hk)]
      rfl
  have hlen := hperm.length_eq
  rw [List.length_map] at hlen
  rw [← hlen,count,count,retain,List.countP_filter,← List.countP_eq_length_filter]
  have hsplit := List.countP_eq_countP_filter_add m.entries (fun e => p e.1 e.2) (fun e => q e.1)
  rw [List.countP_filter,List.countP_filter] at hsplit
  rw [hsplit]

end Count

end KeyMap

end OxiServe
