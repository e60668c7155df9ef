import Mathlib.Algebra.Ring.Nat
import OxiServe.Lib.KeyMap
import Mathlib.Data.List.Induction

/-! # The index of the cache zones

A worker has one map for the entries of every zone. The name of the zone is a part of the
key. What a zone may hold is its own, but whether it is time to evict and how much goes is
read off the whole map, and a request that is noted inserts without asking.
-/
namespace OxiServe.Server.CacheIndex

structure Entry where
  expires : ℕ
  size : ℕ
  uses : ℕ
  lastUsed : ℕ
deriving DecidableEq, Repr

/-- The limits of the zones. The configuration makes them positive. -/
structure Zones (N : Type) where
  maxEntries : N → ℕ
  pos : ∀ z, 1 ≤ maxEntries z

abbrev Index (N H : Type) := KeyMap (N × H) Entry

/-- A call of one of the operations on the index, with what it finds out on the way: what
`load` decoded, expiry and size, what `store` wrote, and the order in which a zone's keys
come out of the map. -/
inductive Call (N H : Type)
  | noteUse (zone : N) (key : H) (now : ℕ)
  | load (zone : N) (key : H) (decoded : Option (ℕ × ℕ))
  | store (zone : N) (key : H) (written : Option ℕ) (now : ℕ) (order : H → ℕ)

def Call.zone {N H : Type} : Call N H → N
  | .noteUse z _ _ => z
  | .load z _ _ => z
  | .store z _ _ _ _ => z

section Operations
variable {N H : Type} [DecidableEq N] [DecidableEq H]

def orInsert (m : Index N H) (k : N × H) (now : ℕ) : Index N H :=
  match m.get? k with
  | some _ => m
  | none => m.insert k ⟨0,0,0,now⟩

def noteUse (m : Index N H) (zone : N) (key : H) (now : ℕ) : Index N H :=
  (orInsert m (zone,key) now).modify (zone,key)
    (fun e => { e with uses := min (e.uses + 1) (2 ^ 32 - 1), lastUsed := now })

def load (m : Index N H) (zone : N) (key : H) (decoded : Option (ℕ × ℕ)) : Index N H :=
  match decoded with
  | none => m
  | some (expires,size) => m.modify (zone,key) (fun e => { e with expires := expires, size := size })

/-- By last use, and as the map lists them where that is the same. -/
def victimLe (order : H → ℕ) (a b : (N × H) × ℕ) : Bool :=
  if a.2 = b.2 then decide (order a.1.2 ≤ order b.1.2) else decide (a.2 < b.2)

/-- The entries of a zone, the least recently used first. -/
def byAge (order : H → ℕ) (m : Index N H) (zone : N) : List (N × H) :=
  (((m.entries.filter (fun e => e.1.1 = zone)).map (fun e => (e.1,e.2.lastUsed))).mergeSort (victimLe order)).map
    Prod.fst

def victims (order : H → ℕ) (m : Index N H) (zone : N) : List (N × H) :=
  (byAge order m zone).take (max (m.size / 10) 1)

def evict (order : H → ℕ) (m : Index N H) (zone : N) : Index N H :=
  m.retain (fun k _ => k ∉ victims order m zone)

def store (zones : Zones N) (m : Index N H) (zone : N) (key : H) (written : Option ℕ) (now : ℕ) (order : H → ℕ) :
    Index N H :=
  match written with
  | none => m
  | some size =>
    let m := if m.size ≥ max (zones.maxEntries zone) 1 then evict order m zone else m
    (orInsert m (zone,key) now).modify (zone,key) (fun e => { e with size := size, lastUsed := now })

def call (zones : Zones N) (m : Index N H) : Call N H → Index N H
  | .noteUse z k now => noteUse m z k now
  | .load z k decoded => load m z k decoded
  | .store z k written now order => store zones m z k written now order

/-- The index a worker has after some calls. -/
def after (zones : Zones N) (cs : List (Call N H)) : Index N H := cs.foldl (call zones) .empty

/-- The entries of a zone. -/
def tracked (m : Index N H) (zone : N) : ℕ := m.count (fun k _ => k.1 = zone)

/-- The index of a worker in which the zone is the only one. -/
def alone (m : Index N H) (zone : N) : Index N H := m.retain (fun k _ => k.1 = zone)

/-- What a call evicts. -/
def evicted (zones : Zones N) (m : Index N H) : Call N H → List (N × H)
  | .store z _ (some _) _ order => if m.size ≥ max (zones.maxEntries z) 1 then victims order m z else []
  | _ => []

/-- What a call should leave as it is: no zone above its limit, the entries of other zones
untouched, and what goes the same as if there were no other zone. -/
structure Kept (zones : Zones N) (m : Index N H) (c : Call N H) : Prop where
  bounded : ∀ z, tracked (call zones m c) z ≤ zones.maxEntries z
  others : ∀ z k, z ≠ c.zone → (call zones m c).get? (z,k) = m.get? (z,k)
  own : ∀ k, k ∈ evicted zones m c ↔ k ∈ evicted zones (alone m c.zone) c

/-- How many entries a zone with this limit gives up in an index of `n`. -/
def dropCount (zones : Zones N) (zone : N) (n : ℕ) : ℕ :=
  if max (zones.maxEntries zone) 1 ≤ n then max (n / 10) 1 else 0

/-- A request is noted for a known key or with room left, and the entries of other zones do
not change how many are given up. -/
def Safe (zones : Zones N) (m : Index N H) : Call N H → Prop
  | .noteUse z k _ => (m.get? (z,k)).isSome = true ∨ tracked m z < zones.maxEntries z
  | .load _ _ _ => True
  | .store _ _ none _ _ => True
  | .store z _ (some _) _ _ =>
    min (tracked m z) (dropCount zones z m.size) = min (tracked m z) (dropCount zones z (tracked m z))

end Operations

section Entries
variable {N H : Type} [DecidableEq N] [DecidableEq H] {zones : Zones N} {m : Index N H} {z : N}

omit [DecidableEq H] in
theorem tracked_le_size (m : Index N H) (z : N) : tracked m z ≤ m.size := List.countP_le_length

@[simp] theorem tracked_modify (m : Index N H) (k : N × H) (f : Entry → Entry) (z : N) :
    tracked (m.modify k f) z = tracked m z := KeyMap.count_mapVals _ _ _

theorem tracked_orInsert (m : Index N H) (k : N × H) (now : ℕ) (z : N) :
    tracked (orInsert m k now) z = tracked m z + (decide ((m.get? k) = none ∧ k.1 = z)).toNat := by
  unfold orInsert
  cases h : m.get? k with
  | some e => simp
  | none =>
    have hc := KeyMap.count_insert_of_none h ⟨0,0,0,now⟩ (fun k _ => decide (k.1 = z))
    simp only [true_and]
    exact hc

theorem get?_orInsert {k j : N × H} (hj : j ≠ k) (now : ℕ) : (orInsert m k now).get? j = m.get? j := by
  unfold orInsert
  cases h : m.get? k with
  | some e => rfl
  | none => rw [KeyMap.get?_insert,if_neg hj]

omit [DecidableEq H] in
/-- The keys of a zone, in some order. -/
theorem byAge_perm (order : H → ℕ) (m : Index N H) (z : N) :
    (byAge order m z).Perm ((m.entries.filter (fun e => e.1.1 = z)).map Prod.fst) := by
  refine ((List.mergeSort_perm _ (victimLe order)).map Prod.fst).trans ?_
  rw [List.map_map]
  exact .refl _

omit [DecidableEq H] in
theorem byAge_nodup (order : H → ℕ) (m : Index N H) (z : N) : (byAge order m z).Nodup :=
  (byAge_perm order m z).nodup_iff.mpr (m.nodup.sublist (List.filter_sublist.map _))

omit [DecidableEq H] in
theorem byAge_length (order : H → ℕ) (m : Index N H) (z : N) : (byAge order m z).length = tracked m z := by
  rw [(byAge_perm order m z).length_eq,List.length_map,tracked,KeyMap.count,List.countP_eq_length_filter]

theorem mem_byAge {order : H → ℕ} {k : N × H} (h : k ∈ byAge order m z) : k.1 = z ∧ ∃ e, m.get? k = some e := by
  obtain ⟨e,he,rfl⟩ := List.mem_map.mp ((byAge_perm order m z).subset h)
  obtain ⟨hm,hz⟩ := List.mem_filter.mp he
  exact ⟨decide_eq_true_iff.mp hz,e.2,KeyMap.get?_eq_some_iff.mpr hm⟩

omit [DecidableEq H] in
/-- The other zones have no part in the order. -/
theorem byAge_alone (order : H → ℕ) (m : Index N H) (z : N) : byAge order (alone m z) z = byAge order m z := by
  unfold byAge alone KeyMap.retain
  dsimp only
  rw [List.filter_filter]
  simp only [Bool.and_self]

omit [DecidableEq H] in
theorem size_alone (m : Index N H) (z : N) : (alone m z).size = tracked m z := by
  rw [tracked,KeyMap.count,List.countP_eq_length_filter]
  rfl

/-- A zone loses as many entries as are to go, and no other zone loses any. -/
theorem tracked_evict (order : H → ℕ) (m : Index N H) (z y : N) :
    tracked (evict order m z) y = tracked m y - if y = z then min (tracked m z) (max (m.size / 10) 1) else 0 := by
  have hmem : ∀ k ∈ victims order m z, k.1 = z ∧ ∃ e, m.get? k = some e :=
    fun k hk => mem_byAge (List.mem_of_mem_take hk)
  have hnd : (victims order m z).Nodup := (byAge_nodup order m z).sublist (List.take_sublist _ _)
  by_cases hy : y = z
  · subst hy
    have hdrop := KeyMap.count_drop (p := fun k _ => decide (k.1 = y)) hnd
      (fun k hk => (hmem k hk).2.imp (fun e he => ⟨he,decide_eq_true (hmem k hk).1⟩))
      (fun k => decide_eq_true_iff (p := k ∉ victims order m y))
    rw [victims,List.length_take,byAge_length,Nat.min_comm] at hdrop
    rw [if_pos rfl]
    exact Nat.eq_sub_of_add_eq hdrop
  · rw [if_neg hy,Nat.sub_zero]
    have hfil : ∀ e ∈ m.entries, (decide (e.1.1 = y) && decide (e.1 ∉ victims order m z)) = decide (e.1.1 = y) := by
      intro e _
      by_cases he : e.1.1 = y
      · have hno : e.1 ∉ victims order m z := fun hk => hy (he.symm.trans (hmem e.1 hk).1)
        simp [hno]
      · simp [he]
    unfold tracked KeyMap.count evict KeyMap.retain
    dsimp only
    rw [List.countP_filter]
    exact List.countP_congr (fun e he => by rw [hfil e he])

theorem get?_evict (order : H → ℕ) {y : N} (hy : y ≠ z) (k : H) : (evict order m z).get? (y,k) = m.get? (y,k) := by
  have hno : (y,k) ∉ victims order m z := fun h => hy (mem_byAge (List.mem_of_mem_take h)).1
  rw [evict,KeyMap.get?_retain]
  cases m.get? (y,k) with
  | none => rfl
  | some e => exact if_pos (decide_eq_true hno)

end Entries

section Calls
variable {N H : Type} [DecidableEq N] [DecidableEq H] {zones : Zones N} {m : Index N H}

theorem tracked_noteUse (m : Index N H) (z y : N) (k : H) (now : ℕ) :
    tracked (noteUse m z k now) y = tracked m y + (decide (m.get? (z,k) = none ∧ z = y)).toNat := by
  rw [noteUse,tracked_modify,tracked_orInsert]

theorem tracked_load (m : Index N H) (z y : N) (k : H) (decoded : Option (ℕ × ℕ)) :
    tracked (load m z k decoded) y = tracked m y := by
  cases decoded with
  | none => rfl
  | some d => exact tracked_modify _ _ _ _

/-- What is written never makes a zone outgrow its limit. -/
theorem tracked_store (hb : ∀ y, tracked m y ≤ zones.maxEntries y) (z y : N) (k : H) (written : Option ℕ) (now : ℕ)
    (order : H → ℕ) : tracked (store zones m z k written now order) y ≤ zones.maxEntries y := by
  cases written with
  | none => exact hb y
  | some size =>
    have hy := hb y
    have hz := tracked_le_size m z
    have hpos := zones.pos z
    have hins (n : Index N H) : tracked (orInsert n (z,k) now) y ≤ tracked n y + if z = y then 1 else 0 := by
      rw [tracked_orInsert]
      by_cases h : z = y
      · rw [if_pos h]
        exact Nat.add_le_add_left (Bool.toNat_le _) _
      · simp [h]
    unfold store
    dsimp only
    rw [tracked_modify]
    refine (hins _).trans ?_
    by_cases hzy : z = y
    · subst hzy
      rw [if_pos rfl]
      split
      · rw [tracked_evict,if_pos rfl]
        omega
      · omega
    · rw [if_neg hzy,Nat.add_zero]
      split
      · rw [tracked_evict,if_neg (Ne.symm hzy)]
        exact hy
      · exact hy

theorem get?_call (c : Call N H) {z : N} (hz : z ≠ c.zone) (k : H) : (call zones m c).get? (z,k) = m.get? (z,k) := by
  cases c with
  | noteUse y j now =>
    have hne : (z,k) ≠ (y,j) := fun h => hz (congrArg Prod.fst h)
    unfold call noteUse
    rw [KeyMap.get?_modify,if_neg hne,get?_orInsert hne]
  | load y j decoded =>
    cases decoded with
    | none => rfl
    | some d =>
      have hne : (z,k) ≠ (y,j) := fun h => hz (congrArg Prod.fst h)
      unfold call load
      rw [KeyMap.get?_modify,if_neg hne]
  | store y j written now order =>
    cases written with
    | none => rfl
    | some size =>
      have hne : (z,k) ≠ (y,j) := fun h => hz (congrArg Prod.fst h)
      unfold call store
      dsimp only
      rw [KeyMap.get?_modify,if_neg hne,get?_orInsert hne]
      split
      · exact get?_evict order hz k
      · rfl

omit [DecidableEq H] in
theorem evicted_store (m : Index N H) (z : N) (k : H) (size now : ℕ) (order : H → ℕ) :
    evicted zones m (.store z k (some size) now order) = (byAge order m z).take (dropCount zones z m.size) := by
  unfold evicted dropCount
  dsimp only
  split
  · rfl
  · rfl

omit [DecidableEq H] in
/-- The same entries are dropped exactly when there are as many. -/
theorem evicted_alone_iff (m : Index N H) (z : N) (k : H) (size now : ℕ) (order : H → ℕ) :
    (∀ j, j ∈ evicted zones m (.store z k (some size) now order) ↔
        j ∈ evicted zones (alone m z) (.store z k (some size) now order)) ↔
      min (tracked m z) (dropCount zones z m.size) = min (tracked m z) (dropCount zones z (tracked m z)) := by
  rw [evicted_store,evicted_store,byAge_alone,size_alone,← byAge_length order,Nat.min_comm,
    Nat.min_comm _ (dropCount _ _ _)]
  constructor
  · intro h
    have hnd := byAge_nodup order m z
    have hp := (List.perm_ext_iff_of_nodup (hnd.sublist (List.take_sublist _ _))
      (hnd.sublist (List.take_sublist _ _))).mpr h
    rw [← List.length_take,← List.length_take]
    exact hp.length_eq
  · intro h j
    rw [List.take_eq_take_iff.mpr h]

/-- In a bounded index a call keeps what it should exactly when it is safe. -/
theorem kept_iff (hb : ∀ z, tracked m z ≤ zones.maxEntries z) (c : Call N H) : Kept zones m c ↔ Safe zones m c := by
  cases c with
  | noteUse z k now =>
    have hold (y : N) : tracked (call zones m (.noteUse z k now)) y = _ := tracked_noteUse m z y k now
    constructor
    · intro hk
      have hz := hk.bounded z
      rw [hold] at hz
      cases hg : m.get? (z,k) with
      | some e =>
        refine .inl ?_
        rw [hg]
        rfl
      | none =>
        rw [hg] at hz
        simp only [and_self,decide_true,Bool.toNat_true] at hz
        exact .inr hz
    · intro hs
      refine ⟨fun y => ?_,fun y j hy => get?_call _ hy j,fun j => .rfl⟩
      rw [hold]
      rcases hs with hs | hs
      · obtain ⟨e,he⟩ := Option.isSome_iff_exists.mp hs
        rw [he]
        simpa using hb y
      · by_cases hy : z = y
        · subst hy
          exact (Nat.add_le_add_left (Bool.toNat_le _) _).trans hs
        · simpa [hy] using hb y
  | load z k decoded =>
    refine iff_of_true ⟨fun y => ?_,fun y j hy => get?_call _ hy j,fun j => .rfl⟩ trivial
    exact (tracked_load m z y k decoded).le.trans (hb y)
  | store z k written now order =>
    cases written with
    | none => exact iff_of_true ⟨hb,fun _ _ _ => rfl,fun _ => .rfl⟩ trivial
    | some size =>
      refine ⟨fun hk => (evicted_alone_iff m z k size now order).mp hk.own,fun hs => ?_⟩
      exact ⟨fun y => tracked_store hb z y k _ now order,fun y j hy => get?_call _ hy j,
        (evicted_alone_iff m z k size now order).mpr hs⟩

theorem after_snoc (cs : List (Call N H)) (c : Call N H) :
    after zones (cs ++ [c]) = call zones (after zones cs) c := by
  rw [after,List.foldl_append]
  rfl

/-- Safe calls keep every zone within its limit. -/
theorem bounded_after {cs : List (Call N H)} (hs : ∀ ks c, ks ++ [c] <+: cs → Safe zones (after zones ks) c) (z : N) :
    tracked (after zones cs) z ≤ zones.maxEntries z := by
  induction cs using List.reverseRecOn generalizing z with
  | nil => exact Nat.zero_le _
  | append_singleton cs c ih =>
    have hb := ih (fun ks k hk => hs ks k (hk.trans (List.prefix_append _ _)))
    rw [after_snoc]
    exact ((kept_iff hb c).mpr (hs cs c (List.prefix_refl _))).bounded z

/-- Over any sequence of calls the index is bounded, and apart for each zone, as long as
every call is safe, and only so long. -/
theorem kept_iff_safe (zones : Zones N) (cs : List (Call N H)) :
    (∀ ks c, ks ++ [c] <+: cs → Kept zones (after zones ks) c) ↔
      ∀ ks c, ks ++ [c] <+: cs → Safe zones (after zones ks) c := by
  constructor
  · intro hk ks c hc
    refine (kept_iff (fun z => ?_) c).mp (hk ks c hc)
    rcases List.eq_nil_or_concat' ks with rfl | ⟨js,b,rfl⟩
    · exact Nat.zero_le _
    · rw [after_snoc]
      exact (hk js b ((List.prefix_append _ _).trans hc)).bounded z
  · intro hs ks c hc
    refine (kept_iff (bounded_after (fun js b hj => ?_)) c).mpr (hs ks c hc)
    exact hs js b (hj.trans ((List.prefix_append _ _).trans hc))

/-- Two requests noted in a zone for one entry. -/
theorem noted_beyond_limit : ¬ ∀ (zones : Zones ℕ) (cs : List (Call ℕ ℕ)),
    ∀ ks c, ks ++ [c] <+: cs → Kept zones (after zones ks) c := by
  intro h
  have hk := (h ⟨fun _ => 1,fun _ => le_rfl⟩ [.noteUse 0 0 0,.noteUse 0 1 0] [.noteUse 0 0 0] (.noteUse 0 1 0)
    (List.prefix_refl _)).bounded 0
  exact absurd hk (by decide)

/-- A zone with one of its ten entries loses it when another zone has the other nine. -/
example : dropCount (⟨fun _ => 10,fun _ => by decide⟩ : Zones ℕ) 0 10 = 1 ∧
    dropCount (⟨fun _ => 10,fun _ => by decide⟩ : Zones ℕ) 0 1 = 0 := by decide

end Calls

end OxiServe.Server.CacheIndex
