import OxiServe.Lib.Runs
import OxiServe.Server.Returned

/-! # The pool of idle upstream connections

One worker's pool by peer address, newest first, and the requests that connect,
are answered and drop their connections in any order. A connection is at one
place at a time, and one that idles there is clean when every exchange is upright.
-/
namespace OxiServe.Server
open Config

/-- A connection in the pool and when it was returned. -/
structure Idle where
  id : ℕ
  sinceMs : ℕ
deriving DecidableEq, Repr

def maxIdleMs : ℕ := 30000

/-- The newest connection that is neither too old nor found dead or dirty. Those
below one that is too old are older still. -/
def take (elapsedMs : Idle → ℕ) (isReusable : ℕ → Bool) : List Idle → Option ℕ × List Idle
  | [] => (none,[])
  | i :: rest =>
    if maxIdleMs ≤ elapsedMs i then (none,[])
    else if isReusable i.id then (some i.id,rest)
    else take elapsedMs isReusable rest

/-- At capacity the oldest is dropped. -/
def put (entries : List Idle) (id keepalive nowMs : ℕ) : List Idle :=
  if keepalive = 0 then entries
  else ⟨id,nowMs⟩ :: (if keepalive ≤ entries.length then entries.dropLast else entries)

theorem take_sublist (elapsedMs : Idle → ℕ) (isReusable : ℕ → Bool) (entries : List Idle) :
    (take elapsedMs isReusable entries).2.Sublist entries := by
  induction entries with
  | nil => exact List.Sublist.refl _
  | cons i rest ih =>
    simp only [take]
    split
    · exact List.nil_sublist _
    · split
      · exact List.sublist_cons_self _ _
      · exact ih.cons _

/-- What is taken was in the pool above all that stays. -/
theorem take_some {elapsedMs : Idle → ℕ} {isReusable : ℕ → Bool} {entries : List Idle} {id : ℕ}
    (h : (take elapsedMs isReusable entries).1 = some id) :
    ∃ i, i.id = id ∧ (i :: (take elapsedMs isReusable entries).2).Sublist entries := by
  induction entries with
  | nil => cases h
  | cons i rest ih =>
    simp only [take] at h ⊢
    split at h
    · cases h
    · rename_i hage
      rw [if_neg hage]
      split at h
      · rename_i hre
        rw [if_pos hre]
        exact ⟨i,Option.some.inj h,List.Sublist.refl _⟩
      · rename_i hre
        rw [if_neg hre]
        obtain ⟨j,hj,hs⟩ := ih h
        exact ⟨j,hj,hs.cons _⟩

theorem mem_put {entries : List Idle} {id keepalive nowMs : ℕ} {i : Idle}
    (h : i ∈ put entries id keepalive nowMs) : i = ⟨id,nowMs⟩ ∨ i ∈ entries := by
  unfold put at h
  split at h
  · exact Or.inr h
  · rcases List.mem_cons.mp h with h | h
    · exact Or.inl h
    · right
      split at h
      · exact (List.dropLast_sublist _).subset h
      · exact h

theorem put_nodup {entries : List Idle} {id keepalive nowMs : ℕ} (h : (entries.map Idle.id).Nodup)
    (hid : id ∉ entries.map Idle.id) : ((put entries id keepalive nowMs).map Idle.id).Nodup := by
  unfold put
  split
  · exact h
  · rw [List.map_cons,List.nodup_cons]
    have hs : (if keepalive ≤ entries.length then entries.dropLast else entries).Sublist entries := by
      split
      · exact List.dropLast_sublist _
      · exact List.Sublist.refl _
    exact ⟨fun hm => hid ((hs.map Idle.id).subset hm),(hs.map Idle.id).nodup h⟩

/-- The pool, the connections that requests hold, each with whether its answer is
still awaited, and how many were opened. -/
structure Pooling where
  idle : Bytes → List Idle
  held : List (ℕ × Bool)
  opened : ℕ

/-- What happens to connections: an attempt takes or opens one, it is answered, or
it is closed. -/
inductive PoolAct
  | connect (addr : Bytes) (elapsedMs : Idle → ℕ) (isReusable : ℕ → Bool)
  | answer (id : ℕ) (x : Exchanged) (nowMs : ℕ)
  | drop (id : ℕ)

namespace Pooling

def new : Pooling := ⟨fun _ => [],[],0⟩

def release (s : Pooling) (id : ℕ) : List (ℕ × Bool) := s.held.filter (fun c => c.1 != id)

def step (s : Pooling) : PoolAct → Option Pooling
  | .connect addr elapsedMs isReusable =>
    let (taken,rest) := take elapsedMs isReusable (s.idle addr)
    let idle := Function.update s.idle addr rest
    match taken with
    | some id => some { s with idle := idle, held := (id,true) :: s.held }
    | none => some ⟨idle,(s.opened,true) :: s.held,s.opened + 1⟩
  | .answer id x nowMs =>
    if (id,true) ∈ s.held then
      if x.returns then
        let entries := put (s.idle x.addr) id x.keepalive nowMs
        some { s with idle := Function.update s.idle x.addr entries, held := s.release id }
      else some { s with held := (id,false) :: s.release id }
    else none
  | .drop id => some { s with held := s.release id }

/-- No connection is at two places. -/
structure Exclusive (s : Pooling) : Prop where
  held : (s.held.map Prod.fst).Nodup
  apart : ∀ addr, ∀ i ∈ s.idle addr, i.id ∉ s.held.map Prod.fst
  once : ∀ addr, ((s.idle addr).map Idle.id).Nodup
  home : ∀ a b, ∀ i ∈ s.idle a, ∀ j ∈ s.idle b, i.id = j.id → a = b

/-- The exchanges on connections that may still be used all returned them. -/
structure Kept (acts : List PoolAct) (s : Pooling) : Prop extends Exclusive s where
  heldOld : ∀ id ∈ s.held.map Prod.fst, id < s.opened
  idleOld : ∀ addr, ∀ i ∈ s.idle addr, i.id < s.opened
  actsOld : ∀ id x now, PoolAct.answer id x now ∈ acts → id < s.opened
  awaited : ∀ id, (id,true) ∈ s.held → ∀ x now, PoolAct.answer id x now ∈ acts → x.returns = true
  returned : ∀ addr, ∀ i ∈ s.idle addr, ∀ x now, PoolAct.answer i.id x now ∈ acts → x.returns = true
  used : ∀ addr, ∀ i ∈ s.idle addr, ∃ x now, PoolAct.answer i.id x now ∈ acts

variable {acts : List PoolAct} {s s' : Pooling}

theorem kept_new : Kept [] new where
  held := List.nodup_nil
  apart _ _ h := nomatch h
  once _ := List.nodup_nil
  home _ _ _ h := nomatch h
  heldOld _ h := nomatch h
  idleOld _ _ h := nomatch h
  actsOld _ _ _ h := nomatch h
  awaited _ h := nomatch h
  returned _ _ h := nomatch h
  used _ _ h := nomatch h

theorem mem_update {f : Bytes → List Idle} {addr b : Bytes} {l : List Idle} {i : Idle}
    (h : i ∈ Function.update f addr l b) : (b = addr ∧ i ∈ l) ∨ (b ≠ addr ∧ i ∈ f b) := by
  by_cases hb : b = addr
  · rw [hb,Function.update_self] at h
    exact Or.inl ⟨hb,h⟩
  · rw [Function.update_of_ne hb] at h
    exact Or.inr ⟨hb,h⟩

/-- Fewer entries at one address are entries that were there. -/
theorem mem_of_sublist {addr b : Bytes} {l : List Idle} {i : Idle} (hl : l.Sublist (s.idle addr))
    (h : i ∈ Function.update s.idle addr l b) : i ∈ s.idle b := by
  rcases mem_update h with ⟨hb,hi⟩ | ⟨-,hi⟩
  · rw [hb]
    exact hl.subset hi
  · exact hi

theorem once_of_sublist (hs : s.Exclusive) {addr : Bytes} {l : List Idle} (hl : l.Sublist (s.idle addr)) (b : Bytes) :
    ((Function.update s.idle addr l b).map Idle.id).Nodup := by
  by_cases hb : b = addr
  · rw [hb,Function.update_self]
    exact (hl.map Idle.id).nodup (hs.once addr)
  · rw [Function.update_of_ne hb]
    exact hs.once b

theorem mem_answer_snoc {a : PoolAct} (ha : ∀ id x now, a ≠ .answer id x now) {id now : ℕ} {x : Exchanged}
    (h : PoolAct.answer id x now ∈ acts ++ [a]) : PoolAct.answer id x now ∈ acts := by
  rcases List.mem_append.mp h with h | h
  · exact h
  · exact absurd (List.mem_singleton.mp h).symm (ha _ _ _)

/-- A connection out of the pool leaves it and is held once. -/
theorem Kept.reuse (h : Kept acts s) {addr : Bytes} {elapsedMs : Idle → ℕ} {isReusable : ℕ → Bool} {id : ℕ}
    (ht : (take elapsedMs isReusable (s.idle addr)).1 = some id) :
    Kept (acts ++ [.connect addr elapsedMs isReusable])
      { s with
        idle := Function.update s.idle addr (take elapsedMs isReusable (s.idle addr)).2
        held := (id,true) :: s.held } := by
  obtain ⟨i,hid,hsub⟩ := take_some ht
  have hrest := take_sublist elapsedMs isReusable (s.idle addr)
  have hi : i ∈ s.idle addr := hsub.subset List.mem_cons_self
  have hsnoc : ∀ {id' now : ℕ} {x : Exchanged},
      PoolAct.answer id' x now ∈ acts ++ [.connect addr elapsedMs isReusable] → PoolAct.answer id' x now ∈ acts :=
    fun hm => mem_answer_snoc (by intro _ _ _ he; cases he) hm
  have hgone : ∀ b, ∀ j ∈ Function.update s.idle addr (take elapsedMs isReusable (s.idle addr)).2 b, j.id ≠ id := by
    intro b j hj he
    rcases mem_update hj with ⟨-,hj⟩ | ⟨hb,hj⟩
    · have hnd := (hsub.map Idle.id).nodup (h.once addr)
      rw [List.map_cons,List.nodup_cons,hid] at hnd
      exact hnd.1 (he ▸ List.mem_map.mpr ⟨j,hj,rfl⟩)
    · exact hb (h.home b addr j hj i hi (he.trans hid.symm))
  constructor
  · constructor
    · rw [List.map_cons,List.nodup_cons]
      exact ⟨hid ▸ h.apart addr i hi,h.held⟩
    · intro b j hj hm
      rcases List.mem_cons.mp hm with hm | hm
      · exact hgone b j hj hm
      · exact h.apart b j (mem_of_sublist hrest hj) hm
    · exact once_of_sublist h.toExclusive hrest
    · intro a b j hj k hk
      exact h.home a b j (mem_of_sublist hrest hj) k (mem_of_sublist hrest hk)
  · intro j hj
    rcases List.mem_cons.mp hj with hj | hj
    · rw [hj,← hid]
      exact h.idleOld addr i hi
    · exact h.heldOld j hj
  · intro b j hj
    exact h.idleOld b j (mem_of_sublist hrest hj)
  · intro j x now hj
    exact h.actsOld j x now (hsnoc hj)
  · intro j hj x now hm
    rcases List.mem_cons.mp hj with hj | hj
    · cases hj
      rw [← hid] at hm
      exact h.returned addr i hi x now (hsnoc hm)
    · exact h.awaited j hj x now (hsnoc hm)
  · intro b j hj x now hm
    exact h.returned b j (mem_of_sublist hrest hj) x now (hsnoc hm)
  · intro b j hj
    obtain ⟨x,now,hm⟩ := h.used b j (mem_of_sublist hrest hj)
    exact ⟨x,now,List.mem_append_left _ hm⟩

/-- A connection that is opened is one that was not there before. -/
theorem Kept.open (h : Kept acts s) {addr : Bytes} {elapsedMs : Idle → ℕ} {isReusable : ℕ → Bool} :
    Kept (acts ++ [.connect addr elapsedMs isReusable])
      ⟨Function.update s.idle addr (take elapsedMs isReusable (s.idle addr)).2,(s.opened,true) :: s.held,
        s.opened + 1⟩ := by
  have hrest := take_sublist elapsedMs isReusable (s.idle addr)
  have hsnoc : ∀ {id' now : ℕ} {x : Exchanged},
      PoolAct.answer id' x now ∈ acts ++ [.connect addr elapsedMs isReusable] → PoolAct.answer id' x now ∈ acts :=
    fun hm => mem_answer_snoc (by intro _ _ _ he; cases he) hm
  constructor
  · constructor
    · rw [List.map_cons,List.nodup_cons]
      exact ⟨fun hm => Nat.lt_irrefl _ (h.heldOld _ hm),h.held⟩
    · intro b j hj hm
      rcases List.mem_cons.mp hm with hm | hm
      · have hlt := h.idleOld b j (mem_of_sublist hrest hj)
        rw [hm] at hlt
        exact Nat.lt_irrefl _ hlt
      · exact h.apart b j (mem_of_sublist hrest hj) hm
    · exact once_of_sublist h.toExclusive hrest
    · intro a b j hj k hk
      exact h.home a b j (mem_of_sublist hrest hj) k (mem_of_sublist hrest hk)
  · intro j hj
    rcases List.mem_cons.mp hj with hj | hj
    · rw [hj]
      exact Nat.lt_succ_self _
    · exact Nat.lt_succ_of_lt (h.heldOld j hj)
  · intro b j hj
    exact Nat.lt_succ_of_lt (h.idleOld b j (mem_of_sublist hrest hj))
  · intro j x now hj
    exact Nat.lt_succ_of_lt (h.actsOld j x now (hsnoc hj))
  · intro j hj x now hm
    rcases List.mem_cons.mp hj with hj | hj
    · cases hj
      exact absurd (h.actsOld _ x now (hsnoc hm)) (Nat.lt_irrefl _)
    · exact h.awaited j hj x now (hsnoc hm)
  · intro b j hj x now hm
    exact h.returned b j (mem_of_sublist hrest hj) x now (hsnoc hm)
  · intro b j hj
    obtain ⟨x,now,hm⟩ := h.used b j (mem_of_sublist hrest hj)
    exact ⟨x,now,List.mem_append_left _ hm⟩

theorem mem_release {id : ℕ} {c : ℕ × Bool} (h : c ∈ s.release id) : c ∈ s.held ∧ c.1 ≠ id := by
  obtain ⟨hm,hp⟩ := List.mem_filter.mp h
  exact ⟨hm,bne_iff_ne.mp hp⟩

theorem mem_release_fst {id j : ℕ} (h : j ∈ (s.release id).map Prod.fst) : j ∈ s.held.map Prod.fst ∧ j ≠ id := by
  obtain ⟨c,hc,rfl⟩ := List.mem_map.mp h
  obtain ⟨hm,hne⟩ := mem_release hc
  exact ⟨List.mem_map.mpr ⟨c,hm,rfl⟩,hne⟩

theorem release_nodup (h : (s.held.map Prod.fst).Nodup) (id : ℕ) : ((s.release id).map Prod.fst).Nodup :=
  (List.filter_sublist.map Prod.fst).nodup h

/-- A connection that is closed is nowhere. -/
theorem Kept.drop (h : Kept acts s) (id : ℕ) : Kept (acts ++ [.drop id]) { s with held := s.release id } := by
  have hsnoc : ∀ {id' now : ℕ} {x : Exchanged},
      PoolAct.answer id' x now ∈ acts ++ [.drop id] → PoolAct.answer id' x now ∈ acts :=
    fun hm => mem_answer_snoc (by intro _ _ _ he; cases he) hm
  constructor
  · exact ⟨release_nodup h.held id,fun b j hj hm => h.apart b j hj (mem_release_fst hm).1,h.once,h.home⟩
  · intro j hj
    exact h.heldOld j (mem_release_fst hj).1
  · exact h.idleOld
  · intro j x now hj
    exact h.actsOld j x now (hsnoc hj)
  · intro j hj x now hm
    exact h.awaited j (mem_release hj).1 x now (hsnoc hm)
  · intro b j hj x now hm
    exact h.returned b j hj x now (hsnoc hm)
  · intro b j hj
    obtain ⟨x,now,hm⟩ := h.used b j hj
    exact ⟨x,now,List.mem_append_left _ hm⟩

/-- An answer on another connection changes nothing about this one. -/
theorem answer_other {id j now nowMs : ℕ} {x y : Exchanged} (hne : j ≠ id)
    (h : PoolAct.answer j y now ∈ acts ++ [.answer id x nowMs]) : PoolAct.answer j y now ∈ acts := by
  rcases List.mem_append.mp h with h | h
  · exact h
  · have he := List.mem_singleton.mp h
    cases he
    exact absurd rfl hne

theorem Kept.answered_old (h : Kept acts s) {id nowMs : ℕ} {x : Exchanged} (hid : id ∈ s.held.map Prod.fst)
    {j now : ℕ} {y : Exchanged} (hm : PoolAct.answer j y now ∈ acts ++ [.answer id x nowMs]) : j < s.opened := by
  by_cases hj : j = id
  · rw [hj]
    exact h.heldOld id hid
  · exact h.actsOld j y now (answer_other hj hm)

/-- A connection that is not returned stays with its request until it is closed. -/
theorem Kept.spend (h : Kept acts s) {id nowMs : ℕ} {x : Exchanged} (hid : id ∈ s.held.map Prod.fst) :
    Kept (acts ++ [.answer id x nowMs]) { s with held := (id,false) :: s.release id } := by
  have hne : ∀ b, ∀ j ∈ s.idle b, j.id ≠ id := by
    intro b j hj he
    exact h.apart b j hj (he ▸ hid)
  constructor
  · refine ⟨?_,?_,h.once,h.home⟩
    · rw [List.map_cons,List.nodup_cons]
      exact ⟨fun hm => (mem_release_fst hm).2 rfl,release_nodup h.held id⟩
    · intro b j hj hm
      rcases List.mem_cons.mp hm with hm | hm
      · exact hne b j hj hm
      · exact h.apart b j hj (mem_release_fst hm).1
  · intro j hj
    rcases List.mem_cons.mp hj with hj | hj
    · rw [hj]
      exact h.heldOld id hid
    · exact h.heldOld j (mem_release_fst hj).1
  · exact h.idleOld
  · intro j y now hm
    exact h.answered_old hid hm
  · intro j hj y now hm
    rcases List.mem_cons.mp hj with hj | hj
    · cases hj
    · obtain ⟨hheld,hjne⟩ := mem_release hj
      exact h.awaited j hheld y now (answer_other hjne hm)
  · intro b j hj y now hm
    exact h.returned b j hj y now (answer_other (hne b j hj) hm)
  · intro b j hj
    obtain ⟨y,now,hm⟩ := h.used b j hj
    exact ⟨y,now,List.mem_append_left _ hm⟩

/-- A connection that is returned leaves its request for the pool. -/
theorem Kept.giveBack (h : Kept acts s) {id nowMs : ℕ} {x : Exchanged} (hid : (id,true) ∈ s.held)
    (hx : x.returns = true) :
    Kept (acts ++ [.answer id x nowMs])
      { s with
        idle := Function.update s.idle x.addr (put (s.idle x.addr) id x.keepalive nowMs)
        held := s.release id } := by
  have hheld : id ∈ s.held.map Prod.fst := List.mem_map.mpr ⟨_,hid,rfl⟩
  have hne : ∀ b, ∀ j ∈ s.idle b, j.id ≠ id := by
    intro b j hj he
    exact h.apart b j hj (he ▸ hheld)
  have hmem : ∀ b, ∀ j ∈ Function.update s.idle x.addr (put (s.idle x.addr) id x.keepalive nowMs) b,
      (b = x.addr ∧ j = ⟨id,nowMs⟩) ∨ j ∈ s.idle b := by
    intro b j hj
    rcases mem_update hj with ⟨hb,hj⟩ | ⟨-,hj⟩
    · rcases mem_put hj with hj | hj
      · exact Or.inl ⟨hb,hj⟩
      · rw [hb]
        exact Or.inr hj
    · exact Or.inr hj
  have hall : ∀ y now, PoolAct.answer id y now ∈ acts ++ [.answer id x nowMs] → y.returns = true := by
    intro y now hm
    rcases List.mem_append.mp hm with hm | hm
    · exact h.awaited id hid y now hm
    · have he := List.mem_singleton.mp hm
      cases he
      exact hx
  constructor
  · refine ⟨release_nodup h.held id,?_,?_,?_⟩
    · intro b j hj hm
      obtain ⟨hjh,hjne⟩ := mem_release_fst hm
      rcases hmem b j hj with ⟨-,hj⟩ | hj
      · rw [hj] at hjne
        exact hjne rfl
      · exact h.apart b j hj hjh
    · intro b
      dsimp only
      by_cases hb : b = x.addr
      · rw [hb,Function.update_self]
        refine put_nodup (h.once x.addr) ?_
        intro hm
        obtain ⟨j,hj,he⟩ := List.mem_map.mp hm
        exact hne _ j hj he
      · rw [Function.update_of_ne hb]
        exact h.once b
    · intro a b i hi j hj he
      rcases hmem a i hi with ⟨ha,hi⟩ | hi
      · rcases hmem b j hj with ⟨hb,-⟩ | hj
        · rw [ha,hb]
        · rw [hi] at he
          exact absurd he.symm (hne b j hj)
      · rcases hmem b j hj with ⟨-,hj⟩ | hj
        · rw [hj] at he
          exact absurd he (hne a i hi)
        · exact h.home a b i hi j hj he
  · intro j hj
    exact h.heldOld j (mem_release_fst hj).1
  · intro b j hj
    rcases hmem b j hj with ⟨-,hj⟩ | hj
    · rw [hj]
      exact h.heldOld id hheld
    · exact h.idleOld b j hj
  · intro j y now hm
    exact h.answered_old hheld hm
  · intro j hj y now hm
    obtain ⟨hjh,hjne⟩ := mem_release hj
    exact h.awaited j hjh y now (answer_other hjne hm)
  · intro b j hj y now hm
    rcases hmem b j hj with ⟨-,hj⟩ | hj
    · rw [hj] at hm
      exact hall y now hm
    · exact h.returned b j hj y now (answer_other (hne b j hj) hm)
  · intro b j hj
    rcases hmem b j hj with ⟨-,hj⟩ | hj
    · rw [hj]
      exact ⟨x,nowMs,List.mem_append_right _ List.mem_cons_self⟩
    · obtain ⟨y,now,hm⟩ := h.used b j hj
      exact ⟨y,now,List.mem_append_left _ hm⟩

/-- Every act keeps connections at one place. -/
theorem Kept.step (h : Kept acts s) {a : PoolAct} (hs : s.step a = some s') : Kept (acts ++ [a]) s' := by
  cases a with
  | connect addr elapsedMs isReusable =>
    simp only [Pooling.step] at hs
    cases ht : (take elapsedMs isReusable (s.idle addr)).1 with
    | some id =>
      rw [ht] at hs
      cases hs
      exact h.reuse ht
    | none =>
      rw [ht] at hs
      cases hs
      exact h.open
  | answer id x nowMs =>
    simp only [Pooling.step] at hs
    split at hs
    · rename_i hid
      split at hs
      · rename_i hx
        cases hs
        exact h.giveBack hid hx
      · cases hs
        exact h.spend (List.mem_map.mpr ⟨_,hid,rfl⟩)
    · cases hs
  | drop id =>
    cases hs
    exact h.drop id

theorem run_kept (hr : Runs (stepRel Pooling.step) new acts s) : Kept acts s :=
  hr.invariant kept_new (fun _ _ _ _ _ hk hs => hk.step hs)

/-- The act is an upright exchange, or none. -/
def IsUpright (_ : Pooling) (a : PoolAct) : Prop := ∀ id x now, a = .answer id x now → x.Upright

/-- In a run of upright exchanges, every connection is at one place, one that idles
has seen clean exchanges only, and no exchange returns or sends on any surplus. -/
theorem idle_clean (hr : Runs (Runs.guarded (stepRel Pooling.step) IsUpright) new acts s) :
    s.Exclusive ∧
      (∀ addr, ∀ i ∈ s.idle addr, (∃ x now, PoolAct.answer i.id x now ∈ acts) ∧
        ∀ x now, PoolAct.answer i.id x now ∈ acts → x.returns = true ∧ x.Clean) ∧
      ∀ id x now, PoolAct.answer id x now ∈ acts → x.Sound := by
  have hk := run_kept hr.forget
  have hsound : ∀ id x now, PoolAct.answer id x now ∈ acts → x.Sound := by
    refine @Runs.invariant _ _ _ (fun ks _ => ∀ id x now, PoolAct.answer id x now ∈ ks → x.Sound) _ _ _ hr ?_ ?_
    · intro id x now hm
      cases hm
    · intro ks u l v _ ih hs id x now hm
      rcases List.mem_append.mp hm with hm | hm
      · exact ih id x now hm
      · exact (hs.1 id x now (List.mem_singleton.mp hm).symm).sound
  refine ⟨hk.toExclusive,?_,hsound⟩
  intro addr i hi
  refine ⟨hk.used addr i hi,?_⟩
  intro x now hm
  have hret := hk.returned addr i hi x now hm
  exact ⟨hret,(hsound _ x now hm).clean hret⟩

end Pooling

section Sample

def twoByteHead : Bytes := lit "HTTP/1.1 200 OK\r\nContent-Length: 2\r\n\r\n"

def twoByteFields : UpstreamHead := ⟨twoByteHead.length,some 200,[(lit "Content-Length",lit "2")]⟩

/-- What the parser says of this head and whatever follows it. -/
def parseTwoByte (b : Bytes) : Except Unit (Option UpstreamHead) :=
  if twoByteHead.isPrefixOf b then .ok (some twoByteFields) else .ok none

theorem parseTwoByte_len (b : Bytes) (head : UpstreamHead) (h : parseTwoByte b = .ok (some head)) :
    head.len ≤ b.length := by
  unfold parseTwoByte at h
  split at h
  · rename_i hp
    have he := Option.some.inj (Except.ok.inj h)
    rw [← he]
    exact (List.isPrefixOf_iff_prefix.mp hp).length_le
  · cases h

def keepingPeer : Upstream := ⟨[⟨lit "app:80",[]⟩],4,none⟩

def keptConf : ProxyConf := { ProxyConf.default with httpVersion11 := true }

def sendsBehind (behind : Bytes) : Peer := ⟨false,true,true,true,[.data (twoByteHead ++ behind)],false,false⟩

def behindAnswer (behind : Bytes) : Answer :=
  ⟨some (keepingPeer,⟨lit "app:80",[]⟩),[],twoByteHead ++ behind,twoByteHead.length,200,
    upstreamFields keptConf twoByteFields.headers⟩

/-- The upstream sends these bytes with the head that announces two. -/
def sentBehind (behind : Bytes)
    (h : exchangeHead { Env.idle with parseResponse := parseTwoByte } (getCtx (lit "/")) keptConf
      (some (keepingPeer,0)) (sendsBehind behind) = .answers (behindAnswer behind)) : Exchanged where
  env := { Env.idle with parseResponse := parseTwoByte }
  ctx := getCtx (lit "/")
  conf := keptConf
  chosen := some (keepingPeer,0)
  addr := lit "app:80"
  peer := sendsBehind behind
  cache := none
  stale := none
  version := .http1
  answer := behindAnswer behind
  answers := h
  parses := parseTwoByte_len

def exactly : Exchanged := sentBehind (lit "ok") rfl

def tooMuch : Exchanged := sentBehind (lit "okHTTP/1.1 200 OK\r\n\r\n") rfl

def connectsToApp : PoolAct := .connect (lit "app:80") (fun _ => 0) (fun _ => true)

/-- The one connection that was opened idles in the pool. -/
def onePooled : Pooling :=
  ⟨Function.update (Function.update (fun _ => []) (lit "app:80") []) (lit "app:80") [⟨0,0⟩],[],1⟩

theorem onePooled_idle : onePooled.idle (lit "app:80") = [⟨0,0⟩] := by
  simp only [onePooled,Function.update_self]

theorem connects_step :
    Pooling.new.step connectsToApp =
      some ⟨Function.update (fun _ => []) (lit "app:80") [],[(0,true)],1⟩ := rfl

theorem returns_step {x : Exchanged} (hr : x.returns = true) (ha : x.addr = lit "app:80") (hk : x.keepalive = 4) :
    Pooling.step ⟨Function.update (fun _ => []) (lit "app:80") [],[(0,true)],1⟩ (.answer 0 x 0) = some onePooled := by
  simp only [Pooling.step,hr,ha,hk,Function.update_self]
  rfl

theorem twoByte_fields : (upstreamFields keptConf twoByteFields.headers).chunked = false ∧
    (upstreamFields keptConf twoByteFields.headers).len = some 2 := by decide +kernel

theorem sentBehind_counted {behind : Bytes}
    (h : exchangeHead { Env.idle with parseResponse := parseTwoByte } (getCtx (lit "/")) keptConf
      (some (keepingPeer,0)) (sendsBehind behind) = .answers (behindAnswer behind)) :
    (sentBehind behind h).Counted 2 :=
  ⟨rfl,fun h => (by decide : (200 : ℕ) ≠ 101) h,twoByte_fields.1,twoByte_fields.2⟩

theorem exactly_upright : exactly.Upright where
  kept := by
    intro _ n hn _ head hp _
    have hc : exactly.Counted 2 := sentBehind_counted exactly.answers
    have hl := hn.len
    rw [hc.len] at hl
    cases hl
    have hparse : exactly.env.parseResponse exactly.answer.buf = .ok (some twoByteFields) := rfl
    rw [hparse] at hp
    cases hp
    exact ⟨by decide +kernel,by decide +kernel,by decide +kernel⟩
  sent := by
    intro n hn _
    have hc : exactly.Counted 2 := sentBehind_counted exactly.answers
    have hl := hn.len
    rw [hc.len] at hl
    cases hl
    exact ⟨by decide +kernel,Or.inl rfl⟩

/-- A response that comes exactly as announced leaves a clean connection behind. -/
theorem exactly_pooled :
    onePooled.Exclusive ∧ onePooled.idle (lit "app:80") = [⟨0,0⟩] ∧ exactly.Clean ∧ exactly.Sound := by
  have hr : Runs (Runs.guarded (stepRel Pooling.step) Pooling.IsUpright) Pooling.new
      ([] ++ [connectsToApp] ++ [.answer 0 exactly 0]) onePooled := by
    refine .snoc (.snoc .nil ⟨?_,connects_step⟩) ⟨?_,returns_step (by decide +kernel) rfl rfl⟩
    · intro id x now he
      cases he
    · intro id x now he
      cases he
      exact exactly_upright
  obtain ⟨hex,hidle,hsound⟩ := Pooling.idle_clean hr
  have hm : PoolAct.answer 0 exactly 0 ∈ [] ++ [connectsToApp] ++ [.answer 0 exactly 0] :=
    List.mem_append_right _ List.mem_cons_self
  have hmi : (⟨0,0⟩ : Idle) ∈ onePooled.idle (lit "app:80") := by
    rw [onePooled_idle]
    exact List.mem_cons_self
  exact ⟨hex,onePooled_idle,((hidle _ _ hmi).2 exactly 0 hm).2,hsound 0 exactly 0 hm⟩

/-- A second response behind the first goes to the client with it, and the
connection idles in the pool all the same. -/
theorem tooMuch_pooled :
    Runs (stepRel Pooling.step) Pooling.new ([] ++ [connectsToApp] ++ [.answer 0 tooMuch 0]) onePooled ∧
      onePooled.idle (lit "app:80") = [⟨0,0⟩] ∧ ¬ tooMuch.Clean ∧
      tooMuch.Counted 2 ∧ tooMuch.Delivers tooMuch.answer.pre ∧ 2 < tooMuch.answer.pre.length := by
  have hn : tooMuch.Counted 2 := sentBehind_counted tooMuch.answers
  have hlong : 2 < tooMuch.answer.pre.length := by decide +kernel
  refine ⟨.snoc (.snoc .nil connects_step) (returns_step (by decide +kernel) rfl rfl),onePooled_idle,?_,hn,
    Exchanged.delivers_pre hn (by decide +kernel) hlong,hlong⟩
  intro h
  obtain ⟨-,n,hl,hbuf⟩ := h.complete
  rw [hn.len] at hl
  cases hl
  have hb : tooMuch.answer.buf.length ≠ tooMuch.answer.headLen + 2 := by decide +kernel
  exact hb hbuf

end Sample

end OxiServe.Server
