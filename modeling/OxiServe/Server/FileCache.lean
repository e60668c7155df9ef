import OxiServe.Lib.Bytes
import OxiServe.Lib.KeyMap

/-! # The cache of open files

One map for each worker, used by every location under its own settings. What is found
in it was true when it was stored. Whether it may be an error, and how many entries
there may be, is settled by who stored it.
-/
namespace OxiServe.Server.FileCache

/-- What an operation on a file fails with. -/
inductive IoError
  | notFound | permissionDenied | nameTooLong | tooManyLinks | other
deriving DecidableEq, Repr

def ioStatus : IoError → ℕ
  | .notFound => 404
  | .permissionDenied => 403
  | .nameTooLong => 404
  | .tooManyLinks => 404
  | .other => 500

structure Stat where
  isDir : Bool
  size : ℕ
  mtime : Int
deriving DecidableEq, Repr

/-- The file system at one instant. -/
structure FileSystem (φ : Type) where
  openFile : Bytes → Except IoError φ
  statFd : φ → Except IoError Stat

/-- What a path resolved to. -/
inductive Cached (φ : Type)
  | file (file : φ) (size : ℕ) (mtime : Int)
  | dir
  | error (status : ℕ)
deriving DecidableEq, Repr

structure OpenFileCache where
  enabled : Bool
  max : ℕ
  inactive : ℕ
  valid : ℕ
  minUses : ℕ
  errors : Bool
deriving DecidableEq, Repr

structure Entry (φ : Type) where
  val : Cached φ
  checked : ℕ
  lastUsed : ℕ
  uses : ℕ

abbrev Cache (φ : Type) := KeyMap Bytes (Entry φ)

/-- A lookup: when it begins, and when it would open the file. -/
structure Call where
  path : Bytes
  policy : OpenFileCache
  now : ℕ
  opened : ℕ

section Lookup
variable {φ : Type}

def openDirect (fs : FileSystem φ) (path : Bytes) : Cached φ :=
  match fs.openFile path with
  | .error e => .error (ioStatus e)
  | .ok f =>
    match fs.statFd f with
    | .error e => .error (ioStatus e)
    | .ok st => if st.isDir then .dir else .file f st.size st.mtime

def Entry.fresh (e : Entry φ) (p : OpenFileCache) (now : ℕ) : Bool :=
  decide (now - e.checked ≤ p.valid) && decide (now - e.lastUsed ≤ p.inactive)

/-- What is remembered of a path. What is too old is dropped. -/
def probe (m : Cache φ) (path : Bytes) (p : OpenFileCache) (now : ℕ) : Option (Cached φ) × Cache φ :=
  match m.get? path with
  | none => (none,m)
  | some e =>
    if e.fresh p now then
      (some e.val,m.modify path (fun e => { e with lastUsed := now, uses := min (e.uses + 1) (2 ^ 32 - 1) }))
    else (none,m.retain (fun k _ => k ≠ path))

/-- The under-used go first, then the least recently used. -/
def victimLe (a b : Bytes × Bool × ℕ) : Bool :=
  if a.2.1 = b.2.1 then decide (a.2.2 ≤ b.2.2) else a.2.1

def dropCount (p : OpenFileCache) : ℕ := max (p.max / 10) 1

def victims (m : Cache φ) (p : OpenFileCache) : List Bytes :=
  (((m.entries.map (fun e => (e.1,decide (e.2.uses < p.minUses),e.2.lastUsed))).mergeSort victimLe).take
    (dropCount p)).map Prod.fst

def evict (m : Cache φ) (p : OpenFileCache) : Cache φ := m.retain (fun k _ => k ∉ victims m p)

def cacheable (v : Cached φ) (p : OpenFileCache) : Bool :=
  match v with
  | .error _ => p.errors
  | _ => true

def lookup (fs : ℕ → FileSystem φ) (m : Cache φ) (c : Call) : Cached φ × Cache φ :=
  if !c.policy.enabled then (openDirect (fs c.opened) c.path,m)
  else
    match probe m c.path c.policy c.now with
    | (some v,m) => (v,m)
    | (none,m) =>
      let v := openDirect (fs c.opened) c.path
      if cacheable v c.policy then
        (v,(if m.size ≥ c.policy.max then evict m c.policy else m).insert c.path ⟨v,c.now,c.now,1⟩)
      else (v,m)

/-- The lookups of a worker, one after the other, while the file system changes as it
may. The caches and times they lead to. -/
inductive Run (fs : ℕ → FileSystem φ) : Cache φ → ℕ → Prop
  | start (t : ℕ) : Run fs .empty t
  | lookup {m : Cache φ} {t : ℕ} (c : Call) (h : Run fs m t) (hn : t ≤ c.now) (ho : c.now ≤ c.opened) :
      Run fs (lookup fs m c).2 c.opened

end Lookup

section Evict
variable {φ : Type}

/-- As many entries go as are to be dropped, when there are so many. -/
theorem size_evict (m : Cache φ) (p : OpenFileCache) : (evict m p).size = m.size - min (dropCount p) m.size := by
  have hperm : (((m.entries.map (fun e => (e.1,decide (e.2.uses < p.minUses),e.2.lastUsed))).mergeSort victimLe).map
      Prod.fst).Perm (m.entries.map Prod.fst) := by
    refine ((List.mergeSort_perm _ victimLe).map Prod.fst).trans ?_
    rw [List.map_map]
    exact .refl _
  have hv : victims m p = (((m.entries.map (fun e => (e.1,decide (e.2.uses < p.minUses),e.2.lastUsed))).mergeSort
      victimLe).map Prod.fst).take (dropCount p) := by rw [victims,List.map_take]
  have hnd : (victims m p).Nodup := by
    rw [hv]
    exact (hperm.nodup_iff.mpr m.nodup).sublist (List.take_sublist _ _)
  have hlen : (victims m p).length = min (dropCount p) m.size := by
    rw [hv,List.length_take,hperm.length_eq,List.length_map,KeyMap.size]
  have hkeys : ∀ k ∈ victims m p, ∃ e, m.get? k = some e ∧ (fun (_ : Bytes) (_ : Entry φ) => true) k e = true := by
    intro k hk
    rw [hv] at hk
    obtain ⟨e,he,rfl⟩ := List.mem_map.mp (hperm.subset (List.mem_of_mem_take hk))
    exact ⟨e.2,KeyMap.get?_eq_some_iff.mpr he,rfl⟩
  have hdrop := KeyMap.count_drop hnd hkeys (fun k => decide_eq_true_iff (p := k ∉ victims m p))
  rw [← KeyMap.size_eq_count (fun _ _ _ => rfl),← KeyMap.size_eq_count (fun _ _ _ => rfl),hlen] at hdrop
  rw [evict]
  omega

end Evict

section Views
variable {φ : Type} {fs : ℕ → FileSystem φ} {m : Cache φ} {t : ℕ} {c : Call}

/-- What is found in the cache for a call. -/
def remembered (m : Cache φ) (c : Call) : Option (Cached φ) :=
  if c.policy.enabled then ((m.get? c.path).filter (fun e => e.fresh c.policy c.now)).map Entry.val else none

/-- A call puts an entry into the cache. -/
def stores (fs : ℕ → FileSystem φ) (m : Cache φ) (c : Call) : Bool :=
  c.policy.enabled && (remembered m c).isNone && cacheable (openDirect (fs c.opened) c.path) c.policy

/-- The number of entries for other paths. -/
def others (m : Cache φ) (c : Call) : ℕ := (m.retain (fun k _ => k ≠ c.path)).size

/-- What a lookup should be, under the settings it is made with. -/
structure View (fs : ℕ → FileSystem φ) (m : Cache φ) (c : Call) : Prop where
  recent : ∃ t ≤ c.opened, c.now ≤ t + (if c.policy.enabled then c.policy.valid else 0) ∧
    (lookup fs m c).1 = openDirect (fs t) c.path
  errors : (remembered m c).isSome = true → ∀ status, (lookup fs m c).1 = .error status → c.policy.errors = true
  bounded : stores fs m c = true → (lookup fs m c).2.size ≤ c.policy.max

/-- No error that others remember stands for the path, and there is room under the
settings of the call, or what is dropped makes it. -/
def Agrees (fs : ℕ → FileSystem φ) (m : Cache φ) (c : Call) : Prop :=
  (∀ status, remembered m c = some (.error status) → c.policy.errors = true) ∧
    (stores fs m c = true → 1 ≤ c.policy.max ∧ others m c + 1 ≤ c.policy.max + dropCount c.policy)

theorem lookup_disabled (h : c.policy.enabled = false) : lookup fs m c = (openDirect (fs c.opened) c.path,m) := by
  unfold lookup
  rw [h]
  rfl

/-- What is remembered is in the cache, and stays there. -/
theorem lookup_remembered (fs : ℕ → FileSystem φ) {v : Cached φ} (h : remembered m c = some v) :
    ∃ e, m.get? c.path = some e ∧ e.fresh c.policy c.now = true ∧ e.val = v ∧ lookup fs m c = (v,m.modify c.path
      (fun e => { e with lastUsed := c.now, uses := min (e.uses + 1) (2 ^ 32 - 1) })) := by
  unfold remembered at h
  cases he : c.policy.enabled with
  | false =>
    rw [he] at h
    cases h
  | true =>
    rw [he,if_pos rfl] at h
    obtain ⟨e,hf,rfl⟩ := Option.map_eq_some_iff.mp h
    obtain ⟨hg,hfr⟩ := Option.filter_eq_some_iff.mp hf
    refine ⟨e,hg,hfr,rfl,?_⟩
    unfold lookup probe
    rw [he,hg]
    simp [hfr]

/-- Otherwise the path is resolved, and stored when that is to be. -/
theorem lookup_resolved (he : c.policy.enabled = true) (h : remembered m c = none) :
    lookup fs m c =
      let v := openDirect (fs c.opened) c.path
      let m := m.retain (fun k _ => k ≠ c.path)
      if cacheable v c.policy then
        (v,(if m.size ≥ c.policy.max then evict m c.policy else m).insert c.path ⟨v,c.now,c.now,1⟩)
      else (v,m) := by
  have hprobe : probe m c.path c.policy c.now = (none,m.retain (fun k _ => k ≠ c.path)) := by
    unfold remembered at h
    rw [he,if_pos rfl,Option.map_eq_none_iff] at h
    unfold probe
    cases hg : m.get? c.path with
    | none => rw [KeyMap.retain_of_none hg]
    | some e =>
      rw [hg] at h
      have hfr : e.fresh c.policy c.now = false := by
        cases hfr : e.fresh c.policy c.now with
        | false => rfl
        | true => simp [Option.filter,hfr] at h
      simp [hfr]
  unfold lookup
  rw [he,hprobe]
  rfl

/-- What is remembered was true when it was stored, and since. -/
def Recorded (fs : ℕ → FileSystem φ) (m : Cache φ) (t : ℕ) : Prop :=
  ∀ k e, m.get? k = some e → ∃ o ≤ t, e.checked ≤ o ∧ e.val = openDirect (fs o) k

theorem Recorded.retain (h : Recorded fs m t) (p : Bytes → Entry φ → Bool) : Recorded fs (m.retain p) t := by
  intro k e hg
  rw [KeyMap.get?_retain] at hg
  exact h k e (Option.filter_eq_some_iff.mp hg).1

theorem Recorded.later {t' : ℕ} (h : Recorded fs m t) (ht : t ≤ t') : Recorded fs m t' := by
  intro k e hg
  obtain ⟨o,ho,hc,hv⟩ := h k e hg
  exact ⟨o,Nat.le_trans ho ht,hc,hv⟩

theorem Recorded.lookup (h : Recorded fs m t) (hn : t ≤ c.now) (ho : c.now ≤ c.opened) :
    Recorded fs (lookup fs m c).2 c.opened := by
  have hlater := h.later (Nat.le_trans hn ho)
  cases he : c.policy.enabled with
  | false =>
    rw [lookup_disabled he]
    exact hlater
  | true =>
    cases hr : remembered m c with
    | some v =>
      obtain ⟨e,-,-,-,hl⟩ := lookup_remembered fs hr
      rw [hl]
      intro k e hg
      rw [KeyMap.get?_modify] at hg
      split at hg
      · obtain ⟨e',hg',rfl⟩ := Option.map_eq_some_iff.mp hg
        exact hlater k e' hg'
      · exact hlater k e hg
    | none =>
      rw [lookup_resolved he hr]
      dsimp only
      have hkept := hlater.retain (fun k _ => k ≠ c.path)
      split
      · intro k e hg
        dsimp only at hg
        rw [KeyMap.get?_insert] at hg
        split at hg
        · rename_i hk
          cases hg
          exact ⟨c.opened,Nat.le_refl _,ho,hk ▸ rfl⟩
        · split at hg
          · exact hkept.retain _ k e hg
          · exact hkept k e hg
      · exact hkept

theorem Run.recorded (h : Run fs m t) : Recorded fs m t := by
  induction h with
  | start t => exact fun k e hg => nomatch hg
  | lookup c _ hn ho ih => exact ih.lookup hn ho

/-- Whatever the settings, a lookup gives what was there within its time. -/
theorem Run.recent (h : Run fs m t) (hn : t ≤ c.now) (ho : c.now ≤ c.opened) :
    ∃ t ≤ c.opened, c.now ≤ t + (if c.policy.enabled then c.policy.valid else 0) ∧
      (FileCache.lookup fs m c).1 = openDirect (fs t) c.path := by
  cases he : c.policy.enabled with
  | false =>
    rw [lookup_disabled he]
    exact ⟨c.opened,Nat.le_refl _,ho,rfl⟩
  | true =>
    cases hr : remembered m c with
    | some v =>
      obtain ⟨e,hg,hfr,hv,hl⟩ := lookup_remembered fs hr
      obtain ⟨o,hot,hco,hval⟩ := h.recorded _ _ hg
      have hage := of_decide_eq_true (Bool.and_eq_true_iff.mp hfr).1
      refine ⟨o,by omega,?_,?_⟩
      · rw [if_pos rfl]
        omega
      · rw [hl]
        exact hv.symm.trans hval
    | none =>
      refine ⟨c.opened,Nat.le_refl _,by omega,?_⟩
      rw [lookup_resolved he hr]
      dsimp only
      split
      · rfl
      · rfl

/-- The size that storing an entry leads to. -/
theorem size_of_stores (h : stores fs m c = true) :
    (lookup fs m c).2.size =
      (if others m c ≥ c.policy.max then others m c - min (dropCount c.policy) (others m c) else others m c) + 1 := by
  simp only [stores,Bool.and_eq_true,Option.isNone_iff_eq_none] at h
  obtain ⟨⟨he,hr⟩,hc⟩ := h
  have hnone : (m.retain (fun k _ => k ≠ c.path)).get? c.path = none := by
    rw [KeyMap.get?_retain]
    cases m.get? c.path with
    | none => rfl
    | some e => simp [Option.filter]
  rw [lookup_resolved he hr]
  dsimp only
  rw [if_pos hc]
  dsimp only
  change KeyMap.size _ = (if (m.retain (fun k _ => k ≠ c.path)).size ≥ c.policy.max then
    (m.retain (fun k _ => k ≠ c.path)).size - min (dropCount c.policy) (m.retain (fun k _ => k ≠ c.path)).size
    else (m.retain (fun k _ => k ≠ c.path)).size) + 1
  split
  · rw [KeyMap.size_insert_of_none,size_evict]
    rw [evict,KeyMap.get?_retain,hnone]
    rfl
  · exact KeyMap.size_insert_of_none hnone _

/-- In every run of lookups, under whatever settings each is made, a lookup is what it
should be exactly when it agrees with what earlier ones stored. -/
theorem lookup_view_iff (h : Run fs m t) (hn : t ≤ c.now) (ho : c.now ≤ c.opened) : View fs m c ↔ Agrees fs m c := by
  have hsize : stores fs m c = true → ((lookup fs m c).2.size ≤ c.policy.max ↔
      1 ≤ c.policy.max ∧ others m c + 1 ≤ c.policy.max + dropCount c.policy) := by
    intro hs
    rw [size_of_stores hs]
    unfold dropCount
    split
    · omega
    · omega
  constructor
  · intro hv
    refine ⟨fun status hr => ?_,fun hs => (hsize hs).mp (hv.bounded hs)⟩
    obtain ⟨-,-,-,-,hl⟩ := lookup_remembered fs hr
    exact hv.errors (by rw [hr]; rfl) status (by rw [hl])
  · rintro ⟨he,hb⟩
    refine ⟨h.recent hn ho,fun hr status hl => ?_,fun hs => (hsize hs).mpr (hb hs)⟩
    obtain ⟨v,hv⟩ := Option.isSome_iff_exists.mp hr
    obtain ⟨-,-,-,-,hl'⟩ := lookup_remembered fs hv
    rw [hl'] at hl
    exact he status (hv.trans (congrArg some hl))

end Views

section Missing

/-- No file can be opened. -/
def missing : ℕ → FileSystem Unit := fun _ => ⟨fun _ => .error .notFound,fun _ => .error .other⟩

/-- A lookup at a location that caches errors, or does not. -/
def missingCall (errors : Bool) (now : ℕ) : Call := ⟨[47],⟨true,16,60,60,1,errors⟩,now,now⟩

theorem run_missing : Run missing (lookup missing .empty (missingCall true 1)).2 1 :=
  .lookup (missingCall true 1) (.start 0) (Nat.zero_le _) (Nat.le_refl _)

theorem lookup_view_missing :
    View missing (lookup missing .empty (missingCall true 1)).2 (missingCall true 2) ↔
      Agrees missing (lookup missing .empty (missingCall true 1)).2 (missingCall true 2) :=
  lookup_view_iff run_missing (by decide) (Nat.le_refl _)

/-- An error that one location remembers is given to another that does not cache them. -/
theorem remembered_error_served :
    ¬ ∀ (fs : ℕ → FileSystem Unit) (m : Cache Unit) (t : ℕ) (c : Call), Run fs m t → t ≤ c.now → c.now ≤ c.opened →
      View fs m c := by
  intro hall
  have hv := hall missing _ 1 (missingCall false 2) run_missing (by decide) (Nat.le_refl _)
  exact absurd (hv.errors rfl 404 rfl) (by decide)

end Missing

end OxiServe.Server.FileCache
