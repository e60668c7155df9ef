import OxiServe.Lib.BoundedFifo
import OxiServe.Lib.Bytes
import OxiServe.Lib.FileTree

/-! # One pass of the cache manager

The pass walks the directory of a zone, takes away what is left of interrupted
writes, then what has been idle for too long, then the oldest entries if there are
too many bytes. It counts as it goes and never looks at the directory again.
-/
namespace OxiServe.Server.CacheManager
open BoundedFifo

section Pass

/-- A file of the cache: its bytes, and its time in nanoseconds since the epoch. -/
structure FileData where
  size : ℕ
  modified : Int
deriving DecidableEq, Repr

abbrev Path := List Bytes

abbrev Disk := Listing Bytes FileData

structure ManagerStats where
  entries : ℕ
  bytes : ℕ
  removedInactive : ℕ
  removedOversize : ℕ
  removedTemp : ℕ
deriving DecidableEq, Repr

def ManagerStats.default : ManagerStats := ⟨0,0,0,0,0⟩

/-- One entry seen on disk; `mtime` is in seconds since the epoch. -/
structure OnDisk where
  path : Path
  size : ℕ
  mtime : ℕ
deriving DecidableEq, Repr

/-- What the pass goes by; `inactive` is in milliseconds. -/
structure Zone where
  maxSize : ℕ
  inactive : ℕ

/-- What follows the last dot of a name, if anything stands before it. -/
def extension (name : Bytes) : Option Bytes :=
  let after := name.reverse.takeWhile (· != 46)
  let before := (name.reverse.dropWhile (· != 46)).tail
  if before = [] then none else some after.reverse

def isTemp (name : Bytes) : Bool :=
  match extension name with
  | some x => utf8Valid x && (lit "tmp").isPrefixOf x
  | none => false

/-- `remove_file`, where the system can refuse. -/
def removeFile (refuses : Path → Bool) (p : Path) (d : Disk) : Option Disk :=
  if (d.files []).any (fun x => x.1 = p) && !refuses p then some (d.erase p) else none

/-- What a walk has come to. -/
structure Walk where
  disk : Disk
  out : List OnDisk
  stats : ManagerStats

def seconds (modified : Int) : ℕ := modified.toNat / 10 ^ 9

def onDisk (x : Path × FileData) : OnDisk := ⟨x.1,x.2.size,seconds x.2.modified⟩

/-- The walk over the directory at `way`. -/
def collect (refuses : Path → Bool) (way : Path) : Disk → Walk → Walk
  | .nil, w => w
  | .file n f rest, w =>
    collect refuses way rest
      (if isTemp n then
        match removeFile refuses (way ++ [n]) w.disk with
        | some d => { w with disk := d, stats := { w.stats with removedTemp := w.stats.removedTemp + 1 } }
        | none => w
      else
        { w with
          out := w.out ++ [onDisk (way ++ [n],f)]
          stats := { w.stats with bytes := (w.stats.bytes + f.size) % 2 ^ 64 } })
  | .dir n sub rest, w => collect refuses way rest (collect refuses (way ++ [n]) sub w)

/-- The entries that stay, without those that have been idle for more seconds. -/
def retain (refuses : Path → Bool) (now inactive : ℕ) : List OnDisk → Disk × ManagerStats →
    List OnDisk × Disk × ManagerStats
  | [], s => ([],s)
  | e :: es, s =>
    if inactive < now - e.mtime then
      match removeFile refuses e.path s.1 with
      | some d =>
        retain refuses now inactive es
          (d,{ s.2 with removedInactive := s.2.removedInactive + 1, bytes := s.2.bytes - e.size })
      | none =>
        let r := retain refuses now inactive es s
        (e :: r.1,r.2)
    else
      let r := retain refuses now inactive es s
      (e :: r.1,r.2)

/-- Takes entries away from the front until the bytes are down to the target. -/
def trim (refuses : Path → Bool) (target : ℕ) : List OnDisk → Disk × ManagerStats → Disk × ManagerStats
  | [], s => s
  | e :: es, s =>
    if s.2.bytes ≤ target then s
    else
      match removeFile refuses e.path s.1 with
      | some d =>
        trim refuses target es
          (d,{ s.2 with removedOversize := s.2.removedOversize + 1, bytes := s.2.bytes - e.size })
      | none => trim refuses target es s

/-- Oldest first, and otherwise as they were. -/
def byAge (es : List OnDisk) : List OnDisk := es.mergeSort (fun a b => a.mtime ≤ b.mtime)

/-- One pass at a time in nanoseconds since the epoch. -/
def managerPass (refuses : Path → Bool) (z : Zone) (now : ℕ) (root : Disk) : Disk × ManagerStats :=
  let w := collect refuses [] root ⟨root,[],.default⟩
  let inactive := z.inactive / 1000
  let kept := if 0 < inactive then retain refuses (now / 10 ^ 9) inactive w.out (w.disk,w.stats) else (w.out,w.disk,w.stats)
  let after :=
    if 0 < z.maxSize ∧ z.maxSize < kept.2.2.bytes then
      trim refuses (z.maxSize - z.maxSize / 10) (byAge kept.1) kept.2
    else kept.2
  (after.1.prune,{ after.2 with entries := kept.1.length - after.2.removedOversize })

end Pass

section Spec

def tempFile (x : Path × FileData) : Bool := isTemp (x.1.getLastD [])

def entriesIn (xs : List (Path × FileData)) : List OnDisk := (xs.filter (fun x => !tempFile x)).map onDisk

/-- The entries of a directory, without what is left of interrupted writes. -/
def entriesOf (d : Disk) : List OnDisk := entriesIn (d.files [])

def sizes (es : List OnDisk) : ℕ := total OnDisk.size es

/-- An entry has not been used for longer than the zone allows. -/
def Idle (z : Zone) (now : ℕ) (e : OnDisk) : Prop := 0 < z.inactive ∧ z.inactive < (now / 10 ^ 9 - e.mtime) * 1000

instance (z : Zone) (now : ℕ) (e : OnDisk) : Decidable (Idle z now e) := inferInstanceAs (Decidable (_ ∧ _))

/-- The entries that were removed for size, in the order they were. -/
structure ForSize (z : Zone) (now : ℕ) (before after : Disk) (trimmed : List OnDisk) : Prop where
  active : (trimmed ++ entriesOf after).Perm ((entriesOf before).filter (fun e => ¬ Idle z now e))
  oldest : ∀ e ∈ trimmed, ∀ f ∈ entriesOf after, e.mtime ≤ f.mtime
  above : ∀ pre e post, trimmed = pre ++ e :: post → 9 * z.maxSize < 10 * (sizes (e :: post) + sizes (entriesOf after))
  needed : trimmed ≠ [] → 0 < z.maxSize ∧ z.maxSize < sizes trimmed + sizes (entriesOf after)

/-- The directory is as the pass reports it. -/
structure Reported (z : Zone) (now : ℕ) (before after : Disk) (stats : ManagerStats) : Prop where
  active : ∀ e ∈ entriesOf after, ¬ Idle z now e
  temps : ∀ x ∈ after.files [], tempFile x = false
  bytes : stats.bytes = sizes (entriesOf after)
  entries : stats.entries = (entriesOf after).length
  fits : 0 < z.maxSize → stats.bytes ≤ z.maxSize
  forSize : ∃ trimmed, trimmed.length = stats.removedOversize ∧ ForSize z now before after trimmed

end Spec

section Walking
variable {root d : Disk} {ps : List Path} {x : Path × FileData}

/-- Nothing is refused. -/
def never (_ : Path) : Bool := false

theorem removeFile_never (h : root.Without ps d) (hx : x ∈ root.files []) (hp : x.1 ∉ ps) :
    removeFile never x.1 d = some (d.erase x.1) := by
  have hmem : x ∈ d.files [] := h.mem.mpr ⟨hx,hp⟩
  have hany : (d.files []).any (fun y => y.1 = x.1) = true := List.any_eq_true.mpr ⟨x,hmem,decide_eq_true rfl⟩
  unfold removeFile
  rw [hany]
  rfl

def tempPaths (xs : List (Path × FileData)) : List Path := (xs.filter tempFile).map Prod.fst

theorem tempPaths_append (xs ys : List (Path × FileData)) : tempPaths (xs ++ ys) = tempPaths xs ++ tempPaths ys := by
  simp [tempPaths]

theorem entriesIn_append (xs ys : List (Path × FileData)) : entriesIn (xs ++ ys) = entriesIn xs ++ entriesIn ys := by
  simp [entriesIn]

theorem sizes_append (es fs : List OnDisk) : sizes (es ++ fs) = sizes es + sizes fs := total_append _ _ _

theorem mem_tempPaths {xs : List (Path × FileData)} {p : Path} (h : p ∈ tempPaths xs) : ∃ x ∈ xs, x.1 = p := by
  obtain ⟨x,hx,rfl⟩ := List.mem_map.mp h
  exact ⟨x,List.mem_of_mem_filter hx,rfl⟩

/-- What the walk over a directory of `root` adds to what it has come to. -/
structure Walked (root : Disk) (ps : List Path) (xs : List (Path × FileData)) (w w' : Walk) : Prop where
  disk : root.Without (ps ++ tempPaths xs) w'.disk
  out : w'.out = w.out ++ entriesIn xs
  bytes : w.stats.bytes + sizes (entriesIn xs) < 2 ^ 64 → w'.stats.bytes = w.stats.bytes + sizes (entriesIn xs)
  oversize : w'.stats.removedOversize = w.stats.removedOversize

theorem collect_walked (t : Disk) (ht : t.Distinct) (way : Path) (w : Walk) {ps : List Path}
    (hw : root.Without ps w.disk) (hin : ∀ x ∈ t.files way, x ∈ root.files [] ∧ x.1 ∉ ps) :
    Walked root ps (t.files way) w (collect never way t w) := by
  induction t generalizing way w ps with
  | nil =>
    refine ⟨?_,(List.append_nil _).symm,fun _ => rfl,rfl⟩
    rw [show tempPaths (Listing.files way (.nil : Disk)) = [] from rfl,List.append_nil]
    exact hw
  | file n f rest ih =>
    obtain ⟨hn,hrest⟩ := ht
    obtain ⟨hroot,hnew⟩ := hin (way ++ [n],f) List.mem_cons_self
    have hlast : tempFile (way ++ [n],f) = isTemp n := by simp [tempFile]
    have hbeside : ∀ x ∈ rest.files way, x.1 ≠ way ++ [n] := fun x hx => Listing.files_beside hn hx []
    have hothers : ∀ x ∈ rest.files way, x ∈ root.files [] ∧ x.1 ∉ ps := fun x hx => hin x (List.mem_cons_of_mem _ hx)
    rw [collect,Listing.files]
    cases htemp : isTemp n with
    | true =>
      have hremove : removeFile never (way ++ [n]) w.disk = some (w.disk.erase (way ++ [n])) :=
        removeFile_never hw hroot hnew
      have hpaths : tempPaths ((way ++ [n],f) :: rest.files way) = (way ++ [n]) :: tempPaths (rest.files way) := by
        simp [tempPaths,hlast,htemp]
      have hentries : entriesIn ((way ++ [n],f) :: rest.files way) = entriesIn (rest.files way) := by
        simp [entriesIn,hlast,htemp]
      rw [if_pos rfl,hremove]
      have hnext := ih hrest way { w with
        disk := w.disk.erase (way ++ [n])
        stats := { w.stats with removedTemp := w.stats.removedTemp + 1 } } (hw.erase (way ++ [n])) fun x hx =>
          ⟨(hothers x hx).1,by simp [(hothers x hx).2,hbeside x hx]⟩
      refine ⟨?_,?_,?_,hnext.oversize⟩
      · rw [hpaths,← List.singleton_append,← List.append_assoc]
        exact hnext.disk
      · rw [hentries]
        exact hnext.out
      · rw [hentries]
        exact hnext.bytes
    | false =>
      have hpaths : tempPaths ((way ++ [n],f) :: rest.files way) = tempPaths (rest.files way) := by
        simp [tempPaths,hlast,htemp]
      have hentries : entriesIn ((way ++ [n],f) :: rest.files way) =
          onDisk (way ++ [n],f) :: entriesIn (rest.files way) := by
        simp [entriesIn,hlast,htemp]
      have hsize : sizes (onDisk (way ++ [n],f) :: entriesIn (rest.files way)) =
          f.size + sizes (entriesIn (rest.files way)) := total_cons _ _ _
      rw [if_neg Bool.false_ne_true]
      have hnext := ih hrest way { w with
        out := w.out ++ [onDisk (way ++ [n],f)]
        stats := { w.stats with bytes := (w.stats.bytes + f.size) % 2 ^ 64 } } hw hothers
      refine ⟨?_,?_,?_,hnext.oversize⟩
      · rw [hpaths]
        exact hnext.disk
      · rw [hentries,hnext.out,List.append_assoc,List.singleton_append]
      · rw [hentries,hsize]
        intro hlt
        have hfits : (w.stats.bytes + f.size) % 2 ^ 64 = w.stats.bytes + f.size := Nat.mod_eq_of_lt (by omega)
        refine (hnext.bytes ?_).trans ?_
        · change (w.stats.bytes + f.size) % 2 ^ 64 + _ < 2 ^ 64
          omega
        · change (w.stats.bytes + f.size) % 2 ^ 64 + _ = _
          omega
  | dir n sub rest ihs ihr =>
    obtain ⟨hn,hsub,hrest⟩ := ht
    have hfirst := ihs hsub (way ++ [n]) w hw fun x hx => hin x (List.mem_append_left _ hx)
    have hothers : ∀ x ∈ rest.files way, x ∈ root.files [] ∧ x.1 ∉ ps ++ tempPaths (sub.files (way ++ [n])) := by
      intro x hx
      obtain ⟨hroot,hnew⟩ := hin x (List.mem_append_right _ hx)
      refine ⟨hroot,fun hm => ?_⟩
      rcases List.mem_append.mp hm with hm | hm
      · exact hnew hm
      · obtain ⟨y,hy,he⟩ := mem_tempPaths hm
        obtain ⟨m,-,q,hq⟩ := Listing.files_below hy
        rw [hq,List.append_assoc,List.singleton_append] at he
        exact Listing.files_beside hn hx _ he.symm
    have hsecond := ihr hrest way (collect never (way ++ [n]) sub w) hfirst.disk hothers
    rw [collect,Listing.files]
    refine ⟨?_,?_,?_,hsecond.oversize.trans hfirst.oversize⟩
    · rw [tempPaths_append,← List.append_assoc]
      exact hsecond.disk
    · rw [entriesIn_append,← List.append_assoc,← hfirst.out]
      exact hsecond.out
    · rw [entriesIn_append,sizes_append,← Nat.add_assoc]
      intro hlt
      have hbytes := hfirst.bytes (by omega)
      rw [← hbytes] at hlt ⊢
      exact hsecond.bytes hlt

end Walking

section Removing
variable {root d : Disk} {ps : List Path} {es : List OnDisk} {s : Disk × ManagerStats}

/-- Entries that are still on the disk, each once. -/
structure Present (root : Disk) (ps : List Path) (es : List OnDisk) : Prop where
  inRoot : ∀ e ∈ es, ∃ x ∈ root.files [], x.1 = e.path
  left : ∀ e ∈ es, e.path ∉ ps
  once : (es.map OnDisk.path).Nodup

theorem Present.tail {e : OnDisk} (h : Present root ps (e :: es)) : Present root ps es :=
  ⟨fun f hf => h.inRoot f (List.mem_cons_of_mem _ hf),fun f hf => h.left f (List.mem_cons_of_mem _ hf),
    (List.nodup_cons.mp h.once).2⟩

theorem Present.removed {e : OnDisk} (h : Present root ps (e :: es)) : Present root (ps ++ [e.path]) es := by
  refine ⟨h.tail.inRoot,fun f hf hm => ?_,h.tail.once⟩
  rcases List.mem_append.mp hm with hm | hm
  · exact h.tail.left f hf hm
  · refine (List.nodup_cons.mp h.once).1 ?_
    rw [← List.mem_singleton.mp hm]
    exact List.mem_map_of_mem hf

theorem Present.remove {e : OnDisk} (h : Present root ps (e :: es)) (hw : root.Without ps d) :
    removeFile never e.path d = some (d.erase e.path) := by
  obtain ⟨x,hx,he⟩ := h.inRoot e List.mem_cons_self
  have hleft := h.left e List.mem_cons_self
  rw [← he] at hleft ⊢
  exact removeFile_never hw hx hleft

/-- An entry that the first phase removes. -/
def Stale (now inactive : ℕ) (e : OnDisk) : Prop := inactive < now - e.mtime

instance (now inactive : ℕ) (e : OnDisk) : Decidable (Stale now inactive e) := inferInstanceAs (Decidable (_ < _))

structure Retained (root : Disk) (ps : List Path) (now inactive : ℕ) (es : List OnDisk) (s : Disk × ManagerStats)
    (r : List OnDisk × Disk × ManagerStats) : Prop where
  kept : r.1 = es.filter (fun e => ¬ Stale now inactive e)
  disk : root.Without (ps ++ (es.filter (fun e => Stale now inactive e)).map OnDisk.path) r.2.1
  bytes : r.2.2.bytes = s.2.bytes - sizes (es.filter (fun e => Stale now inactive e))
  oversize : r.2.2.removedOversize = s.2.removedOversize

theorem retain_retained (now inactive : ℕ) (hp : Present root ps es) (hw : root.Without ps s.1) :
    Retained root ps now inactive es s (retain never now inactive es s) := by
  induction es generalizing ps s with
  | nil =>
    refine ⟨rfl,?_,rfl,rfl⟩
    rw [List.filter_nil,List.map_nil,List.append_nil]
    exact hw
  | cons e es ih =>
    rw [retain]
    by_cases hs : inactive < now - e.mtime
    · have hmark : Stale now inactive e := hs
      have hnext := @ih (ps ++ [e.path])
        (s.1.erase e.path,{ s.2 with removedInactive := s.2.removedInactive + 1, bytes := s.2.bytes - e.size })
        hp.removed (hw.erase e.path)
      have hstale : (e :: es).filter (fun e => Stale now inactive e) = e :: es.filter (fun e => Stale now inactive e) :=
        List.filter_cons_of_pos (decide_eq_true hs)
      have hkept : (e :: es).filter (fun e => ¬ Stale now inactive e) = es.filter (fun e => ¬ Stale now inactive e) :=
        List.filter_cons_of_neg (by simpa using hmark)
      rw [if_pos hs,hp.remove hw]
      refine ⟨hnext.kept.trans hkept.symm,?_,?_,hnext.oversize⟩
      · rw [hstale,List.map_cons,← List.singleton_append,← List.append_assoc]
        exact hnext.disk
      · rw [hstale]
        refine hnext.bytes.trans ?_
        exact Nat.sub_sub _ _ _
    · have hmark : ¬ Stale now inactive e := hs
      have hnext := ih hp.tail hw
      have hstale : (e :: es).filter (fun e => Stale now inactive e) = es.filter (fun e => Stale now inactive e) :=
        List.filter_cons_of_neg (by simpa using hmark)
      have hkept : (e :: es).filter (fun e => ¬ Stale now inactive e) =
          e :: es.filter (fun e => ¬ Stale now inactive e) := List.filter_cons_of_pos (decide_eq_true hs)
      rw [if_neg hs]
      refine ⟨?_,?_,?_,hnext.oversize⟩
      · rw [hkept]
        exact congrArg (e :: ·) hnext.kept
      · rw [hstale]
        exact hnext.disk
      · rw [hstale]
        exact hnext.bytes

/-- The second phase: what it removes stands in front, and each removal found too
many bytes. -/
structure Trimmed (root : Disk) (ps : List Path) (target : ℕ) (es : List OnDisk) (s r : Disk × ManagerStats)
    (front back : List OnDisk) : Prop where
  split : es = front ++ back
  disk : root.Without (ps ++ front.map OnDisk.path) r.1
  bytes : r.2.bytes = s.2.bytes - sizes front
  oversize : r.2.removedOversize = s.2.removedOversize + front.length
  reached : back = [] ∨ r.2.bytes ≤ target
  above : ∀ pre e post, front = pre ++ e :: post → target < s.2.bytes - sizes pre

theorem trim_trimmed (target : ℕ) (hp : Present root ps es) (hw : root.Without ps s.1) :
    ∃ front back, Trimmed root ps target es s (trim never target es s) front back := by
  induction es generalizing ps s with
  | nil =>
    refine ⟨[],[],rfl,?_,rfl,rfl,.inl rfl,fun pre e post h => ?_⟩
    · rw [List.map_nil,List.append_nil]
      exact hw
    · cases pre <;> cases h
  | cons e es ih =>
    rw [trim]
    by_cases hb : s.2.bytes ≤ target
    · rw [if_pos hb]
      refine ⟨[],e :: es,rfl,?_,rfl,rfl,.inr hb,fun pre f post h => ?_⟩
      · rw [List.map_nil,List.append_nil]
        exact hw
      · cases pre <;> cases h
    · rw [if_neg hb,hp.remove hw]
      obtain ⟨front,back,h⟩ := @ih (ps ++ [e.path])
        (s.1.erase e.path,{ s.2 with removedOversize := s.2.removedOversize + 1, bytes := s.2.bytes - e.size })
        hp.removed (hw.erase e.path)
      refine ⟨e :: front,back,congrArg (e :: ·) h.split,?_,?_,?_,h.reached,?_⟩
      · rw [List.map_cons,← List.singleton_append,← List.append_assoc]
        exact h.disk
      · refine h.bytes.trans ?_
        exact Nat.sub_sub _ _ _
      · refine h.oversize.trans ?_
        change s.2.removedOversize + 1 + front.length = _
        rw [List.length_cons]
        omega
      · intro pre f post hsplit
        cases pre with
        | nil => exact Nat.lt_of_not_le hb
        | cons g pre =>
          obtain ⟨rfl,hfront⟩ := List.cons.inj hsplit
          have hlt := h.above pre f post hfront
          have hsize : sizes (e :: pre) = e.size + sizes pre := total_cons _ _ _
          rw [hsize,← Nat.sub_sub]
          exact hlt

end Removing

section Whole
variable {root d : Disk} {es gone back : List OnDisk} {z : Zone} {now : ℕ}

theorem tempFile_path {x y : Path × FileData} (h : x.1 = y.1) : tempFile x = tempFile y := by
  unfold tempFile
  rw [h]

theorem mem_tempPaths_iff {x : Path × FileData} (hx : x ∈ root.files []) :
    x.1 ∈ tempPaths (root.files []) ↔ tempFile x = true := by
  constructor
  · intro h
    obtain ⟨y,hy,he⟩ := List.mem_map.mp h
    rw [← tempFile_path he]
    exact (List.mem_filter.mp hy).2
  · intro h
    exact List.mem_map_of_mem (List.mem_filter.mpr ⟨hx,h⟩)

theorem nodup_entriesOf (hd : root.Distinct) : ((entriesOf root).map OnDisk.path).Nodup := by
  have hmap : (entriesOf root).map OnDisk.path = ((root.files []).filter (fun x => !tempFile x)).map Prod.fst := by
    rw [entriesOf,entriesIn,List.map_map]
    rfl
  rw [hmap]
  exact (List.filter_sublist.map Prod.fst).nodup (Listing.nodup_files hd [])

/-- What is on the disk when the walk's temporary files and some entries are gone. -/
theorem entriesOf_without (h : root.Without (tempPaths (root.files []) ++ gone.map OnDisk.path) d) :
    (∀ x ∈ d.files [], tempFile x = false) ∧
      entriesOf d = (entriesOf root).filter (fun e => e.path ∉ gone.map OnDisk.path) := by
  constructor
  · intro x hx
    obtain ⟨hroot,hleft⟩ := h.mem.mp hx
    cases ht : tempFile x with
    | false => rfl
    | true => exact absurd (List.mem_append_left _ ((mem_tempPaths_iff hroot).mpr ht)) hleft
  · rw [entriesOf,entriesOf,entriesIn,entriesIn,h.files,List.filter_map,List.filter_filter,List.filter_filter]
    congr 1
    apply List.filter_congr
    intro x hx
    have htemp := mem_tempPaths_iff hx
    apply Bool.eq_iff_iff.mpr
    cases ht : tempFile x with
    | true => simp
    | false =>
      have hno : x.1 ∉ tempPaths (root.files []) := fun hm => by
        rw [htemp.mp hm] at ht
        cases ht
      simp only [hno,onDisk,List.mem_append,false_or,Function.comp_apply,Bool.not_false,Bool.true_and,Bool.and_true,
        decide_eq_true_eq]
      exact decide_eq_true_iff.symm

/-- What stays when a part of the entries is gone is the other part. -/
theorem filter_gone (hnd : (es.map OnDisk.path).Nodup) (h : (gone ++ back).Perm es) :
    (es.filter (fun e => e.path ∉ gone.map OnDisk.path)).Perm back := by
  have hnd' : ((gone ++ back).map OnDisk.path).Nodup := (h.map OnDisk.path).nodup_iff.mpr hnd
  rw [List.map_append] at hnd'
  have hdisjoint := (List.nodup_append.mp hnd').2.2
  refine (h.symm.filter _).trans ?_
  have hgone : gone.filter (fun e => e.path ∉ gone.map OnDisk.path) = [] := by
    refine List.filter_eq_nil_iff.mpr fun e he => ?_
    have hm : e.path ∈ gone.map OnDisk.path := List.mem_map_of_mem he
    simp [hm]
  have hback : back.filter (fun e => e.path ∉ gone.map OnDisk.path) = back :=
    List.filter_eq_self.mpr fun e he => decide_eq_true fun hm => hdisjoint _ hm _ (List.mem_map_of_mem he) rfl
  rw [List.filter_append,hgone,hback]
  exact List.Perm.refl _

theorem sizes_perm {es fs : List OnDisk} (h : es.Perm fs) : sizes es = sizes fs := (h.map OnDisk.size).sum_nat

theorem byAge_perm (es : List OnDisk) : (byAge es).Perm es := List.mergeSort_perm _ _

theorem byAge_sorted (es : List OnDisk) : (byAge es).Pairwise (fun a b => a.mtime ≤ b.mtime) := by
  have hsorted : (byAge es).Pairwise (fun a b => decide (a.mtime ≤ b.mtime) = true) := by
    refine List.pairwise_mergeSort (fun a b c hab hbc => ?_) (fun a b => ?_) es
    · exact decide_eq_true (Nat.le_trans (of_decide_eq_true hab) (of_decide_eq_true hbc))
    · rcases Nat.le_total a.mtime b.mtime with h | h
      · rw [decide_eq_true h]
        rfl
      · rw [decide_eq_true h,Bool.or_true]
  exact hsorted.imp of_decide_eq_true

/-- What the first two phases leave: the entries that have not been idle. -/
structure Kept (root : Disk) (z : Zone) (now : ℕ) (gone : List OnDisk) (r : List OnDisk × Disk × ManagerStats) : Prop where
  kept : r.1 = (entriesOf root).filter (fun e => ¬ Idle z now e)
  perm : (gone ++ r.1).Perm (entriesOf root)
  disk : root.Without (tempPaths (root.files []) ++ gone.map OnDisk.path) r.2.1
  bytes : r.2.2.bytes = sizes r.1
  oversize : r.2.2.removedOversize = 0

/-- Where an `inactive` is at least a second, idle in seconds is idle. -/
theorem stale_iff (hz : 1000 ≤ z.inactive) (e : OnDisk) : Stale (now / 10 ^ 9) (z.inactive / 1000) e ↔ Idle z now e := by
  unfold Stale Idle
  rw [Nat.div_lt_iff_lt_mul (by decide)]
  exact (and_iff_right (by omega)).symm

theorem present_entries (hd : root.Distinct) : Present root (tempPaths (root.files [])) (entriesOf root) := by
  have hx : ∀ e ∈ entriesOf root, ∃ x ∈ root.files [], tempFile x = false ∧ onDisk x = e := by
    intro e he
    obtain ⟨x,hx,rfl⟩ := List.mem_map.mp he
    obtain ⟨hroot,hno⟩ := List.mem_filter.mp hx
    rw [Bool.not_eq_true'] at hno
    exact ⟨x,hroot,hno,rfl⟩
  refine ⟨fun e he => ?_,fun e he hm => ?_,nodup_entriesOf hd⟩
  · obtain ⟨x,hroot,-,rfl⟩ := hx e he
    exact ⟨x,hroot,rfl⟩
  · obtain ⟨x,hroot,hno,rfl⟩ := hx e he
    rw [(mem_tempPaths_iff hroot).mp hm] at hno
    cases hno

/-- The walk and the first phase, as the pass makes them. -/
def firstPhase (z : Zone) (now : ℕ) (root : Disk) : List OnDisk × Disk × ManagerStats :=
  let w := collect never [] root ⟨root,[],.default⟩
  if 0 < z.inactive / 1000 then retain never (now / 10 ^ 9) (z.inactive / 1000) w.out (w.disk,w.stats)
  else (w.out,w.disk,w.stats)

theorem firstPhase_kept (now : ℕ) (hd : root.Distinct) (hfits : sizes (entriesOf root) < 2 ^ 64)
    (hz : z.inactive = 0 ∨ 1000 ≤ z.inactive) : ∃ gone, Kept root z now gone (firstPhase z now root) := by
  have hwalk := collect_walked root hd [] ⟨root,[],.default⟩ (Listing.Without.refl hd) fun x hx => ⟨hx,List.not_mem_nil⟩
  have hbytes : (collect never [] root ⟨root,[],.default⟩).stats.bytes = sizes (entriesOf root) := by
    have hsum := hwalk.bytes (by change 0 + _ < _; rw [Nat.zero_add]; exact hfits)
    exact hsum.trans (Nat.zero_add _)
  have hout : (collect never [] root ⟨root,[],.default⟩).out = entriesOf root := hwalk.out
  have hdisk := hwalk.disk
  have hover := hwalk.oversize
  unfold firstPhase
  generalize collect never [] root ⟨root,[],.default⟩ = w at hbytes hout hdisk hover
  rw [List.nil_append] at hdisk
  rcases hz with h0 | h1
  · have hall : (entriesOf root).filter (fun e => ¬ Idle z now e) = entriesOf root := by
      refine List.filter_eq_self.mpr fun e _ => decide_eq_true fun hi => ?_
      have hpos := hi.1
      omega
    have hsecs : ¬ 0 < z.inactive / 1000 := by omega
    dsimp only
    rw [if_neg hsecs]
    refine ⟨[],hout.trans hall.symm,?_,?_,?_,hover⟩
    · rw [List.nil_append,hout]
    · rw [List.map_nil,List.append_nil]
      exact hdisk
    · rw [hout]
      exact hbytes
  · have hsecs : 0 < z.inactive / 1000 := by omega
    have hpresent : Present root (tempPaths (root.files [])) w.out := by
      rw [hout]
      exact present_entries hd
    have hret := retain_retained (s := (w.disk,w.stats)) (now / 10 ^ 9) (z.inactive / 1000) hpresent hdisk
    have hstale : ∀ e, decide (¬ Stale (now / 10 ^ 9) (z.inactive / 1000) e) = decide (¬ Idle z now e) :=
      fun e => decide_eq_decide.mpr (not_congr (stale_iff h1 e))
    have hkept := hret.kept
    simp only [hstale] at hkept
    dsimp only
    rw [if_pos hsecs]
    have hperm : (w.out.filter (fun e => Stale (now / 10 ^ 9) (z.inactive / 1000) e) ++
        (retain never (now / 10 ^ 9) (z.inactive / 1000) w.out (w.disk,w.stats)).1).Perm w.out := by
      rw [hret.kept]
      have hsplit := List.filter_append_perm (fun e => decide (Stale (now / 10 ^ 9) (z.inactive / 1000) e)) w.out
      simpa only [decide_not] using hsplit
    have hsum := sizes_perm hperm
    rw [sizes_append,hout] at hsum
    refine ⟨w.out.filter (fun e => Stale (now / 10 ^ 9) (z.inactive / 1000) e),?_,?_,hret.disk,?_,hret.oversize.trans hover⟩
    · rw [hkept,hout]
    · rw [hout] at hperm ⊢
      exact hperm
    · have hb := hret.bytes
      dsimp only at hb
      rw [hb,hbytes,hout]
      omega

/-- What the phase for size leaves. -/
theorem sized_reported {kept : List OnDisk × Disk × ManagerStats} {r : Disk × ManagerStats} (target : ℕ)
    (front back : List OnDisk) (hd : root.Distinct) (hk : Kept root z now gone kept)
    (hperm : (front ++ back).Perm kept.1) (hage : ∀ e ∈ front, ∀ f ∈ back, e.mtime ≤ f.mtime)
    (hdisk : root.Without (tempPaths (root.files []) ++ gone.map OnDisk.path ++ front.map OnDisk.path) r.1)
    (hbytes : r.2.bytes = kept.2.2.bytes - sizes front) (hover : r.2.removedOversize = front.length)
    (hfits : 0 < z.maxSize → r.2.bytes ≤ z.maxSize) (htarget : 9 * z.maxSize ≤ 10 * target)
    (habove : ∀ pre e post, front = pre ++ e :: post → target < kept.2.2.bytes - sizes pre)
    (hneeded : front ≠ [] → 0 < z.maxSize ∧ z.maxSize < kept.2.2.bytes) :
    Reported z now root r.1.prune { r.2 with entries := kept.1.length - r.2.removedOversize } := by
  have hfiles : entriesOf r.1.prune = entriesOf r.1 := by
    unfold entriesOf
    rw [Listing.files_prune]
  rw [List.append_assoc,← List.map_append] at hdisk
  obtain ⟨htemps,hentries⟩ := entriesOf_without hdisk
  have hall : ((gone ++ front) ++ back).Perm (entriesOf root) := by
    rw [List.append_assoc]
    exact (hperm.append_left gone).trans hk.perm
  have hback : (entriesOf r.1.prune).Perm back := by
    rw [hfiles,hentries]
    exact filter_gone (nodup_entriesOf hd) hall
  have hsum := sizes_perm hperm
  have hsum' := sizes_perm hback
  have hlen := hperm.length_eq
  rw [sizes_append] at hsum
  rw [List.length_append] at hlen
  have hkb := hk.bytes
  refine ⟨?_,?_,?_,?_,hfits,front,hover.symm,?_,?_,?_,?_⟩
  · intro e he
    have hmem : e ∈ kept.1 := hperm.mem_iff.mp (List.mem_append_right _ (hback.mem_iff.mp he))
    rw [hk.kept] at hmem
    exact of_decide_eq_true (List.mem_filter.mp hmem).2
  · rw [Listing.files_prune]
    exact htemps
  · change r.2.bytes = _
    omega
  · change kept.1.length - r.2.removedOversize = _
    rw [hback.length_eq,hover]
    omega
  · rw [← hk.kept]
    exact (hback.append_left front).trans hperm
  · intro e he f hf
    exact hage e he f (hback.mem_iff.mp hf)
  · intro pre e post hsplit
    have hlt := habove pre e post hsplit
    have hparts : sizes front = sizes pre + sizes (e :: post) := by rw [hsplit,sizes_append]
    omega
  · intro hne
    obtain ⟨h0,h1⟩ := hneeded hne
    exact ⟨h0,by omega⟩

theorem managerPass_reported (hd : root.Distinct) (hfits : sizes (entriesOf root) < 2 ^ 64)
    (hz : z.inactive = 0 ∨ 1000 ≤ z.inactive) :
    Reported z now root (managerPass never z now root).1 (managerPass never z now root).2 := by
  obtain ⟨gone,hk⟩ := firstPhase_kept now hd hfits hz
  have hpass : managerPass never z now root =
      (fun kept : List OnDisk × Disk × ManagerStats => (fun after : Disk × ManagerStats =>
        (after.1.prune,{ after.2 with entries := kept.1.length - after.2.removedOversize }))
        (if 0 < z.maxSize ∧ z.maxSize < kept.2.2.bytes then
          trim never (z.maxSize - z.maxSize / 10) (byAge kept.1) kept.2
        else kept.2)) (firstPhase z now root) := rfl
  rw [hpass]
  generalize firstPhase z now root = kept at hk
  dsimp only
  by_cases hsize : 0 < z.maxSize ∧ z.maxSize < kept.2.2.bytes
  · rw [if_pos hsize]
    have hpresent : Present root (tempPaths (root.files []) ++ gone.map OnDisk.path) (byAge kept.1) := by
      have hin : ∀ e ∈ byAge kept.1, e ∈ entriesOf root := fun e he =>
        hk.perm.mem_iff.mp (List.mem_append_right _ ((byAge_perm _).mem_iff.mp he))
      have hnd : ((gone ++ byAge kept.1).map OnDisk.path).Nodup :=
        ((((byAge_perm _).append_left gone).trans hk.perm).map OnDisk.path).nodup_iff.mpr (nodup_entriesOf hd)
      rw [List.map_append] at hnd
      have hroot := present_entries hd
      refine ⟨fun e he => hroot.inRoot e (hin e he),fun e he hm => ?_,(List.nodup_append.mp hnd).2.1⟩
      rcases List.mem_append.mp hm with hm | hm
      · exact hroot.left e (hin e he) hm
      · exact (List.nodup_append.mp hnd).2.2 _ hm _ (List.mem_map_of_mem he) rfl
    obtain ⟨front,back,ht⟩ := trim_trimmed (s := kept.2) (z.maxSize - z.maxSize / 10) hpresent hk.disk
    have hperm : (front ++ back).Perm kept.1 := by
      rw [← ht.split]
      exact byAge_perm _
    have hsorted := byAge_sorted kept.1
    rw [ht.split] at hsorted
    have hsum := sizes_perm hperm
    rw [sizes_append] at hsum
    have hover : (trim never (z.maxSize - z.maxSize / 10) (byAge kept.1) kept.2).2.removedOversize = front.length := by
      rw [ht.oversize,hk.oversize,Nat.zero_add]
    refine sized_reported (z.maxSize - z.maxSize / 10) front back hd hk hperm (fun e he f hf => (List.pairwise_append.mp hsorted).2.2 e he f hf) ht.disk ht.bytes
      hover (fun _ => ?_) (by omega) ht.above (fun _ => hsize)
    have hb := ht.bytes
    have hkb := hk.bytes
    rcases ht.reached with rfl | hle
    · have hnil : sizes [] = 0 := rfl
      omega
    · omega
  · rw [if_neg hsize]
    refine sized_reported z.maxSize [] kept.1 hd hk (List.Perm.refl _)
      (fun e he => by cases he) ?_ rfl hk.oversize (fun h0 => ?_) (by omega) (fun pre e post h => ?_)
      (fun h => absurd rfl h)
    · rw [List.map_nil,List.append_nil]
      exact hk.disk
    · exact Nat.le_of_not_lt fun hlt => hsize ⟨h0,hlt⟩
    · cases pre <;> cases h

end Whole

section Exact
variable {z : Zone}

/-- A directory whose names do not repeat. -/
structure Tree where
  root : Disk
  distinct : root.Distinct

theorem retain_none {now inactive : ℕ} {es : List OnDisk} (h : ∀ e ∈ es, ¬ Stale now inactive e)
    (s : Disk × ManagerStats) : retain never now inactive es s = (es,s) := by
  induction es with
  | nil => rfl
  | cons e es ih =>
    have hfirst : ¬ inactive < now - e.mtime := h e List.mem_cons_self
    rw [retain,if_neg hfirst,ih fun f hf => h f (List.mem_cons_of_mem _ hf)]

/-- A pass that finds nothing idle and counts no bytes removes nothing. -/
theorem managerPass_untouched {root : Disk} {now : ℕ} {w : Walk} (hw : collect never [] root ⟨root,[],.default⟩ = w)
    (hkeep : 0 < z.inactive / 1000 → ∀ e ∈ w.out, ¬ Stale (now / 10 ^ 9) (z.inactive / 1000) e) (hb : w.stats.bytes = 0) :
    managerPass never z now root =
      (w.disk.prune,{ w.stats with entries := w.out.length - w.stats.removedOversize }) := by
  have hfirst : (if 0 < z.inactive / 1000 then retain never (now / 10 ^ 9) (z.inactive / 1000) w.out (w.disk,w.stats)
      else (w.out,w.disk,w.stats)) = (w.out,w.disk,w.stats) := by
    by_cases hsecs : 0 < z.inactive / 1000
    · rw [if_pos hsecs,retain_none (hkeep hsecs)]
    · rw [if_neg hsecs]
  unfold managerPass
  rw [hw]
  dsimp only
  rw [hfirst]
  dsimp only
  rw [if_neg (by omega)]

/-- One file, an hour before the given time. -/
def stale : Disk := .file (lit "e") ⟨0,0⟩ .nil

/-- It stays where `inactive` is a part of a second. -/
theorem stale_kept (h0 : 0 < z.inactive) (h1 : z.inactive < 1000) :
    ¬ Reported z (3600 * 10 ^ 9) stale (managerPass never z (3600 * 10 ^ 9) stale).1
      (managerPass never z (3600 * 10 ^ 9) stale).2 := by
  have hwalk : collect never [] stale ⟨stale,[],.default⟩ = ⟨stale,[⟨[lit "e"],0,0⟩],.default⟩ := rfl
  have hpass := @managerPass_untouched z _ (3600 * 10 ^ 9) _ hwalk (fun h => by omega) rfl
  intro h
  have hmem : (⟨[lit "e"],0,0⟩ : OnDisk) ∈ entriesOf (managerPass never z (3600 * 10 ^ 9) stale).1 := by
    rw [hpass]
    exact List.mem_cons_self
  refine h.active _ hmem ⟨h0,?_⟩
  change z.inactive < (3600 * 10 ^ 9 / 10 ^ 9 - 0) * 1000
  omega

/-- Two files that together have as many bytes as a word has values. -/
def huge : Disk := .file (lit "a") ⟨2 ^ 63,0⟩ (.file (lit "b") ⟨2 ^ 63,0⟩ .nil)

theorem huge_sizes : sizes (entriesOf huge) = 2 ^ 64 := by decide +kernel

theorem huge_miscounted (z : Zone) : ¬ Reported z 0 huge (managerPass never z 0 huge).1 (managerPass never z 0 huge).2 := by
  have hwalk : collect never [] huge ⟨huge,[],.default⟩ =
      ⟨huge,[⟨[lit "a"],2 ^ 63,0⟩,⟨[lit "b"],2 ^ 63,0⟩],.default⟩ := rfl
  have hkeep : ∀ e ∈ [(⟨[lit "a"],2 ^ 63,0⟩ : OnDisk),⟨[lit "b"],2 ^ 63,0⟩], ¬ Stale (0 / 10 ^ 9) (z.inactive / 1000) e := by
    intro e _ hs
    unfold Stale at hs
    omega
  have hpass := @managerPass_untouched z _ 0 _ hwalk (fun _ => hkeep) rfl
  intro h
  have hbytes := h.bytes
  rw [hpass] at hbytes
  have hsame : entriesOf (Listing.prune huge) = entriesOf huge := rfl
  rw [hsame,huge_sizes] at hbytes
  cases hbytes

/-- A pass does what it reports for every directory of less than `limit` bytes,
exactly if `inactive` is not a part of a second and the bytes fit their count. -/
theorem managerPass_reported_iff (z : Zone) {limit : ℕ} (hl : 0 < limit) :
    (∀ (now : ℕ) (before : Tree), sizes (entriesOf before.root) < limit →
      Reported z now before.root (managerPass never z now before.root).1 (managerPass never z now before.root).2) ↔
    (z.inactive = 0 ∨ 1000 ≤ z.inactive) ∧ limit ≤ 2 ^ 64 := by
  constructor
  · intro hall
    constructor
    · by_contra hz
      have hstale : stale.Distinct := ⟨List.not_mem_nil,trivial⟩
      exact stale_kept (by omega) (by omega) (hall _ ⟨stale,hstale⟩ hl)
    · by_contra hbig
      have hhuge : huge.Distinct := by
        refine ⟨?_,List.not_mem_nil,trivial⟩
        decide
      refine huge_miscounted z (hall 0 ⟨huge,hhuge⟩ ?_)
      rw [huge_sizes]
      omega
  · rintro ⟨hz,hle⟩ now before hlt
    exact managerPass_reported before.distinct (by omega) hz

theorem managerPass_reported_iff_hour : Reported ⟨0,3600000⟩ (7200 * 10 ^ 9) stale
    (managerPass never ⟨0,3600000⟩ (7200 * 10 ^ 9) stale).1 (managerPass never ⟨0,3600000⟩ (7200 * 10 ^ 9) stale).2 :=
  (managerPass_reported_iff ⟨0,3600000⟩ Nat.one_pos).mpr ⟨.inr (by decide),by decide⟩ (7200 * 10 ^ 9)
    ⟨stale,List.not_mem_nil,trivial⟩ Nat.one_pos

/-- With `inactive=500ms` an entry stays that has been idle for an hour. -/
theorem halfSecond_ignored : ¬ ∀ (z : Zone) (now : ℕ) (before : Tree),
    Reported z now before.root (managerPass never z now before.root).1 (managerPass never z now before.root).2 :=
  fun h => stale_kept (z := ⟨0,500⟩) (by decide) (by decide) (h _ _ ⟨stale,List.not_mem_nil,trivial⟩)

end Exact

end OxiServe.Server.CacheManager
