import Mathlib.Data.List.Basic

/-! # Directory trees

A directory as it is listed, with names that do not repeat. A file is reached by
the names on the way to it; taking it away leaves every other file, and so does
taking away the directories that have become empty.
-/
namespace OxiServe
variable {N F : Type*}

/-- The entries of a directory in the order they are listed in. -/
inductive Listing (N F : Type*)
  | nil
  | file (name : N) (data : F) (rest : Listing N F)
  | dir (name : N) (sub rest : Listing N F)
deriving DecidableEq

namespace Listing

def names : Listing N F → List N
  | nil => []
  | file n _ rest => n :: rest.names
  | dir n _ rest => n :: rest.names

/-- No name stands twice in a directory. -/
def Distinct : Listing N F → Prop
  | nil => True
  | file n _ rest => n ∉ rest.names ∧ rest.Distinct
  | dir n sub rest => n ∉ rest.names ∧ sub.Distinct ∧ rest.Distinct

/-- The files below, each with the way to it from `at`. -/
def files (way : List N) : Listing N F → List (List N × F)
  | nil => []
  | file n f rest => (way ++ [n],f) :: rest.files way
  | dir n sub rest => sub.files (way ++ [n]) ++ rest.files way

/-- Directories without entries are taken away, from the bottom up. -/
def prune : Listing N F → Listing N F
  | nil => nil
  | file n f rest => file n f rest.prune
  | dir n sub rest =>
    match sub.prune with
    | nil => rest.prune
    | sub => dir n sub rest.prune

variable {t : Listing N F} {way p : List N} {x : List N × F}

/-- A file lies below an entry of the directory. -/
theorem files_below (h : x ∈ t.files way) : ∃ n ∈ t.names, ∃ q, x.1 = way ++ n :: q := by
  induction t generalizing way with
  | nil => cases h
  | file n f rest ih =>
    rcases List.mem_cons.mp h with rfl | h
    · exact ⟨n,List.mem_cons_self,[],rfl⟩
    · obtain ⟨m,hm,q,hq⟩ := ih h
      exact ⟨m,List.mem_cons_of_mem _ hm,q,hq⟩
  | dir n sub rest ihs ihr =>
    rcases List.mem_append.mp h with h | h
    · obtain ⟨m,-,q,hq⟩ := ihs h
      exact ⟨n,List.mem_cons_self,m :: q,by rw [hq,List.append_assoc,List.singleton_append]⟩
    · obtain ⟨m,hm,q,hq⟩ := ihr h
      exact ⟨m,List.mem_cons_of_mem _ hm,q,hq⟩

/-- The files beside an entry are not below it. -/
theorem files_beside {n : N} (hn : n ∉ t.names) (h : x ∈ t.files way) (q : List N) : x.1 ≠ way ++ n :: q := by
  obtain ⟨m,hm,q',hq⟩ := files_below h
  intro he
  rw [hq] at he
  have hcons := List.append_cancel_left he
  rw [(List.cons.inj hcons).1] at hm
  exact hn hm

theorem nodup_files (hd : t.Distinct) (way : List N) : ((t.files way).map Prod.fst).Nodup := by
  induction t generalizing way with
  | nil => exact List.nodup_nil
  | file n f rest ih =>
    obtain ⟨hn,hrest⟩ := hd
    refine List.nodup_cons.mpr ⟨fun hm => ?_,ih hrest way⟩
    obtain ⟨x,hx,hp⟩ := List.mem_map.mp hm
    exact files_beside hn hx [] hp
  | dir n sub rest ihs ihr =>
    obtain ⟨hn,hsub,hrest⟩ := hd
    rw [files,List.map_append]
    refine List.nodup_append.mpr ⟨ihs hsub _,ihr hrest way,fun a ha b hb hab => ?_⟩
    obtain ⟨x,hx,rfl⟩ := List.mem_map.mp ha
    obtain ⟨y,hy,rfl⟩ := List.mem_map.mp hb
    obtain ⟨m,-,q,hq⟩ := files_below hx
    rw [hq,List.append_assoc,List.singleton_append] at hab
    exact files_beside hn hy _ hab.symm

theorem files_prune (t : Listing N F) (way : List N) : t.prune.files way = t.files way := by
  induction t generalizing way with
  | nil => rfl
  | file n f rest ih => rw [prune,files,files,ih]
  | dir n sub rest ihs ihr =>
    rw [prune,files,← ihs (way ++ [n]),← ihr way]
    cases hs : sub.prune with
    | nil => rfl
    | file m f r => rfl
    | dir m s r => rfl

section Erase
variable [DecidableEq N]

/-- The file at the end of a path is taken away. -/
def erase (p : List N) : Listing N F → Listing N F
  | nil => nil
  | file n f rest => if p = [n] then rest else file n f (rest.erase p)
  | dir n sub rest => if p.head? = some n then dir n (sub.erase p.tail) rest else dir n sub (rest.erase p)

theorem erase_names_subset (t : Listing N F) (p : List N) : (t.erase p).names ⊆ t.names := by
  induction t with
  | nil => exact List.Subset.refl _
  | file n f rest ih =>
    rw [erase]
    split
    · exact List.subset_cons_self n rest.names
    · exact List.cons_subset_cons n ih
  | dir n sub rest _ ih =>
    rw [erase]
    split
    · exact List.Subset.refl _
    · exact List.cons_subset_cons n ih

theorem erase_distinct (hd : t.Distinct) (p : List N) : (t.erase p).Distinct := by
  induction t generalizing p with
  | nil => trivial
  | file n f rest ih =>
    obtain ⟨hn,hrest⟩ := hd
    rw [erase]
    split
    · exact hrest
    · exact ⟨fun h => hn (erase_names_subset rest p h),ih hrest p⟩
  | dir n sub rest ihs ihr =>
    obtain ⟨hn,hsub,hrest⟩ := hd
    rw [erase]
    split
    · exact ⟨hn,ihs hsub _,hrest⟩
    · exact ⟨fun h => hn (erase_names_subset rest p h),hsub,ihr hrest p⟩

theorem filter_beside {n : N} (hn : n ∉ t.names) (q : List N) :
    (t.files way).filter (fun x => x.1 ≠ way ++ n :: q) = t.files way :=
  List.filter_eq_self.mpr fun _ hx => decide_eq_true (files_beside hn hx q)

/-- Every other file stays. -/
theorem files_erase (hd : t.Distinct) (way p : List N) :
    (t.erase p).files way = (t.files way).filter (fun x => x.1 ≠ way ++ p) := by
  induction t generalizing way p with
  | nil => rfl
  | file n f rest ih =>
    obtain ⟨hn,hrest⟩ := hd
    rw [erase]
    by_cases hp : p = [n]
    · rw [if_pos hp,hp,files,List.filter_cons_of_neg (by simp),filter_beside hn]
    · have hne : way ++ [n] ≠ way ++ p := fun h => hp (List.append_cancel_left h).symm
      rw [if_neg hp,files,files,List.filter_cons_of_pos (by simpa using hne),ih hrest]
  | dir n sub rest ihs ihr =>
    obtain ⟨hn,hsub,hrest⟩ := hd
    rw [erase]
    by_cases hp : p.head? = some n
    · obtain ⟨q,rfl⟩ : ∃ q, p = n :: q := by
        cases p with
        | nil => cases hp
        | cons m q =>
          obtain rfl : m = n := Option.some.inj hp
          exact ⟨q,rfl⟩
      rw [if_pos hp,files,files,List.filter_append,filter_beside hn,ihs hsub,List.append_assoc]
      rfl
    · rw [if_neg hp,files,files,List.filter_append,ihr hrest]
      congr 1
      refine (List.filter_eq_self.mpr fun x hx => ?_).symm
      obtain ⟨m,-,q,hq⟩ := files_below hx
      rw [decide_eq_true_eq]
      intro he
      rw [hq,List.append_assoc] at he
      rw [← List.append_cancel_left he] at hp
      exact hp rfl

/-- A tree without the files at some paths. -/
structure Without (t : Listing N F) (ps : List (List N)) (t' : Listing N F) : Prop where
  distinct : t'.Distinct
  files : t'.files [] = (t.files []).filter (fun x => x.1 ∉ ps)

theorem Without.refl (hd : t.Distinct) : t.Without [] t :=
  ⟨hd,(List.filter_eq_self.mpr fun x _ => by simp).symm⟩

variable {t' : Listing N F} {ps : List (List N)}

theorem Without.erase (h : t.Without ps t') (p : List N) : t.Without (ps ++ [p]) (t'.erase p) := by
  refine ⟨erase_distinct h.distinct p,?_⟩
  rw [files_erase h.distinct,h.files,List.filter_filter]
  apply List.filter_congr
  intro x _
  simp only [List.nil_append,List.mem_append,List.mem_singleton,not_or,Bool.decide_and,ne_eq]
  exact Bool.and_comm _ _

theorem Without.mem (h : t.Without ps t') : x ∈ t'.files [] ↔ x ∈ t.files [] ∧ x.1 ∉ ps := by
  rw [h.files,List.mem_filter,decide_eq_true_eq]

end Erase

end Listing

end OxiServe
