import Mathlib.Data.List.Basic
import OxiServe.Http.Uri

/-! # Canonical paths

A canonical path is absolute and has neither dot segments nor a NUL byte. That is
what normalisation makes of every path it accepts.
-/
namespace OxiServe.Uri

section Segments
variable {a b s : Bytes}

/-- A path segment that stays where it is. -/
def Proper (seg : Bytes) : Prop := seg ≠ lit "." ∧ seg ≠ lit ".."

/-- No segment between slashes is `.` or `..`, and no byte is NUL. -/
structure Clean (s : Bytes) : Prop where
  segments : ∀ seg ∈ split 47 s, Proper seg
  noNul : 0 ∉ s

structure Canonical (u : Bytes) : Prop extends Clean u where
  absolute : u.head? = some 47

theorem split_append_slash : split 47 (a ++ 47 :: b) = split 47 a ++ split 47 b := List.splitOn_append_cons_self _ _

theorem proper_nil : Proper [] := ⟨by decide,by decide⟩

theorem clean_nil : Clean [] := by
  refine ⟨?_,by simp⟩
  intro seg hseg
  rw [split,List.splitOn_nil,List.mem_singleton] at hseg
  rw [hseg]
  exact proper_nil

theorem clean_append_slash : Clean (a ++ 47 :: b) ↔ Clean a ∧ Clean b := by
  constructor
  · rintro ⟨hs,hn⟩
    rw [split_append_slash] at hs
    refine ⟨⟨fun x hx => hs x (List.mem_append_left _ hx),?_⟩,fun x hx => hs x (List.mem_append_right _ hx),?_⟩
    · exact fun h => hn (List.mem_append_left _ h)
    · exact fun h => hn (List.mem_append_right _ (List.mem_cons_of_mem _ h))
  · rintro ⟨ha,hb⟩
    refine ⟨?_,?_⟩
    · intro x hx
      rw [split_append_slash] at hx
      exact (List.mem_append.mp hx).elim (ha.segments x) (hb.segments x)
    · intro h
      rcases List.mem_append.mp h with h | h
      · exact ha.noNul h
      · rcases List.mem_cons.mp h with h | h
        · cases h
        · exact hb.noNul h

theorem clean_of_proper (h : 47 ∉ s) (hn : 0 ∉ s) (hp : Proper s) : Clean s := by
  refine ⟨?_,hn⟩
  rw [split,List.splitOn_eq_singleton h]
  intro seg hseg
  rw [List.mem_singleton.mp hseg]
  exact hp

end Segments

section Scan

theorem proper_of_head {seg : Bytes} (h : seg.head? ≠ some 46) : Proper seg := by
  refine ⟨?_,?_⟩
  · rintro rfl
    exact h rfl
  · rintro rfl
    exact h rfl

end Scan

section Loop
variable {st st' : NormState} {seg : Bytes}

/-- The output so far: whole segments, each with its slash. -/
structure Whole (out : Bytes) : Prop extends Canonical out where
  slash : out.getLast? = some 47

theorem Whole.append {out : Bytes} (h : Whole out) (hs : 47 ∉ seg) (hn : 0 ∉ seg) (hp : Proper seg) :
    Whole (out ++ seg ++ [47]) := by
  obtain ⟨o,rfl⟩ := List.getLast?_eq_some_iff.mp h.slash
  have he : o ++ [47] ++ seg ++ [47] = o ++ 47 :: (seg ++ 47 :: []) := by simp
  refine ⟨⟨?_,?_⟩,List.getLast?_concat⟩
  · rw [he,clean_append_slash,clean_append_slash]
    exact ⟨(clean_append_slash.mp h.toClean).1,clean_of_proper hs hn hp,clean_nil⟩
  · have ha := h.absolute
    cases o with
    | nil => rfl
    | cons c o => exact ha

theorem notMem_snoc {a c : UInt8} (h : a ∉ seg) (hc : a ≠ c) : a ∉ seg ++ [c] := by
  rw [List.mem_append,List.mem_singleton,not_or]
  exact ⟨h,hc⟩

end Loop

end OxiServe.Uri
