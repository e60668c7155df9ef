import Mathlib.Computability.RegularExpressions
import OxiServe.Http3.Reader

/-! # The grammar of a request stream

The frames of a request, by what their types are to a request stream, form a
regular language. The frames of a stream are there before any type is refused.
-/
namespace OxiServe.Http3
open Computability
open RegularExpression (char matches'_star matches'_char matches'_add matches'_mul matches'_epsilon)

section Letters
variable {α : Type*}

/-- The words over some letters. -/
theorem mem_kstar_letters {l : Language α} {p : α → Prop} (hl : ∀ w, w ∈ l ↔ ∃ a, p a ∧ w = [a]) {w : List α} :
    w ∈ l∗ ↔ ∀ a ∈ w, p a := by
  constructor
  · rintro ⟨ws,rfl,hw⟩ a ha
    obtain ⟨v,hv,ha⟩ := List.mem_flatten.mp ha
    obtain ⟨b,hb,rfl⟩ := (hl v).mp (hw v hv)
    rw [List.mem_singleton.mp ha]
    exact hb
  · intro h
    refine ⟨w.map (fun a => [a]),?_,?_⟩
    · rw [← List.flatMap_def,List.flatMap_singleton']
    · intro v hv
      obtain ⟨a,ha,rfl⟩ := List.mem_map.mp hv
      exact (hl _).mpr ⟨a,h a ha,rfl⟩

theorem mem_star_char {a : α} {w : List α} : w ∈ (char a).star.matches' ↔ ∀ b ∈ w, b = a := by
  rw [matches'_star]
  apply mem_kstar_letters
  intro v
  rw [matches'_char]
  constructor
  · rintro rfl
    exact ⟨a,rfl,rfl⟩
  · rintro ⟨b,rfl,rfl⟩
    rfl

theorem mem_star_char_add {a b : α} {w : List α} :
    w ∈ (char a + char b).star.matches' ↔ ∀ c ∈ w, c = a ∨ c = b := by
  rw [matches'_star]
  apply mem_kstar_letters
  intro v
  simp only [matches'_add,matches'_char,Language.mem_add]
  constructor
  · rintro (rfl | rfl)
    · exact ⟨a,.inl rfl,rfl⟩
    · exact ⟨b,.inr rfl,rfl⟩
  · rintro ⟨c,rfl | rfl,rfl⟩
    · exact .inl rfl
    · exact .inr rfl

theorem mem_char_mul {a : α} {P : RegularExpression α} {w : List α} :
    w ∈ (char a * P).matches' ↔ ∃ v ∈ P.matches', w = a :: v := by
  rw [matches'_mul,Language.mem_mul,matches'_char]
  constructor
  · rintro ⟨u,rfl,v,hv,rfl⟩
    exact ⟨v,hv,rfl⟩
  · rintro ⟨v,hv,rfl⟩
    exact ⟨[a],rfl,v,hv,rfl⟩

end Letters

section Sorts

/-- What a frame type is to a request stream. -/
inductive FrameSort
  | data
  | headers
  | pushPromise
  | control
  | reserved
  | unknown
deriving DecidableEq, Repr

def sortOf (kind : ℕ) : FrameSort :=
  if kind = Kind.data then .data
  else if kind = Kind.headers then .headers
  else if kind = Kind.pushPromise then .pushPromise
  else if isControl kind then .control
  else if isReservedH2 kind then .reserved
  else .unknown

/-- `unknown* HEADERS (DATA | unknown)* [HEADERS unknown*]`. -/
def grammar : RegularExpression FrameSort :=
  (char FrameSort.unknown).star * (char FrameSort.headers * ((char FrameSort.data + char FrameSort.unknown).star *
    (1 + char FrameSort.headers * (char FrameSort.unknown).star)))

theorem sortOf_control {kind : ℕ} : sortOf kind = .control ↔ isControl kind = true := by
  constructor
  · intro h
    unfold sortOf at h
    split_ifs at h
    assumption
  · intro h
    rcases isControl_iff.mp h with rfl | rfl | rfl | rfl
    · rfl
    · rfl
    · rfl
    · rfl

theorem sortOf_reserved {kind : ℕ} : sortOf kind = .reserved ↔ isReservedH2 kind = true := by
  constructor
  · intro h
    unfold sortOf at h
    split_ifs at h
    assumption
  · intro h
    have hk : ((kind = 2 ∨ kind = 6) ∨ kind = 8) ∨ kind = 9 := by simpa [isReservedH2] using h
    rcases hk with ((rfl | rfl) | rfl) | rfl
    · rfl
    · rfl
    · rfl
    · rfl

theorem sortOf_headers {kind : ℕ} : sortOf kind = .headers ↔ kind = Kind.headers := by
  constructor
  · intro h
    unfold sortOf at h
    split_ifs at h
    assumption
  · rintro rfl
    rfl

def FollowsGrammar (fs : List (ℕ × Bytes)) : Prop := fs.map (fun f => sortOf f.1) ∈ grammar.matches'

/-- The words of the grammar by their parts. -/
theorem mem_grammar {w : List FrameSort} : w ∈ grammar.matches' ↔ ∃ us mid tail, w = us ++ .headers :: (mid ++ tail) ∧
    (∀ s ∈ us, s = .unknown) ∧ (∀ s ∈ mid, s = .data ∨ s = .unknown) ∧
      (tail = [] ∨ ∃ vs, tail = .headers :: vs ∧ ∀ s ∈ vs, s = .unknown) := by
  have ht {tail : List FrameSort} : tail ∈ ((1 : RegularExpression FrameSort) + char FrameSort.headers *
      (char FrameSort.unknown).star).matches' ↔ tail = [] ∨ ∃ vs, tail = .headers :: vs ∧ ∀ s ∈ vs, s = .unknown := by
    rw [matches'_add,Language.mem_add,matches'_epsilon,Language.mem_one,mem_char_mul]
    simp only [mem_star_char,and_comm]
  rw [grammar,matches'_mul,Language.mem_mul]
  constructor
  · rintro ⟨us,hus,v,hv,rfl⟩
    obtain ⟨rest,hrest,rfl⟩ := mem_char_mul.mp hv
    rw [matches'_mul,Language.mem_mul] at hrest
    obtain ⟨mid,hmid,tail,htail,rfl⟩ := hrest
    exact ⟨us,mid,tail,rfl,mem_star_char.mp hus,mem_star_char_add.mp hmid,ht.mp htail⟩
  · rintro ⟨us,mid,tail,rfl,hus,hmid,htail⟩
    refine ⟨us,mem_star_char.mpr hus,_,mem_char_mul.mpr ⟨mid ++ tail,?_,rfl⟩,rfl⟩
    rw [matches'_mul]
    exact Language.append_mem_mul (mem_star_char_add.mpr hmid) (ht.mpr htail)

end Sorts

section Framing

/-- The type and the length of the next frame, whatever the type. -/
def frameHead (buf : Bytes) : Option (ℕ × ℕ × Bytes) :=
  match getVarint buf with
  | none => none
  | some (kind,a) =>
    match getVarint (buf.drop a) with
    | none => none
    | some (len,b) => some (kind,len,buf.drop (a + b))

/-- `Frames b fs`: the bytes are a sequence of whole frames of any types. -/
inductive Frames : Bytes → List (ℕ × Bytes) → Prop
  | nil : Frames [] []
  | cons {b rest rest' payload : Bytes} {kind len : ℕ} {fs : List (ℕ × Bytes)} :
    frameHead b = some (kind,len,rest) → exact rest len = some (payload,rest') → Frames rest' fs →
      Frames b ((kind,payload) :: fs)

theorem head_of_frameHead {buf rest : Bytes} {kind len : ℕ} (h : frameHead buf = some (kind,len,rest))
    (hr : isReservedH2 kind = false) : ∃ n, head buf = .ok (some (⟨kind,len,n⟩,rest)) := by
  unfold frameHead at h
  split at h
  · cases h
  · rename_i k a ha
    split at h
    · cases h
    · rename_i l b hb
      cases h
      refine ⟨a + b,?_⟩
      simp only [head,parseHead,ha,hb,hr,Bool.false_eq_true,if_false]

theorem frameHead_of_head {buf rest : Bytes} {h : Head} (hh : head buf = .ok (some (h,rest))) :
    frameHead buf = some (h.kind,h.len,rest) ∧ isReservedH2 h.kind = false := by
  unfold head at hh
  split at hh
  · cases hh
  · rename_i h' hp
    cases hh
    unfold parseHead at hp
    split at hp
    · cases hp
    · rename_i kind a ha
      split at hp
      · cases hp
      · rename_i len b hb
        split at hp
        · cases hp
        · rename_i hr
          cases hp
          simp only [frameHead,ha,hb,Bool.eq_false_iff.mpr hr,and_self]
  · split at hh
    · cases hh
    · cases hh

theorem Frames.deterministic {b : Bytes} {fs gs : List (ℕ × Bytes)} (h : Frames b fs) (h' : Frames b gs) : fs = gs := by
  induction h generalizing gs with
  | nil =>
    cases h' with
    | nil => rfl
    | cons hh _ _ => cases hh
  | cons hh hx _ ih =>
    cases h' with
    | nil => cases hh
    | cons hh' hx' hr' =>
      rw [hh] at hh'
      cases hh'
      rw [hx] at hx'
      cases hx'
      rw [ih hr']

/-- The server reads the frames of a stream up to a type it reserves. -/
theorem carries_iff {b : Bytes} {fs : List (ℕ × Bytes)} :
    Carries b fs ↔ Frames b fs ∧ ∀ f ∈ fs, isReservedH2 f.1 = false := by
  constructor
  · intro h
    induction h with
    | nil => exact ⟨.nil,by simp⟩
    | cons hh hx _ ih =>
      obtain ⟨hf,hr⟩ := frameHead_of_head hh
      exact ⟨.cons hf hx ih.1,List.forall_mem_cons.mpr ⟨hr,ih.2⟩⟩
  · rintro ⟨h,hr⟩
    induction h with
    | nil => exact .nil
    | cons hf hx _ ih =>
      obtain ⟨hr,hrs⟩ := List.forall_mem_cons.mp hr
      obtain ⟨n,hh⟩ := head_of_frameHead hf hr
      exact .cons hh hx (ih hrs)

end Framing

end OxiServe.Http3
