import OxiServe.Http.Segments
import OxiServe.Lib.Utf8

/-! # Encoded paths normalise to themselves

A normalised path is a run of solid segments. Encoding works inside the
segments, where it leaves no slash and no dot segment behind, and decoding a
segment undoes it.
-/
namespace OxiServe.Uri

section Encoded
variable {c : UInt8} {s : Bytes}

/-- What `encode_path` writes for one byte. -/
def encodeByte (c : UInt8) : Bytes :=
  if isPathSafe c then [c] else [37,hexDigits.getD (c >>> 4).toNat 0,hexDigits.getD (c &&& 0xf).toNat 0]

theorem encodePath_cons : encodePath (c :: s) = encodeByte c ++ encodePath s := List.flatMap_cons

theorem encodePath_append (s t : Bytes) : encodePath (s ++ t) = encodePath s ++ encodePath t := List.flatMap_append

/-- The bytes written for one byte are plain, and none of them is a slash or a
NUL unless the byte is one. -/
theorem encodeByte_plain (c : UInt8) : ∀ d ∈ encodeByte c, d < 0x80 ∧ d ≠ 0 ∧ (d = 47 → c = 47) := by
  have hall := forall_byte (fun c => (encodeByte c).all (fun d => d < 0x80 && d != 0 && (d != 47 || c == 47)))
    (by decide +kernel) c
  intro d hd
  have hplain := List.all_eq_true.mp hall d hd
  simp only [Bool.and_eq_true,Bool.or_eq_true,decide_eq_true_eq,bne_iff_ne,beq_iff_eq,and_assoc] at hplain
  exact ⟨hplain.1,hplain.2.1,fun h => hplain.2.2.resolve_left fun hne => hne h⟩

example : encodeByte 0xe9 = lit "%E9" := by decide +kernel

theorem safe_ne_percent (h : isPathSafe c = true) : c ≠ 37 := by
  rintro rfl
  exact absurd h (by decide)

/-- The two digits of an escape are those of its byte. -/
theorem escape_digits (c : UInt8) :
    digitValue (hexDigits.getD (c >>> 4).toNat 0) = some (c.toNat / 16) ∧
      digitValue (hexDigits.getD (c &&& 0xf).toNat 0) = some (c.toNat % 16) := by
  have hall := forall_byte
    (fun c => digitValue (hexDigits.getD (c >>> 4).toNat 0) == some (c.toNat / 16) &&
      digitValue (hexDigits.getD (c &&& 0xf).toNat 0) == some (c.toNat % 16)) (by decide +kernel) c
  rwa [Bool.and_eq_true,beq_iff_eq,beq_iff_eq] at hall

theorem unescaped_encodeByte (c : UInt8) (t : Bytes) :
    unescaped (encodeByte c ++ t) = (unescaped t).map (c :: ·) := by
  unfold encodeByte
  split
  · next hsafe => exact unescaped_plain (safe_ne_percent hsafe)
  · obtain ⟨hhigh,hlow⟩ := escape_digits c
    have hbyte : UInt8.ofNat (16 * (c.toNat / 16) + c.toNat % 16) = c := by
      rw [Nat.div_add_mod,UInt8.ofNat_toNat]
    rw [List.cons_append,List.cons_append,List.singleton_append,unescaped_escape,hhigh,hlow]
    dsimp only
    rw [hbyte]

theorem unescaped_encodePath (s : Bytes) : unescaped (encodePath s) = some s := by
  induction s with
  | nil => rfl
  | cons c s ih =>
    rw [encodePath_cons,unescaped_encodeByte,ih]
    rfl

theorem unescaped_of_no_percent (h : 37 ∉ s) : unescaped s = some s := by
  induction s with
  | nil => rfl
  | cons c s ih =>
    rw [List.mem_cons,not_or] at h
    rw [unescaped_plain (Ne.symm h.1),ih h.2]
    rfl

theorem utf8Valid_encodePath (s : Bytes) : utf8Valid (encodePath s) = true := by
  have hascii : ∀ t : Bytes, (∀ d ∈ t, d < 0x80) → utf8Valid t = true := by
    intro t ht
    induction t with
    | nil => rfl
    | cons d t ih =>
      obtain ⟨hd,ht⟩ := List.forall_mem_cons.mp ht
      rw [utf8Valid_cons_ascii hd]
      exact ih ht
  apply hascii
  intro d hd
  obtain ⟨c,-,hc⟩ := List.mem_flatMap.mp hd
  exact (encodeByte_plain c d hc).1

end Encoded

section Round
variable {segs : List Bytes} {slash : Bool}

/-- Encoding a segment leaves it one. -/
theorem Solid.encodePath {s : Bytes} (h : Solid s) : Solid (Uri.encodePath s) where
  ne_nil := by
    intro he
    have hs := unescaped_encodePath s
    rw [he] at hs
    exact h.ne_nil (Option.some.inj hs).symm
  proper := by
    constructor
    · intro he
      have hs := unescaped_encodePath s
      rw [he] at hs
      exact h.proper.1 (Option.some.inj hs).symm
    · intro he
      have hs := unescaped_encodePath s
      rw [he] at hs
      exact h.proper.2 (Option.some.inj hs).symm
  noNul := by
    intro h0
    obtain ⟨c,-,hc⟩ := List.mem_flatMap.mp h0
    exact (encodeByte_plain c 0 hc).2.1 rfl
  noSlash := by
    intro hs
    obtain ⟨c,hm,hc⟩ := List.mem_flatMap.mp hs
    exact h.noSlash ((encodeByte_plain c 47 hc).2.2 rfl ▸ hm)

/-- Encoding goes segment by segment. -/
theorem encodePath_joined (segs : List Bytes) (slash : Bool) :
    encodePath (joinPath segs slash) = joinPath (segs.map encodePath) slash := by
  have hslash : encodePath [47] = [47] := by decide
  have hsegs : ∀ l : List Bytes, encodePath (l.flatMap fun s => 47 :: s) = (l.map encodePath).flatMap fun s => 47 :: s := by
    intro l
    induction l with
    | nil => rfl
    | cons s l ih =>
      rw [List.flatMap_cons,encodePath_append,ih,encodePath_cons,show encodeByte 47 = [47] by decide]
      rfl
  by_cases hne : segs = []
  · subst hne
    exact hslash
  · have hmap : segs.map encodePath ≠ [] := by simpa using hne
    rw [joinPath,if_neg hne,joinPath,if_neg hmap,encodePath_append,hsegs]
    cases slash with
    | true => exact congrArg _ hslash
    | false => rfl

theorem push_solid (h : ∀ s ∈ segs, Solid s) (stack : List Bytes) :
    segs.foldlM pushSegment stack = some (segs.reverse ++ stack) := by
  induction segs generalizing stack with
  | nil => rfl
  | cons s segs ih =>
    obtain ⟨hs,hrest⟩ := List.forall_mem_cons.mp h
    have hpush : pushSegment stack s = some (s :: stack) := by
      unfold pushSegment
      rw [if_neg (not_or.mpr ⟨hs.ne_nil,hs.proper.1⟩),if_neg hs.proper.2]
    rw [List.foldlM_cons,hpush,Option.bind_eq_bind,Option.bind_some,ih hrest,List.reverse_cons,List.append_assoc]
    rfl

theorem mapM_written {write : Bytes → Bytes} (h : ∀ s ∈ segs, unescaped (write s) = some s) :
    (segs.map write).mapM unescaped = some segs := by
  induction segs with
  | nil => rfl
  | cons s segs ih =>
    obtain ⟨hs,hrest⟩ := List.forall_mem_cons.mp h
    rw [List.map_cons,List.mapM_cons,hs,ih hrest]
    rfl

/-- Segments in any writing that decodes to them come to their path. -/
theorem resolves_written {write : Bytes → Bytes} (h : ∀ s ∈ segs, Solid s)
    (hw : ∀ s ∈ segs, Solid (write s) ∧ unescaped (write s) = some s) (hu : utf8Valid (joinPath segs slash) = true) :
    Resolves (joinPath (segs.map write) slash) (joinPath segs slash) := by
  by_cases hne : segs = []
  · subst hne
    exact ⟨[[]],[],rfl,by decide,rfl,rfl,hu⟩
  have hmap : segs.map write ≠ [] := by simpa using hne
  have hsolid : ∀ t ∈ segs.map write, Solid t := by
    intro t ht
    obtain ⟨s,hs,rfl⟩ := List.mem_map.mp ht
    exact (hw s hs).1
  have hend : endsInSlash (joinPath (segs.map write) slash) = slash := by
    have hroot : joinPath (segs.map write) slash ≠ [47] := by
      intro he
      have hown := @ownSegments_joined _ slash hsolid
      rw [he] at hown
      exact hmap hown.symm
    rw [endsInSlash,Bool.eq_iff_iff,beq_iff_eq]
    exact last_joined hroot hsolid
  refine ⟨segs ++ (if slash then [[]] else []),segs.reverse,?_,?_,?_,?_,hu⟩
  · rw [rawSegments_joined hmap hsolid,List.mapM_append,mapM_written fun s hs => (hw s hs).2]
    cases slash <;> rfl
  · intro s hs
    rcases List.mem_append.mp hs with hs | hs
    · exact ⟨(h s hs).noNul,(h s hs).noSlash⟩
    · cases slash with
      | true => simp [List.mem_singleton.mp hs]
      | false => cases hs
  · rw [List.foldlM_append,push_solid h,List.append_nil]
    cases slash <;> rfl
  · rw [List.reverse_reverse,hend]

theorem normalize_of_resolves {path out : Bytes} (hp : path.head? = some 47) (hu : utf8Valid path = true)
    (h : Resolves path out) : normalize path = .ok out := by
  cases path with
  | nil => cases hp
  | cons c r =>
    obtain rfl : c = 47 := Option.some.inj hp
    rw [normalize_eq_slowly hp hu]
    exact normalizeSlowly_ok.mpr h

/-- What normalisation returns is a path of solid segments. -/
theorem normalize_joined {path p : Bytes} (hu : utf8Valid path = true) (h : normalize path = .ok p) :
    utf8Valid p = true ∧ ∃ segs slash, (∀ s ∈ segs, Solid s) ∧ p = joinPath segs slash := by
  have hp : path.head? = some 47 := by
    by_contra hp
    rw [normalize,if_pos hp] at h
    cases h
  cases path with
  | nil => cases hp
  | cons c r =>
    obtain rfl : c = 47 := Option.some.inj hp
    rw [normalize_eq_slowly hp hu] at h
    have hres := normalizeSlowly_ok.mp h
    obtain ⟨segs,hsolid,rfl⟩ := hres.solid
    obtain ⟨_,_,-,-,-,-,hvalid⟩ := hres
    exact ⟨hvalid,segs,_,hsolid,rfl⟩

/-- Path encoding inverts normalisation, and a normalised path without a `%` is
normalised already. -/
theorem normalize_encodePath {path p : Bytes} (hu : utf8Valid path = true) (h : normalize path = .ok p) :
    normalize (encodePath p) = .ok p ∧ (37 ∉ p → normalize p = .ok p) := by
  obtain ⟨hvalid,segs,slash,hsolid,rfl⟩ := normalize_joined hu h
  constructor
  · rw [encodePath_joined]
    apply normalize_of_resolves head_joined
    · rw [← encodePath_joined]
      exact utf8Valid_encodePath _
    · exact resolves_written hsolid (fun s hs => ⟨(hsolid s hs).encodePath,unescaped_encodePath s⟩) hvalid
  · intro hpercent
    apply normalize_of_resolves head_joined hvalid
    have hplain : ∀ s ∈ segs, Solid (id s) ∧ unescaped (id s) = some s := by
      intro s hs
      refine ⟨hsolid s hs,unescaped_of_no_percent fun hm => hpercent ?_⟩
      rw [joinPath,if_neg (List.ne_nil_of_mem hs)]
      exact List.mem_append_left _ (List.mem_flatMap.mpr ⟨s,hs,List.mem_cons_of_mem _ hm⟩)
    have hres := resolves_written hsolid hplain hvalid
    rwa [List.map_id] at hres

theorem normalize_encodePath_dots :
    normalize (encodePath (lit "/50% a/c/")) = .ok (lit "/50% a/c/") ∧ normalize (lit "/a b") = .ok (lit "/a b") :=
  ⟨(normalize_encodePath (by decide +kernel : utf8Valid (lit "/50%25%20a/b/../c/") = true) (by decide +kernel)).1,
    (normalize_encodePath (by decide +kernel : utf8Valid (lit "/./a%20b") = true) (by decide +kernel)).2
      (by decide +kernel)⟩

end Round

end OxiServe.Uri
