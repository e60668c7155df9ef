import OxiServe.Http.Segments
import OxiServe.Server.Files

/-! # What is appended to an alias

An alias replaces the prefix of its location. The prefix may end within a segment of the URI,
and what is left of the segment is then a component of the path, without having been one of
the URI.
-/
namespace OxiServe.Server
open Config
open Uri (Proper ownSegments rawSegments)

section Pieces
variable {a r x : Bytes} {xs : List Bytes}

/-- The pieces of a text behind its first slash are pieces of every text that ends in it. -/
theorem tail_split_append (a : Bytes) (h : split 47 r = x :: xs) : xs ⊆ (split 47 (a ++ r)).tail := by
  induction a with
  | nil =>
    rw [List.nil_append,h]
    exact List.Subset.refl _
  | cons c a ih =>
    by_cases hc : c = 47
    · subst hc
      rw [List.cons_append,Uri.split_slash,List.tail_cons]
      exact fun seg hseg => List.mem_of_mem_tail (ih hseg)
    · obtain ⟨z,zs,hz⟩ := Uri.split_cons' (a ++ r)
      rw [hz] at ih
      rw [List.cons_append,Uri.split_cons hc,hz]
      exact ih

/-- The first piece ends at a slash, or is all there is. -/
theorem first_piece (h : split 47 r = x :: xs) : 47 ∉ x ∧ (r = x ∨ ∃ t, r = x ++ 47 :: t) := by
  induction r generalizing x xs with
  | nil =>
    cases h
    exact ⟨by simp,.inl rfl⟩
  | cons c r ih =>
    by_cases hc : c = 47
    · subst hc
      rw [Uri.split_slash] at h
      cases h
      exact ⟨by simp,.inr ⟨r,rfl⟩⟩
    · obtain ⟨y,ys,hy⟩ := Uri.split_cons' r
      rw [Uri.split_cons hc,hy] at h
      cases h
      obtain ⟨hno,hr⟩ := ih hy
      refine ⟨List.not_mem_cons_of_ne_of_not_mem (Ne.symm hc) hno,?_⟩
      rcases hr with hr | ⟨t,ht⟩
      · exact .inl (congrArg (c :: ·) hr)
      · exact .inr ⟨t,congrArg (c :: ·) ht⟩

/-- A text begins with `..` as a component. -/
def StartsUp (r : Bytes) : Prop := r = lit ".." ∨ ∃ t, r = lit ".." ++ 47 :: t

theorem first_piece_up (h : split 47 r = x :: xs) : x = lit ".." ↔ StartsUp r := by
  constructor
  · rintro rfl
    exact (first_piece h).2
  · have hdots : split 47 (lit "..") = [lit ".."] := by decide
    rintro (rfl | ⟨t,rfl⟩)
    · rw [hdots] at h
      exact (List.cons.inj h).1.symm
    · rw [Uri.split_append_slash,hdots] at h
      exact (List.cons.inj h).1.symm

end Pieces

section Alias
variable {env : Env} {ctx : Ctx} {core : CoreConf} {t : Template} {matcher : Option LocMatch}

/-- An absolute path without empty and dot segments. -/
structure PlainPath (u : Bytes) : Prop where
  absolute : u.head? = some 47
  segments : ∀ seg ∈ ownSegments u, seg ≠ [] ∧ Proper seg

/-- The path is the value of the alias with something behind it that has no `..`. -/
def Confined (base path : Bytes) : Prop := ∃ part, path = base ++ part ∧ lit ".." ∉ split 47 part

theorem PlainPath.noUp {u : Bytes} (h : PlainPath u) : lit ".." ∉ split 47 u := by
  intro hm
  obtain ⟨r,rfl⟩ : ∃ r, u = 47 :: r := by
    cases u with
    | nil => cases h.absolute
    | cons c r => exact ⟨r,congrArg (· :: r) (Option.some.inj h.absolute)⟩
  rw [Uri.split_slash] at hm
  have hm' : lit ".." ∈ rawSegments (47 :: r) := by
    rw [rawSegments,Uri.split_slash]
    exact (List.mem_cons.mp hm).resolve_left (by decide)
  have hown : lit ".." ∈ ownSegments (47 :: r) := by
    unfold ownSegments
    split
    · rename_i hlast
      obtain ⟨init,hinit⟩ := List.getLast?_eq_some_iff.mp hlast
      rw [hinit] at hm' ⊢
      rw [List.dropLast_concat]
      rcases List.mem_append.mp hm' with hm' | hm'
      · exact hm'
      · exact absurd (List.mem_singleton.mp hm') (by decide)
    · exact hm'
  exact (h.segments _ hown).2.2 rfl

theorem confined_append (base part : Bytes) : Confined base (base ++ part) ↔ lit ".." ∉ split 47 part := by
  constructor
  · rintro ⟨p,hp,hno⟩
    rw [List.append_cancel_left hp]
    exact hno
  · exact fun hno => ⟨part,rfl,hno⟩

theorem up_mem_slash (r : Bytes) : lit ".." ∉ split 47 (47 :: r) ↔ lit ".." ∉ split 47 r := by
  rw [Uri.split_slash]
  constructor
  · exact fun h hm => h (List.mem_cons_of_mem _ hm)
  · exact fun h hm => h ((List.mem_cons.mp hm).resolve_left (by decide))

/-- What is left of the URI when the prefix is cut off. -/
def restOf (uri : Bytes) (matcher : Option LocMatch) : Bytes :=
  (textFrom uri (((matcher.bind LocMatch.prefixOf).map List.length).getD uri.length)).getD []

/-- One slash or none more makes no difference to the components. -/
theorem mapPath_confined (ha : core.aliasTo = some t) :
    Confined (ctx.render env t) (mapPath env ctx core matcher) ↔ lit ".." ∉ split 47 (restOf ctx.uri matcher) := by
  unfold mapPath
  rw [ha]
  dsimp only
  generalize hr : restOf ctx.uri matcher = rest
  rw [restOf] at hr
  rw [hr]
  generalize ctx.render env t = base
  split_ifs with h1 h2 h3
  · subst h1
    have hself := confined_append base []
    rwa [List.append_nil] at hself
  · obtain ⟨b,rfl⟩ := List.getLast?_eq_some_iff.mp h2.1
    obtain ⟨r,rfl⟩ : ∃ r, rest = 47 :: r := by
      cases rest with
      | nil => exact absurd rfl h1
      | cons c r => exact ⟨r,congrArg (· :: r) (Option.some.inj h2.2)⟩
    have he : (b ++ [47]).dropLast ++ 47 :: r = (b ++ [47]) ++ r := by rw [List.dropLast_concat]; simp
    rw [he,confined_append,up_mem_slash]
  · rw [List.append_assoc,confined_append,List.singleton_append,up_mem_slash]
  · exact confined_append base rest

theorem isCont_up {r : Bytes} (h : StartsUp r) : r.head?.any isCont = false := by
  rcases h with rfl | ⟨t,rfl⟩
  · decide
  · rfl

/-- The path stays in the directory of the alias exactly when the URI does not go on with
`..` behind the prefix. -/
theorem mapPath_confined_iff (env : Env) (ctx : Ctx) (core : CoreConf) (t : Template) (matcher : Option LocMatch)
    (ha : core.aliasTo = some t) (hu : PlainPath ctx.uri)
    (hm : ∀ p, matcher.bind LocMatch.prefixOf = some p → p <+: ctx.uri) :
    Confined (ctx.render env t) (mapPath env ctx core matcher) ↔
      ∀ p, matcher.bind LocMatch.prefixOf = some p → ¬ StartsUp (ctx.uri.drop p.length) := by
  rw [mapPath_confined ha]
  have hempty : lit ".." ∉ split 47 ([] : Bytes) := by decide
  cases hp : matcher.bind LocMatch.prefixOf with
  | none =>
    have hrest : restOf ctx.uri matcher = [] := by
      rw [restOf,hp,Option.map_none,Option.getD_none,textFrom]
      split
      · exact List.drop_length
      · rfl
    rw [hrest]
    exact iff_of_true hempty nofun
  | some p =>
    obtain ⟨rest,hrest⟩ := hm p hp
    have hdrop : ctx.uri.drop p.length = rest := by rw [← hrest,List.drop_left]
    have hone : (∀ q, some p = some q → ¬ StartsUp (ctx.uri.drop q.length)) ↔ ¬ StartsUp rest := by
      constructor
      · intro h
        exact hdrop ▸ h p rfl
      · rintro h q hq
        cases hq
        exact hdrop ▸ h
    rw [hone,restOf,hp,Option.map_some,Option.getD_some,textFrom]
    have hbyte : ctx.uri[p.length]? = rest.head? := by
      rw [← hrest,List.getElem?_append_right (Nat.le_refl _),Nat.sub_self,List.head?_eq_getElem?]
    split
    · obtain ⟨x,xs,hx⟩ := Uri.split_cons' rest
      have hxs : lit ".." ∉ xs := by
        intro hmem
        have hsub := tail_split_append p hx hmem
        rw [hrest] at hsub
        exact hu.noUp (List.mem_of_mem_tail hsub)
      rw [Option.getD_some,hdrop,← first_piece_up hx,hx,List.mem_cons,not_or,eq_comm]
      exact and_iff_left hxs
    · rename_i hcut
      refine iff_of_true hempty (fun hup => hcut ?_)
      have hle : p.length ≤ ctx.uri.length := by
        rw [← hrest,List.length_append]
        exact Nat.le_add_right _ _
      rw [hbyte,isCont_up hup,decide_eq_true hle]
      rfl

/-- `location /i { alias /data/; }` -/
def dataAlias : Template := ⟨[.text (lit "/data/")]⟩

def dataCore : CoreConf := { ServerConf.bare.core with aliasTo := some dataAlias }

def dataMatch : Option LocMatch := some (.pfx (lit "/i"))

theorem mapPath_confined_inside :
    Confined ((getCtx (lit "/i/x")).render .idle dataAlias)
      (mapPath .idle (getCtx (lit "/i/x")) dataCore dataMatch) := by
  have hplain : PlainPath (lit "/i/x") := ⟨rfl,by unfold Proper; decide⟩
  refine (mapPath_confined_iff .idle _ dataCore dataAlias dataMatch rfl hplain ?_).mpr ?_
  · rintro p hp
    cases hp
    exact ⟨lit "/x",rfl⟩
  · rintro p hp
    cases hp
    rintro (h | ⟨t,h⟩)
    · exact absurd h (by decide)
    · cases h

/-- `/i../x` is mapped to `/data/../x`. -/
theorem mapPath_escapes : ¬ ∀ (env : Env) (ctx : Ctx) (core : CoreConf) (t : Template) (matcher : Option LocMatch),
    core.aliasTo = some t → PlainPath ctx.uri →
      (∀ p, matcher.bind LocMatch.prefixOf = some p → p <+: ctx.uri) →
      Confined (ctx.render env t) (mapPath env ctx core matcher) := by
  intro h
  have hplain : PlainPath (lit "/i../x") := ⟨rfl,by unfold Proper; decide⟩
  obtain ⟨part,hp,hno⟩ := h .idle (getCtx (lit "/i../x")) dataCore dataAlias dataMatch rfl hplain (by
    rintro p hp
    cases hp
    exact ⟨lit "../x",rfl⟩)
  have hpath : mapPath .idle (getCtx (lit "/i../x")) dataCore dataMatch =
      (getCtx (lit "/i../x")).render .idle dataAlias ++ lit "../x" := by decide +kernel
  rw [hpath] at hp
  rw [← List.append_cancel_left hp] at hno
  exact hno (by decide)

end Alias

end OxiServe.Server
