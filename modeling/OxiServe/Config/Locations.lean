import OxiServe.Config.ZoneChecks
import OxiServe.Lib.StableSort

/-! # Which location serves a URI

Of the locations of a block, in the order of the file: an exact one, else the longest
prefix if it says so, else the first expression that matches, else the longest prefix.
The search of the sorted sets comes to the same, at every depth.
-/
namespace OxiServe.Config
variable {ls : List Location} {uri : Bytes} {l : Location} {c : List Bytes}

section Choice

def Location.isExact (l : Location) : Bool := l.matcher matches .exact _

def Location.isPrefix (l : Location) : Bool := l.matcher matches .pfx _ || l.matcher matches .pfxNoRegex _

def Location.isRegex (l : Location) : Bool := l.matcher matches .regex _

/-- The text of an exact or a prefix location. -/
def Location.path (l : Location) : Bytes := l.matcher.prefixOf.getD []

/-- A prefix location that covers the URI. -/
def Location.covers (uri : Bytes) (l : Location) : Bool := l.isPrefix && l.path.isPrefixOf uri

/-- The groups an expression location sets on the URI. -/
def Location.captures (uri : Bytes) (l : Location) : Option (List Bytes) :=
  match l.matcher with
  | .regex re => re.captures uri
  | _ => none

/-- No prefix that covers the URI is longer, and none as long is declared before. -/
def Longest (ls : List Location) (uri : Bytes) (l : Location) : Prop :=
  ∃ pre post, ls = pre ++ l :: post ∧ l.covers uri ∧
    (∀ k ∈ pre, k.covers uri → k.path.length < l.path.length) ∧
    ∀ k ∈ post, k.covers uri → k.path.length ≤ l.path.length

/-- The first expression in the order of the file that matches. -/
def FirstRegex (ls : List Location) (uri : Bytes) (l : Location) (c : List Bytes) : Prop :=
  ∃ pre post, ls = pre ++ l :: post ∧ l.captures uri = some c ∧ ∀ k ∈ pre, k.captures uri = none

/-- What a block of locations gives a URI, with the groups it sets. -/
inductive Picks (ls : List Location) (uri : Bytes) : Option (Location × Option (List Bytes)) → Prop
  | exact {l : Location} : l ∈ ls → l.matcher = .exact uri → Picks ls uri (some (l,none))
  | noRegex {l : Location} : (∀ k ∈ ls, k.matcher ≠ .exact uri) → Longest ls uri l →
      l.matcher.isNoRegex = true → Picks ls uri (some (l,none))
  | regex {l : Location} {c : List Bytes} : (∀ k ∈ ls, k.matcher ≠ .exact uri) →
      (∀ k, Longest ls uri k → k.matcher.isNoRegex = false) → FirstRegex ls uri l c → Picks ls uri (some (l,some c))
  | longest {l : Location} : (∀ k ∈ ls, k.matcher ≠ .exact uri) → Longest ls uri l →
      l.matcher.isNoRegex = false → (∀ k ∈ ls, k.captures uri = none) → Picks ls uri (some (l,none))
  | nothing : (∀ k ∈ ls, k.matcher ≠ .exact uri) → (∀ k ∈ ls, k.covers uri = false) →
      (∀ k ∈ ls, k.captures uri = none) → Picks ls uri none

end Choice

section Find

theorem textCmp_eq {s t : Bytes} : LocSet.textCmp s t = .eq ↔ s = t := by
  unfold LocSet.textCmp
  by_cases hlt : s < t
  · rw [if_pos hlt]
    refine ⟨(fun h => nomatch h),?_⟩
    rintro rfl
    exact absurd hlt (List.lt_irrefl s)
  · rw [if_neg hlt]
    by_cases he : s = t
    · simp [he]
    · simp [he]

theorem textCmp_lt {s t : Bytes} : LocSet.textCmp s t = .lt ↔ s < t := by
  unfold LocSet.textCmp
  by_cases hlt : s < t
  · simp [hlt]
  · by_cases he : s = t
    · simp [he]
    · simp [hlt,he]

theorem textCmp_gt {s t : Bytes} : LocSet.textCmp s t = .gt ↔ ¬ s < t ∧ s ≠ t := by
  unfold LocSet.textCmp
  by_cases hlt : s < t
  · simp [hlt]
  · by_cases he : s = t
    · subst he
      simp [List.lt_irrefl]
    · simp [hlt,he]

theorem exact_of_path (hl : l.isExact) : l.matcher = .exact l.path := by
  unfold Location.isExact at hl
  unfold Location.path
  cases hm : l.matcher with
  | exact p => rfl
  | _ =>
    rw [hm] at hl
    cases hl

theorem mem_exact : l ∈ (LocSet.ofList ls).exact ↔ l ∈ ls ∧ l.isExact := by
  simp only [LocSet.ofList,List.mem_mergeSort,List.mem_filter]
  rfl

/-- The exact locations stand in the order of their texts. -/
theorem exact_ascending (uri : Bytes) :
    Ascending (fun l : Location => LocSet.textCmp (l.matcher.prefixOf.getD []) uri) (LocSet.ofList ls).exact := by
  have hle : ∀ s t : Bytes, textLe s t = true ↔ s ≤ t := by
    intro s t
    simp [textLe]
  have hsorted : (LocSet.ofList ls).exact.Pairwise (fun a b => textLe a.path b.path) := by
    refine List.pairwise_mergeSort ?_ ?_ _
    · intro a b k hab hbk
      rw [hle] at *
      exact List.le_trans hab hbk
    · intro a b
      rw [Bool.or_eq_true,hle,hle]
      exact List.le_total _ _
  refine hsorted.imp ?_
  intro a b hab
  rw [hle] at hab
  change (LocSet.textCmp a.path uri = .gt → LocSet.textCmp b.path uri = .gt) ∧
    (LocSet.textCmp b.path uri = .lt → LocSet.textCmp a.path uri = .lt)
  rw [textCmp_gt,textCmp_gt,textCmp_lt,textCmp_lt]
  refine ⟨?_,List.lt_of_le_of_lt hab⟩
  rintro ⟨hge,hne⟩
  refine ⟨fun hb => hge (List.lt_of_le_of_lt hab hb),?_⟩
  rintro rfl
  exact hne (List.le_antisymm hab hge)

/-- The longest prefix is the first of its set that covers the URI. -/
theorem longest_of_find (h : (LocSet.ofList ls).prefixes.find?
    (fun l => (l.matcher.prefixOf.getD []).isPrefixOf uri) = some l) : Longest ls uri l := by
  obtain ⟨pre,post,hl,hp,hpre,hpost⟩ := find?_mergeSort (by simp; omega) (by simp; omega) h
  obtain ⟨front,back,rfl,rfl,hback⟩ := List.filter_eq_append_iff.mp hl
  obtain ⟨mid,rest,rfl,hmid,hlp,rfl⟩ := List.filter_eq_cons_iff.mp hback
  have hcovers : ∀ {k : Location}, k.covers uri → (k.matcher matches .pfx _ || k.matcher matches .pfxNoRegex _) = true ∧
      (k.matcher.prefixOf.getD []).isPrefixOf uri = true := by
    intro k hk
    exact Bool.and_eq_true_iff.mp hk
  refine ⟨front ++ mid,rest,by rw [List.append_assoc],Bool.and_eq_true_iff.mpr ⟨hlp,hp⟩,?_,?_⟩
  · intro k hk hc
    obtain ⟨hkp,hku⟩ := hcovers hc
    rcases List.mem_append.mp hk with hk | hk
    · have := (hpre k (List.mem_filter.mpr ⟨hk,hkp⟩) hku).2
      simpa [Location.path] using this
    · exact absurd hkp (hmid k hk)
  · intro k hk hc
    obtain ⟨hkp,hku⟩ := hcovers hc
    have := hpost k (List.mem_filter.mpr ⟨hk,hkp⟩) hku
    simpa [Location.path] using this

theorem uncovered_of_find (h : (LocSet.ofList ls).prefixes.find?
    (fun l => (l.matcher.prefixOf.getD []).isPrefixOf uri) = none) : ∀ k ∈ ls, k.covers uri = false := by
  intro k hk
  rw [← Bool.not_eq_true]
  intro hc
  obtain ⟨hkp,hku⟩ := Bool.and_eq_true_iff.mp hc
  refine List.find?_eq_none.mp h k ?_ hku
  simp only [LocSet.ofList,List.mem_mergeSort,List.mem_filter]
  exact ⟨hk,hkp⟩

/-- Of the longest prefixes only the first is the longest. -/
theorem Longest.unique {k : Location} (hl : Longest ls uri l) (hk : Longest ls uri k) : l = k := by
  obtain ⟨pre,post,rfl,hlc,hpre,hpost⟩ := hl
  obtain ⟨pre',post',he,hkc,hpre',hpost'⟩ := hk
  rcases List.append_eq_append_iff.mp he with ⟨mid,rfl,hm⟩ | ⟨mid,rfl,hm⟩
  · cases mid with
    | nil =>
      cases hm
      rfl
    | cons m mid =>
      cases hm
      have h1 := hpost k (List.mem_append_right _ List.mem_cons_self) hkc
      have h2 := hpre' l (List.mem_append_right _ List.mem_cons_self) hlc
      omega
  · cases mid with
    | nil =>
      cases hm
      rfl
    | cons m mid =>
      cases hm
      have h1 := hpre k (List.mem_append_right _ List.mem_cons_self) hkc
      have h2 := hpost' l (List.mem_append_right _ List.mem_cons_self) hlc
      omega

theorem findRegex_cons (uri : Bytes) (l : Location) (ls : List Location) : LocSet.findRegex uri (l :: ls) =
    match l.captures uri with
    | some c => some (l,c)
    | none => LocSet.findRegex uri ls := by
  unfold Location.captures
  rw [LocSet.findRegex]
  cases l.matcher <;> rfl

theorem captures_of_not_isRegex (h : l.isRegex = false) : l.captures uri = none := by
  unfold Location.captures
  cases hm : l.matcher with
  | regex re => simp [Location.isRegex,hm] at h
  | _ => rfl

/-- The expressions of a set stand in the order of the file. -/
theorem findRegex_ofList : LocSet.findRegex uri (LocSet.ofList ls).regex = LocSet.findRegex uri ls := by
  change LocSet.findRegex uri (ls.filter Location.isRegex) = _
  induction ls with
  | nil => rfl
  | cons l ls ih =>
    rw [findRegex_cons]
    by_cases hr : l.isRegex
    · rw [List.filter_cons_of_pos hr,findRegex_cons,ih]
    · rw [List.filter_cons_of_neg hr,captures_of_not_isRegex (Bool.eq_false_iff.mpr hr)]
      exact ih

theorem firstRegex_of_find (h : LocSet.findRegex uri ls = some (l,c)) : FirstRegex ls uri l c := by
  induction ls with
  | nil => cases h
  | cons k ls ih =>
    rw [findRegex_cons] at h
    cases hc : k.captures uri with
    | some c' =>
      rw [hc] at h
      cases h
      exact ⟨[],ls,rfl,hc,by simp⟩
    | none =>
      rw [hc] at h
      obtain ⟨pre,post,rfl,hl,hpre⟩ := ih h
      refine ⟨k :: pre,post,rfl,hl,?_⟩
      intro m hm
      rcases List.mem_cons.mp hm with rfl | hm
      · exact hc
      · exact hpre m hm

theorem unmatched_of_find (h : LocSet.findRegex uri ls = none) : ∀ k ∈ ls, k.captures uri = none := by
  induction ls with
  | nil => simp
  | cons k ls ih =>
    rw [findRegex_cons] at h
    cases hc : k.captures uri with
    | some c' =>
      rw [hc] at h
      cases h
    | none =>
      rw [hc] at h
      intro m hm
      rcases List.mem_cons.mp hm with rfl | hm
      · exact hc
      · exact ih h m hm

/-- One level of the search. -/
theorem picks_find (ls : List Location) (uri : Bytes) : Picks ls uri ((LocSet.ofList ls).find uri) := by
  unfold LocSet.find
  cases he : searchBy (LocSet.ofList ls).exact (fun l => LocSet.textCmp (l.matcher.prefixOf.getD []) uri) with
  | some l =>
    obtain ⟨hm,ho⟩ := searchBy_some he
    obtain ⟨hmem,hexact⟩ := mem_exact.mp hm
    have hpath : l.path = uri := textCmp_eq.mp ho
    exact .exact hmem (hpath ▸ exact_of_path hexact)
  | none =>
    have hno : ∀ k ∈ ls, k.matcher ≠ .exact uri := by
      intro k hk hke
      refine searchBy_none (exact_ascending uri) he k ?_ ?_
      · exact mem_exact.mpr ⟨hk,by simp [Location.isExact,hke]⟩
      · rw [hke]
        exact textCmp_eq.mpr rfl
    rw [findRegex_ofList]
    dsimp only
    cases hp : (LocSet.ofList ls).prefixes.find? (fun l => (l.matcher.prefixOf.getD []).isPrefixOf uri) with
    | some l =>
      have hlong := longest_of_find hp
      dsimp only
      by_cases hnr : l.matcher.isNoRegex = true
      · rw [if_pos hnr]
        exact .noRegex hno hlong hnr
      · rw [if_neg hnr]
        rw [Bool.not_eq_true] at hnr
        cases hr : LocSet.findRegex uri ls with
        | some p =>
          refine .regex hno ?_ (firstRegex_of_find hr)
          intro k hk
          rw [← hlong.unique hk]
          exact hnr
        | none => exact .longest hno hlong hnr (unmatched_of_find hr)
    | none =>
      have hun := uncovered_of_find hp
      cases hr : LocSet.findRegex uri ls with
      | some p =>
        refine .regex hno ?_ (firstRegex_of_find hr)
        rintro k ⟨pre,post,rfl,hc,-⟩
        rw [hun k (List.mem_append_right _ List.mem_cons_self)] at hc
        cases hc
      | none => exact .nothing hno hun (unmatched_of_find hr)

end Find

section Depth
variable {self : Builder} {core : CoreConf} {ds : List Directive}

/-- What the directives of a block give a URI: the location that is picked, or what its
own block gives, whose groups take the place of those before. -/
inductive Serves (self : Builder) (uri : Bytes) :
    CoreConf → List Directive → Option (Location × Option (List Bytes)) → Prop
  | nothing {core : CoreConf} {ds : List Directive} {ls : List Location} :
      self.locations core ds = .ok ls → Picks ls uri none → Serves self uri core ds none
  | here {core : CoreConf} {ds : List Directive} {ls : List Location} {l : Location} {c : Option (List Bytes)}
      {d : Directive} : self.locations core ds = .ok ls → Picks ls uri (some (l,c)) → d ∈ ds →
      self.location core d = .ok l → Serves self uri l.core d.children none → Serves self uri core ds (some (l,c))
  | inside {core : CoreConf} {ds : List Directive} {ls : List Location} {l m : Location}
      {c r : Option (List Bytes)} {d : Directive} : self.locations core ds = .ok ls →
      Picks ls uri (some (l,c)) → d ∈ ds → self.location core d = .ok l →
      Serves self uri l.core d.children (some (m,r)) → Serves self uri core ds (some (m,r.or c))

theorem Picks.mem {c : Option (List Bytes)} (h : Picks ls uri (some (l,c))) : l ∈ ls := by
  cases h with
  | exact hl _ => exact hl
  | noRegex _ hl _ | longest _ hl _ _ =>
    obtain ⟨pre,post,rfl,-⟩ := hl
    exact List.mem_append_right _ List.mem_cons_self
  | regex _ _ hl =>
    obtain ⟨pre,post,rfl,-⟩ := hl
    exact List.mem_append_right _ List.mem_cons_self

/-- A location comes from a directive of its block. -/
theorem location_of_mem (h : self.locations core ds = .ok ls) (hl : l ∈ ls) :
    ∃ d ∈ ds, self.location core d = .ok l := by
  induction ds generalizing ls with
  | nil =>
    cases h
    cases hl
  | cons d ds ih =>
    rcases locations_cons h with ⟨-,h⟩ | ⟨k,ks,-,hk,hks,rfl⟩
    · obtain ⟨e,he,hle⟩ := ih h hl
      exact ⟨e,List.mem_cons_of_mem _ he,hle⟩
    · rcases List.mem_cons.mp hl with rfl | hl
      · exact ⟨d,List.mem_cons_self,hk⟩
      · obtain ⟨e,he,hle⟩ := ih hks hl
        exact ⟨e,List.mem_cons_of_mem _ he,hle⟩

/-- The search within a location that was built. -/
theorem serves_descend (parent : CoreConf) (d : Directive) (l : Location) (r : Option (List Bytes))
    (hl : self.location parent d = .ok l) :
    (Serves self uri l.core d.children none ∧ l.descend uri r = (l,r)) ∨
      ∃ m c, Serves self uri l.core d.children (some (m,c)) ∧ l.descend uri r = (m,c.or r) := by
  obtain ⟨lv,nested,-,-,hnested,hcore,hn⟩ := location_cases hl
  rw [← hcore] at hnested
  rw [Location.descend]
  split
  · rename_i hnone
    refine .inl ⟨.nothing hnested ?_,rfl⟩
    rw [hn] at hnone
    by_cases hany : d.children.any Builder.isLocation
    · rw [if_pos hany] at hnone
      cases hnone
    · rw [Bool.not_eq_true] at hany
      rw [locations_none hnested hany]
      exact .nothing (by simp) (by simp) (by simp)
  · rename_i s hs
    have hset : s = .ofList nested := by
      rw [hn] at hs
      split at hs
      · cases hs
        rfl
      · cases hs
    have hpicks := picks_find nested uri
    rw [← hset] at hpicks
    split
    · rename_i hf
      rw [hf] at hpicks
      exact .inl ⟨.nothing hnested hpicks,rfl⟩
    · rename_i inner c hf
      rw [hf] at hpicks
      obtain ⟨e,he,hinner⟩ := location_of_mem hnested hpicks.mem
      have hlt := Location.sizeOf_lt_of_find hs hf
      refine .inr ?_
      rcases serves_descend l.core e inner (c.or r) hinner with ⟨hs,hd⟩ | ⟨m,c',hs,hd⟩
      · exact ⟨inner,c,.here hnested hpicks he hinner hs,hd⟩
      · exact ⟨m,c'.or c,.inside hnested hpicks he hinner hs,by rw [hd,Option.or_assoc]⟩
termination_by sizeOf l

/-- The location that serves a request of a server is the one its directives give. -/
theorem locate_serves (self : Builder) (parent : CoreConf) (d : Directive) (s : ServerConf)
    (h : self.server parent d = .ok s) (uri : Bytes) : Serves self uri s.core d.children (s.locate uri) := by
  unfold Builder.server at h
  obtain ⟨lv,-,h⟩ := bind_ok.mp h
  dsimp only at h
  obtain ⟨s',-,h⟩ := bind_ok.mp h
  obtain ⟨ls,hls,h⟩ := bind_ok.mp h
  cases h
  have hpicks := picks_find ls uri
  unfold ServerConf.locate
  dsimp only
  cases hf : (LocSet.ofList ls).find uri with
  | none =>
    rw [hf] at hpicks
    exact .nothing hls hpicks
  | some p =>
    obtain ⟨l,c⟩ := p
    rw [hf] at hpicks
    obtain ⟨e,he,hl⟩ := location_of_mem hls hpicks.mem
    rw [Option.map_some]
    rcases serves_descend _ e l c hl with ⟨hs,hd⟩ | ⟨m,c',hs,hd⟩
    · rw [hd]
      exact .here hls hpicks he hl hs
    · rw [hd]
      exact .inside hls hpicks he hl hs

/-- An exact location, and a prefix with a location of its own. -/
def pictures : Directive :=
  directive "server" [] [directive "location" ["=","/"] [],
    directive "location" ["^~","/img"] [directive "location" ["/img/a"] []]]

theorem pictures_serves : ∃ s, plain.server defaultCore pictures = .ok s ∧
    (s.locations.find (lit "/img/a.gif")).map (fun p => p.1.path) = some (lit "/img") ∧
    Serves plain (lit "/img/a.gif") s.core pictures.children (s.locate (lit "/img/a.gif")) := by
  have hrun : (plain.server defaultCore pictures).toOption.map (fun s =>
      (s.locations.find (lit "/img/a.gif")).map (fun p => p.1.path)) = some (some (lit "/img")) := by decide +kernel
  cases hb : plain.server defaultCore pictures with
  | error e =>
    rw [hb] at hrun
    cases hrun
  | ok s =>
    rw [hb] at hrun
    exact ⟨s,rfl,Option.some.inj hrun,locate_serves plain defaultCore pictures s hb (lit "/img/a.gif")⟩

end Depth

end OxiServe.Config
