import OxiServe.Config.Maps
import OxiServe.Server.Ctx

/-! # Which entry a `map` answers with

The lookup goes through the three tables in turn. It answers as the block says
exactly where every wildcard is in a block with `hostnames` and is written in
lower case, or beside an entry that is.
-/
namespace OxiServe.Config
open Server

section Lookup
variable {k v p : Bytes} {ws : List (Bytes × Template × Bool)} {w : Bytes × Template × Bool}

theorem toAsciiLowercase_idem (v : Bytes) : toAsciiLowercase (toAsciiLowercase v) = toAsciiLowercase v := by
  have hbyte := forall_byte (fun c => asciiLower (asciiLower c) == asciiLower c) (by decide +kernel)
  unfold toAsciiLowercase
  rw [List.map_map]
  exact List.map_congr_left fun c _ => eq_of_beq (hbyte c)

theorem toAsciiLowercase_of_none (h : v.any isAsciiUppercase = false) : toAsciiLowercase v = v := by
  have hbyte := forall_byte (fun c => isAsciiUppercase c || asciiLower c == c) (by decide +kernel)
  have hid : v.map asciiLower = v.map id := by
    apply List.map_congr_left
    intro c hc
    refine eq_of_beq ((Bool.or_eq_true _ _ ▸ hbyte c).resolve_left fun hup => ?_)
    rw [List.any_eq_true.mpr ⟨c,hc,hup⟩] at h
    cases h
  rw [toAsciiLowercase,hid,List.map_id]

/-- A hit is the pattern with some text for its star. -/
theorem wildcardHit_iff : wildcardHit k w = true ↔ ∃ s, k = around (w.1,w.2.2) s := by
  obtain ⟨p,t,leading⟩ := w
  cases leading with
  | true =>
    simp only [wildcardHit,around,if_true,Bool.and_eq_true,decide_eq_true_eq,beq_iff_eq,List.isSuffixOf_iff_suffix]
    constructor
    · rintro ⟨⟨hlen,hdot⟩,s,rfl⟩
      rw [List.length_append] at hlen hdot
      have hs : s ≠ [] := by
        rintro rfl
        simp at hlen
      obtain ⟨q,c,rfl⟩ := List.eq_nil_or_concat' s |>.resolve_left hs
      rw [List.length_append,List.length_singleton,show q.length + 1 + p.length - p.length - 1 = q.length by omega,
        List.append_assoc,List.getElem?_append_right (Nat.le_refl _),Nat.sub_self] at hdot
      obtain rfl : c = 46 := Option.some.inj hdot
      exact ⟨q,by simp⟩
    · rintro ⟨s,rfl⟩
      refine ⟨⟨by simp; omega,?_⟩,s ++ [46],by simp⟩
      rw [List.length_append,List.length_cons,show s.length + (p.length + 1) - p.length - 1 = s.length by omega,
        List.getElem?_append_right (Nat.le_refl _),Nat.sub_self]
      rfl
  | false =>
    simp only [wildcardHit,around,Bool.false_eq_true,if_false,Bool.and_eq_true,decide_eq_true_eq,beq_iff_eq,
      List.isPrefixOf_iff_prefix]
    constructor
    · rintro ⟨⟨hlen,hdot⟩,s,rfl⟩
      rw [List.getElem?_append_right (Nat.le_refl _),Nat.sub_self] at hdot
      cases s with
      | nil => cases hdot
      | cons c s =>
        obtain rfl : c = 46 := Option.some.inj hdot
        exact ⟨s,rfl⟩
    · rintro ⟨s,rfl⟩
      refine ⟨⟨by simp,?_⟩,46 :: s,rfl⟩
      rw [List.getElem?_append_right (Nat.le_refl _),Nat.sub_self]
      rfl

theorem bestWildcard_snoc (k : Bytes) (ws : List (Bytes × Template × Bool)) (w : Bytes × Template × Bool) :
    bestWildcard k (ws ++ [w]) =
      if wildcardHit k w then
        match bestWildcard k ws with
        | none => some w
        | some b => if b.1.length < w.1.length then some w else some b
      else bestWildcard k ws := by
  unfold bestWildcard
  rw [List.foldl_append]
  rfl

theorem bestWildcard_none (h : bestWildcard k ws = none) : ∀ x ∈ ws, wildcardHit k x = false := by
  induction ws using List.reverseRecOn with
  | nil => intro x hx; cases hx
  | append_singleton ws w ih =>
    rw [bestWildcard_snoc] at h
    split at h
    · split at h
      · cases h
      · split at h <;> cases h
    · next hw =>
      intro x hx
      rcases List.mem_append.mp hx with hx | hx
      · exact ih h x hx
      · rw [List.mem_singleton.mp hx]
        exact Bool.eq_false_iff.mpr hw

theorem bestWildcard_some (h : bestWildcard k ws = some w) :
    w ∈ ws ∧ wildcardHit k w = true ∧ ∀ x ∈ ws, wildcardHit k x = true → x.1.length ≤ w.1.length := by
  induction ws using List.reverseRecOn generalizing w with
  | nil => cases h
  | append_singleton ws a ih =>
    rw [bestWildcard_snoc] at h
    split at h
    · next ha =>
      have hlast : a ∈ ws ++ [a] := by simp
      split at h
      · next hnone =>
        cases h
        refine ⟨hlast,ha,fun x hx hhit => ?_⟩
        rcases List.mem_append.mp hx with hx | hx
        · rw [bestWildcard_none hnone x hx] at hhit
          cases hhit
        · rw [List.mem_singleton.mp hx]
      · next b hb =>
        obtain ⟨hmem,hhit,hlong⟩ := ih hb
        split at h
        · next hlt =>
          cases h
          refine ⟨hlast,ha,fun x hx hxhit => ?_⟩
          rcases List.mem_append.mp hx with hx | hx
          · have := hlong x hx hxhit
            omega
          · rw [List.mem_singleton.mp hx]
        · next hle =>
          cases h
          refine ⟨List.mem_append_left _ hmem,hhit,fun x hx hxhit => ?_⟩
          rcases List.mem_append.mp hx with hx | hx
          · exact hlong x hx hxhit
          · rw [List.mem_singleton.mp hx]
            omega
    · next ha =>
      obtain ⟨hmem,hhit,hlong⟩ := ih h
      refine ⟨List.mem_append_left _ hmem,hhit,fun x hx hxhit => ?_⟩
      rcases List.mem_append.mp hx with hx | hx
      · exact hlong x hx hxhit
      · rw [List.mem_singleton.mp hx] at hxhit
        exact absurd hxhit ha

/-- The tables are looked up in lower case, whatever the block says. -/
theorem mapLookup_lower (m : MapConf) (v : Bytes) : mapLookup m v =
    match m.exact.lookup (toAsciiLowercase v) with
    | some t => some t
    | none =>
      match bestWildcard (toAsciiLowercase v) m.wildcards with
      | some w => some w.2.1
      | none =>
        match m.regexes.find? (fun p => p.1.isMatch v) with
        | some p => some p.2
        | none => m.default := by
  have hk : (if m.hostnames || v.any isAsciiUppercase then toAsciiLowercase v else v) = toAsciiLowercase v := by
    split
    · rfl
    · next h =>
      rw [Bool.not_eq_true,Bool.or_eq_false_iff] at h
      exact (toAsciiLowercase_of_none h.2).symm
  unfold mapLookup
  generalize (if m.hostnames || v.any isAsciiUppercase then toAsciiLowercase v else v) = k at hk ⊢
  subst hk
  rfl

/-- The first of the values that pass, with what came before it. -/
theorem find_filterMap {α β : Type} {f : α → Option β} {q : β → Bool} {l : List α} {b : β}
    (h : (l.filterMap f).find? q = some b) :
    ∃ pre a post, l = pre ++ a :: post ∧ f a = some b ∧ q b = true ∧ ∀ x ∈ pre, ∀ y, f x = some y → q y = false := by
  induction l with
  | nil => cases h
  | cons a l ih =>
    have hskip (hrest : (l.filterMap f).find? q = some b) (ha : ∀ y, f a = some y → q y = false) :
        ∃ pre a' post, a :: l = pre ++ a' :: post ∧ f a' = some b ∧ q b = true ∧
          ∀ x ∈ pre, ∀ y, f x = some y → q y = false := by
      obtain ⟨pre,c,post,rfl,hc,hq,hpre⟩ := ih hrest
      exact ⟨a :: pre,c,post,rfl,hc,hq,List.forall_mem_cons.mpr ⟨ha,hpre⟩⟩
    cases hf : f a with
    | none =>
      rw [List.filterMap_cons_none hf] at h
      exact hskip h fun y hy => by rw [hf] at hy; cases hy
    | some y =>
      rw [List.filterMap_cons_some hf,List.find?_cons] at h
      cases hq : q y with
      | true =>
        rw [hq] at h
        cases h
        exact ⟨[],a,l,rfl,hf,hq,fun x hx => by cases hx⟩
      | false =>
        rw [hq] at h
        refine hskip h fun z hz => ?_
        rw [hf] at hz
        cases hz
        exact hq

end Lookup

section Faithful
variable {regexNew : Bytes → Except Bytes Regex} {cs : List Directive} {m : MapConf} {v : Bytes}

/-- Every wildcard is in a block with `hostnames` and has an entry with its
pattern in lower case. -/
def LowerWildcards (cs : List Directive) : Prop :=
  ∀ c ∈ entries cs, ∀ w, wildcardOf c.name = some w →
    hasHostnames cs = true ∧ ∃ e ∈ entries cs, wildcardOf e.name = some (lowered w)

theorem Compiled.mem_wildcards (h : Compiled regexNew cs m) {x : Bytes × Template × Bool} : x ∈ m.wildcards ↔
    ∃ e ∈ entries cs, wildcardOf e.name = some (x.1,x.2.2) ∧ x.2.1 = valueOf e := by
  rw [h.wildcards,List.mem_filterMap]
  constructor
  · rintro ⟨e,he,hx⟩
    obtain ⟨w,hw,rfl⟩ := Option.map_eq_some_iff.mp hx
    exact ⟨e,he,hw,rfl⟩
  · rintro ⟨e,he,hw,hv⟩
    exact ⟨e,he,by rw [hw,Option.map_some,← hv]⟩

/-- A hit in the tables is in lower case and covers the value. -/
theorem lowered_of_around {w : Bytes × Bool} {s : Bytes} (h : toAsciiLowercase v = around w s) : lowered w = w := by
  obtain ⟨p,leading⟩ := w
  have hlow : toAsciiLowercase v = around (lowered (p,leading)) (toAsciiLowercase s) := by
    have hl := congrArg toAsciiLowercase h
    rw [toAsciiLowercase_idem] at hl
    rw [hl]
    cases leading <;> simp [around,lowered,toAsciiLowercase,show asciiLower 46 = 46 by decide]
  have hlen : (toAsciiLowercase s).length = s.length := length_toAsciiLowercase s
  rw [h] at hlow
  cases leading with
  | true =>
    obtain ⟨-,hp⟩ := List.append_inj hlow hlen.symm
    exact Prod.ext (List.cons.inj hp).2.symm rfl
  | false =>
    obtain ⟨hp,-⟩ := List.append_inj hlow (length_toAsciiLowercase p).symm
    exact Prod.ext hp.symm rfl

theorem Compiled.not_matches (h : Compiled regexNew cs m) (hf : m.regexes.find? (fun p => p.1.isMatch v) = none) :
    ∀ e ∈ entries cs, ¬ Matches regexNew v e := by
  rintro e he ⟨re,hre,hm⟩
  have hmem : (re,valueOf e) ∈ m.regexes := by
    rw [h.regexes,List.mem_filterMap]
    exact ⟨e,he,by rw [hre]; rfl⟩
  have hno := List.find?_eq_none.mp hf _ hmem
  exact hno hm

/-- Lower case is enough. -/
theorem Compiled.answers (h : Compiled regexNew cs m) (hl : LowerWildcards cs) (v : Bytes) :
    Answer regexNew cs v (mapLookup m v) := by
  rw [mapLookup_lower]
  cases hx : m.exact.lookup (toAsciiLowercase v) with
  | some t =>
    obtain ⟨e,he,hp,heq,rfl⟩ := h.exact_some _ _ hx
    obtain ⟨hh,hw⟩ := isExactKey_iff.mp hp
    exact .exact ⟨he,hh,fun _ => hw,eqIgnoreAsciiCase_iff.mpr heq⟩
  | none =>
    have hno : ∀ e, ¬ IsExact cs v e := by
      intro e hexact
      have hw : wildcardOf e.name = none := by
        cases hw : wildcardOf e.name with
        | none => rfl
        | some w => exact absurd (hexact.noStar (hl e hexact.entry w hw).1) (by simp [hw])
      exact h.exact_none _ hx e hexact.entry (isExactKey_iff.mpr ⟨hexact.noTilde,hw⟩) (eqIgnoreAsciiCase_iff.mp hexact.equal)
    have hlow : ∀ e x, IsWildcard cs v e x →
        ∃ y ∈ m.wildcards, wildcardHit (toAsciiLowercase v) y = true ∧ y.1.length = x.1.length := by
      intro e x hwild
      obtain ⟨-,f,hf,hfw⟩ := hl e hwild.entry x hwild.pattern
      obtain ⟨s,hs⟩ := hwild.covers
      refine ⟨(toAsciiLowercase x.1,valueOf f,x.2),h.mem_wildcards.mpr ⟨f,hf,hfw,rfl⟩,wildcardHit_iff.mpr ⟨s,hs⟩,?_⟩
      exact length_toAsciiLowercase x.1
    dsimp only
    cases hb : bestWildcard (toAsciiLowercase v) m.wildcards with
    | some w =>
      obtain ⟨hmem,hhit,hlong⟩ := bestWildcard_some hb
      obtain ⟨e,he,hw,hv⟩ := h.mem_wildcards.mp hmem
      obtain ⟨s,hs⟩ := wildcardHit_iff.mp hhit
      have hcovers : Covers (w.1,w.2.2) v := ⟨s,by rw [lowered_of_around hs]; exact hs⟩
      dsimp only
      rw [hv]
      refine .wildcard hno ⟨(hl e he _ hw).1,he,hw,hcovers⟩ fun e' x hx' => ?_
      obtain ⟨y,hy,hyhit,hylen⟩ := hlow e' x hx'
      rw [← hylen]
      exact hlong y hy hyhit
    | none =>
      have hstar : ∀ e x, ¬ IsWildcard cs v e x := by
        intro e x hwild
        obtain ⟨y,hy,hyhit,-⟩ := hlow e x hwild
        rw [bestWildcard_none hb y hy] at hyhit
        cases hyhit
      dsimp only
      cases hf : m.regexes.find? (fun p => p.1.isMatch v) with
      | some p =>
        rw [h.regexes] at hf
        obtain ⟨pre,e,post,hsplit,he,hq,hpre⟩ := find_filterMap hf
        obtain ⟨re,hre,rfl⟩ := Option.map_eq_some_iff.mp he
        obtain ⟨r,hr,hre⟩ := Option.bind_eq_some_iff.mp hre
        have hok : r = .ok re := by
          cases r with
          | error x => cases hre
          | ok x => cases hre; rfl
        subst hok
        refine .regex hno hstar hsplit ⟨re,hr,hq⟩ ?_
        rintro x hx' ⟨re',hre',hm'⟩
        have hfalse := hpre x hx' (re',valueOf x) (by rw [hre']; rfl)
        dsimp only at hfalse
        rw [hm'] at hfalse
        cases hfalse
      | none =>
        have hre := h.not_matches hf
        dsimp only
        cases hd : m.default with
        | some t =>
          obtain ⟨c,hc,hn,rfl⟩ := h.default_some t hd
          exact .default hno hstar hre hc hn
        | none => exact .none hno hstar hre (h.default_none hd)

end Faithful

section Unfaithful
variable {regexNew : Bytes → Except Bytes Regex} {cs : List Directive} {m : MapConf} {v : Bytes}

/-- The same line with another value. -/
def revalue (val : Bytes → Bytes) (c : Directive) : Directive := .mk c.name [val c.name] c.children c.loc

@[simp] theorem name_revalue (val : Bytes → Bytes) (c : Directive) : (revalue val c).name = c.name := rfl

/-- The value does not matter to the expression. -/
theorem regexOf_revalue (val : Bytes → Bytes) (c : Directive) : regexOf regexNew (revalue val c) = regexOf regexNew c := by
  have hc : ∀ re ci, compileRegex regexNew re ci (revalue val c) = compileRegex regexNew re ci c := by
    intro re ci
    unfold compileRegex bail
    rfl
  unfold regexOf
  simp only [name_revalue,hc]

theorem entries_revalue (val : Bytes → Bytes) : entries (cs.map (revalue val)) = (entries cs).map (revalue val) :=
  List.filter_map

theorem hasHostnames_revalue (val : Bytes → Bytes) : hasHostnames (cs.map (revalue val)) = hasHostnames cs := by
  unfold hasHostnames
  rw [List.any_map]
  rfl

/-- Other values are accepted where these are. -/
theorem lines_revalue (val : Bytes → Bytes) {m' k : MapConf} (h : cs.foldlM (mapEntry regexNew) m = .ok m') :
    ∃ k', (cs.map (revalue val)).foldlM (mapEntry regexNew) k = .ok k' := by
  induction cs generalizing m k with
  | nil => exact ⟨k,rfl⟩
  | cons c cs ih =>
    rw [List.foldlM_cons] at h
    obtain ⟨m1,h1,h2⟩ := bind_ok.mp h
    have hone : ∃ k1, mapEntry regexNew k (revalue val c) = .ok k1 := by
      cases mapEntry_adds.mp h1 with
      | hostnames h => exact ⟨_,mapEntry_adds.mpr (.hostnames h)⟩
      | nothing h => exact ⟨_,mapEntry_adds.mpr (.nothing h)⟩
      | default h ha => exact ⟨_,mapEntry_adds.mpr (.default h rfl)⟩
      | regex h ha hre => exact ⟨_,mapEntry_adds.mpr (.regex h rfl ((regexOf_revalue val c).trans hre))⟩
      | wildcard h ha hw => exact ⟨_,mapEntry_adds.mpr (.wildcard h rfl hw)⟩
      | exact h ha hp => exact ⟨_,mapEntry_adds.mpr (.exact h rfl hp)⟩
    obtain ⟨k1,hk1⟩ := hone
    obtain ⟨k',hk'⟩ := ih h2 (k := k1)
    refine ⟨k',?_⟩
    rw [List.map_cons,List.foldlM_cons]
    exact bind_ok.mpr ⟨k1,hk1,hk'⟩

/-- The same block but for its values. -/
structure SameKeys (d d' : Directive) : Prop where
  args : d'.args = d.args
  keys : d'.children.map Directive.name = d.children.map Directive.name

theorem mapConf_revalue (val : Bytes → Bytes) {d : Directive} (h : mapConf regexNew d = .ok m) :
    ∃ d' m', SameKeys d d' ∧ d'.children = d.children.map (revalue val) ∧ mapConf regexNew d' = .ok m' := by
  have hkeys : (d.children.map (revalue val)).map Directive.name = d.children.map Directive.name := by
    rw [List.map_map]
    rfl
  obtain ⟨name,args,children,loc⟩ := d
  unfold mapConf at h
  obtain ⟨u,hu,h⟩ := bind_ok.mp h
  split at h
  · cases h
  · next src hsrc =>
    split at h
    · cases h
    · next target htarget =>
      obtain ⟨m',hm'⟩ := lines_revalue val h (k := ⟨.parse src,target,[],[],[],none,false⟩)
      refine ⟨.mk name args (children.map (revalue val)) loc,m',⟨rfl,hkeys⟩,rfl,?_⟩
      unfold mapConf
      refine bind_ok.mpr ⟨u,hu,?_⟩
      change stripPrefix (lit "$") (args.headD []) = _ at hsrc
      change stripPrefix (lit "$") ((args[1]?).getD []) = _ at htarget
      dsimp only [Directive.args]
      rw [hsrc]
      dsimp only
      rw [htarget]
      exact hm'

/-- No other byte becomes one of these in lower case. -/
def Uncased (p : Bytes) : Prop := ∀ c ∈ p, ∀ b, asciiLower b = c ↔ b = c

theorem prefix_lowered {p s : Bytes} (hp : Uncased p) : p <+: toAsciiLowercase s ↔ p <+: s := by
  unfold toAsciiLowercase
  induction p generalizing s with
  | nil => simp
  | cons c p ih =>
    obtain ⟨hc,hrest⟩ := List.forall_mem_cons.mp hp
    cases s with
    | nil => simp
    | cons b s => rw [List.map_cons,List.cons_prefix_cons,List.cons_prefix_cons,ih hrest,eq_comm,hc,eq_comm]

theorem suffix_lowered {p s : Bytes} (hp : Uncased p) : p <:+ toAsciiLowercase s ↔ p <:+ s := by
  rw [← List.reverse_prefix,← List.reverse_prefix,toAsciiLowercase,← List.map_reverse]
  exact prefix_lowered fun c hc => hp c (List.mem_reverse.mp hc)

theorem uncased_marks : Uncased (lit "~*.") := by
  intro c hc b
  have hall := forall_byte (fun b => (lit "~*.").all (fun c => (asciiLower b == c) == (b == c))) (by decide +kernel) b
  have hb := eq_of_beq (List.all_eq_true.mp hall c hc)
  rw [← beq_iff_eq,hb,beq_iff_eq]

example : toAsciiLowercase (lit "*.ORG") = lit "*.org" := by decide +kernel

/-- A tilde, a star and a dot are in lower case. -/
theorem wildcardOf_lowered (key : Bytes) : wildcardOf (toAsciiLowercase key) = (wildcardOf key).map lowered := by
  have hstar : Uncased (lit "*.") := fun c hc => uncased_marks c (by revert c; decide +kernel)
  have hdot : Uncased (lit ".*") := fun c hc => uncased_marks c (by revert c; decide +kernel)
  have hhead : (toAsciiLowercase key).head? = some 126 ↔ key.head? = some 126 := by
    cases key with
    | nil => simp [toAsciiLowercase]
    | cons c r => simpa [toAsciiLowercase] using uncased_marks 126 (by decide) c
  unfold wildcardOf
  by_cases ht : key.head? = some 126
  · rw [if_pos ht,if_pos (hhead.mpr ht)]
    rfl
  rw [if_neg ht,if_neg (mt hhead.mp ht)]
  unfold stripPrefix
  by_cases hp : lit "*." <+: key
  · rw [if_pos (List.isPrefixOf_iff_prefix.mpr hp),if_pos (List.isPrefixOf_iff_prefix.mpr ((prefix_lowered hstar).mpr hp))]
    simp [lowered,toAsciiLowercase]
  rw [if_neg (mt List.isPrefixOf_iff_prefix.mp hp),
    if_neg (mt List.isPrefixOf_iff_prefix.mp (mt (prefix_lowered hstar).mp hp))]
  unfold stripSuffix
  by_cases hs : lit ".*" <:+ key
  · dsimp only
    rw [if_pos (List.isSuffixOf_iff_suffix.mpr hs),if_pos (List.isSuffixOf_iff_suffix.mpr ((suffix_lowered hdot).mpr hs))]
    simp [lowered,toAsciiLowercase,List.map_take]
  · dsimp only
    rw [if_neg (mt List.isSuffixOf_iff_suffix.mp hs),
      if_neg (mt List.isSuffixOf_iff_suffix.mp (mt (suffix_lowered hdot).mp hs))]
    rfl

/-- A long text without a dot is only matched by the star of a pattern. -/
theorem around_filler {w x : Bytes × Bool} {f s : Bytes} (hf : 46 ∉ f) (hx : x.1.length < f.length)
    (h : around w f = around x s) : x.1.length ≤ w.1.length ∧ (x.1.length = w.1.length → x = w) := by
  obtain ⟨p,leading⟩ := w
  obtain ⟨q,leading'⟩ := x
  have hlen := congrArg List.length h
  cases leading with
  | true =>
    cases leading' with
    | true =>
      simp only [around,if_true,List.length_append,List.length_cons] at h hlen
      rcases List.append_eq_append_iff.mp h with ⟨a,hs,ha⟩ | ⟨a,hfa,ha⟩
      · cases a with
        | nil =>
          obtain rfl := (List.cons.inj ha).2
          exact ⟨Nat.le_refl _,fun _ => rfl⟩
        | cons c a =>
          have hl := congrArg List.length ha
          simp only [List.length_append,List.length_cons] at hl
          dsimp only
          exact ⟨by omega,fun he => by omega⟩
      · cases a with
        | nil =>
          obtain rfl := (List.cons.inj ha).2
          exact ⟨Nat.le_refl _,fun _ => rfl⟩
        | cons c a =>
          obtain rfl := (List.cons.inj ha).1
          exact absurd (by rw [hfa]; simp) hf
    | false =>
      simp only [around,if_true,Bool.false_eq_true,if_false] at h
      dsimp only at hx
      rcases List.append_eq_append_iff.mp h with ⟨a,hs,ha⟩ | ⟨a,hfa,ha⟩
      · have hl := congrArg List.length hs
        rw [List.length_append] at hl
        omega
      · cases a with
        | nil =>
          have hl := congrArg List.length hfa
          rw [List.append_nil] at hl
          omega
        | cons c a =>
          obtain rfl := (List.cons.inj ha).1
          exact absurd (by rw [hfa]; simp) hf
  | false =>
    have hfill {a t : Bytes} (ha : 46 :: f = a ++ 46 :: t) : a = [] := by
      cases a with
      | nil => rfl
      | cons c a => exact absurd (by rw [(List.cons.inj ha).2]; simp) hf
    cases leading' with
    | true =>
      simp only [around,if_true,Bool.false_eq_true,if_false] at h
      dsimp only at hx
      rcases List.append_eq_append_iff.mp h with ⟨a,hs,ha⟩ | ⟨a,hpa,ha⟩
      · obtain rfl := hfill ha
        have hl := congrArg List.length (List.cons.inj ha).2
        omega
      · have hl := congrArg List.length ha
        simp only [List.length_append,List.length_cons] at hl
        omega
    | false =>
      simp only [around,Bool.false_eq_true,if_false] at h
      rcases List.append_eq_append_iff.mp h with ⟨a,hs,ha⟩ | ⟨a,hpa,ha⟩
      · obtain rfl := hfill ha
        rw [List.append_nil] at hs
        rw [hs]
        exact ⟨Nat.le_refl _,fun _ => rfl⟩
      · have hl := congrArg List.length hpa
        rw [List.length_append] at hl
        dsimp only
        refine ⟨by omega,fun he => ?_⟩
        obtain rfl := List.eq_nil_of_length_eq_zero (by omega : a.length = 0)
        rw [hpa,List.append_nil]

/-- A text longer than every key of the block. -/
def filler (cs : List Directive) : Bytes := List.replicate ((cs.map Directive.name).flatten.length + 1) 97

theorem filler_noDot (cs : List Directive) : 46 ∉ filler cs := by
  unfold filler
  rw [List.mem_replicate]
  exact fun h => absurd h.2 (by decide)

theorem filler_lower (cs : List Directive) : toAsciiLowercase (filler cs) = filler cs := by
  rw [filler,toAsciiLowercase,List.map_replicate]
  rfl

theorem length_lt_filler {c : Directive} (h : c ∈ entries cs) : c.name.length < (filler cs).length := by
  have hle := (List.sublist_flatten_of_mem (List.mem_map_of_mem (f := Directive.name) (List.mem_of_mem_filter h))).length_le
  rw [filler,List.length_replicate]
  exact Nat.lt_succ_of_le hle

theorem length_wildcardOf {key : Bytes} {w : Bytes × Bool} (h : wildcardOf key = some w) : w.1.length ≤ key.length := by
  unfold wildcardOf stripPrefix stripSuffix at h
  split at h
  · cases h
  · split at h
    · next hs =>
      split at hs
      · cases hs
        cases h
        simp
      · cases hs
    · obtain ⟨pre,hpre,rfl⟩ := Option.map_eq_some_iff.mp h
      split at hpre
      · cases hpre
        simp
      · cases hpre

/-- The value with the filler for its star. -/
def probe (cs : List Directive) (w : Bytes × Bool) : Bytes := around (lowered w) (filler cs)

theorem probe_lower (cs : List Directive) (w : Bytes × Bool) : toAsciiLowercase (probe cs w) = probe cs w := by
  have hdot : toAsciiLowercase [46] = [46] := by decide
  have hp := toAsciiLowercase_idem w.1
  have hf := filler_lower cs
  unfold toAsciiLowercase at hdot hp hf
  unfold probe around lowered toAsciiLowercase
  split
  · rw [List.map_append,List.map_cons,hf,hp]
    rfl
  · rw [List.map_append,List.map_cons,hf,hp]
    rfl

theorem length_probe (cs : List Directive) (w : Bytes × Bool) : (filler cs).length < (probe cs w).length := by
  unfold probe around
  split
  · rw [List.length_append,List.length_cons]
    omega
  · rw [List.length_append,List.length_cons]
    omega

/-- Nothing but a star stands for so long a text. -/
theorem probe_not_exact {w : Bytes × Bool} {c : Directive} : ¬ IsExact cs (probe cs w) c := by
  intro h
  have hlen := length_eq_of_eqIgnoreAsciiCase h.equal
  have hlt := length_lt_filler h.entry
  have hp := length_probe cs w
  omega

/-- One value for the marked keys, another for the others. -/
def marking (marked : Bytes → Bool) (key : Bytes) : Bytes := if marked key then lit "1" else lit "0"

theorem compile_marking (marked : Bytes → Bool) (key : Bytes) :
    Template.compile (marking marked key) = if marked key then ⟨[.text (lit "1")]⟩ else ⟨[.text (lit "0")]⟩ := by
  unfold marking
  split
  · decide +kernel
  · decide +kernel

/-- The values of a block are those its keys are marked with. -/
def Valued (marked : Bytes → Bool) (cs : List Directive) : Prop :=
  ∀ c ∈ cs, valueOf c = .compile (marking marked c.name)

theorem valued_revalue (marked : Bytes → Bool) (cs : List Directive) :
    Valued marked (cs.map (revalue (marking marked))) := by
  intro c hc
  obtain ⟨b,-,rfl⟩ := List.mem_map.mp hc
  rfl

theorem Valued.marked_eq {marked : Bytes → Bool} (h : Valued marked cs) {c e : Directive} (hc : c ∈ cs) (he : e ∈ cs)
    (heq : valueOf c = valueOf e) : marked c.name = marked e.name := by
  rw [h c hc,h e he,compile_marking,compile_marking] at heq
  have hne : (⟨[.text (lit "1")]⟩ : Template) ≠ ⟨[.text (lit "0")]⟩ := by decide +kernel
  cases hm : marked c.name with
  | true =>
    cases hn : marked e.name with
    | true => rfl
    | false =>
      rw [hm,hn] at heq
      exact absurd heq hne
  | false =>
    cases hn : marked e.name with
    | true =>
      rw [hm,hn] at heq
      exact absurd heq.symm hne
    | false => rfl

theorem Matches.noStar {c : Directive} (h : Matches regexNew v c) : wildcardOf c.name = none := by
  obtain ⟨re,hre,-⟩ := h
  cases hw : wildcardOf c.name with
  | none => rfl
  | some w =>
    rw [regexOf_of_wildcard hw] at hre
    cases hre

theorem noStar_default {c : Directive} (h : c.name = lit "default") : wildcardOf c.name = none := by
  rw [h]
  decide +kernel

/-- Past the exact table, a hit among the wildcards decides, or none is there. -/
theorem Compiled.past_exact (h : Compiled regexNew cs m)
    (hx : ∀ e ∈ entries cs, isExactKey e.name = true → toAsciiLowercase e.name ≠ toAsciiLowercase v) :
    (∃ e ∈ entries cs, ∃ w s, wildcardOf e.name = some w ∧ toAsciiLowercase v = around w s ∧
      mapLookup m v = some (valueOf e)) ∨
    ((∀ e ∈ entries cs, ∀ w s, wildcardOf e.name = some w → toAsciiLowercase v ≠ around w s) ∧
      ∀ t, mapLookup m v = some t → ∃ c ∈ cs, wildcardOf c.name = none ∧ t = valueOf c) := by
  rw [mapLookup_lower]
  have hexact : m.exact.lookup (toAsciiLowercase v) = none := by
    cases hl : m.exact.lookup (toAsciiLowercase v) with
    | none => rfl
    | some t =>
      obtain ⟨e,he,hp,heq,-⟩ := h.exact_some _ _ hl
      exact absurd heq (hx e he hp)
  rw [hexact]
  dsimp only
  cases hb : bestWildcard (toAsciiLowercase v) m.wildcards with
  | some x =>
    left
    obtain ⟨hmem,hhit,-⟩ := bestWildcard_some hb
    obtain ⟨e,he,hw,hv⟩ := h.mem_wildcards.mp hmem
    obtain ⟨s,hs⟩ := wildcardHit_iff.mp hhit
    exact ⟨e,he,_,s,hw,hs,congrArg some hv⟩
  | none =>
    right
    constructor
    · intro e he w s hw hs
      have hfalse := bestWildcard_none hb (w.1,valueOf e,w.2) (h.mem_wildcards.mpr ⟨e,he,hw,rfl⟩)
      rw [wildcardHit_iff.mpr ⟨s,hs⟩] at hfalse
      cases hfalse
    · intro t ht
      dsimp only at ht
      cases hf : m.regexes.find? (fun p => p.1.isMatch v) with
      | some p =>
        rw [hf] at ht
        cases ht
        have hmem := List.mem_of_find?_eq_some hf
        rw [h.regexes,List.mem_filterMap] at hmem
        obtain ⟨e,he,hp⟩ := hmem
        obtain ⟨re,hre,rfl⟩ := Option.map_eq_some_iff.mp hp
        obtain ⟨r,hr,-⟩ := Option.bind_eq_some_iff.mp hre
        refine ⟨e,List.mem_of_mem_filter he,?_,rfl⟩
        cases hw : wildcardOf e.name with
        | none => rfl
        | some w =>
          rw [regexOf_of_wildcard hw] at hr
          cases hr
      | none =>
        rw [hf] at ht
        obtain ⟨c,hc,hn,rfl⟩ := h.default_some t ht
        exact ⟨c,hc,noStar_default hn,rfl⟩

/-- Past the exact entries, a longest wildcard answers, or none covers the value. -/
theorem Answer.past_exact {t : Option Template} (h : Answer regexNew cs v t) (hno : ∀ e, ¬ IsExact cs v e) :
    (∃ c w, IsWildcard cs v c w ∧ (∀ e x, IsWildcard cs v e x → x.1.length ≤ w.1.length) ∧ t = some (valueOf c)) ∨
    ((∀ e x, ¬ IsWildcard cs v e x) ∧ ∀ u, t = some u → ∃ c ∈ cs, wildcardOf c.name = Option.none ∧ u = valueOf c) := by
  cases h with
  | exact h => exact absurd h (hno _)
  | wildcard _ h hlong => exact .inl ⟨_,_,h,hlong,rfl⟩
  | @regex pre post c _ hstar hsplit hm _ =>
    refine .inr ⟨hstar,fun u hu => ?_⟩
    cases hu
    have hc : c ∈ entries cs := by rw [hsplit]; simp
    exact ⟨c,List.mem_of_mem_filter hc,hm.noStar,rfl⟩
  | default _ hstar _ hc hd =>
    refine .inr ⟨hstar,fun u hu => ?_⟩
    cases hu
    exact ⟨_,hc,noStar_default hd,rfl⟩
  | none _ hstar _ _ => exact .inr ⟨hstar,fun u hu => by cases hu⟩

/-- Without `hostnames` a wildcard in lower case still acts as one. -/
theorem unasked_wildcard (hc : Compiled regexNew cs m) (hv : Valued (fun key => (wildcardOf key).isSome) cs)
    (hh : hasHostnames cs = false) {e : Directive} {w : Bytes × Bool} (he : e ∈ entries cs)
    (hw : wildcardOf e.name = some w) (hlow : lowered w = w) :
    ¬ Answer regexNew cs (probe cs w) (mapLookup m (probe cs w)) := by
  intro ha
  have hplain : ∀ e ∈ entries cs, isExactKey e.name = true → toAsciiLowercase e.name ≠ toAsciiLowercase (probe cs w) := by
    intro c hm _ heq
    have hlen := congrArg List.length heq
    rw [length_toAsciiLowercase,length_toAsciiLowercase] at hlen
    have hlt := length_lt_filler hm
    have hp := length_probe cs w
    omega
  rcases hc.past_exact hplain with ⟨c,hcm,x,s,hx,-,hval⟩ | ⟨hnone,-⟩
  · rcases ha.past_exact fun _ => probe_not_exact with ⟨c',x',hwild,-⟩ | ⟨-,hother⟩
    · rw [hwild.hostnames] at hh
      cases hh
    · obtain ⟨b,hb,hbn,hbv⟩ := hother _ hval
      have hmark := hv.marked_eq (List.mem_of_mem_filter hcm) hb hbv
      simp [hx,hbn] at hmark
  · refine hnone e he w (filler cs) hw ?_
    rw [probe_lower,probe,hlow]

/-- Without `hostnames` a wildcard with a capital letter is not even a word. -/
theorem lost_key (hc : Compiled regexNew cs m) (hv : Valued (fun key => (wildcardOf key).isSome) cs)
    (hh : hasHostnames cs = false) (hcap : ∀ e ∈ entries cs, ∀ w, wildcardOf e.name = some w → lowered w ≠ w)
    {e : Directive} {w : Bytes × Bool} (he : e ∈ entries cs) (hw : wildcardOf e.name = some w) :
    ¬ Answer regexNew cs (toAsciiLowercase e.name) (mapLookup m (toAsciiLowercase e.name)) := by
  intro ha
  have hstarred : ∀ c : Directive, toAsciiLowercase c.name = toAsciiLowercase e.name → (wildcardOf c.name).isSome = true := by
    intro c heq
    have hl := wildcardOf_lowered c.name
    rw [heq,wildcardOf_lowered,hw] at hl
    cases hcw : wildcardOf c.name with
    | none =>
      rw [hcw] at hl
      cases hl
    | some x => rfl
  have hnotilde : e.name.head? ≠ some 126 := by
    intro ht
    rw [wildcardOf,if_pos ht] at hw
    cases hw
  have hexact : IsExact cs (toAsciiLowercase e.name) e := by
    refine ⟨he,hnotilde,fun h => ?_,eqIgnoreAsciiCase_iff.mpr (toAsciiLowercase_idem _).symm⟩
    rw [hh] at h
    cases h
  have hplain : ∀ c ∈ entries cs, isExactKey c.name = true →
      toAsciiLowercase c.name ≠ toAsciiLowercase (toAsciiLowercase e.name) := by
    intro c _ hp heq
    rw [toAsciiLowercase_idem] at heq
    have hsome := hstarred c heq
    rw [(isExactKey_iff.mp hp).2] at hsome
    cases hsome
  have hmarked : ∃ c ∈ cs, (wildcardOf c.name).isSome = true ∧ mapLookup m (toAsciiLowercase e.name) = some (valueOf c) := by
    generalize hl : mapLookup m (toAsciiLowercase e.name) = t at ha
    cases ha with
    | exact h =>
      have heq := eqIgnoreAsciiCase_iff.mp h.equal
      rw [toAsciiLowercase_idem] at heq
      exact ⟨_,List.mem_of_mem_filter h.entry,hstarred _ heq,rfl⟩
    | wildcard hno _ _ => exact absurd hexact (hno e)
    | regex hno _ _ _ _ => exact absurd hexact (hno e)
    | default hno _ _ _ _ => exact absurd hexact (hno e)
    | none hno _ _ _ => exact absurd hexact (hno e)
  obtain ⟨c,hcm,hcs,hval⟩ := hmarked
  rcases hc.past_exact hplain with ⟨b,hb,x,s,hx,hs,-⟩ | ⟨-,hother⟩
  · exact hcap b hb x hx (lowered_of_around hs)
  · obtain ⟨b,hb,hbn,hbv⟩ := hother _ hval
    have hmark := hv.marked_eq hcm hb hbv
    rw [hcs,hbn] at hmark
    cases hmark

/-- With `hostnames` a wildcard with a capital letter covers nothing. -/
theorem dead_wildcard (hc : Compiled regexNew cs m) (hh : hasHostnames cs = true) {e : Directive} {w : Bytes × Bool}
    (hv : Valued (fun key => decide ((wildcardOf key).map lowered = some (lowered w))) cs)
    (he : e ∈ entries cs) (hw : wildcardOf e.name = some w)
    (hcap : ∀ c ∈ entries cs, wildcardOf c.name ≠ some (lowered w)) :
    ¬ Answer regexNew cs (probe cs w) (mapLookup m (probe cs w)) := by
  intro ha
  have hplain : ∀ e ∈ entries cs, isExactKey e.name = true → toAsciiLowercase e.name ≠ toAsciiLowercase (probe cs w) := by
    intro c hm _ heq
    have hlen := congrArg List.length heq
    rw [length_toAsciiLowercase,length_toAsciiLowercase] at hlen
    have hlt := length_lt_filler hm
    have hp := length_probe cs w
    omega
  have hfits : ∀ c ∈ entries cs, ∀ x, wildcardOf c.name = some x → (lowered x).1.length < (filler cs).length := by
    intro c hm x hx
    have hle := length_wildcardOf hx
    have hlt := length_lt_filler hm
    rw [lowered,length_toAsciiLowercase]
    omega
  have hown : IsWildcard cs (probe cs w) e w := ⟨hh,he,hw,filler cs,probe_lower cs w⟩
  have hmarked : ∃ c ∈ cs, (wildcardOf c.name).map lowered = some (lowered w) ∧
      mapLookup m (probe cs w) = some (valueOf c) := by
    rcases ha.past_exact fun _ => probe_not_exact with ⟨c,x,hwild,hlong,hval⟩ | ⟨hnone,-⟩
    · obtain ⟨s,hs⟩ := hwild.covers
      rw [probe_lower,probe] at hs
      obtain ⟨hle,heq⟩ := around_filler (filler_noDot cs) (hfits c hwild.entry x hwild.pattern) hs
      have hge := hlong e w hown
      simp only [lowered,length_toAsciiLowercase] at hle heq
      have hsame := heq (by omega)
      exact ⟨c,List.mem_of_mem_filter hwild.entry,by rw [hwild.pattern]; exact congrArg some hsame,hval⟩
    · exact absurd hown (hnone e w)
  obtain ⟨c,hcm,hcs,hval⟩ := hmarked
  have hunmarked : ∃ b ∈ cs, (wildcardOf b.name).map lowered ≠ some (lowered w) ∧ valueOf c = valueOf b := by
    rcases hc.past_exact hplain with ⟨b,hb,x,s,hx,hs,hbv⟩ | ⟨-,hother⟩
    · rw [hval] at hbv
      refine ⟨b,List.mem_of_mem_filter hb,fun hmap => ?_,Option.some.inj hbv⟩
      rw [hx,Option.map_some,lowered_of_around hs] at hmap
      exact hcap b hb (hx.trans hmap)
    · obtain ⟨b,hb,hbn,hbv⟩ := hother _ hval
      exact ⟨b,hb,by simp [hbn],hbv⟩
  obtain ⟨b,hb,hbn,hbv⟩ := hunmarked
  have hmark := hv.marked_eq hcm hb hbv
  rw [decide_eq_true hcs,decide_eq_false hbn] at hmark
  cases hmark

/-- Where a wildcard is out of order some values show it. -/
theorem exists_unfaithful (regexNew : Bytes → Except Bytes Regex) (hbad : ¬ LowerWildcards cs) : ∃ marked, ∀ m,
    Compiled regexNew (cs.map (revalue (marking marked))) m →
      ∃ v, ¬ Answer regexNew (cs.map (revalue (marking marked))) v (mapLookup m v) := by
  by_cases hh : hasHostnames cs = true
  · obtain ⟨e,he,w,hw,hcap⟩ : ∃ e ∈ entries cs, ∃ w, wildcardOf e.name = some w ∧
        ∀ c ∈ entries cs, wildcardOf c.name ≠ some (lowered w) := by
      by_contra hall
      refine hbad fun c hc w hw => ⟨hh,?_⟩
      by_contra hnone
      exact hall ⟨c,hc,w,hw,fun e he hew => hnone ⟨e,he,hew⟩⟩
    let marked : Bytes → Bool := fun key => decide ((wildcardOf key).map lowered = some (lowered w))
    have hh' := (hasHostnames_revalue (marking marked)).trans hh
    have he' : revalue (marking marked) e ∈ entries (cs.map (revalue (marking marked))) := by
      rw [entries_revalue]
      exact List.mem_map_of_mem he
    refine ⟨marked,fun m hc => ⟨_,dead_wildcard hc hh' (valued_revalue _ cs) he' hw ?_⟩⟩
    rw [entries_revalue]
    exact List.forall_mem_map.mpr hcap
  · rw [Bool.not_eq_true] at hh
    obtain ⟨e0,he0,w0,hw0⟩ : ∃ e ∈ entries cs, ∃ w, wildcardOf e.name = some w := by
      by_contra hall
      exact hbad fun c hc w hw => absurd ⟨c,hc,w,hw⟩ hall
    let marked : Bytes → Bool := fun key => (wildcardOf key).isSome
    have hh' := (hasHostnames_revalue (marking marked)).trans hh
    have hmem : ∀ e ∈ entries cs, revalue (marking marked) e ∈ entries (cs.map (revalue (marking marked))) := by
      intro e he
      rw [entries_revalue]
      exact List.mem_map_of_mem he
    refine ⟨marked,fun m hc => ?_⟩
    by_cases hlow : ∃ e ∈ entries cs, ∃ w, wildcardOf e.name = some w ∧ lowered w = w
    · obtain ⟨e,he,w,hw,hlw⟩ := hlow
      exact ⟨_,unasked_wildcard hc (valued_revalue _ cs) hh' (hmem e he) hw hlw⟩
    · refine ⟨_,lost_key hc (valued_revalue _ cs) hh' ?_ (hmem e0 he0) hw0⟩
      rw [entries_revalue]
      exact List.forall_mem_map.mpr fun e he w hw hlw => hlow ⟨e,he,w,hw,hlw⟩

theorem SameKeys.lowerWildcards {d d' : Directive} (h : SameKeys d d') (hl : LowerWildcards d.children) :
    LowerWildcards d'.children := by
  have hnames : ∀ cs : List Directive, LowerWildcards cs ↔
      ∀ key ∈ cs.map Directive.name, isEntry (.mk key [] [] []) = true → ∀ w, wildcardOf key = some w →
        (cs.map Directive.name).contains (lit "hostnames") = true ∧
        ∃ k ∈ cs.map Directive.name, isEntry (.mk k [] [] []) = true ∧ wildcardOf k = some (lowered w) := by
    intro cs
    have hhost : hasHostnames cs = (cs.map Directive.name).contains (lit "hostnames") := by
      rw [hasHostnames,List.contains_eq_any_beq,List.any_map]
      congr 1
      funext c
      exact BEq.comm
    rw [← hhost]
    have hentry : ∀ c : Directive, isEntry (.mk c.name [] [] []) = isEntry c := fun c => rfl
    unfold LowerWildcards entries
    simp only [List.mem_map,forall_exists_index,and_imp,forall_apply_eq_imp_iff₂,exists_exists_and_eq_and,
      List.mem_filter,hentry,and_assoc]
  rw [hnames,h.keys,← hnames]
  exact hl

/-- A block answers as it says, whatever its values are and for every source
value, exactly when its wildcards are in lower case and asked for. -/
theorem map_precedence_iff (regexNew : Bytes → Except Bytes Regex) (d : Directive) (m : MapConf)
    (h : mapConf regexNew d = .ok m) :
    (∀ d' m', SameKeys d d' → mapConf regexNew d' = .ok m' →
      ∀ v, Answer regexNew d'.children v (mapLookup m' v)) ↔ LowerWildcards d.children := by
  constructor
  · intro hall
    by_contra hbad
    obtain ⟨marked,hmarked⟩ := exists_unfaithful regexNew hbad
    obtain ⟨d',m',hkeys,hchildren,hm'⟩ := mapConf_revalue (marking marked) h
    have hc := mapConf_compiled hm'
    rw [hchildren] at hc
    obtain ⟨v,hv⟩ := hmarked m' hc
    rw [← hchildren] at hv
    exact hv (hall d' m' hkeys hm' v)
  · intro hl d' m' hkeys hm' v
    exact (mapConf_compiled hm').answers (hkeys.lowerWildcards hl) v

/-- A block with one key and a default. -/
def hostMap (key : Bytes) : Directive :=
  .mk (lit "map") [lit "$host",lit "$x"]
    [.mk (lit "hostnames") [] [] [],.mk key [lit "1"] [] [],.mk (lit "default") [lit "0"] [] []] []

theorem map_precedence_iff_host : ∃ m, mapConf (fun _ => .error []) (hostMap (lit "*.example.com")) = .ok m ∧
    Answer (fun _ => .error []) (hostMap (lit "*.example.com")).children (lit "foo.example.com")
      (mapLookup m (lit "foo.example.com")) := by
  have hlow : LowerWildcards (hostMap (lit "*.example.com")).children := by
    have hentries : entries (hostMap (lit "*.example.com")).children =
        [.mk (lit "*.example.com") [lit "1"] [] []] := by rfl
    intro c hc w hw
    rw [hentries,List.mem_singleton] at hc
    subst hc
    obtain rfl : (lit "example.com",true) = w := Option.some.inj hw
    rw [hentries]
    exact ⟨rfl,_,List.mem_singleton_self _,rfl⟩
  exact ⟨_,rfl,(map_precedence_iff _ (hostMap (lit "*.example.com")) _ rfl).mpr hlow _ _ ⟨rfl,rfl⟩ rfl _⟩

theorem capital_wildcard : ¬ ∀ regexNew d m, mapConf regexNew d = .ok m →
    ∀ v, Answer regexNew d.children v (mapLookup m v) := by
  intro hall
  have ha := hall (fun _ => .error []) (hostMap (lit "*.Example.com")) _ rfl (lit "foo.example.com")
  have hentries : entries (hostMap (lit "*.Example.com")).children = [.mk (lit "*.Example.com") [lit "1"] [] []] := by rfl
  have hwild : IsWildcard (hostMap (lit "*.Example.com")).children (lit "foo.example.com")
      (.mk (lit "*.Example.com") [lit "1"] [] []) (lit "Example.com",true) :=
    ⟨rfl,by rw [hentries]; exact List.mem_singleton_self _,rfl,lit "foo",rfl⟩
  have hno : ∀ e, ¬ IsExact (hostMap (lit "*.Example.com")).children (lit "foo.example.com") e := by
    intro e he
    have hm := he.entry
    rw [hentries,List.mem_singleton] at hm
    have hs := he.noStar rfl
    rw [hm] at hs
    cases hs
  rcases ha.past_exact hno with ⟨c,w,hc,-,hval⟩ | ⟨hnone,-⟩
  · have hm := hc.entry
    rw [hentries,List.mem_singleton] at hm
    rw [hm] at hval
    exact absurd hval (by decide)
  · exact hnone _ _ hwild

end Unfaithful

end OxiServe.Config
