import Mathlib.Data.List.Induction
import OxiServe.Config.ZoneChecks
import OxiServe.Config.Listener
import OxiServe.Lib.CharBoundary

/-! # Which server a host names

The documented precedence is over all names of all servers: an exact name, the longest
leading wildcard, the longest trailing one, the first expression, the default server. The
scan comes to it, but its leading wildcards cover subdomains only, where the documented
ones cover the bare name too.
-/
namespace OxiServe.Config
variable {l : Listener} {host suffix : Bytes} {s t : ServerConf} {servers : List ServerConf}
variable {covers : Bytes → Bytes → Bool}

section Names

/-- The text before a suffix. -/
def stripSuffix (p s : Bytes) : Option Bytes :=
  if p.isSuffixOf s then some (s.take (s.length - p.length)) else none

/-- One argument of `server_name`. -/
def Builder.serverName (self : Builder) (a : Bytes) (d : Directive) : Built ServerName :=
  if a.isEmpty || a == lit "\"\"" then .ok .empty
  else
    match stripPrefix (lit "~*") a with
    | some re => (self.regex re true d).map .regex
    | none =>
      match stripPrefix (lit "~") a with
      | some re => (self.regex re false d).map .regex
      | none =>
        match stripPrefix (lit "*.") a with
        | some suffix => .ok (.leadingWildcard suffix)
        | none =>
          match stripSuffix (lit ".*") a with
          | some pre => .ok (.trailingWildcard pre)
          | none => .ok (.exact (toAsciiLowercase a))

/-- What follows `*.` is the suffix of a leading wildcard. -/
theorem Builder.serverName_leading (self : Builder) (suffix : Bytes) (d : Directive) :
    self.serverName (lit "*." ++ suffix) d = .ok (.leadingWildcard suffix) := by
  have hstar : lit "*." ++ suffix = 42 :: 46 :: suffix := rfl
  have hone : stripPrefix (lit "~*") (42 :: 46 :: suffix) = none := rfl
  have htwo : stripPrefix (lit "~") (42 :: 46 :: suffix) = none := rfl
  have hdot : stripPrefix (lit "*.") (42 :: 46 :: suffix) = some suffix := rfl
  unfold Builder.serverName
  rw [hstar,hone,htwo,hdot]
  rfl

namespace ServerName

/-- The host is the name itself. -/
def isExact (host : Bytes) : ServerName → Bool
  | .exact e => eqIgnoreAsciiCase host e
  | .empty => host.isEmpty
  | _ => false

/-- How long a leading wildcard is that covers the host. -/
def lead (covers : Bytes → Bytes → Bool) (host : Bytes) : ServerName → Option ℕ
  | .leadingWildcard suffix => if covers host suffix then some suffix.length else none
  | _ => none

def trail (host : Bytes) : ServerName → Option ℕ
  | .trailingWildcard pre => if matchesTrailing host pre then some pre.length else none
  | _ => none

/-- A leading wildcard of which the host is the bare name. -/
def isBareOf (host : Bytes) : ServerName → Bool
  | .leadingWildcard suffix => eqIgnoreAsciiCase host suffix
  | _ => false

/-- Where the host is cut to be compared with a wildcard. -/
def cut (host : Bytes) : ServerName → Option ℕ
  | .leadingWildcard suffix =>
    if suffix.length < host.length && host[host.length - suffix.length - 1]? == some dot then
      some (host.length - suffix.length)
    else none
  | .trailingWildcard pre =>
    if pre.length < host.length && host[pre.length]? == some dot then some pre.length else none
  | _ => none

end ServerName

/-- A leading wildcard as documented: its subdomains and the bare name. -/
def coversLeading (host suffix : Bytes) : Bool := matchesLeading host suffix || eqIgnoreAsciiCase host suffix

end Names

section Precedence

/-- The server has a wildcard that is as long as any. -/
def HasLongest (f : ServerName → Option ℕ) (servers : List ServerConf) (s : ServerConf) : Prop :=
  ∃ n ∈ s.names, ∃ k, f n = some k ∧ ∀ t ∈ servers, ∀ m ∈ t.names, ∀ j, f m = some j → j ≤ k

/-- No server has a name of a kind. -/
def NoneHas (p : ServerName → Bool) (servers : List ServerConf) : Prop := ∀ s ∈ servers, s.names.any p = false

/-- A server the host may be given to, by what a leading wildcard covers. -/
inductive Named (covers : Bytes → Bytes → Bool) (l : Listener) (host : Bytes) : ServerConf → Prop
  | exact {s : ServerConf} : s ∈ l.servers → s.names.any (ServerName.isExact host) = true → Named covers l host s
  | leading {s : ServerConf} : NoneHas (ServerName.isExact host) l.servers → s ∈ l.servers →
      HasLongest (ServerName.lead covers host) l.servers s → Named covers l host s
  | trailing {s : ServerConf} : NoneHas (ServerName.isExact host) l.servers →
      NoneHas (fun n => (n.lead covers host).isSome) l.servers → s ∈ l.servers →
      HasLongest (ServerName.trail host) l.servers s → Named covers l host s
  | regex {s : ServerConf} : NoneHas (ServerName.isExact host) l.servers →
      NoneHas (fun n => (n.lead covers host).isSome) l.servers → NoneHas (fun n => (n.trail host).isSome) l.servers →
      l.servers.find? (fun t => t.names.any (matchesRegex host)) = some s → Named covers l host s
  | default : NoneHas (ServerName.isExact host) l.servers →
      NoneHas (fun n => (n.lead covers host).isSome) l.servers → NoneHas (fun n => (n.trail host).isSome) l.servers →
      NoneHas (matchesRegex host) l.servers → Named covers l host l.default

/-- The first of the servers the host may be given to. -/
def FirstNamed (covers : Bytes → Bytes → Bool) (l : Listener) (host : Bytes) (s : ServerConf) : Prop :=
  ∃ pre post, l.servers = pre ++ s :: post ∧ Named covers l host s ∧ ∀ t ∈ pre, ¬ Named covers l host t

theorem FirstNamed.unique (hs : FirstNamed covers l host s) (ht : FirstNamed covers l host t) : s = t := by
  obtain ⟨pre,post,hl,hs,hpre⟩ := hs
  obtain ⟨pre',post',hl',ht,hpre'⟩ := ht
  rw [hl] at hl'
  rcases List.append_eq_append_iff.mp hl' with ⟨mid,rfl,hm⟩ | ⟨mid,rfl,hm⟩
  · cases mid with
    | nil =>
      cases hm
      rfl
    | cons m mid =>
      cases hm
      exact absurd hs (hpre' s (List.mem_append_right _ List.mem_cons_self))
  · cases mid with
    | nil =>
      cases hm
      rfl
    | cons m mid =>
      cases hm
      exact absurd ht (hpre t (List.mem_append_right _ List.mem_cons_self))

end Precedence

section Wildcards
variable {f : ServerName → Option ℕ}

/-- The wildcards of a kind that cover the host, with the servers that have them. -/
def wildcards (f : ServerName → Option ℕ) (servers : List ServerConf) : List (ℕ × ServerConf) :=
  servers.flatMap (fun s => (s.names.filterMap f).map (fun k => (k,s)))

/-- Each of them in turn is kept if it is longer. -/
def keepEach (best : Option (ℕ × ServerConf)) (ws : List (ℕ × ServerConf)) : Option (ℕ × ServerConf) :=
  ws.foldl (fun b w => keepLonger b w.1 w.2) best

theorem mem_wildcards {k : ℕ} : (k,s) ∈ wildcards f servers ↔ s ∈ servers ∧ ∃ n ∈ s.names, f n = some k := by
  simp only [wildcards,List.mem_flatMap,List.mem_map,List.mem_filterMap,Prod.mk.injEq]
  constructor
  · rintro ⟨t,ht,j,⟨n,hn,hf⟩,rfl,rfl⟩
    exact ⟨ht,n,hn,hf⟩
  · rintro ⟨hs,n,hn,hf⟩
    exact ⟨s,hs,k,⟨n,hn,hf⟩,rfl,rfl⟩

/-- The first of the longest is kept. -/
theorem keepEach_some (w : ℕ × ServerConf) (ws : List (ℕ × ServerConf)) :
    ∃ best pre post, keepEach (some w) ws = some best ∧ w :: ws = pre ++ best :: post ∧
      (∀ v ∈ pre, v.1 < best.1) ∧ ∀ v ∈ post, v.1 ≤ best.1 := by
  induction ws using List.reverseRecOn with
  | nil => exact ⟨w,[],[],rfl,rfl,by simp,by simp⟩
  | append_singleton ws v ih =>
    obtain ⟨best,pre,post,hk,hl,hpre,hpost⟩ := ih
    have hstep : keepEach (some w) (ws ++ [v]) = keepLonger (some best) v.1 v.2 := by
      unfold keepEach at hk ⊢
      rw [List.foldl_append,hk]
      rfl
    rw [hstep,keepLonger]
    by_cases hlt : best.1 < v.1
    · refine ⟨v,w :: ws,[],if_pos hlt,by simp,?_,by simp⟩
      intro u hu
      rw [hl] at hu
      rcases List.mem_append.mp hu with hu | hu
      · exact Nat.lt_trans (hpre u hu) hlt
      · rcases List.mem_cons.mp hu with rfl | hu
        · exact hlt
        · exact Nat.lt_of_le_of_lt (hpost u hu) hlt
    · refine ⟨best,pre,post ++ [v],if_neg hlt,?_,hpre,?_⟩
      · rw [← List.cons_append,hl,List.append_assoc,List.cons_append]
      · intro u hu
        rcases List.mem_append.mp hu with hu | hu
        · exact hpost u hu
        · rw [List.mem_singleton.mp hu]
          exact Nat.not_lt.mp hlt

theorem keepEach_none (h : keepEach none (wildcards f servers) = none) : NoneHas (fun n => (f n).isSome) servers := by
  cases hw : wildcards f servers with
  | nil =>
    intro s hs
    rw [List.any_eq_false]
    intro n hn hsome
    obtain ⟨k,hk⟩ := Option.isSome_iff_exists.mp hsome
    have := (mem_wildcards (k := k)).mpr ⟨hs,n,hn,hk⟩
    rw [hw] at this
    cases this
  | cons w ws =>
    rw [hw] at h
    obtain ⟨best,-,-,hk,-⟩ := keepEach_some w ws
    have : keepEach none (w :: ws) = keepEach (some w) ws := rfl
    rw [this,hk] at h
    cases h

/-- What is kept belongs to the first server that has a longest one. -/
theorem keepEach_longest {k : ℕ} (h : keepEach none (wildcards f servers) = some (k,s)) :
    s ∈ servers ∧ HasLongest f servers s ∧
      ∃ pre post, servers = pre ++ s :: post ∧ ∀ t ∈ pre, ¬ HasLongest f servers t := by
  cases hw : wildcards f servers with
  | nil =>
    rw [hw] at h
    cases h
  | cons w ws =>
    rw [hw] at h
    obtain ⟨best,before,after,hk,hl,hbefore,hafter⟩ := keepEach_some w ws
    have hstep : keepEach none (w :: ws) = keepEach (some w) ws := rfl
    rw [hstep,hk] at h
    cases h
    rw [← hw] at hl
    have hle : ∀ t ∈ servers, ∀ m ∈ t.names, ∀ j, f m = some j → j ≤ k := by
      intro t ht m hm j hj
      have hmem := mem_wildcards.mpr ⟨ht,m,hm,hj⟩
      rw [hl] at hmem
      rcases List.mem_append.mp hmem with hmem | hmem
      · exact Nat.le_of_lt (hbefore _ hmem)
      · rcases List.mem_cons.mp hmem with he | hmem
        · cases he
          exact Nat.le_refl _
        · exact hafter _ hmem
    have hself : (k,s) ∈ wildcards f servers := by
      rw [hl]
      exact List.mem_append_right _ List.mem_cons_self
    obtain ⟨hs,n,hn,hf⟩ := mem_wildcards.mp hself
    obtain ⟨pre,post,hsplit,hnot⟩ := List.eq_append_cons_of_mem hs
    refine ⟨hs,⟨n,hn,k,hf,hle⟩,pre,post,hsplit,?_⟩
    rintro t ht ⟨m,hm,j,hj,hmax⟩
    have hjk : k ≤ j := hmax s hs n hn k hf
    have hmem : (j,t) ∈ wildcards f pre := mem_wildcards.mpr ⟨ht,m,hm,hj⟩
    have hws : wildcards f servers = wildcards f pre ++ wildcards f (s :: post) := by
      rw [hsplit]
      exact List.flatMap_append
    rw [hl] at hws
    rcases List.append_eq_append_iff.mp hws with ⟨mid,hpre,htail⟩ | ⟨mid,hb,-⟩
    · cases mid with
      | nil =>
        rw [List.append_nil] at hpre
        rw [hpre] at hmem
        have := hbefore _ hmem
        omega
      | cons x mid =>
        have hx : x = (k,s) := (List.cons.inj htail).1.symm
        have hin : (k,s) ∈ wildcards f pre := by
          rw [hpre,hx]
          exact List.mem_append_right _ List.mem_cons_self
        exact absurd (mem_wildcards.mp hin).1 hnot
    · rw [hb] at hbefore
      have := hbefore _ (List.mem_append_left _ hmem)
      omega

end Wildcards

section Scan

theorem scanNames_cases (host : Bytes) (s : ServerConf) (names : List ServerName) (best : BestWildcard) :
    (names.any (ServerName.isExact host) = true ∧ scanNames host s names best = .error s) ∨
      (names.any (ServerName.isExact host) = false ∧ scanNames host s names best =
        .ok ⟨keepEach best.lead ((names.filterMap (ServerName.lead matchesLeading host)).map (fun k => (k,s))),
          keepEach best.trail ((names.filterMap (ServerName.trail host)).map (fun k => (k,s)))⟩) := by
  induction names generalizing best with
  | nil => exact .inr ⟨rfl,rfl⟩
  | cons n names ih =>
    cases n with
    | exact e =>
      rw [scanNames,List.any_cons,ServerName.isExact]
      by_cases he : eqIgnoreAsciiCase host e = true
      · exact .inl ⟨by rw [he,Bool.true_or],if_pos he⟩
      · rw [if_neg he,Bool.eq_false_iff.mpr he,Bool.false_or]
        exact ih best
    | empty =>
      rw [scanNames,List.any_cons,ServerName.isExact]
      by_cases he : host.isEmpty = true
      · exact .inl ⟨by rw [he,Bool.true_or],if_pos he⟩
      · rw [if_neg he,Bool.eq_false_iff.mpr he,Bool.false_or]
        exact ih best
    | leadingWildcard suffix =>
      have hany : ((.leadingWildcard suffix :: names).any (ServerName.isExact host)) =
        names.any (ServerName.isExact host) := rfl
      rw [scanNames,hany]
      by_cases hm : matchesLeading host suffix = true
      · have hlead : ServerName.lead matchesLeading host (.leadingWildcard suffix) = some suffix.length := if_pos hm
        rw [if_pos hm,List.filterMap_cons,hlead]
        exact ih _
      · have hlead : ServerName.lead matchesLeading host (.leadingWildcard suffix) = none := if_neg hm
        rw [if_neg hm,List.filterMap_cons,hlead]
        exact ih best
    | trailingWildcard pre =>
      have hany : ((.trailingWildcard pre :: names).any (ServerName.isExact host)) =
        names.any (ServerName.isExact host) := rfl
      have hlead : (ServerName.trailingWildcard pre :: names).filterMap (ServerName.lead matchesLeading host) =
        names.filterMap (ServerName.lead matchesLeading host) := rfl
      rw [scanNames,hany,hlead]
      by_cases hm : matchesTrailing host pre = true
      · have htrail : ServerName.trail host (.trailingWildcard pre) = some pre.length := if_pos hm
        rw [if_pos hm,List.filterMap_cons,htrail]
        exact ih _
      · have htrail : ServerName.trail host (.trailingWildcard pre) = none := if_neg hm
        rw [if_neg hm,List.filterMap_cons,htrail]
        exact ih best
    | regex re => exact ih best

/-- The scan ends at the first exact name, or has noted the longest wildcards. -/
theorem scanServers_cases (host : Bytes) (servers : List ServerConf) (best : BestWildcard) :
    (∃ pre s post, servers = pre ++ s :: post ∧ NoneHas (ServerName.isExact host) pre ∧
      s.names.any (ServerName.isExact host) = true ∧ scanServers host servers best = .error s) ∨
      (NoneHas (ServerName.isExact host) servers ∧ scanServers host servers best =
        .ok ⟨keepEach best.lead (wildcards (ServerName.lead matchesLeading host) servers),
          keepEach best.trail (wildcards (ServerName.trail host) servers)⟩) := by
  induction servers generalizing best with
  | nil => exact .inr ⟨by simp [NoneHas],rfl⟩
  | cons s servers ih =>
    rw [scanServers]
    rcases scanNames_cases host s s.names best with ⟨he,hs⟩ | ⟨he,hs⟩
    · rw [hs]
      exact .inl ⟨[],s,servers,rfl,by simp [NoneHas],he,rfl⟩
    · rw [hs]
      dsimp only
      rcases ih ⟨keepEach best.lead ((s.names.filterMap (ServerName.lead matchesLeading host)).map (fun k => (k,s))),
        keepEach best.trail ((s.names.filterMap (ServerName.trail host)).map (fun k => (k,s)))⟩ with
        ⟨pre,t,post,rfl,hpre,ht,hr⟩ | ⟨hno,hr⟩
      · refine .inl ⟨s :: pre,t,post,rfl,?_,ht,hr⟩
        intro u hu
        rcases List.mem_cons.mp hu with rfl | hu
        · exact he
        · exact hpre u hu
      · refine .inr ⟨?_,?_⟩
        · intro u hu
          rcases List.mem_cons.mp hu with rfl | hu
          · exact he
          · exact hno u hu
        · rw [hr]
          simp only [wildcards,List.flatMap_cons,keepEach,List.foldl_append]

end Scan

section First

theorem Named.of_exact (h : Named covers l host s) (ht : t ∈ l.servers)
    (he : t.names.any (ServerName.isExact host) = true) : s.names.any (ServerName.isExact host) = true := by
  cases h with
  | exact _ hs => exact hs
  | leading hno _ _ | trailing hno _ _ _ | regex hno _ _ _ | default hno _ _ _ =>
    rw [hno t ht] at he
    cases he

theorem HasLongest.any {f : ServerName → Option ℕ} (h : HasLongest f servers s) :
    s.names.any (fun n => (f n).isSome) = true := by
  obtain ⟨n,hn,k,hk,-⟩ := h
  exact List.any_eq_true.mpr ⟨n,hn,by rw [hk]; rfl⟩

theorem Named.of_leading (h : Named covers l host s) (hno : NoneHas (ServerName.isExact host) l.servers)
    (ht : t ∈ l.servers) (hl : t.names.any (fun n => (n.lead covers host).isSome) = true) :
    s ∈ l.servers ∧ HasLongest (ServerName.lead covers host) l.servers s := by
  cases h with
  | exact hs he =>
    rw [hno s hs] at he
    cases he
  | leading _ hs hlong => exact ⟨hs,hlong⟩
  | trailing _ hnl _ _ | regex _ hnl _ _ | default _ hnl _ _ =>
    rw [hnl t ht] at hl
    cases hl

theorem Named.of_trailing (h : Named covers l host s) (hno : NoneHas (ServerName.isExact host) l.servers)
    (hnl : NoneHas (fun n => (n.lead covers host).isSome) l.servers) (ht : t ∈ l.servers)
    (hl : t.names.any (fun n => (n.trail host).isSome) = true) :
    s ∈ l.servers ∧ HasLongest (ServerName.trail host) l.servers s := by
  cases h with
  | exact hs he =>
    rw [hno s hs] at he
    cases he
  | leading _ hs hlong =>
    have := hlong.any
    rw [hnl s hs] at this
    cases this
  | trailing _ _ hs hlong => exact ⟨hs,hlong⟩
  | regex _ _ hnt _ | default _ _ hnt _ =>
    rw [hnt t ht] at hl
    cases hl

theorem Named.of_rest (h : Named covers l host s) (hno : NoneHas (ServerName.isExact host) l.servers)
    (hnl : NoneHas (fun n => (n.lead covers host).isSome) l.servers)
    (hnt : NoneHas (fun n => (n.trail host).isSome) l.servers) :
    l.servers.find? (fun t => t.names.any (matchesRegex host)) = some s ∨
      (NoneHas (matchesRegex host) l.servers ∧ s = l.default) := by
  cases h with
  | exact hs he =>
    rw [hno s hs] at he
    cases he
  | leading _ hs hlong =>
    have := hlong.any
    rw [hnl s hs] at this
    cases this
  | trailing _ _ hs hlong =>
    have := hlong.any
    rw [hnt s hs] at this
    cases this
  | regex _ _ _ hf => exact .inl hf
  | default _ _ _ hr => exact .inr ⟨hr,rfl⟩

/-- The scan picks the first of the servers that may have the host, where a leading
wildcard covers subdomains. -/
theorem matchHost_first (l : Listener) (host : Bytes) :
    FirstNamed matchesLeading l (trimEndDots host) (l.matchHost host) := by
  unfold Listener.matchHost
  dsimp only
  generalize trimEndDots host = h
  rcases scanServers_cases h l.servers ⟨none,none⟩ with ⟨pre,s,post,hl,hpre,hs,hr⟩ | ⟨hno,hr⟩
  · rw [hr]
    have hmem : s ∈ l.servers := hl ▸ List.mem_append_right _ List.mem_cons_self
    refine ⟨pre,post,hl,.exact hmem hs,?_⟩
    intro t ht hn
    have := hn.of_exact hmem hs
    rw [hpre t ht] at this
    cases this
  · rw [hr]
    dsimp only
    cases hlead : keepEach none (wildcards (ServerName.lead matchesLeading h) l.servers) with
    | some p =>
      obtain ⟨k,s⟩ := p
      obtain ⟨hs,hlong,pre,post,hl,hpre⟩ := keepEach_longest hlead
      refine ⟨pre,post,hl,.leading hno hs hlong,?_⟩
      intro t ht hn
      exact hpre t ht (hn.of_leading hno hs hlong.any).2
    | none =>
      have hnl := keepEach_none hlead
      cases htrail : keepEach none (wildcards (ServerName.trail h) l.servers) with
      | some p =>
        obtain ⟨k,s⟩ := p
        obtain ⟨hs,hlong,pre,post,hl,hpre⟩ := keepEach_longest htrail
        refine ⟨pre,post,hl,.trailing hno hnl hs hlong,?_⟩
        intro t ht hn
        exact hpre t ht (hn.of_trailing hno hnl hs hlong.any).2
      | none =>
        have hnt := keepEach_none htrail
        dsimp only
        cases hf : l.servers.find? (fun s => s.names.any (matchesRegex h)) with
        | some s =>
          obtain ⟨hs,pre,post,hl,hpre⟩ := List.find?_eq_some_iff_append.mp hf
          refine ⟨pre,post,hl,.regex hno hnl hnt hf,?_⟩
          intro t ht hn
          rcases hn.of_rest hno hnl hnt with hft | ⟨hnr,-⟩
          · rw [hf] at hft
            cases hft
            have := hpre s ht
            rw [hs] at this
            cases this
          · rw [hnr s (hl ▸ List.mem_append_right _ List.mem_cons_self)] at hs
            cases hs
        | none =>
          have hnr : NoneHas (matchesRegex h) l.servers := by
            intro t ht
            exact Bool.not_eq_true _ ▸ List.find?_eq_none.mp hf t ht
          obtain ⟨pre,post,hl,hpre⟩ := List.eq_append_cons_of_mem (List.get_mem l.servers ⟨l.defaultServer,l.default_lt⟩)
          refine ⟨pre,post,hl,.default hno hnl hnt hnr,?_⟩
          intro t ht hn
          rcases hn.of_rest hno hnl hnt with hft | ⟨-,rfl⟩
          · rw [hf] at hft
            cases hft
          · exact hpre ht

end First

section Documented

/-- The scan cuts the host between characters. -/
def CutsWhole (l : Listener) (host : Bytes) : Prop :=
  ∀ s ∈ l.servers, ∀ n ∈ s.names, ∀ i, n.cut host = some i → isCharBoundary host i = true

theorem utf8Valid_trimEndDots (h : utf8Valid host = true) : utf8Valid (trimEndDots host) = true := by
  have hsplit : host = trimEndDots host ++ (host.reverse.takeWhile (· == dot)).reverse := by
    rw [trimEndDots,← List.reverse_append,List.takeWhile_append_dropWhile,List.reverse_reverse]
  have hdots : ∀ ds : Bytes, (∀ c ∈ ds, c = dot) → ∀ s : Bytes, utf8Valid (s ++ ds.reverse) = true → utf8Valid s = true := by
    intro ds
    induction ds with
    | nil =>
      intro _ s hs
      simpa using hs
    | cons c ds ih =>
      intro hc s hs
      have hdot : c = dot := hc c List.mem_cons_self
      rw [List.reverse_cons,← List.append_assoc] at hs
      refine ih (fun d hd => hc d (List.mem_cons_of_mem _ hd)) s (utf8Valid_of_append_ascii ?_ hs)
      rw [hdot]
      decide
  rw [hsplit] at h
  refine hdots _ ?_ _ h
  intro c hc
  simpa using List.mem_takeWhile_imp hc

/-- A dot stands before every cut, or at it. -/
theorem cutsWhole (l : Listener) (hu : utf8Valid host = true) : CutsWhole l host := by
  intro s _ n _ i hcut
  cases n with
  | leadingWildcard suffix =>
    simp only [ServerName.cut] at hcut
    split at hcut
    · rename_i hc
      cases hcut
      simp only [Bool.and_eq_true,decide_eq_true_eq,beq_iff_eq] at hc
      have hsub : host.length - suffix.length = host.length - suffix.length - 1 + 1 := by omega
      rw [hsub]
      exact isCharBoundary_succ hu hc.2 (by decide)
    · cases hcut
  | trailingWildcard pre =>
    simp only [ServerName.cut] at hcut
    split at hcut
    · rename_i hc
      cases hcut
      simp only [Bool.and_eq_true,decide_eq_true_eq,beq_iff_eq] at hc
      unfold isCharBoundary
      rw [hc.2]
      simp only [Bool.or_eq_true]
      exact .inr (by decide)
    · cases hcut
  | exact _ | empty | regex _ => cases hcut

theorem FirstNamed.mem (h : FirstNamed covers l host s) : s ∈ l.servers := by
  obtain ⟨pre,post,hl,-⟩ := h
  exact hl ▸ List.mem_append_right _ List.mem_cons_self

/-- Only what leading wildcards cover of the host counts. -/
theorem Named.congr {covers' : Bytes → Bytes → Bool} (h : Named covers l host s)
    (hc : ∀ t ∈ l.servers, ∀ n ∈ t.names, n.lead covers host = n.lead covers' host) : Named covers' l host s := by
  have hnone : NoneHas (fun n => (n.lead covers host).isSome) l.servers →
      NoneHas (fun n => (n.lead covers' host).isSome) l.servers := by
    intro hnl t ht
    rw [List.any_eq_false]
    intro n hn
    rw [← hc t ht n hn]
    exact List.any_eq_false.mp (hnl t ht) n hn
  cases h with
  | exact hs he => exact .exact hs he
  | leading hno hs hlong =>
    obtain ⟨n,hn,k,hk,hmax⟩ := hlong
    refine .leading hno hs ⟨n,hn,k,hc s hs n hn ▸ hk,?_⟩
    intro t ht m hm j hj
    rw [← hc t ht m hm] at hj
    exact hmax t ht m hm j hj
  | trailing hno hnl hs hlong => exact .trailing hno (hnone hnl) hs hlong
  | regex hno hnl hnt hf => exact .regex hno (hnone hnl) hnt hf
  | default hno hnl hnt hr => exact .default hno (hnone hnl) hnt hr

theorem lead_of_not_bare {n : ServerName} (h : n.isBareOf host = false) :
    n.lead matchesLeading host = n.lead coversLeading host := by
  cases n with
  | leadingWildcard suffix =>
    have he : eqIgnoreAsciiCase host suffix = false := h
    simp only [ServerName.lead,coversLeading,he,Bool.or_false]
  | _ => rfl

theorem lead_of_bare {n : ServerName} (h : n.isBareOf host = true) :
    n.lead coversLeading host = some host.length := by
  cases n with
  | leadingWildcard suffix =>
    have he : eqIgnoreAsciiCase host suffix = true := h
    simp only [ServerName.lead,coversLeading,he,Bool.or_true,if_true,length_eq_of_eqIgnoreAsciiCase he]
  | exact _ | trailingWildcard _ | regex _ | empty => cases h

/-- A wildcard is shorter than the hosts within it. -/
theorem lead_lt {n : ServerName} {k : ℕ} (h : n.lead matchesLeading host = some k) : k < host.length := by
  cases n with
  | leadingWildcard suffix =>
    simp only [ServerName.lead] at h
    split at h
    · rename_i hm
      cases h
      simp only [matchesLeading,Bool.and_eq_true,decide_eq_true_eq] at hm
      exact hm.1.1
    · cases h
  | exact _ | trailingWildcard _ | regex _ | empty => cases h

theorem hasLongest_of_bare (hs : s.names.any (ServerName.isBareOf host) = true) :
    HasLongest (ServerName.lead coversLeading host) servers s := by
  obtain ⟨n,hn,hb⟩ := List.any_eq_true.mp hs
  refine ⟨n,hn,host.length,lead_of_bare hb,?_⟩
  intro t _ m _ j hj
  cases hm : m.isBareOf host with
  | true =>
    rw [lead_of_bare hm] at hj
    cases hj
    exact Nat.le_refl _
  | false =>
    rw [← lead_of_not_bare hm] at hj
    exact Nat.le_of_lt (lead_lt hj)

/-- With the bare name among the wildcards, only servers that have it will do. -/
theorem Named.bare (h : Named coversLeading l host s) (hno : NoneHas (ServerName.isExact host) l.servers)
    (ht : t ∈ l.servers) (hb : t.names.any (ServerName.isBareOf host) = true) :
    s.names.any (ServerName.isBareOf host) = true := by
  have hlong := @hasLongest_of_bare host t l.servers hb
  obtain ⟨-,n,hn,k,hk,hmax⟩ := h.of_leading hno ht hlong.any
  obtain ⟨m,hm,hmb⟩ := List.any_eq_true.mp hb
  have hle := hmax t ht m hm host.length (lead_of_bare hmb)
  refine List.any_eq_true.mpr ⟨n,hn,?_⟩
  cases hnb : n.isBareOf host with
  | true => rfl
  | false =>
    rw [← lead_of_not_bare hnb] at hk
    have := lead_lt hk
    omega

/-- The documented server is picked unless the host is the bare name of a leading
wildcard, has no exact name, and goes by the rest to a server without that wildcard. -/
theorem matchHost_named_iff (l : Listener) (host : Bytes) (hu : utf8Valid host = true) :
    (Named coversLeading l (trimEndDots host) (l.matchHost host) ∧ CutsWhole l (trimEndDots host)) ↔
      (∃ s ∈ l.servers, s.names.any (ServerName.isExact (trimEndDots host)) = true) ∨
        NoneHas (ServerName.isBareOf (trimEndDots host)) l.servers ∨
        ∃ s, FirstNamed matchesLeading l (trimEndDots host) s ∧
          s.names.any (ServerName.isBareOf (trimEndDots host)) = true := by
  have hfirst := matchHost_first l host
  have hcuts := cutsWhole l (utf8Valid_trimEndDots hu)
  generalize trimEndDots host = h at *
  generalize l.matchHost host = s at *
  obtain ⟨-,-,-,hnamed,-⟩ := id hfirst
  by_cases hex : ∃ t ∈ l.servers, t.names.any (ServerName.isExact h) = true
  · obtain ⟨t,ht,he⟩ := id hex
    exact ⟨fun _ => .inl hex,fun _ => ⟨.exact hfirst.mem (hnamed.of_exact ht he),hcuts⟩⟩
  · have hno : NoneHas (ServerName.isExact h) l.servers :=
      fun t ht => Bool.eq_false_iff.mpr (fun he => hex ⟨t,ht,he⟩)
    constructor
    · rintro ⟨hn,-⟩
      refine .inr ?_
      by_cases hb : ∃ t ∈ l.servers, t.names.any (ServerName.isBareOf h) = true
      · obtain ⟨t,ht,hb⟩ := hb
        exact .inr ⟨s,hfirst,hn.bare hno ht hb⟩
      · exact .inl (fun t ht => Bool.eq_false_iff.mpr (fun hn => hb ⟨t,ht,hn⟩))
    · rintro (hex' | hnone | ⟨t,ht,hb⟩)
      · exact absurd hex' hex
      · refine ⟨hnamed.congr ?_,hcuts⟩
        intro t ht n hn
        exact lead_of_not_bare (Bool.eq_false_iff.mpr (List.any_eq_false.mp (hnone t ht) n hn))
      · cases hfirst.unique ht
        exact ⟨.leading hno hfirst.mem (hasLongest_of_bare hb),hcuts⟩

/-- A server for every name under `example.com`, behind the default one. -/
def underExample : Listener where
  servers := [.bare,{ ServerConf.bare with names := [.leadingWildcard (lit "example.com")] }]
  defaultServer := 0
  default_lt := Nat.zero_lt_succ _

theorem underExample_named : Named coversLeading underExample (trimEndDots (lit "www.example.com"))
      (underExample.matchHost (lit "www.example.com")) ∧ CutsWhole underExample (trimEndDots (lit "www.example.com")) := by
  have hnone : NoneHas (ServerName.isBareOf (trimEndDots (lit "www.example.com"))) underExample.servers := by
    unfold NoneHas
    decide +kernel
  exact (matchHost_named_iff underExample (lit "www.example.com") (by decide +kernel)).mpr (.inr (.inl hnone))

/-- The bare name goes to the default server. -/
theorem underExample_missed :
    plain.serverName (lit "*." ++ lit "example.com") (directive "server_name" ["*.example.com"] []) =
        .ok (.leadingWildcard (lit "example.com")) ∧
      ¬ Named coversLeading underExample (trimEndDots (lit "example.com")) (underExample.matchHost (lit "example.com")) := by
  refine ⟨plain.serverName_leading _ _,fun h => ?_⟩
  have hno : NoneHas (ServerName.isExact (trimEndDots (lit "example.com"))) underExample.servers := by
    unfold NoneHas
    decide +kernel
  have hany : ({ ServerConf.bare with names := [.leadingWildcard (lit "example.com")] } : ServerConf).names.any
      (ServerName.isBareOf (trimEndDots (lit "example.com"))) = true := by decide +kernel
  have hb := h.bare hno (List.mem_cons_of_mem _ List.mem_cons_self) hany
  have hs : (underExample.matchHost (lit "example.com")).names.any
      (ServerName.isBareOf (trimEndDots (lit "example.com"))) = false := by decide +kernel
  rw [hs] at hb
  cases hb

end Documented

end OxiServe.Config
