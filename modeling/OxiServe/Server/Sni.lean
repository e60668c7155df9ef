import OxiServe.Config.HostChoice

/-! # The certificate for a name

The certificates of a listener are tried in the order of its servers, each by the exact
names and the leading wildcards of its server, and the first one stands in where none
fits. The server a request goes to is chosen by precedence, so the two can differ.
-/
namespace OxiServe.Server
open Config
variable {Key : Type}

section Resolver

/-- The patterns of each certificate, with its key. -/
structure SniResolver (Key : Type) where
  entries : List (List Bytes × Key)

/-- A pattern of a certificate fits a name. -/
def sniHit (sni n : Bytes) : Bool :=
  match stripPrefix (lit "*.") n with
  | some suffix =>
    suffix.length < sni.length && sni[sni.length - suffix.length - 1]? == some dot && suffix.isSuffixOf sni
  | none => eqIgnoreAsciiCase sni n

namespace SniResolver

def add (self : SniResolver Key) (names : List Bytes) (key : Key) : SniResolver Key :=
  ⟨self.entries ++ [(names,key)]⟩

/-- The first entry with a pattern that fits. -/
def search (sni : Bytes) : List (List Bytes × Key) → Option Key
  | [] => none
  | (names,key) :: entries => if names.any (sniHit sni) then some key else search sni entries

def resolve (self : SniResolver Key) (serverName : Option Bytes) : Option Key :=
  match serverName.bind (fun sni => search sni self.entries) with
  | some key => some key
  | none => self.entries.head?.map Prod.snd

end SniResolver

/-- The names of a server its certificate is offered for. -/
def sniNames (names : List ServerName) : List Bytes :=
  names.filterMap (fun n =>
    match n with
    | .exact e => if e.isEmpty then none else some e
    | .leadingWildcard x => some (lit "*." ++ x)
    | _ => none)

/-- Adds the certificates of the servers, which are loaded from their files. -/
def addCertificates (load : TlsConf → Except Bytes Key) : List ServerConf → SniResolver Key → Except Bytes (SniResolver Key)
  | [], resolver => .ok resolver
  | s :: servers, resolver =>
    match s.tls with
    | none => addCertificates load servers resolver
    | some t =>
      match load t with
      | .error e => .error e
      | .ok key => addCertificates load servers (resolver.add (sniNames s.names) key)

/-- None when the listener has no certificate at all. -/
def sniResolverFor (load : TlsConf → Except Bytes Key) (l : Listener) : Except Bytes (Option (SniResolver Key)) :=
  (addCertificates load l.servers ⟨[]⟩).map (fun r => if r.entries.isEmpty then none else some r)

end Resolver

section Agreement

/-- The server for a name, or for none. -/
def serverFor (l : Listener) : Option Bytes → ServerConf
  | some n => l.matchHost n
  | none => l.default

/-- A server with a certificate is reached under that certificate. -/
def SniAgrees (load : TlsConf → Except Bytes Key) (l : Listener) (r : Option (SniResolver Key))
    (sni : Option Bytes) : Prop :=
  ∀ t, (serverFor l sni).tls = some t → ∃ resolver key, r = some resolver ∧ load t = .ok key ∧
    resolver.resolve sni = some key

/-- A server whose certificate fits a name. -/
def fits (sni : Option Bytes) (s : ServerConf) : Bool := sni.any (fun n => (sniNames s.names).any (sniHit n))

/-- The servers with a certificate. -/
def certified (l : Listener) : List ServerConf := l.servers.filter (fun s => s.tls.isSome)

/-- The first server with a certificate that fits, or the first with one if none does. -/
def Foremost (l : Listener) (sni : Option Bytes) (s : ServerConf) : Prop :=
  (∃ pre post, certified l = pre ++ s :: post ∧ fits sni s = true ∧ ∀ t ∈ pre, fits sni t = false) ∨
    ((∀ t ∈ certified l, fits sni t = false) ∧ (certified l).head? = some s)

/-- The server of the precedence, for a name or for none. -/
def GoesTo (l : Listener) (sni : Option Bytes) (s : ServerConf) : Prop :=
  match sni with
  | some n => FirstNamed matchesLeading l (trimEndDots n) s
  | none => s = l.default

end Agreement

section Search
variable {load : TlsConf → Except Bytes Key} {l : Listener} {sni : Option Bytes}

/-- An entry for each server with a certificate, in their order. -/
def Entries (load : TlsConf → Except Bytes Key) : List ServerConf → List (List Bytes × Key) → Prop :=
  List.Forall₂ (fun s e => e.1 = sniNames s.names ∧ ∃ t, s.tls = some t ∧ load t = .ok e.2)

theorem addCertificates_entries {servers : List ServerConf} {r r' : SniResolver Key}
    (h : addCertificates load servers r = .ok r') :
    ∃ es, r'.entries = r.entries ++ es ∧ Entries load (servers.filter (fun s => s.tls.isSome)) es := by
  induction servers generalizing r with
  | nil =>
    cases h
    exact ⟨[],by simp,.nil⟩
  | cons s servers ih =>
    rw [addCertificates] at h
    cases ht : s.tls with
    | none =>
      rw [ht] at h
      obtain ⟨es,hr,he⟩ := ih h
      exact ⟨es,hr,by rw [List.filter_cons_of_neg (by simp [ht])]; exact he⟩
    | some t =>
      rw [ht] at h
      dsimp only at h
      cases hk : load t with
      | error e =>
        rw [hk] at h
        cases h
      | ok key =>
        rw [hk] at h
        obtain ⟨es,hr,he⟩ := ih h
        refine ⟨(sniNames s.names,key) :: es,?_,?_⟩
        · rw [hr]
          simp [SniResolver.add]
        · rw [List.filter_cons_of_pos (by simp [ht])]
          exact .cons ⟨rfl,t,ht,hk⟩ he

/-- The search ends at the first server whose certificate fits. -/
theorem search_cases {servers : List ServerConf} {es : List (List Bytes × Key)} (h : Entries load servers es)
    (n : Bytes) :
    (∃ pre s post t key, servers = pre ++ s :: post ∧ fits (some n) s = true ∧ (∀ u ∈ pre, fits (some n) u = false) ∧
      s.tls = some t ∧ load t = .ok key ∧ SniResolver.search n es = some key) ∨
      ((∀ u ∈ servers, fits (some n) u = false) ∧ SniResolver.search n es = none) := by
  induction h with
  | nil => exact .inr ⟨by simp,rfl⟩
  | @cons s e servers es he _ ih =>
    obtain ⟨hn,t,ht,hk⟩ := he
    obtain ⟨names,key⟩ := e
    dsimp only at hn hk
    subst hn
    rw [SniResolver.search]
    by_cases hf : (sniNames s.names).any (sniHit n) = true
    · rw [if_pos hf]
      exact .inl ⟨[],s,servers,t,key,rfl,hf,by simp,ht,hk,rfl⟩
    · rw [if_neg hf]
      have hf : fits (some n) s = false := Bool.eq_false_iff.mpr hf
      rcases ih with ⟨pre,u,post,t',key',rfl,hu,hpre,ht',hk',hr⟩ | ⟨hno,hr⟩
      · refine .inl ⟨s :: pre,u,post,t',key',rfl,hu,?_,ht',hk',hr⟩
        intro v hv
        rcases List.mem_cons.mp hv with rfl | hv
        · exact hf
        · exact hpre v hv
      · refine .inr ⟨?_,hr⟩
        intro v hv
        rcases List.mem_cons.mp hv with rfl | hv
        · exact hf
        · exact hno v hv

end Search

section Certificates
variable {load : TlsConf → Except Bytes Key} {l : Listener} {r : Option (SniResolver Key)} {sni : Option Bytes}
variable {s u v : ServerConf}

theorem goesTo_serverFor (l : Listener) (sni : Option Bytes) : GoesTo l sni (serverFor l sni) := by
  cases sni with
  | some n => exact matchHost_first l n
  | none => rfl

theorem GoesTo.eq_serverFor (h : GoesTo l sni s) : s = serverFor l sni := by
  cases sni with
  | some n => exact FirstNamed.unique h (matchHost_first l n)
  | none => exact h

theorem serverFor_mem (l : Listener) (sni : Option Bytes) : serverFor l sni ∈ l.servers := by
  cases sni with
  | some n => exact (matchHost_first l n).mem
  | none => exact List.get_mem _ _

theorem Foremost.unique (hu : Foremost l sni u) (hv : Foremost l sni v) : u = v := by
  rcases hu with ⟨pre,post,hl,hf,hpre⟩ | ⟨hno,hu⟩
  · rcases hv with ⟨pre',post',hl',hf',hpre'⟩ | ⟨hno,-⟩
    · rw [hl] at hl'
      rcases List.append_eq_append_iff.mp hl' with ⟨mid,rfl,hm⟩ | ⟨mid,rfl,hm⟩
      · cases mid with
        | nil =>
          cases hm
          rfl
        | cons m mid =>
          cases hm
          rw [hpre' u (List.mem_append_right _ List.mem_cons_self)] at hf
          cases hf
      · cases mid with
        | nil =>
          cases hm
          rfl
        | cons m mid =>
          cases hm
          rw [hpre v (List.mem_append_right _ List.mem_cons_self)] at hf'
          cases hf'
    · rw [hno u (hl ▸ List.mem_append_right _ List.mem_cons_self)] at hf
      cases hf
  · rcases hv with ⟨pre',post',hl',hf',-⟩ | ⟨-,hv⟩
    · rw [hno v (hl' ▸ List.mem_append_right _ List.mem_cons_self)] at hf'
      cases hf'
    · rw [hu] at hv
      exact Option.some.inj hv

/-- The certificate that is offered is the foremost server's. -/
theorem resolve_foremost (h : sniResolverFor load l = .ok r) (hs : s ∈ l.servers) (ht : s.tls.isSome = true)
    (sni : Option Bytes) : ∃ resolver u t key, r = some resolver ∧ Foremost l sni u ∧ u.tls = some t ∧
      load t = .ok key ∧ resolver.resolve sni = some key := by
  obtain ⟨resolver,hadd,hr⟩ : ∃ resolver, addCertificates load l.servers ⟨[]⟩ = .ok resolver ∧
      (if resolver.entries.isEmpty then none else some resolver) = r := by
    unfold sniResolverFor at h
    cases hadd : addCertificates load l.servers ⟨[]⟩ with
    | error e =>
      rw [hadd] at h
      cases h
    | ok resolver =>
      rw [hadd] at h
      exact ⟨resolver,rfl,Except.ok.inj h⟩
  obtain ⟨es,hes,he⟩ := addCertificates_entries hadd
  rw [List.nil_append] at hes
  change Entries load (certified l) es at he
  have hmem : s ∈ certified l := List.mem_filter.mpr ⟨hs,ht⟩
  cases hc : certified l with
  | nil =>
    rw [hc] at hmem
    cases hmem
  | cons f servers =>
    obtain ⟨e,es',⟨-,t,hft,hk⟩,-,rfl⟩ := List.forall₂_cons_left_iff.mp (hc ▸ he)
    have hsome : r = some resolver := by
      rw [← hr,hes]
      rfl
    have hhead : resolver.entries.head?.map Prod.snd = some e.2 := by
      rw [hes]
      rfl
    cases sni with
    | none =>
      refine ⟨resolver,f,t,e.2,hsome,.inr ⟨fun _ _ => rfl,by rw [hc]; rfl⟩,hft,hk,?_⟩
      exact hhead
    | some n =>
      rcases search_cases he n with ⟨pre,u,post,t',key,hl,hu,hpre,ht',hk',hfound⟩ | ⟨hno,hfound⟩
      · refine ⟨resolver,u,t',key,hsome,.inl ⟨pre,post,hl,hu,hpre⟩,ht',hk',?_⟩
        rw [SniResolver.resolve,Option.bind_some,hes,hfound]
      · refine ⟨resolver,f,t,e.2,hsome,.inr ⟨hno,by rw [hc]; rfl⟩,hft,hk,?_⟩
        rw [SniResolver.resolve,Option.bind_some,hes,hfound,← hes]
        exact hhead

/-- The certificate is the server's own when the foremost server has the same one. -/
theorem sniAgrees_iff (load : TlsConf → Except Bytes Key) (l : Listener) (r : Option (SniResolver Key))
    (h : sniResolverFor load l = .ok r) (sni : Option Bytes) :
    SniAgrees load l r sni ↔ ∀ s u t v, GoesTo l sni s → s.tls = some t → Foremost l sni u → u.tls = some v →
      load v = load t := by
  constructor
  · intro ha s u t v hs ht hu hv
    cases hs.eq_serverFor
    obtain ⟨resolver,key,hr,hk,hres⟩ := ha t ht
    obtain ⟨resolver',u',t',key',hr',hu',ht',hk',hres'⟩ :=
      resolve_foremost h (serverFor_mem l sni) (by rw [ht]; rfl) sni
    cases hu.unique hu'
    rw [hr] at hr'
    cases hr'
    rw [hres] at hres'
    cases hres'
    rw [hv] at ht'
    cases ht'
    rw [hk,hk']
  · intro hc t ht
    obtain ⟨resolver,u,v,key,hr,hu,hv,hk,hres⟩ := resolve_foremost h (serverFor_mem l sni) (by rw [ht]; rfl) sni
    refine ⟨resolver,key,hr,?_,hres⟩
    rw [← hk]
    exact (hc _ u t v (goesTo_serverFor l sni) ht hu hv).symm

end Certificates

section Instance

/-- A server of a name with a certificate of its own. -/
def certifiedAs (name : ServerName) (cert : String) : ServerConf :=
  { ServerConf.bare with names := [name], tls := some ⟨lit cert,lit cert⟩ }

/-- A wildcard in front of a name it covers. -/
def wildcardFirst : Listener where
  servers := [certifiedAs (.leadingWildcard (lit "example.com")) "any",certifiedAs (.exact (lit "www.example.com")) "www"]
  defaultServer := 0
  default_lt := Nat.zero_lt_succ _

/-- Each file holds one key. -/
def loadPath (t : TlsConf) : Except Bytes Bytes := .ok t.cert

theorem wildcardFirst_offers (n : Bytes) (hn : sniHit n (lit "*.example.com") = true) :
    Foremost wildcardFirst (some n) (certifiedAs (.leadingWildcard (lit "example.com")) "any") := by
  refine .inl ⟨[],[certifiedAs (.exact (lit "www.example.com")) "www"],rfl,?_,by simp⟩
  have hnames : sniNames (certifiedAs (.leadingWildcard (lit "example.com")) "any").names = [lit "*.example.com"] := rfl
  rw [fits,Option.any_some,hnames,List.any_cons,hn]
  rfl

/-- A name only the wildcard covers. -/
theorem wildcardFirst_agrees : ∃ r, sniResolverFor loadPath wildcardFirst = .ok r ∧
    SniAgrees loadPath wildcardFirst r (some (lit "img.example.com")) := by
  have hrun : (sniResolverFor loadPath wildcardFirst).toBool = true := by decide +kernel
  cases hr : sniResolverFor loadPath wildcardFirst with
  | error e =>
    rw [hr] at hrun
    cases hrun
  | ok r =>
    refine ⟨r,rfl,(sniAgrees_iff loadPath wildcardFirst r hr _).mpr ?_⟩
    intro s u t v hs ht hu hv
    have htls : (serverFor wildcardFirst (some (lit "img.example.com"))).tls = some ⟨lit "any",lit "any"⟩ := by
      decide +kernel
    rw [← hs.eq_serverFor,ht] at htls
    cases hu.unique (wildcardFirst_offers _ (by decide +kernel))
    cases hv
    cases htls
    rfl

/-- The name behind it is served under the wildcard's certificate. -/
theorem wildcardFirst_differs : ∃ r, sniResolverFor loadPath wildcardFirst = .ok r ∧
    ¬ SniAgrees loadPath wildcardFirst r (some (lit "www.example.com")) := by
  have hrun : (sniResolverFor loadPath wildcardFirst).toOption.map (fun r =>
      r.bind (fun resolver => resolver.resolve (some (lit "www.example.com")))) = some (some (lit "any")) := by
    decide +kernel
  have htls : (serverFor wildcardFirst (some (lit "www.example.com"))).tls = some ⟨lit "www",lit "www"⟩ := by
    decide +kernel
  cases hr : sniResolverFor loadPath wildcardFirst with
  | error e =>
    rw [hr] at hrun
    cases hrun
  | ok r =>
    refine ⟨r,rfl,fun ha => ?_⟩
    obtain ⟨resolver,key,rfl,hk,hres⟩ := ha _ htls
    rw [hr] at hrun
    have hany : resolver.resolve (some (lit "www.example.com")) = some (lit "any") := Option.some.inj hrun
    rw [hres] at hany
    cases hany
    have hkey : lit "www" = lit "any" := Except.ok.inj hk
    exact absurd hkey (by decide)

end Instance

end OxiServe.Server
