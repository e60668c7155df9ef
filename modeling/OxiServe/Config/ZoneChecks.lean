import OxiServe.Config.ZoneRefs

/-! # What the zone checks reach

The checks at the end of the builder look at each server and at the locations it
lists itself by path or expression. Locations within locations and named ones are
taken as they are, so what they name has to be declared by itself.
-/
namespace OxiServe.Config

/-- What the checks leave out of a server's block: its named locations, and what
is within the others. -/
def UncheckedDeclared (z : Names) : List Directive → Prop
  | [] => True
  | d :: ds => (Builder.isLocation d = true → isReplaced d ds = false →
      if (nameOf d).isSome then d.Declared z else AllDeclared z d.children) ∧ UncheckedDeclared z ds

section Blocks
variable {self : Builder} {z : Names} {parent core : CoreConf} {d : Directive} {ds : List Directive}
variable {l : Location} {ls : List Location}

/-- What building a location comes to. -/
theorem location_cases (h : self.location parent d = .ok l) :
    ∃ lv nested, self.matcher d = .ok l.matcher ∧ self.level .location Builder.isLocation d.children = .ok lv ∧
      self.locations (self.resolve lv parent) d.children = .ok nested ∧ l.core = self.resolve lv parent ∧
      l.nested = if d.children.any Builder.isLocation then some (.ofList nested) else none := by
  rcases d with ⟨name,args,children,loc⟩
  rw [Builder.location] at h
  obtain ⟨-,-,h⟩ := bind_ok.mp h
  obtain ⟨matcher,hm,h⟩ := bind_ok.mp h
  obtain ⟨lv,hlv,h⟩ := bind_ok.mp h
  obtain ⟨nested,hn,h⟩ := bind_ok.mp h
  cases h
  exact ⟨lv,nested,hm,hlv,hn,rfl,rfl⟩

theorem matcher_name {k : LocMatch} (h : self.matcher d = .ok k) (hk : l.matcher = k) : l.name = nameOf d := by
  unfold Builder.matcher at h
  unfold Location.name nameOf
  rw [hk]
  split at h
  · rename_i ha
    rw [ha]
    split at h
    · cases h
      rfl
    · split at h
      · cases h
        rfl
      · split at h
        · obtain ⟨re,-,rfl⟩ := map_ok.mp h
          rfl
        · split at h
          · obtain ⟨re,-,rfl⟩ := map_ok.mp h
            rfl
          · cases h
  · rename_i ha
    rw [ha]
    split at h
    · rename_i hat
      cases h
      exact (if_pos hat).symm
    · rename_i hat
      cases h
      exact (if_neg hat).symm
  · cases h

theorem location_name (h : self.location parent d = .ok l) : l.name = nameOf d := by
  obtain ⟨lv,nested,hm,-⟩ := location_cases h
  exact matcher_name hm rfl

theorem locations_cons (h : self.locations core (d :: ds) = .ok ls) :
    (Builder.isLocation d = false ∧ self.locations core ds = .ok ls) ∨
      ∃ l ks, Builder.isLocation d = true ∧ self.location core d = .ok l ∧ self.locations core ds = .ok ks ∧
        ls = l :: ks := by
  rw [Builder.locations] at h
  split at h
  · rename_i hd
    obtain ⟨l,hl,h⟩ := bind_ok.mp h
    obtain ⟨ks,hks,h⟩ := bind_ok.mp h
    cases h
    exact .inr ⟨l,ks,hd,hl,hks,rfl⟩
  · rename_i hd
    exact .inl ⟨Bool.not_eq_true _ ▸ hd,h⟩

theorem locations_any (h : self.locations core ds = .ok ls) (n : Bytes) :
    ls.any (fun k => k.name == some n) = ds.any (fun e => Builder.isLocation e && nameOf e == some n) := by
  induction ds generalizing ls with
  | nil =>
    cases h
    rfl
  | cons d ds ih =>
    rcases locations_cons h with ⟨hd,h⟩ | ⟨l,ks,hd,hl,hks,rfl⟩
    · rw [List.any_cons,ih h,hd]
      rfl
    · rw [List.any_cons,List.any_cons,ih hks,hd,location_name hl]
      rfl

theorem isReplaced_eq (hl : self.location core d = .ok l) (h : self.locations core ds = .ok ls) :
    l.isReplaced ls = isReplaced d ds := by
  unfold Location.isReplaced isReplaced
  rw [location_name hl]
  cases nameOf d with
  | none => rfl
  | some n => exact locations_any h n

theorem locations_none (h : self.locations core ds = .ok ls) (hd : ds.any Builder.isLocation = false) : ls = [] := by
  induction ds generalizing ls with
  | nil =>
    cases h
    rfl
  | cons d ds ih =>
    rw [List.any_cons,Bool.or_eq_false_iff] at hd
    rcases locations_cons h with ⟨-,h⟩ | ⟨l,ks,hl,-⟩
    · exact ih h hd.2
    · rw [hd.1] at hl
      cases hl

/-- What a location holds is closed when the blocks in it are, one by one. -/
theorem nested_closed {nested : List Location}
    (hn : l.nested = if d.children.any Builder.isLocation then some (LocSet.ofList nested) else none)
    (hls : self.locations core d.children = .ok nested) :
    (∀ t, l.nested = some t → ∀ m, Within t m → m.core.Closed z) ↔ ∀ k ∈ inEffect nested, k.TreeClosed z := by
  rw [hn]
  cases hd : d.children.any Builder.isLocation with
  | false =>
    rw [locations_none hls hd]
    simp [inEffect]
  | true =>
    simp only [if_true,Option.some.injEq,forall_eq']
    rw [within_closed]
    exact ⟨fun hm k hk => hm k (mem_ofList.mpr hk),fun hm k hk => hm k (mem_ofList.mp hk)⟩

mutual

/-- With closed settings around it, a location is closed exactly when it names
declared zones, at every depth. -/
theorem location_closed (d : Directive) {l : Location} {parent : CoreConf} (h : self.location parent d = .ok l)
    (hp : parent.Closed z) : l.TreeClosed z ↔ d.Declared z := by
  obtain ⟨lv,nested,-,hlv,hls,hcore,hn⟩ := location_cases h
  have hzones := level_zones hlv
  have hown : l.core.Closed z ↔ (zonesOf Builder.isLocation d.children).Declared z := by
    rw [hcore,resolve_closed hp,hzones]
  match d, hls, hn, hown with
  | .mk name args children loc, hls, hn, hown =>
    rw [Location.TreeClosed,Directive.Declared]
    constructor
    · rintro ⟨hc,hin⟩
      have hclosed : (self.resolve lv parent).Closed z := hcore ▸ hc
      exact ⟨hown.mp hc,(locations_closed children hls hclosed).mp ((nested_closed hn hls).mp hin)⟩
    · rintro ⟨ho,hall⟩
      have hc := hown.mpr ho
      have hclosed : (self.resolve lv parent).Closed z := hcore ▸ hc
      exact ⟨hc,(nested_closed hn hls).mpr ((locations_closed children hls hclosed).mpr hall)⟩

theorem locations_closed (ds : List Directive) {ls : List Location} {core : CoreConf}
    (h : self.locations core ds = .ok ls) (hc : core.Closed z) :
    (∀ l ∈ inEffect ls, l.TreeClosed z) ↔ AllDeclared z ds := by
  match ds, h with
  | [], h =>
    cases h
    simp [inEffect,AllDeclared]
  | d :: ds, h =>
    rw [AllDeclared]
    rcases locations_cons h with ⟨hd,h⟩ | ⟨l,ks,hd,hl,hks,rfl⟩
    · rw [locations_closed ds h hc]
      simp [hd]
    · have hrest := locations_closed ds hks hc
      have hfirst := location_closed d hl hc
      simp only [inEffect,isReplaced_eq hl hks]
      split
      · rename_i hr
        simp [hr,hrest]
      · rename_i hr
        simp [hr,hd,hrest,hfirst]

end

/-- A server's locations are closed once those that are checked are, exactly when
the unchecked ones name declared zones. -/
theorem serverLocations_closed (h : self.locations core ds = .ok ls) (hc : core.Closed z)
    (hchecked : ∀ l ∈ ls, l.name = none → l.core.Closed z) :
    (∀ l ∈ inEffect ls, l.TreeClosed z) ↔ UncheckedDeclared z ds := by
  induction ds generalizing ls with
  | nil =>
    cases h
    simp [inEffect,UncheckedDeclared]
  | cons d ds ih =>
    rw [UncheckedDeclared]
    rcases locations_cons h with ⟨hd,h⟩ | ⟨l,ks,hd,hl,hks,rfl⟩
    · rw [ih h hchecked]
      simp [hd]
    · have hrest := ih hks fun k hk => hchecked k (List.mem_cons_of_mem _ hk)
      have hfirst : l.TreeClosed z ↔ if (nameOf d).isSome then d.Declared z else AllDeclared z d.children := by
        cases hn : nameOf d with
        | some n => exact location_closed d hl hc
        | none =>
          have hown := hchecked l List.mem_cons_self (by rw [location_name hl,hn])
          obtain ⟨lv,nested,-,-,hls,hcore,hnest⟩ := location_cases hl
          rw [hcore] at hown
          have hin := locations_closed d.children hls hown
          have hsub := nested_closed (z := z) hnest hls
          rw [Location.TreeClosed,hsub,hin,hcore]
          exact ⟨fun hb => hb.2,fun hb => ⟨hown,hb⟩⟩
      simp only [inEffect,isReplaced_eq hl hks]
      split
      · rename_i hr
        simp [hr,hrest]
      · rename_i hr
        simp [hr,hd,hrest,hfirst]

end Blocks

section Checked
variable {self : Builder} {z : Names} {core : CoreConf} {d : Directive}

theorem checkReqZones_ok {zones : List Bytes} {ls : List LimitReq} :
    checkReqZones zones ls = .ok () ↔ ∀ l ∈ ls, l.zone ∈ zones := by
  induction ls with
  | nil => simp [checkReqZones]
  | cons l ls ih =>
    by_cases h : l.zone ∈ zones
    · simp [checkReqZones,h,ih]
    · simp [checkReqZones,h]

theorem checkConnZones_ok {zones : List Bytes} {ls : List LimitConn} :
    checkConnZones zones ls = .ok () ↔ ∀ l ∈ ls, l.zone ∈ zones := by
  induction ls with
  | nil => simp [checkConnZones]
  | cons l ls ih =>
    by_cases h : l.zone ∈ zones
    · simp [checkConnZones,h,ih]
    · simp [checkConnZones,h]

theorem checkCacheZone_ok {zones : List Bytes} :
    checkCacheZone core zones = .ok () ↔ ∀ n, core.proxyCache.zone = some n → n ∈ zones := by
  unfold checkCacheZone
  cases core.proxyCache.zone with
  | none => simp
  | some n =>
    by_cases h : n ∈ zones
    · simp [h]
    · simp [h]

theorem checks_closed (hz : checkZonesExist core z.reqs z.conns = .ok ())
    (hc : checkCacheZone core z.caches = .ok ()) : core.Closed z := by
  obtain ⟨⟨⟩,hr,hn⟩ := bind_ok.mp hz
  exact ⟨checkReqZones_ok.mp hr,checkConnZones_ok.mp hn,checkCacheZone_ok.mp hc⟩

/-- The checks reach every location a server lists itself without a name. -/
theorem mem_checked {l : Location} {ls : List Location} (h : l ∈ ls) (hn : l.name = none) :
    l ∈ (LocSet.ofList ls).prefixes ++ (LocSet.ofList ls).regex ++ (LocSet.ofList ls).exact := by
  simp only [LocSet.ofList,List.mem_append,List.mem_mergeSort,List.mem_filter]
  cases hm : l.matcher with
  | named n => simp [Location.name,hm] at hn
  | _ => simp [h]

theorem checkServer_ok {check : CoreConf → Built Unit} {s : ServerConf} {ls : List Location}
    (hs : s.locations = .ofList ls) (h : checkServer check s = .ok ()) :
    check s.core = .ok () ∧ ∀ l ∈ ls, l.name = none → check l.core = .ok () := by
  obtain ⟨⟨⟩,hc,hl⟩ := bind_ok.mp h
  rw [hs] at hl
  exact ⟨hc,fun l hm hn => forM_ok.mp hl l (mem_checked hm hn)⟩

/-- A server that passes the checks is closed exactly when what they leave out
names declared zones. -/
theorem server_closed {parent : CoreConf} {s : ServerConf} (h : self.server parent d = .ok s)
    (hz : checkServer (fun core => checkZonesExist core z.reqs z.conns) s = .ok ())
    (hc : checkServer (fun core => checkCacheZone core z.caches) s = .ok ()) :
    (s.core.Closed z ∧ ∀ l, Within s.locations l → l.core.Closed z) ↔ UncheckedDeclared z d.children := by
  rw [Builder.server] at h
  obtain ⟨lv,-,h⟩ := bind_ok.mp h
  obtain ⟨s',-,h⟩ := bind_ok.mp h
  obtain ⟨ls,hls,h⟩ := bind_ok.mp h
  cases h
  obtain ⟨hz1,hz2⟩ := checkServer_ok rfl hz
  obtain ⟨hc1,hc2⟩ := checkServer_ok rfl hc
  have hcore := checks_closed hz1 hc1
  have hin := serverLocations_closed hls hcore fun l hl hn => checks_closed (hz2 l hl hn) (hc2 l hl hn)
  rw [← hin,within_closed]
  constructor
  · rintro ⟨-,hall⟩ l hl
    exact hall l (mem_ofList.mpr hl)
  · intro hall
    exact ⟨hcore,fun l hl => hall l (mem_ofList.mp hl)⟩

theorem http_defs {ds : List Directive} {st : ZoneDefs × (ZoneLayer × self.Layer)}
    (h : (ds.filter (fun c => !Builder.isServer c)).foldlM self.httpDirective (⟨[],[],[]⟩,(.unset,self.fresh)) =
      .ok st) : st.1 = self.declared ds := by
  refine foldlM_part Prod.fst (fun s d t hs => ?_) h
  simp only [Builder.httpDirective] at hs
  cases hd : self.zoneDef s.1 d with
  | none =>
    rw [hd] at hs
    obtain ⟨l,-,rfl⟩ := map_ok.mp hs
    rfl
  | some r =>
    rw [hd] at hs
    obtain ⟨l,rfl,rfl⟩ := map_ok.mp hs
    rfl

end Checked

/-- An accepted `http` block leaves no zone name dangling exactly when its named
locations and those within others name declared zones. -/
theorem http_closed_iff (self : Builder) (d : Directive) {h : Http} {servers : List ServerConf}
    (hb : self.http d = .ok (h,servers)) : ZonesClosed h servers ↔
      ∀ s ∈ d.children, Builder.isServer s = true → UncheckedDeclared (self.declared d.children).names s.children := by
  rw [Builder.http] at hb
  obtain ⟨st,hst,hb⟩ := bind_ok.mp hb
  obtain ⟨ss,hss,hb⟩ := bind_ok.mp hb
  split at hb
  · cases hb
  · obtain ⟨-,-,hb⟩ := bind_ok.mp hb
    obtain ⟨⟨⟩,hzones,hb⟩ := bind_ok.mp hb
    obtain ⟨⟨⟩,hcaches,hb⟩ := bind_ok.mp hb
    cases hb
    have hdefs := http_defs hst
    obtain ⟨hof,hfrom⟩ := mapM_ok hss
    have hserver : ∀ e s, s ∈ servers → self.server (self.resolve st.2 defaultCore) e = .ok s →
        ((s.core.Closed st.1.names ∧ ∀ l, Within s.locations l → l.core.Closed st.1.names) ↔
          UncheckedDeclared st.1.names e.children) := fun e s hm he =>
      server_closed he (forM_ok.mp hzones s hm) (forM_ok.mp hcaches s hm)
    rw [← hdefs]
    constructor
    · intro hclosed e he hserv
      obtain ⟨s,hm,hes⟩ := hof e (List.mem_filter.mpr ⟨he,hserv⟩)
      exact (hserver e s hm hes).mp (hclosed s hm)
    · intro hall s hm
      obtain ⟨e,he,hes⟩ := hfrom s hm
      obtain ⟨hin,hserv⟩ := List.mem_filter.mp he
      exact (hserver e s hm hes).mpr (hall e hin hserv)

section Instance

/-- A builder for which every other directive is accepted and does nothing. -/
def plain : Builder where
  Layer := Unit
  fresh := ()
  directive := fun _ _ _ => .ok ()
  settings := fun _ c => c
  regex := fun _ _ _ => .ok ⟨fun _ => none⟩
  otherLocation := fun _ => .bare (.pfx []) .static
  otherServer := fun _ _ => .ok .bare
  cachePath := fun _ => .ok (lit "c")
  compile := .literal
  listeners := fun _ => .ok ()
  otherHttp := fun _ => .bare

def directive (name : String) (args : List String) (children : List Directive) : Directive :=
  .mk (lit name) (args.map lit) children (lit "nginx.conf:1")

/-- An `http` block with one zone and one server, which limits a location by `zone`. -/
def limitedBlock (zone : String) (location : Directive → Directive) : Directive :=
  directive "http" [] [directive "limit_req_zone" ["$uri","zone=z:1m","rate=1r/s"] [],
    directive "server" [] [location (directive "limit_req" [zone] [])]]

def nestedIn (inner : Directive) : Directive :=
  directive "location" ["/"] [directive "location" ["/a"] [inner]]

theorem nestedIn_declared : UncheckedDeclared (plain.declared (limitedBlock "zone=z" nestedIn).children).names
    [nestedIn (directive "limit_req" ["zone=z"] [])] := by
  have hnames : (plain.declared (limitedBlock "zone=z" nestedIn).children).names.reqs = [lit "z"] := by decide +kernel
  have hown : zonesOf Builder.isLocation [directive "limit_req" ["zone=z"] []] =
      ⟨some [⟨lit "z",0,false,0⟩],none,none⟩ := by decide +kernel
  refine ⟨fun _ _ => ⟨fun _ _ => ⟨?_,fun h => absurd h (by decide),trivial⟩,trivial⟩,trivial⟩
  rw [hown]
  refine ⟨?_,(fun _ h => nomatch h),(fun _ h => nomatch h)⟩
  rintro ls hls l hl
  cases hls
  rw [hnames,List.mem_singleton.mp hl]
  exact List.mem_singleton.mpr rfl

/-- A nested location that names the declared zone. -/
theorem nestedIn_closed : ∃ h servers, plain.http (limitedBlock "zone=z" nestedIn) = .ok (h,servers) ∧
    ZonesClosed h servers := by
  have hrun : (plain.http (limitedBlock "zone=z" nestedIn)).toBool = true := by decide +kernel
  cases hb : plain.http (limitedBlock "zone=z" nestedIn) with
  | error e =>
    rw [hb] at hrun
    cases hrun
  | ok p =>
    obtain ⟨h,servers⟩ := p
    refine ⟨h,servers,rfl,(http_closed_iff plain _ hb).mpr ?_⟩
    intro s hs hserv
    rcases List.mem_cons.mp hs with rfl | hs
    · exact absurd hserv (by decide +kernel)
    · rw [List.mem_singleton.mp hs]
      exact nestedIn_declared

/-- With an unknown zone in the nested location, the block is accepted as well. -/
theorem nestedIn_dangling : ∃ h servers, plain.http (limitedBlock "zone=y" nestedIn) = .ok (h,servers) ∧
    ¬ ZonesClosed h servers := by
  have hrun : (plain.http (limitedBlock "zone=y" nestedIn)).toOption.map (fun p => (p.1.limitReqZones,
      (((p.2.head?.bind (fun s => s.locations.prefixes.head?)).bind Location.nested).bind
        (fun t => t.prefixes.head?)).map (fun l => l.core.limitReqs))) =
      some ([lit "z"],some [⟨lit "y",0,false,0⟩]) := by decide +kernel
  cases hb : plain.http (limitedBlock "zone=y" nestedIn) with
  | error e =>
    rw [hb] at hrun
    cases hrun
  | ok p =>
    obtain ⟨h,servers⟩ := p
    rw [hb] at hrun
    obtain ⟨hz,hl⟩ := Prod.mk.inj (Option.some.inj hrun)
    obtain ⟨m,hm,hreqs⟩ := Option.map_eq_some_iff.mp hl
    obtain ⟨t,ht,hmt⟩ := Option.bind_eq_some_iff.mp hm
    obtain ⟨l,hl,hlt⟩ := Option.bind_eq_some_iff.mp ht
    obtain ⟨s,hs,hls⟩ := Option.bind_eq_some_iff.mp hl
    refine ⟨h,servers,rfl,fun hclosed => ?_⟩
    have hmem : ∀ {u : LocSet Location} {k : Location}, u.prefixes.head? = some k → k ∈ u.members := by
      intro u k hk
      simp [LocSet.members,List.mem_of_mem_head? hk]
    have hin := (hclosed s (List.mem_of_mem_head? hs)).2 m (.inside (hmem hls) hlt (.here (hmem hmt)))
    have hzone := hin.reqs ⟨lit "y",0,false,0⟩ (by rw [hreqs]; exact List.mem_singleton.mpr rfl)
    have hdecl : lit "y" ∈ h.limitReqZones := hzone
    rw [hz] at hdecl
    exact absurd hdecl (by decide)

end Instance

end OxiServe.Config
