import Mathlib.Data.List.Induction
import OxiServe.Config.CacheValid
import OxiServe.Config.ZoneChecks

/-! # Error pages and access logs

What the directives of a level declare, and what the builder makes of them: a server
takes the list of the `http` block when it has none of its own, a location has its
own list or an empty one.
-/
namespace OxiServe.Config

section Directives

/-- What one level says; unset is inherited. -/
structure ListLayer where
  errorPages : Option (List ErrorPage)
  accessLogs : Option (List AccessLogConf)

/-- What `access_log` looks up: the prefix of relative paths and the formats. -/
structure LogNames where
  pathPrefix : Bytes
  formats : List (Bytes × Template)

def LogNames.abs (self : LogNames) (p : Bytes) : Bytes :=
  if p.head? = some 47 ∨ self.pathPrefix = [] then p
  else if self.pathPrefix.getLast? = some 47 then self.pathPrefix ++ p
  else self.pathPrefix ++ lit "/" ++ p

/-- A code, or after `=` the status in its place. -/
def errorPageArg (d : Directive) (acc : List ℕ × Option ℕ) (a : Bytes) : Built (List ℕ × Option ℕ) :=
  match stripPrefix (lit "=") a with
  | some r => .ok (acc.1,if r = [] then some 0 else parseUnsigned 16 r)
  | none =>
    match parseUnsigned 16 a with
    | some n => .ok (acc.1 ++ [n],acc.2)
    | none => bail d (lit "invalid value " ++ quoted a ++ lit " in \"error_page\"")

def errorPage (compile : Bytes → Template) (d : Directive) : Built ErrorPage := do
  wantArgsRange d 2 32
  let acc ← d.args.dropLast.foldlM (errorPageArg d) ([],none)
  let target := d.args.getLast?.getD []
  .ok ⟨acc.1,acc.2,
    match stripPrefix (lit "@") target with
    | some n => .named n
    | none =>
      if (lit "http://").isPrefixOf target || (lit "https://").isPrefixOf target then .redirect (compile target)
      else .uri (compile target)⟩

/-- The parameters of `oxidb:`. -/
def oxiDbArg (d : Directive) (acc : Option Bytes × Option Bytes) (p : Bytes) : Built (Option Bytes × Option Bytes) :=
  match stripPrefix (lit "server=") p with
  | some v =>
    if v = [] then bail d (lit "empty \"server=\" in \"access_log oxidb:\"")
    else .ok (some (if v.contains 58 then v else v ++ lit ":12202"),acc.2)
  | none =>
    match stripPrefix (lit "db=") p with
    | some v => .ok (acc.1,some v)
    | none => bail d (lit "invalid parameter " ++ quoted p ++ lit " in \"access_log oxidb:\"")

def logSink (ln : LogNames) (d : Directive) : Built LogSink :=
  let a := d.args.headD []
  match stripPrefix (lit "oxidb:") a with
  | some params => do
    let acc ← (split 44 params).foldlM (oxiDbArg d) (none,none)
    match acc.1 with
    | some addr => .ok (.oxiDb addr acc.2)
    | none => bail d (lit "\"access_log oxidb:\" requires \"server=\"")
  | none => .ok (.file (ln.abs a))

/-- The buffer size and the flush time. -/
def bufferArg (acc : ℕ × Option ℕ) (p : Bytes) : ℕ × Option ℕ :=
  match stripPrefix (lit "buffer=") p with
  | some v => ((parseSize v).getD 0,acc.2)
  | none =>
    match stripPrefix (lit "flush=") p with
    | some v => (acc.1,parseTime v)
    | none => acc

def isOff (d : Directive) : Bool := d.args.head? == some (lit "off")

/-- Where one `access_log` other than `off` writes. -/
def accessLog (ln : LogNames) (d : Directive) : Built AccessLogConf := do
  let sink ← logSink ln d
  let name := (d.args[1]?).getD (lit "combined")
  match ln.formats.lookup name with
  | none => bail d (lit "unknown log format " ++ quoted name)
  | some format =>
    let acc := (d.args.drop 2).foldl bufferArg (0,none)
    .ok ⟨sink,format,acc.1,acc.2⟩

/-- `off` empties the list of its level; what follows it is added again. -/
def accessLogs (ln : LogNames) (logs : List AccessLogConf) (d : Directive) : Built (List AccessLogConf) := do
  wantArgsRange d 1 8
  if isOff d then .ok []
  else do
    let c ← accessLog ln d
    .ok (logs ++ [c])

def listDirective (compile : Bytes → Template) (ln : LogNames) (lv : ListLayer) (d : Directive) :
    Option (Built ListLayer) :=
  if d.name = lit "access_log" then
    some ((accessLogs ln (lv.accessLogs.getD []) d).map (fun ls => { lv with accessLogs := some ls }))
  else if d.name = lit "error_page" then
    some ((errorPage compile d).map (fun p => { lv with errorPages := some (lv.errorPages.getD [] ++ [p]) }))
  else none

/-- One `log_format`; the last of a name stands. -/
def logFormat (compile : Bytes → Template) (formats : List (Bytes × Template)) (d : Directive) :
    Built (List (Bytes × Template)) := do
  wantArgsRange d 2 64
  .ok ((d.args.headD [],compile (d.args.drop 1).flatten) :: formats)

def combinedFormat : Bytes :=
  lit "$remote_addr - $remote_user [$time_local] \"$request\" $status $body_bytes_sent \"$http_referer\" \"$http_user_agent\""

/-- The formats of an `http` block, which may stand after their uses. -/
def logFormats (compile : Bytes → Template) (ds : List Directive) : Built (List (Bytes × Template)) := do
  let formats ← (ds.filter (fun d => d.name == lit "log_format")).foldlM (logFormat compile) []
  .ok (if (formats.lookup (lit "combined")).isSome then formats
    else (lit "combined",compile combinedFormat) :: formats)

/-- The log of a configuration without any `access_log`. -/
def defaultLog (compile : Bytes → Template) (ln : LogNames) : AccessLogConf where
  sink := .file (ln.abs (lit "logs/access.log"))
  format := (ln.formats.lookup (lit "combined")).getD (compile combinedFormat)
  buffer := 0
  flush := none

end Directives

/-- The lists servers inherit, and what their own are made with. -/
structure HttpLists where
  names : LogNames
  errorPages : List ErrorPage
  accessLogs : List AccessLogConf

namespace Builder

/-- A builder with the two lists, under an `http` block that has these. -/
def withLists (self : Builder) (hl : HttpLists) : Builder where
  Layer := ListLayer × self.Layer
  fresh := (⟨none,none⟩,self.fresh)
  directive := fun scope lv d =>
    match listDirective self.compile hl.names lv.1 d with
    | some r => r.map (fun l => (l,lv.2))
    | none => (self.directive scope lv.2 d).map (fun l => (lv.1,l))
  settings := fun lv => self.settings lv.2
  regex := self.regex
  otherLocation := fun lv =>
    { self.otherLocation lv.2 with errorPages := lv.1.errorPages.getD [], accessLogs := lv.1.accessLogs.getD [] }
  otherServer := fun lv d => (self.otherServer lv.2 d).map (fun s =>
    { s with errorPages := lv.1.errorPages.getD hl.errorPages, accessLogs := lv.1.accessLogs.getD hl.accessLogs })
  cachePath := self.cachePath
  compile := self.compile
  listeners := self.listeners
  otherHttp := fun lv => self.otherHttp lv.2

/-- The level of the `http` block itself. -/
def httpLevel (self : Builder) (d : Directive) : Built (ZoneDefs × (ZoneLayer × self.Layer)) :=
  (d.children.filter (fun c => !isServer c)).foldlM self.httpDirective (⟨[],[],[]⟩,(.unset,self.fresh))

/-- The lists of the `http` block, which is read before its servers are built. -/
def httpLists (self : Builder) (pathPrefix : Bytes) (d : Directive) : Built HttpLists := do
  let formats ← logFormats self.compile d.children
  let names : LogNames := ⟨pathPrefix,formats⟩
  let st ← (self.withLists ⟨names,[],[]⟩).httpLevel d
  .ok ⟨names,st.2.2.1.errorPages.getD [],st.2.2.1.accessLogs.getD [defaultLog self.compile names]⟩

def httpListed (self : Builder) (pathPrefix : Bytes) (d : Directive) : Built (Http × List ServerConf) := do
  let hl ← self.httpLists pathPrefix d
  (self.withLists hl).http d

end Builder

section Declared
variable (compile : Bytes → Template) (ln : LogNames)

/-- The error pages a level declares, none when it has no such directive. -/
def pagesOf (ds : List Directive) : Option (List ErrorPage) :=
  let own := ds.filter (fun d => d.name == lit "error_page")
  if own.isEmpty then none else some (own.filterMap (fun d => (errorPage compile d).toOption))

/-- The access logs a level declares: those behind its last `off`. -/
def logsOf (ds : List Directive) : Option (List AccessLogConf) :=
  let own := ds.filter (fun d => d.name == lit "access_log")
  if own.isEmpty then none
  else some ((own.reverse.takeWhile (fun d => !isOff d)).reverse.filterMap (fun d => (accessLog ln d).toOption))

def layerOf (ds : List Directive) : ListLayer := ⟨pagesOf compile ds,logsOf ln ds⟩

variable {compile ln} {ds : List Directive} {d : Directive}

theorem pagesOf_concat : pagesOf compile (ds ++ [d]) =
    if d.name = lit "error_page" then some ((pagesOf compile ds).getD [] ++ (errorPage compile d).toOption.toList)
    else pagesOf compile ds := by
  unfold pagesOf
  rw [List.filter_append]
  by_cases hd : d.name = lit "error_page"
  · have hs : [d].filter (fun d => d.name == lit "error_page") = [d] :=
      List.filter_cons_of_pos (beq_iff_eq.mpr hd)
    rw [if_pos hd,hs]
    have hne : (ds.filter (fun d => d.name == lit "error_page") ++ [d]).isEmpty = false := by simp
    have hone : [d].filterMap (fun d => (errorPage compile d).toOption) = (errorPage compile d).toOption.toList := by
      cases h : (errorPage compile d).toOption <;> simp [h]
    simp only [hne,Bool.false_eq_true,if_false,List.filterMap_append,hone]
    cases hf : ds.filter (fun d => d.name == lit "error_page") with
    | nil => simp
    | cons e es => simp
  · have hs : [d].filter (fun d => d.name == lit "error_page") = [] := by simp [hd]
    rw [if_neg hd,hs,List.append_nil]

theorem logsOf_concat : logsOf ln (ds ++ [d]) =
    if d.name = lit "access_log" then
      some (if isOff d then [] else (logsOf ln ds).getD [] ++ (accessLog ln d).toOption.toList)
    else logsOf ln ds := by
  unfold logsOf
  rw [List.filter_append]
  by_cases hd : d.name = lit "access_log"
  · have hs : [d].filter (fun d => d.name == lit "access_log") = [d] :=
      List.filter_cons_of_pos (beq_iff_eq.mpr hd)
    rw [if_pos hd,hs]
    have hne : (ds.filter (fun d => d.name == lit "access_log") ++ [d]).isEmpty = false := by simp
    have hone : [d].filterMap (fun d => (accessLog ln d).toOption) = (accessLog ln d).toOption.toList := by
      cases h : (accessLog ln d).toOption <;> simp [h]
    simp only [hne,Bool.false_eq_true,if_false,List.reverse_append,List.reverse_singleton,List.singleton_append,
      List.takeWhile_cons]
    cases hoff : isOff d with
    | true => rfl
    | false =>
      simp only [Bool.not_false,if_true,List.reverse_cons,List.filterMap_append,hone,Bool.false_eq_true,if_false]
      cases hf : ds.filter (fun d => d.name == lit "access_log") with
      | nil => simp
      | cons e es => simp
  · have hs : [d].filter (fun d => d.name == lit "access_log") = [] := by simp [hd]
    rw [if_neg hd,hs,List.append_nil]

theorem toOption_ok {α : Type} {x : Built α} {a : α} (h : x = .ok a) : x.toOption = some a := by
  rw [h]
  rfl

/-- One directive takes what a level declares so far to what it declares with it. -/
theorem listDirective_layerOf {lv : ListLayer} (h : listDirective compile ln (layerOf compile ln ds) d = some (.ok lv)) :
    lv = layerOf compile ln (ds ++ [d]) := by
  have hne : lit "access_log" ≠ lit "error_page" := by decide
  unfold listDirective at h
  split at h
  · rename_i hd
    obtain ⟨ls,hls,rfl⟩ := map_ok.mp (Option.some.inj h)
    unfold layerOf
    rw [pagesOf_concat,logsOf_concat,if_pos hd,if_neg (by rw [hd]; exact hne)]
    unfold accessLogs at hls
    obtain ⟨-,-,hls⟩ := bind_ok.mp hls
    split at hls
    · rename_i hoff
      cases hls
      rw [if_pos hoff]
    · rename_i hoff
      obtain ⟨c,hc,hls⟩ := bind_ok.mp hls
      cases hls
      rw [if_neg hoff,toOption_ok hc]
      rfl
  · split at h
    · rename_i hl hd
      obtain ⟨p,hp,rfl⟩ := map_ok.mp (Option.some.inj h)
      unfold layerOf
      rw [pagesOf_concat,logsOf_concat,if_neg hl,if_pos hd,toOption_ok hp]
      rfl
    · cases h

/-- An `error_page` adds a page, and nothing takes one away. -/
theorem listDirective_pages {lv lv' : ListLayer} (h : listDirective compile ln lv d = some (.ok lv'))
    (hne : lv.errorPages ≠ some []) : lv'.errorPages ≠ some [] := by
  unfold listDirective at h
  split at h
  · obtain ⟨ls,-,rfl⟩ := map_ok.mp (Option.some.inj h)
    exact hne
  · split at h
    · obtain ⟨p,-,rfl⟩ := map_ok.mp (Option.some.inj h)
      simp
    · cases h

theorem layerOf_other (h1 : d.name ≠ lit "access_log") (h2 : d.name ≠ lit "error_page") :
    layerOf compile ln (ds ++ [d]) = layerOf compile ln ds := by
  unfold layerOf
  rw [pagesOf_concat,logsOf_concat,if_neg h1,if_neg h2]

theorem listDirective_none {lv : ListLayer} (h : listDirective compile ln lv d = none) :
    layerOf compile ln (ds ++ [d]) = layerOf compile ln ds := by
  unfold listDirective at h
  split at h
  · cases h
  · split at h
    · cases h
    · rename_i hl hp
      exact layerOf_other hl hp

/-- A directive about zones is not one of the two. -/
theorem listDirective_of_zone {zl : ZoneLayer} {r : Built ZoneLayer} {lv : ListLayer} (h : zoneDirective zl d = some r) :
    listDirective compile ln lv d = none := by
  have hnames : ∀ n ∈ [lit "limit_req",lit "limit_conn",lit "proxy_cache"],
      n ≠ lit "access_log" ∧ n ≠ lit "error_page" := by decide
  have hmem : d.name ∈ [lit "limit_req",lit "limit_conn",lit "proxy_cache"] := by
    unfold zoneDirective at h
    split at h
    · rename_i hd
      rw [hd]
      exact List.mem_cons_self
    · split at h
      · rename_i hd
        rw [hd]
        exact List.mem_cons_of_mem _ List.mem_cons_self
      · split at h
        · rename_i hd
          rw [hd]
          exact List.mem_cons_of_mem _ (List.mem_cons_of_mem _ List.mem_cons_self)
        · cases h
  obtain ⟨h1,h2⟩ := hnames _ hmem
  unfold listDirective
  rw [if_neg h1,if_neg h2]

/-- A directive that is set aside declares neither. -/
theorem layerOf_filter {block : Directive → Bool}
    (hb : ∀ d, block d = true → d.name ≠ lit "error_page" ∧ d.name ≠ lit "access_log") (ds : List Directive) :
    layerOf compile ln (ds.filter (fun d => !block d)) = layerOf compile ln ds := by
  have hf : ∀ n, (∀ d, block d = true → d.name ≠ n) →
      (ds.filter (fun d => !block d)).filter (fun d => d.name == n) = ds.filter (fun d => d.name == n) := by
    intro n hn
    rw [List.filter_filter]
    refine List.filter_congr ?_
    intro d _
    cases hd : block d with
    | true =>
      have hne : (d.name == n) = false := beq_false_of_ne (hn d hd)
      rw [hne]
      rfl
    | false => rw [Bool.not_false,Bool.and_true]
  unfold layerOf pagesOf logsOf
  rw [hf _ (fun d hd => (hb d hd).1),hf _ (fun d hd => (hb d hd).2)]

end Declared

namespace Builder
variable {self : Builder} {hl : HttpLists} {core : CoreConf} {d : Directive} {ds : List Directive}

theorem levelDirective_lists {scope : Scope} {pre : List Directive}
    {lv lv' : ZoneLayer × (ListLayer × self.Layer)} (h : (self.withLists hl).levelDirective scope lv d = .ok lv')
    (hlv : lv.2.1 = layerOf self.compile hl.names pre) : lv'.2.1 = layerOf self.compile hl.names (pre ++ [d]) := by
  unfold levelDirective at h
  split at h
  · rename_i r hz
    obtain ⟨z,-,rfl⟩ := map_ok.mp h
    have hnone : listDirective self.compile hl.names lv.2.1 d = none := listDirective_of_zone hz
    rw [listDirective_none hnone]
    exact hlv
  · obtain ⟨l,hl',rfl⟩ := map_ok.mp h
    unfold withLists at hl'
    dsimp only at hl'
    split at hl'
    · rename_i r hr
      obtain ⟨a,ha,rfl⟩ := map_ok.mp hl'
      rw [hlv,ha] at hr
      exact listDirective_layerOf hr
    · rename_i hr
      obtain ⟨a,-,rfl⟩ := map_ok.mp hl'
      rw [listDirective_none hr]
      exact hlv

theorem levelDirective_pages {scope : Scope} {lv lv' : ZoneLayer × (ListLayer × self.Layer)}
    (h : (self.withLists hl).levelDirective scope lv d = .ok lv') (hne : lv.2.1.errorPages ≠ some []) :
    lv'.2.1.errorPages ≠ some [] := by
  unfold levelDirective at h
  split at h
  · obtain ⟨z,-,rfl⟩ := map_ok.mp h
    exact hne
  · obtain ⟨l,hl',rfl⟩ := map_ok.mp h
    unfold withLists at hl'
    dsimp only at hl'
    split at hl'
    · rename_i r hr
      obtain ⟨a,ha,rfl⟩ := map_ok.mp hl'
      rw [ha] at hr
      exact listDirective_pages hr hne
    · obtain ⟨a,-,rfl⟩ := map_ok.mp hl'
      exact hne

/-- A level has the lists its directives declare. -/
theorem level_lists {scope : Scope} {block : Directive → Bool} {lv : ZoneLayer × (ListLayer × self.Layer)}
    (hb : ∀ d, block d = true → d.name ≠ lit "error_page" ∧ d.name ≠ lit "access_log")
    (h : (self.withLists hl).level scope block ds = .ok lv) : lv.2.1 = layerOf self.compile hl.names ds := by
  rw [← layerOf_filter hb]
  unfold level at h
  generalize ds.filter (fun d => !block d) = es at h ⊢
  induction es using List.reverseRecOn generalizing lv with
  | nil =>
    cases h
    rfl
  | append_singleton es d ih =>
    rw [List.foldlM_append] at h
    obtain ⟨mid,hmid,h⟩ := bind_ok.mp h
    rw [List.foldlM_cons] at h
    obtain ⟨lv',hlv',h⟩ := bind_ok.mp h
    cases h
    exact levelDirective_lists hlv' (ih hmid)

theorem isLocation_lists : ∀ d, isLocation d = true → d.name ≠ lit "error_page" ∧ d.name ≠ lit "access_log" := by
  intro d hd
  have hn : d.name = lit "location" := beq_iff_eq.mp hd
  rw [hn]
  exact ⟨by decide,by decide⟩

/-- A level without an error page has no list of them. -/
theorem level_pages {scope : Scope} {block : Directive → Bool} {lv : ZoneLayer × (ListLayer × self.Layer)}
    (h : (self.withLists hl).level scope block ds = .ok lv) : lv.2.1.errorPages ≠ some [] := by
  unfold level at h
  generalize ds.filter (fun d => !block d) = es at h
  induction es using List.reverseRecOn generalizing lv with
  | nil =>
    cases h
    exact fun h => nomatch h
  | append_singleton es d ih =>
    rw [List.foldlM_append] at h
    obtain ⟨mid,hmid,h⟩ := bind_ok.mp h
    rw [List.foldlM_cons] at h
    obtain ⟨lv',hlv',h⟩ := bind_ok.mp h
    cases h
    exact levelDirective_pages hlv' (ih hmid)

/-- A server has its own lists or those of the `http` block. -/
theorem server_lists {s : ServerConf} (h : (self.withLists hl).server core d = .ok s) :
    s.errorPages = (pagesOf self.compile d.children).getD hl.errorPages ∧
      s.accessLogs = (logsOf hl.names d.children).getD hl.accessLogs := by
  unfold server at h
  obtain ⟨lv,hlv,h⟩ := bind_ok.mp h
  have hlists := level_lists isLocation_lists hlv
  dsimp only at h
  obtain ⟨s',hs',h⟩ := bind_ok.mp h
  obtain ⟨ls,-,h⟩ := bind_ok.mp h
  cases h
  obtain ⟨s₀,-,rfl⟩ := map_ok.mp hs'
  dsimp only
  rw [hlists]
  exact ⟨rfl,rfl⟩

/-- A location has its own lists or none. -/
theorem location_lists {l : Location} (h : (self.withLists hl).location core d = .ok l) :
    l.errorPages = (pagesOf self.compile d.children).getD [] ∧
      l.accessLogs = (logsOf hl.names d.children).getD [] ∧ pagesOf self.compile d.children ≠ some [] := by
  rcases d with ⟨name,args,children,loc⟩
  rw [location] at h
  obtain ⟨-,-,h⟩ := bind_ok.mp h
  obtain ⟨matcher,-,h⟩ := bind_ok.mp h
  obtain ⟨lv,hlv,h⟩ := bind_ok.mp h
  obtain ⟨nested,-,h⟩ := bind_ok.mp h
  have hlists := level_lists isLocation_lists hlv
  have hpages := level_pages hlv
  cases h
  change (lv.2.1.errorPages).getD [] = _ ∧ (lv.2.1.accessLogs).getD [] = _ ∧ _
  rw [hlists] at hpages ⊢
  exact ⟨rfl,rfl,hpages⟩

theorem zoneDef_other {defs : ZoneDefs} {r : Built ZoneDefs} (h : self.zoneDef defs d = some r) :
    d.name ≠ lit "access_log" ∧ d.name ≠ lit "error_page" := by
  have hnames : ∀ n ∈ [lit "proxy_cache_path",lit "limit_req_zone",lit "limit_conn_zone"],
      n ≠ lit "access_log" ∧ n ≠ lit "error_page" := by decide
  refine hnames _ ?_
  unfold zoneDef at h
  split at h
  · rename_i hd
    rw [hd]
    exact List.mem_cons_self
  · split at h
    · rename_i hd
      rw [hd]
      exact List.mem_cons_of_mem _ List.mem_cons_self
    · split at h
      · rename_i hd
        rw [hd]
        exact List.mem_cons_of_mem _ (List.mem_cons_of_mem _ List.mem_cons_self)
      · cases h

/-- The lists of the `http` block are those its own directives declare. -/
theorem httpLevel_lists {st : ZoneDefs × (ZoneLayer × (ListLayer × self.Layer))}
    (h : (self.withLists hl).httpLevel d = .ok st) : st.2.2.1 = layerOf self.compile hl.names d.children := by
  have hb : ∀ d, isServer d = true → d.name ≠ lit "error_page" ∧ d.name ≠ lit "access_log" := by
    intro d hd
    have hn : d.name = lit "server" := beq_iff_eq.mp hd
    rw [hn]
    exact ⟨by decide,by decide⟩
  rw [← layerOf_filter hb]
  unfold httpLevel at h
  generalize d.children.filter (fun d => !isServer d) = es at h ⊢
  induction es using List.reverseRecOn generalizing st with
  | nil =>
    cases h
    rfl
  | append_singleton es e ih =>
    rw [List.foldlM_append] at h
    obtain ⟨mid,hmid,h⟩ := bind_ok.mp h
    rw [List.foldlM_cons] at h
    obtain ⟨st',hst',h⟩ := bind_ok.mp h
    cases h
    unfold httpDirective at hst'
    split at hst'
    · rename_i r hz
      obtain ⟨defs,-,rfl⟩ := map_ok.mp hst'
      obtain ⟨h1,h2⟩ := zoneDef_other hz
      have hm := ih hmid
      rw [layerOf_other h1 h2]
      exact hm
    · obtain ⟨lv,hlv,rfl⟩ := map_ok.mp hst'
      exact levelDirective_lists hlv (ih hmid)

/-- The lists servers inherit are those the `http` block declares. -/
theorem httpLists_eq {pathPrefix : Bytes} (h : self.httpLists pathPrefix d = .ok hl) :
    hl.errorPages = (pagesOf self.compile d.children).getD [] ∧
      hl.accessLogs = (logsOf hl.names d.children).getD [defaultLog self.compile hl.names] := by
  unfold httpLists at h
  obtain ⟨formats,-,h⟩ := bind_ok.mp h
  dsimp only at h
  obtain ⟨st,hst,h⟩ := bind_ok.mp h
  have hlists := httpLevel_lists hst
  cases h
  dsimp only
  rw [hlists]
  exact ⟨rfl,rfl⟩

end Builder

end OxiServe.Config
