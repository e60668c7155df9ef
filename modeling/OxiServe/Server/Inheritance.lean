import OxiServe.Config.Lists
import OxiServe.Config.Locations
import OxiServe.Server.Handler

/-! # Whose error pages and access logs a request has

By the rule of the configuration language a list is that of the innermost level that
declares one. Between the `http` block and a server that is so. A location that
declares none falls back to its server, whatever the locations around it say, and
the access logs of locations are not looked at.
-/
namespace OxiServe.Server
open Config

section Levels

/-- `log_request` writes one record to each of these. -/
def loggedTo (ctx : Ctx) : List AccessLogConf := ctx.server.accessLogs

/-- What the innermost of some levels declares. -/
def innermost {α : Type} (declared : List Directive → Option α) (levels : List (List Directive)) : Option α :=
  levels.findSome? declared

/-- A location built somewhere in a block, with its own directives and those of the
locations around it, the innermost first. -/
inductive Reached (b : Builder) : CoreConf → List Directive → List (List Directive) → Location → Prop
  | here {core : CoreConf} {ds : List Directive} {d : Directive} {l : Location} : d ∈ ds →
      b.location core d = .ok l → Reached b core ds [d.children] l
  | inside {core : CoreConf} {ds : List Directive} {d : Directive} {l m : Location} {path : List (List Directive)} :
      d ∈ ds → b.location core d = .ok l → Reached b l.core d.children path m →
      Reached b core ds (path ++ [d.children]) m

/-- A location of a configuration: the `http` block, a server of it and the way to
the location. -/
structure Site (b : Builder) (pathPrefix : Bytes) where
  http : Directive
  lists : HttpLists
  server : Directive
  core : CoreConf
  conf : ServerConf
  path : List (List Directive)
  location : Location
  read : b.httpLists pathPrefix http = .ok lists
  mem : server ∈ http.children
  built : (b.withLists lists).server core server = .ok conf
  reached : Reached (b.withLists lists) conf.core server.children path location

namespace Site
variable {b : Builder} {pathPrefix : Bytes} (x : Site b pathPrefix)

/-- The directives of the server and of the `http` block around it. -/
def outer : List (List Directive) := [x.server.children,x.http.children]

def pages (levels : List (List Directive)) : Option (List ErrorPage) := innermost (pagesOf b.compile) levels

def logs (levels : List (List Directive)) : Option (List AccessLogConf) := innermost (logsOf x.lists.names) levels

/-- The logs of a configuration without any. -/
def noLogs : List AccessLogConf := [defaultLog b.compile x.lists.names]

/-- A request that the location serves has the lists of the innermost level with any. -/
structure Inherits (ctx : Ctx) : Prop where
  errorPages : errorPages ctx = (pages (b := b) (x.path ++ x.outer)).getD []
  accessLogs : loggedTo ctx = (x.logs (x.path ++ x.outer)).getD x.noLogs

/-- The location declares error pages itself, or the locations around it declare none
but those of the server; and no location declares other logs than the server has. -/
structure Meets : Prop where
  errorPages : pages (b := b) (x.path.take 1) = none → ∀ ps, pages (b := b) (x.path.drop 1) = some ps →
    ps = (pages (b := b) x.outer).getD []
  accessLogs : ∀ ls, x.logs x.path = some ls → ls = (x.logs x.outer).getD x.noLogs

end Site

end Levels

section Built
variable {b : Builder} {hl : HttpLists} {core : CoreConf} {ds : List Directive} {path : List (List Directive)}
variable {l : Location}

/-- The first directives of a way are those of the location. -/
theorem Reached.own (h : Reached (b.withLists hl) core ds path l) : ∃ d around, path = d.children :: around ∧
    ∃ parent, (b.withLists hl).location parent d = .ok l := by
  induction h with
  | @here core ds d l _ hl => exact ⟨d,[],rfl,core,hl⟩
  | @inside core ds d l m path _ _ _ ih =>
    obtain ⟨e,around,rfl,hb⟩ := ih
    exact ⟨e,around ++ [d.children],rfl,hb⟩

/-- Every location of a set comes from somewhere in its block. -/
theorem reached_of_within {s : LocSet Location} (h : Within s l) (core : CoreConf) (ds : List Directive)
    (ls : List Location) (hls : (b.withLists hl).locations core ds = .ok ls) (hs : s = .ofList ls) :
    ∃ path, Reached (b.withLists hl) core ds path l := by
  induction h generalizing core ds ls with
  | here hm =>
    subst hs
    obtain ⟨d,hd,hb⟩ := location_of_mem hls (inEffect_subset (mem_ofList.mp hm))
    exact ⟨_,.here hd hb⟩
  | @inside s t l m hm hn hw ih =>
    subst hs
    obtain ⟨d,hd,hb⟩ := location_of_mem hls (inEffect_subset (mem_ofList.mp hm))
    obtain ⟨lv,nested,-,-,hnested,hcore,hset⟩ := location_cases hb
    rw [← hcore] at hnested
    rw [hset] at hn
    split at hn
    · cases hn
      obtain ⟨path,hp⟩ := ih _ _ _ hnested rfl
      exact ⟨_,.inside hd hb hp⟩
    · cases hn

/-- Every location of every server that is built has a place in the file. -/
theorem site_of_within {pathPrefix : Bytes} {d : Directive} {conf : Http} {servers : List ServerConf}
    (h : b.httpListed pathPrefix d = .ok (conf,servers)) {s : ServerConf} (hs : s ∈ servers)
    (hl : Within s.locations l) : ∃ x : Site b pathPrefix, x.http = d ∧ x.conf = s ∧ x.location = l := by
  unfold Builder.httpListed at h
  obtain ⟨lists,hlists,h⟩ := bind_ok.mp h
  rw [Builder.http] at h
  obtain ⟨st,hst,h⟩ := bind_ok.mp h
  obtain ⟨ss,hss,h⟩ := bind_ok.mp h
  have hservers : ss = servers := by
    split at h
    · cases h
    · obtain ⟨-,-,h⟩ := bind_ok.mp h
      obtain ⟨-,-,h⟩ := bind_ok.mp h
      obtain ⟨-,-,h⟩ := bind_ok.mp h
      cases h
      rfl
  subst hservers
  obtain ⟨-,hfrom⟩ := mapM_ok hss
  obtain ⟨e,he,hes⟩ := hfrom s hs
  have hb := hes
  unfold Builder.server at hes
  obtain ⟨lv,-,hes⟩ := bind_ok.mp hes
  obtain ⟨s',-,hes⟩ := bind_ok.mp hes
  obtain ⟨ls,hls,hes⟩ := bind_ok.mp hes
  cases hes
  obtain ⟨path,hp⟩ := reached_of_within hl _ _ _ hls rfl
  exact ⟨⟨d,lists,e,_,_,path,l,hlists,(List.mem_filter.mp he).1,hb,hp⟩,rfl,rfl,rfl⟩

theorem mem_of_find {s : LocSet Location} {uri : Bytes} {c : Option (List Bytes)} (h : s.find uri = some (l,c)) :
    l ∈ s.members := by
  unfold LocSet.members
  rcases LocSet.find_mem h with h | h | h
  · exact List.mem_append_left _ (List.mem_append_left _ (List.mem_append_left _ h))
  · exact List.mem_append_left _ (List.mem_append_left _ (List.mem_append_right _ h))
  · exact List.mem_append_left _ (List.mem_append_right _ h)

/-- The location that serves a request is one of its server's. -/
theorem within_descend {uri : Bytes} (cur : Location) (caps : Option (List Bytes)) {s : LocSet Location}
    (hm : cur ∈ s.members) : Within s (cur.descend uri caps).1 := by
  rw [Location.descend]
  split
  · exact .here hm
  · rename_i t ht
    split
    · exact .here hm
    · rename_i inner c hf
      have hlt := Location.sizeOf_lt_of_find ht hf
      exact .inside hm ht (within_descend inner (c.or caps) (mem_of_find hf))
termination_by sizeOf cur

theorem within_of_locate {s : ServerConf} {uri : Bytes} {c : Option (List Bytes)}
    (h : s.locate uri = some (l,c)) : Within s.locations l := by
  unfold ServerConf.locate at h
  obtain ⟨⟨k,r⟩,hf,he⟩ := Option.map_eq_some_iff.mp h
  have hw := @within_descend uri k r _ (mem_of_find hf)
  dsimp only at he
  rw [he] at hw
  exact hw

end Built

namespace Site
variable {b : Builder} {pathPrefix : Bytes} {x : Site b pathPrefix} {ctx : Ctx}

theorem conf_lists : x.conf.errorPages = (pages (b := b) x.outer).getD [] ∧
    x.conf.accessLogs = (x.logs x.outer).getD x.noLogs := by
  obtain ⟨hp,hl⟩ := Builder.server_lists x.built
  obtain ⟨hhp,hhl⟩ := Builder.httpLists_eq x.read
  rw [hp,hl,hhp,hhl]
  unfold pages logs innermost outer noLogs
  simp only [List.findSome?_cons,List.findSome?_nil]
  refine ⟨?_,?_⟩
  · cases pagesOf b.compile x.server.children with
    | some ps => rfl
    | none =>
      cases pagesOf b.compile x.http.children with
      | some ps => rfl
      | none => rfl
  · cases logsOf x.lists.names x.server.children with
    | some ps => rfl
    | none =>
      cases logsOf x.lists.names x.http.children with
      | some ps => rfl
      | none => rfl

/-- A request has the lists of the innermost level that declares any exactly when its
location meets the condition. -/
theorem inherits_iff (x : Site b pathPrefix) (ctx : Ctx) (hs : ctx.server = x.conf)
    (hm : ctx.matched = some x.location) : x.Inherits ctx ↔ x.Meets := by
  obtain ⟨d,around,hpath,parent,hown⟩ := x.reached.own
  obtain ⟨hpages,-,hne⟩ := Builder.location_lists hown
  obtain ⟨hcp,hcl⟩ := @conf_lists b pathPrefix x
  have hpages' : errorPages ctx =
      ((pagesOf b.compile d.children).getD ((pages (b := b) x.outer).getD [])) := by
    unfold Server.errorPages
    rw [hm,hs]
    dsimp only
    rw [hpages,hcp]
    cases ho : pagesOf b.compile d.children with
    | none => rfl
    | some ps =>
      rw [Option.getD_some,if_neg]
      · rfl
      · rintro rfl
        exact hne ho
  have hlogs : loggedTo ctx = (x.logs x.outer).getD x.noLogs := by
    unfold loggedTo
    rw [hs,hcl]
  have hsplit : pages (b := b) (x.path ++ x.outer) =
      (pagesOf b.compile d.children).or ((pages (b := b) (x.path.drop 1)).or (pages (b := b) x.outer)) := by
    unfold pages innermost
    rw [hpath,List.findSome?_append,List.findSome?_cons]
    cases pagesOf b.compile d.children with
    | some ps => rfl
    | none => rfl
  have hfirst : pages (b := b) (x.path.take 1) = pagesOf b.compile d.children := by
    unfold pages innermost
    rw [hpath,List.take_succ_cons,List.take_zero,List.findSome?_cons]
    cases pagesOf b.compile d.children with
    | some ps => rfl
    | none => rfl
  have hjoin : x.logs (x.path ++ x.outer) = (x.logs x.path).or (x.logs x.outer) := by
    unfold logs innermost
    rw [List.findSome?_append]
  have herr : errorPages ctx = (pages (b := b) (x.path ++ x.outer)).getD [] ↔
      (pages (b := b) (x.path.take 1) = none → ∀ ps, pages (b := b) (x.path.drop 1) = some ps →
        ps = (pages (b := b) x.outer).getD []) := by
    rw [hpages',hsplit,hfirst]
    cases pagesOf b.compile d.children with
    | some ps => exact iff_of_true rfl (fun h => nomatch h)
    | none =>
      cases pages (b := b) (x.path.drop 1) with
      | none => exact iff_of_true rfl (fun _ _ h => nomatch h)
      | some ps =>
        constructor
        · rintro h - qs hq
          cases hq
          exact h.symm
        · intro h
          exact (h rfl ps rfl).symm
  have hacc : loggedTo ctx = (x.logs (x.path ++ x.outer)).getD x.noLogs ↔
      ∀ ls, x.logs x.path = some ls → ls = (x.logs x.outer).getD x.noLogs := by
    rw [hlogs,hjoin]
    cases x.logs x.path with
    | none => exact iff_of_true rfl (fun _ h => nomatch h)
    | some ls =>
      constructor
      · intro h ms hms
        cases hms
        exact h.symm
      · intro h
        exact (h ls rfl).symm
  exact ⟨fun h => ⟨herr.mp h.errorPages,hacc.mp h.accessLogs⟩,fun h => ⟨herr.mpr h.errorPages,hacc.mpr h.accessLogs⟩⟩

/-- A location with an error page, and one within it that declares what is given. -/
def innerLocation (own : List Directive) : Directive := directive "location" ["/a"] own

def outerLocation (own : List Directive) : Directive :=
  directive "location" ["/"] [directive "error_page" ["404","/gone"] [],innerLocation own]

def pagedBlock (own : List Directive) : Directive :=
  directive "http" [] [directive "error_page" ["404","/oops"] [],directive "server" [] [outerLocation own]]

/-- A request the inner location serves. -/
def request (x : Site b pathPrefix) : Ctx :=
  { Ctx.new [] .new [] .bare x.conf (lit "/a") none none (lit "http") 1 1 with matched := some x.location }

theorem ownPage_inherits : ∃ x : Site plain [],
    x.path = [[directive "error_page" ["404","/lost"] []],
      (outerLocation [directive "error_page" ["404","/lost"] []]).children] ∧ x.Inherits x.request := by
  refine ⟨⟨pagedBlock [directive "error_page" ["404","/lost"] []],_,
    directive "server" [] [outerLocation [directive "error_page" ["404","/lost"] []]],defaultCore,_,_,_,rfl,
    List.mem_cons_of_mem _ List.mem_cons_self,rfl,.inside List.mem_cons_self rfl
      (.here (List.mem_cons_of_mem _ List.mem_cons_self) rfl)⟩,rfl,?_⟩
  refine (inherits_iff _ _ rfl rfl).mpr ⟨fun h => ?_,fun ls h => ?_⟩
  · cases h
  · cases h

/-- The inner location without a page of its own. -/
def noPageSite : Site plain [] :=
  ⟨pagedBlock [],_,directive "server" [] [outerLocation []],defaultCore,_,_,_,rfl,
    List.mem_cons_of_mem _ List.mem_cons_self,rfl,.inside List.mem_cons_self rfl
      (.here (List.mem_cons_of_mem _ List.mem_cons_self) rfl)⟩

/-- The URIs that the pages of a list serve. -/
def targets (ps : List ErrorPage) : List (Option Template) :=
  ps.map (fun p =>
    match p.target with
    | .uri t => some t
    | _ => none)

/-- Without a page of its own the inner location takes the page of the `http` block. -/
theorem noPage_differs : ¬ ∀ x : Site plain [], x.Inherits x.request :=
  fun h => absurd (congrArg targets (h noPageSite).errorPages) (by decide +kernel)

end Site

end OxiServe.Server
