import Mathlib.Data.List.Sort
import OxiServe.Config.Model

/-! # From directives to a configuration

Builds the `http` block: the zones it declares, the settings each level adds to
those of its parent, the locations of each server at any depth, and the checks
on zone names made at the end. What directives other than those of the zones do
is left to the rest of the builder.
-/
namespace OxiServe.Config

/-- A name, its arguments, its block and where it stands in the file. -/
inductive Directive
  | mk (name : Bytes) (args : List Bytes) (children : List Directive) (loc : Bytes)

namespace Directive

def name : Directive → Bytes
  | .mk n _ _ _ => n

def args : Directive → List Bytes
  | .mk _ a _ _ => a

def children : Directive → List Directive
  | .mk _ _ cs _ => cs

def loc : Directive → Bytes
  | .mk _ _ _ l => l

end Directive

structure BuildError where
  msg : Bytes
  loc : Bytes
deriving DecidableEq, Repr

/-- What building a part of the configuration gives. -/
abbrev Built := Except BuildError

inductive Scope
  | http | server | location
deriving DecidableEq, Repr

section Arguments

def bail {α : Type} (d : Directive) (msg : Bytes) : Built α := .error ⟨msg,d.loc⟩

def quoted (s : Bytes) : Bytes := lit "\"" ++ s ++ lit "\""

def wantArgsRange (d : Directive) (lo hi : ℕ) : Built Unit :=
  if d.args.length < lo ∨ hi < d.args.length then
    bail d (lit "invalid number of arguments in " ++ quoted d.name ++ lit " directive")
  else .ok ()

def wantArgs (d : Directive) (n : ℕ) : Built Unit :=
  if d.args.length ≠ n then bail d (lit "invalid number of arguments in " ++ quoted d.name ++ lit " directive")
  else .ok ()

/-- `1024`, `10k`, `8m`, `2g`. -/
def parseSize (s : Bytes) : Option ℕ :=
  match s.getLast? with
  | none => none
  | some c =>
    let (num,mult) :=
      if c = 107 ∨ c = 75 then (s.dropLast,1024)
      else if c = 109 ∨ c = 77 then (s.dropLast,1024 * 1024)
      else if c = 103 ∨ c = 71 then (s.dropLast,1024 * 1024 * 1024)
      else (s,1)
    (parseUnsigned 64 num).bind (fun n => if n * mult < 2 ^ 64 then some (n * mult) else none)

/-- Splits before and after the first occurrence of a text. -/
def splitOnceText (p : Bytes) : Bytes → Option (Bytes × Bytes)
  | [] => if p = [] then some ([],[]) else none
  | c :: s =>
    match stripPrefix p (c :: s) with
    | some rest => some ([],rest)
    | none => (splitOnceText p s).map (fun q => (c :: q.1,q.2))

/-- `5r/s` or `30r/m`, scaled by 1000. -/
def parseRate (s : Bytes) : Option ℕ :=
  match splitOnceText (lit "r/") s with
  | none => none
  | some (n,unit) =>
    (parseUnsigned 64 n).bind (fun n =>
      if unit = lit "s" then some (n * 1000 % 2 ^ 64)
      else if unit = lit "m" then some (n * 1000 % 2 ^ 64 / 60)
      else none)

end Arguments

section Zones

/-- The parameters of `limit_req`, each of them noted in turn. -/
def limitReqArg (d : Directive) (lr : LimitReq) (a : Bytes) : Built LimitReq :=
  match stripPrefix (lit "zone=") a with
  | some v => .ok { lr with zone := v }
  | none =>
    match stripPrefix (lit "burst=") a with
    | some v =>
      match parseUnsigned 64 v with
      | some n => .ok { lr with burst := n * 1000 % 2 ^ 64 }
      | none => bail d (lit "invalid \"burst\" value " ++ quoted v ++ lit " in \"limit_req\"")
    | none =>
      if a = lit "nodelay" then .ok { lr with nodelay := true }
      else
        match stripPrefix (lit "delay=") a with
        | some v =>
          match parseUnsigned 64 v with
          | some n => .ok { lr with delayAfter := n * 1000 % 2 ^ 64 }
          | none => bail d (lit "invalid \"delay\" value " ++ quoted v ++ lit " in \"limit_req\"")
        | none => bail d (lit "invalid parameter " ++ quoted a ++ lit " in \"limit_req\"")

def limitReq (d : Directive) : Built LimitReq := do
  wantArgsRange d 1 4
  let lr ← d.args.foldlM (limitReqArg d) ⟨[],0,false,0⟩
  if lr.zone = [] then bail d (lit "\"limit_req\" requires a \"zone=\" parameter")
  else if lr.nodelay ∧ 0 < lr.delayAfter then
    bail d (lit "\"nodelay\" and \"delay=\" are mutually exclusive in \"limit_req\"")
  else .ok lr

/-- The most connections a limit can count. -/
def maxConns : ℕ := 65535

def limitConn (d : Directive) : Built LimitConn := do
  wantArgs d 2
  let zone := d.args.headD []
  let count := (d.args.drop 1).headD []
  match (parseUnsigned 32 count).filter (0 < ·) with
  | none => bail d (lit "invalid number of connections " ++ quoted count ++ lit " in \"limit_conn\"")
  | some limit =>
    if maxConns < limit then
      bail d (lit "\"limit_conn\" number " ++ decimal limit ++ lit " exceeds the maximum of " ++ decimal maxConns)
    else .ok ⟨zone,limit⟩

/-- The zone `proxy_cache` names, none when it is `off`. -/
def proxyCache (d : Directive) : Built (Option Bytes) := do
  wantArgs d 1
  .ok (if d.args.headD [] = lit "off" then none else some (d.args.headD []))

/-- What one level says about zones; unset is inherited. -/
structure ZoneLayer where
  limitReqs : Option (List LimitReq)
  limitConns : Option (List LimitConn)
  cacheZone : Option (Option Bytes)
deriving DecidableEq, Repr

def ZoneLayer.unset : ZoneLayer := ⟨none,none,none⟩

/-- Adds to the lists of a level; the last `proxy_cache` of a level stands. -/
def zoneDirective (lv : ZoneLayer) (d : Directive) : Option (Built ZoneLayer) :=
  if d.name = lit "limit_req" then
    some ((limitReq d).map (fun lr => { lv with limitReqs := some (lv.limitReqs.getD [] ++ [lr]) }))
  else if d.name = lit "limit_conn" then
    some ((limitConn d).map (fun lc => { lv with limitConns := some (lv.limitConns.getD [] ++ [lc]) }))
  else if d.name = lit "proxy_cache" then some ((proxyCache d).map (fun z => { lv with cacheZone := some z }))
  else none

/-- Lists are replaced wholesale by a level that has any. -/
def ZoneLayer.resolve (lv : ZoneLayer) (parent c : CoreConf) : CoreConf :=
  { c with
    limitReqs := lv.limitReqs.getD parent.limitReqs
    limitConns := lv.limitConns.getD parent.limitConns
    proxyCache := { c.proxyCache with zone := lv.cacheZone.getD parent.proxyCache.zone } }

/-- `limit_req_zone $key zone=name:10m rate=5r/s`: the name, size and rate so far. -/
def reqZoneArg (d : Directive) (z : Bytes × ℕ × ℕ) (a : Bytes) : Built (Bytes × ℕ × ℕ) :=
  match stripPrefix (lit "zone=") a with
  | some v =>
    match splitOnce 58 v with
    | none => bail d (lit "invalid \"zone=\" value " ++ quoted v ++ lit ", expected name:size")
    | some (name,size) =>
      match parseSize size with
      | none => bail d (lit "invalid zone size " ++ quoted size)
      | some bytes => .ok (name,bytes / 64,z.2.2)
  | none =>
    match stripPrefix (lit "rate=") a with
    | some v =>
      match parseRate v with
      | none => bail d (lit "invalid rate " ++ quoted v ++ lit ", expected e.g. 5r/s or 30r/m")
      | some rate => .ok (z.1,z.2.1,rate)
    | none => bail d (lit "invalid parameter " ++ quoted a ++ lit " in \"limit_req_zone\"")

/-- The name, entries and rate of a zone. -/
def limitReqZone (d : Directive) : Built (Bytes × ℕ × ℕ) := do
  wantArgsRange d 3 4
  let z ← (d.args.drop 1).foldlM (reqZoneArg d) ([],0,0)
  if z.1 = [] then bail d (lit "\"limit_req_zone\" requires a \"zone=\" parameter")
  else if z.2.2 = 0 then bail d (lit "\"limit_req_zone\" requires a non-zero \"rate=\" parameter")
  else .ok (z.1,max z.2.1 1,z.2.2)

/-- `limit_conn_zone $key zone=name:10m`: the name and entries. -/
def limitConnZone (d : Directive) : Built (Bytes × ℕ) := do
  wantArgs d 2
  let a := (d.args.drop 1).headD []
  match stripPrefix (lit "zone=") a with
  | none => bail d (lit "invalid parameter " ++ quoted a ++ lit " in \"limit_conn_zone\"")
  | some v =>
    match splitOnce 58 v with
    | none => bail d (lit "invalid \"zone=\" value " ++ quoted v ++ lit ", expected name:size")
    | some (name,size) =>
      match parseSize size with
      | none => bail d (lit "invalid zone size " ++ quoted size)
      | some bytes =>
        if name = [] then bail d (lit "\"limit_conn_zone\" requires a zone name")
        else .ok (name,max (bytes / 64) 1)

end Zones

/-- The rest of the builder: what the other directives of a level do, the cache
paths, and what is checked once a level is complete. -/
structure Builder where
  Layer : Type
  fresh : Layer
  directive : Scope → Layer → Directive → Built Layer
  settings : Layer → CoreConf → CoreConf
  regex : Bytes → Bool → Directive → Built Regex
  otherLocation : Layer → Location
  otherServer : Layer → Directive → Built ServerConf
  cachePath : Directive → Built Bytes
  compile : Bytes → Template
  listeners : List ServerConf → Built Unit
  otherHttp : Layer → Http

section Locations

/-- The byte order of two texts. -/
def textLe (s t : Bytes) : Bool := !decide (t < s)

/-- A later location of a name takes the place of an earlier one. -/
def insertNamed (named : List (Bytes × Location)) (l : Location) : List (Bytes × Location) :=
  match l.matcher with
  | .named n => (n,l) :: named.filter (fun p => p.1 != n)
  | _ => named

/-- Locations by kind: exact ones in order, the longest prefix first. -/
def LocSet.ofList (ls : List Location) : LocSet Location where
  exact := (ls.filter (fun l => l.matcher matches .exact _)).mergeSort
    (fun a b => textLe (a.matcher.prefixOf.getD []) (b.matcher.prefixOf.getD []))
  prefixes := (ls.filter (fun l => l.matcher matches .pfx _ || l.matcher matches .pfxNoRegex _)).mergeSort
    (fun a b => decide ((b.matcher.prefixOf.getD []).length ≤ (a.matcher.prefixOf.getD []).length))
  regex := ls.filter (fun l => l.matcher matches .regex _)
  named := ls.foldl insertNamed []

namespace Builder
variable (self : Builder)

def matcher (d : Directive) : Built LocMatch :=
  match d.args with
  | [m,p] =>
    if m = lit "=" then .ok (.exact p)
    else if m = lit "^~" then .ok (.pfxNoRegex p)
    else if m = lit "~" then (self.regex p false d).map .regex
    else if m = lit "~*" then (self.regex p true d).map .regex
    else bail d (lit "invalid location modifier " ++ quoted m)
  | [p] => if p.head? = some 64 then .ok (.named (p.drop 1)) else .ok (.pfx p)
  | _ => bail d (lit "invalid number of arguments in " ++ quoted d.name ++ lit " directive")

def isLocation (d : Directive) : Bool := d.name == lit "location"

/-- One directive of a level. -/
def levelDirective (scope : Scope) (lv : ZoneLayer × self.Layer) (d : Directive) : Built (ZoneLayer × self.Layer) :=
  match zoneDirective lv.1 d with
  | some r => r.map (fun z => (z,lv.2))
  | none => (self.directive scope lv.2 d).map (fun l => (lv.1,l))

/-- The directives of a level, apart from the blocks it holds. -/
def level (scope : Scope) (block : Directive → Bool) (ds : List Directive) : Built (ZoneLayer × self.Layer) :=
  (ds.filter (fun d => !block d)).foldlM (self.levelDirective scope) (.unset,self.fresh)

/-- A level's settings on top of its parent's. -/
def resolve (lv : ZoneLayer × self.Layer) (parent : CoreConf) : CoreConf := lv.1.resolve parent (self.settings lv.2 parent)

mutual

def location (parent : CoreConf) : Directive → Built Location
  | .mk name args children loc => do
    wantArgsRange (.mk name args children loc) 1 2
    let matcher ← self.matcher (.mk name args children loc)
    let lv ← self.level .location isLocation children
    let core := self.resolve lv parent
    let nested ← locations core children
    .ok { self.otherLocation lv.2 with
      matcher := matcher
      core := core
      nested := if children.any isLocation then some (.ofList nested) else none }

/-- The locations among the directives of a block. -/
def locations (core : CoreConf) : List Directive → Built (List Location)
  | [] => .ok []
  | d :: ds =>
    if isLocation d then do
      let l ← location core d
      let ls ← locations core ds
      .ok (l :: ls)
    else locations core ds

end

end Builder

end Locations

section Checks

def checkCacheZone (core : CoreConf) (zones : List Bytes) : Built Unit :=
  match core.proxyCache.zone with
  | none => .ok ()
  | some z =>
    if zones.contains z then .ok ()
    else .error ⟨lit "unknown proxy_cache zone " ++ quoted z,lit "proxy_cache"⟩

def checkReqZones (zones : List Bytes) : List LimitReq → Built Unit
  | [] => .ok ()
  | l :: ls =>
    if zones.contains l.zone then checkReqZones zones ls
    else .error ⟨lit "unknown limit_req zone " ++ quoted l.zone,lit "limit_req"⟩

def checkConnZones (zones : List Bytes) : List LimitConn → Built Unit
  | [] => .ok ()
  | l :: ls =>
    if zones.contains l.zone then checkConnZones zones ls
    else .error ⟨lit "unknown limit_conn zone " ++ quoted l.zone,lit "limit_conn"⟩

def checkZonesExist (core : CoreConf) (zones connZones : List Bytes) : Built Unit := do
  checkReqZones zones core.limitReqs
  checkConnZones connZones core.limitConns

/-- Checks the settings of a server and of the locations it lists itself. -/
def checkServer (check : CoreConf → Built Unit) (s : ServerConf) : Built Unit := do
  check s.core
  (s.locations.prefixes ++ s.locations.regex ++ s.locations.exact).forM (fun l => check l.core)

end Checks

section Http

/-- The zones declared so far; the newest definition of a name stands. -/
structure ZoneDefs where
  reqs : List (Bytes × Template)
  conns : List (Bytes × Template)
  caches : List Bytes

namespace Builder
variable (self : Builder)

def isServer (d : Directive) : Bool := d.name == lit "server"

def zoneDef (defs : ZoneDefs) (d : Directive) : Option (Built ZoneDefs) :=
  if d.name = lit "proxy_cache_path" then
    some (do
      wantArgsRange d 2 12
      let name ← self.cachePath d
      .ok { defs with caches := name :: defs.caches })
  else if d.name = lit "limit_req_zone" then
    some ((limitReqZone d).map
      (fun z => { defs with reqs := (z.1,self.compile (d.args.headD [])) :: defs.reqs }))
  else if d.name = lit "limit_conn_zone" then
    some ((limitConnZone d).map
      (fun z => { defs with conns := (z.1,self.compile (d.args.headD [])) :: defs.conns }))
  else none

def httpDirective (st : ZoneDefs × (ZoneLayer × self.Layer)) (d : Directive) :
    Built (ZoneDefs × (ZoneLayer × self.Layer)) :=
  match self.zoneDef st.1 d with
  | some r => r.map (fun defs => (defs,st.2))
  | none => (self.levelDirective .http st.2 d).map (fun lv => (st.1,lv))

def server (parent : CoreConf) (d : Directive) : Built ServerConf := do
  let lv ← self.level .server isLocation d.children
  let core := self.resolve lv parent
  let s ← self.otherServer lv.2 d
  let ls ← self.locations core d.children
  .ok { s with core := core, locations := .ofList ls }

def http (d : Directive) : Built (Http × List ServerConf) := do
  let st ← (d.children.filter (fun c => !isServer c)).foldlM self.httpDirective
    (⟨[],[],[]⟩,(.unset,self.fresh))
  let servers ← (d.children.filter isServer).mapM (self.server (self.resolve st.2 defaultCore))
  if servers.isEmpty then bail d (lit "no server blocks defined in http")
  else do
    self.listeners servers
    servers.forM (checkServer (fun core => checkZonesExist core (st.1.reqs.map Prod.fst) (st.1.conns.map Prod.fst)))
    servers.forM (checkServer (fun core => checkCacheZone core st.1.caches))
    .ok ({ self.otherHttp st.2.2 with
      cacheZones := st.1.caches
      limitReqZones := st.1.reqs.map Prod.fst
      limitReqKeys := st.1.reqs
      limitConnZones := st.1.conns.map Prod.fst
      limitConnKeys := st.1.conns },servers)

end Builder

end Http

end OxiServe.Config
