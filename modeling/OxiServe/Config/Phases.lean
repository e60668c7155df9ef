import OxiServe.Config.ZoneRefs

/-! # The rewrite-phase directives of a level

`rewrite`, `if`, `set`, `return` and the directives that name a content handler, as
they are read, and what the builder keeps of a level: its rules, its conditions and
one action.
-/
namespace OxiServe.Config

section Directives

/-- What names the handler of a level's content. -/
inductive Handler
  | proxy (p : ProxyPass)
  | fastCgi (f : FastCgiPass)
  | stubStatus (json : Bool)

def Handler.action : Handler → Action
  | .proxy p => .proxy p
  | .fastCgi f => .fastCgi f
  | .stubStatus json => .stubStatus json

inductive PhaseDirective
  | rewrite (r : Rewrite)
  | ifBlock (b : IfBlock)
  | set (name : Bytes) (value : Template)
  | ret (status : ℕ) (body : Option Template)
  | handler (h : Handler)

/-- What is compiled elsewhere: templates, variables and expressions, and the test
for the text of an address. -/
structure Compiler where
  compile : Bytes → Template
  var : Bytes → Var
  regex : Bytes → Bool → Directive → Built Regex
  isIp : Bytes → Bool

end Directives

section Parsing
variable (c : Compiler)

def isHttpUrl (s : Bytes) : Bool := (lit "http://").isPrefixOf s || (lit "https://").isPrefixOf s

/-- `return https://x/` without a code means 302. In an `if` the number of arguments is
not checked before; there the source stops when there are none. -/
def parseReturn (d : Directive) : Built (ℕ × Option Template) :=
  let first := d.args.headD []
  if isHttpUrl first || (lit "/").isPrefixOf first then
    if 1 < d.args.length then bail d (lit "invalid arguments in \"return\" directive")
    else .ok (302,some (c.compile first))
  else
    match parseUnsigned 16 first with
    | some status => .ok (status,(d.args[1]?).map c.compile)
    | none => bail d (lit "invalid return code " ++ quoted first)

def rewriteFlag (d : Directive) : Built RewriteFlag :=
  match d.args[2]? with
  | none => .ok .none
  | some f =>
    if f = lit "last" then .ok .last
    else if f = lit "break" then .ok .brk
    else if f = lit "redirect" then .ok .redirect
    else if f = lit "permanent" then .ok .permanent
    else bail d (lit "invalid flag " ++ quoted f ++ lit " in \"rewrite\" directive")

def rewriteRule (d : Directive) : Built Rewrite := do
  wantArgsRange d 2 3
  let flag ← rewriteFlag d
  let re ← c.regex (d.args.headD []) false d
  .ok ⟨re,c.compile ((d.args[1]?).getD []),flag⟩

/-- The variable and the value of a `set`. -/
def setArgs (d : Directive) : Built (Bytes × Template) := do
  wantArgs d 2
  match stripPrefix (lit "$") (d.args.headD []) with
  | some var => .ok (var,c.compile ((d.args[1]?).getD []))
  | none => bail d (lit "invalid variable name " ++ quoted (d.args.headD []))

def condVar (d : Directive) (s : Bytes) : Built Var :=
  match stripPrefix (lit "$") s with
  | some v => .ok (c.var v)
  | none => bail d (lit "invalid condition operand " ++ quoted s ++ lit ", expected a variable")

/-- A file test: one of four, perhaps negated. -/
def fileTest (op : Bytes) (t : Template) : Option Cond :=
  if op = lit "-f" then some (.fileExists t false)
  else if op = lit "!-f" then some (.fileExists t true)
  else if op = lit "-d" then some (.dirExists t false)
  else if op = lit "!-d" then some (.dirExists t true)
  else if op = lit "-e" then some (.anyExists t false)
  else if op = lit "!-e" then some (.anyExists t true)
  else if op = lit "-x" then some (.executable t false)
  else if op = lit "!-x" then some (.executable t true)
  else none

def cond (parts : List Bytes) (d : Directive) : Built Cond :=
  match parts with
  | [p] => (condVar c d p).map .truthy
  | [op,arg] =>
    match fileTest op (c.compile arg) with
    | some t => .ok t
    | none => bail d (lit "invalid condition operator " ++ quoted op)
  | [lhs,op,rhs] => do
    let v ← condVar c d lhs
    if op = lit "=" then .ok (.eq v (c.compile rhs))
    else if op = lit "!=" then .ok (.ne v (c.compile rhs))
    else if op = lit "~" then (c.regex rhs false d).map (fun re => .matches v re false)
    else if op = lit "~*" then (c.regex rhs true d).map (fun re => .matches v re false)
    else if op = lit "!~" then (c.regex rhs false d).map (fun re => .matches v re true)
    else if op = lit "!~*" then (c.regex rhs true d).map (fun re => .matches v re true)
    else bail d (lit "invalid condition operator " ++ quoted op)
  | _ => bail d (lit "invalid condition in \"if\" directive")

/-- The words of a condition, without the parentheses around them. -/
def condWords (d : Directive) : Built (List Bytes) :=
  match d.args with
  | [] => bail d (lit "invalid condition in \"if\" directive")
  | a :: as =>
    match stripPrefix (lit "(") a with
    | none => bail d (lit "invalid condition in \"if\": expected \"(\"")
    | some first =>
      let words := first :: as
      let last := words.getLast?.getD []
      if last.getLast? = some 41 then .ok ((words.dropLast ++ [last.dropLast]).filter (fun w => !w.isEmpty))
      else bail d (lit "invalid condition in \"if\": expected \")\"")

def ifAction (d : Directive) : Built IfAction :=
  if d.name = lit "return" then (parseReturn c d).map (fun p => .ret p.1 p.2)
  else if d.name = lit "rewrite" then (rewriteRule c d).map .rewrite
  else if d.name = lit "set" then (setArgs c d).map (fun p => .set p.1 p.2)
  else if d.name = lit "add_header" then do
    wantArgsRange d 2 3
    .ok (.addHeader ⟨d.args.headD [],c.compile ((d.args[1]?).getD []),d.args[2]? == some (lit "always")⟩)
  else if d.name = lit "break" then .ok .brk
  else bail d (quoted d.name ++ lit " is not allowed inside \"if\" in OxiServe")

def ifBlock (d : Directive) : Built IfBlock := do
  let words ← condWords d
  let test ← cond c words d
  let actions ← d.children.mapM (ifAction c)
  .ok ⟨test,actions⟩

/-- The parts of a text around the last occurrence of a byte. -/
def rsplitOnce (b : UInt8) (s : Bytes) : Option (Bytes × Bytes) :=
  (splitOnce b s.reverse).map (fun p => (p.2.reverse,p.1.reverse))

def parseFastcgiTarget (s : Bytes) (d : Directive) : Built ProxyTarget :=
  match stripPrefix (lit "unix:") s with
  | some path =>
    if path = [] then bail d (lit "empty socket path in \"fastcgi_pass unix:\"")
    else .ok (.unix (path.reverse.dropWhile (· == 58)).reverse)
  | none =>
    if s.contains 36 then .ok (.dynamic (c.compile s))
    else
      match rsplitOnce 58 s with
      | none => .ok (.upstream s)
      | some (h,p) =>
        match parseUnsigned 16 p with
        | some port => .ok (.addr h port)
        | none => .ok (.upstream s)

/-- A bare name without port and dots is an upstream; anything else is an address. -/
def proxyTarget (authority : Bytes) (tls : Bool) : ProxyTarget :=
  match rsplitOnce 58 authority with
  | some (h,p) =>
    match parseUnsigned 16 p with
    | some port => .addr h port
    | none => .upstream authority
  | none =>
    if authority.contains 46 || c.isIp authority then .addr authority (if tls then 443 else 80)
    else .upstream authority

def proxyAuthority (rest : Bytes) (tls : Bool) (d : Directive) : Built ProxyPass :=
  match stripPrefix (lit "unix:") rest with
  | some after =>
    let (path,uri) := (match rsplitOnce 58 after with
      | some (path,uri) => (path,some uri)
      | none => (after,none))
    if path = [] then bail d (lit "empty socket path in \"proxy_pass ... unix:\"")
    else .ok ⟨.unix path,(uri.filter (fun u => !u.isEmpty)).map c.compile,tls⟩
  | none =>
    let authority := rest.takeWhile (· != 47)
    let uri := rest.dropWhile (· != 47)
    if authority = [] then bail d (lit "no host in \"proxy_pass\"")
    else .ok ⟨proxyTarget c authority tls,if uri = [] then none else some (c.compile uri),tls⟩

def parseProxyPass (s : Bytes) (d : Directive) : Built ProxyPass :=
  if s.contains 36 && !isHttpUrl s then .ok ⟨.dynamic (c.compile s),none,false⟩
  else
    match stripPrefix (lit "https://") s with
    | some rest => proxyAuthority c rest true d
    | none =>
      match stripPrefix (lit "http://") s with
      | some rest => proxyAuthority c rest false d
      | none => bail d (lit "invalid URL prefix in \"proxy_pass\" — expected http:// or https://")

def stubStatus (d : Directive) : Built Bool := do
  wantArgsRange d 0 1
  match d.args.head? with
  | none => .ok false
  | some a =>
    if a = lit "json" then .ok true
    else bail d (lit "invalid parameter " ++ quoted a ++ lit " in \"stub_status\", expected \"json\"")

/-- One directive of a level, when it is one of these. -/
def phaseDirective (d : Directive) : Option (Built PhaseDirective) :=
  if d.name = lit "fastcgi_pass" then
    some (do
      wantArgs d 1
      let t ← parseFastcgiTarget c (d.args.headD []) d
      .ok (.handler (.fastCgi ⟨t⟩)))
  else if d.name = lit "return" then
    some (do
      wantArgsRange d 1 2
      let p ← parseReturn c d
      .ok (.ret p.1 p.2))
  else if d.name = lit "stub_status" then some ((stubStatus d).map (fun json => .handler (.stubStatus json)))
  else if d.name = lit "rewrite" then some ((rewriteRule c d).map .rewrite)
  else if d.name = lit "if" then some ((ifBlock c d).map .ifBlock)
  else if d.name = lit "set" then some ((setArgs c d).map (fun p => .set p.1 p.2))
  else if d.name = lit "proxy_pass" then
    some (do
      wantArgs d 1
      let p ← parseProxyPass c (d.args.headD []) d
      .ok (.handler (.proxy p)))
  else none

end Parsing

section Levels

/-- What the builder keeps of a level. -/
structure Level where
  rewrites : List Rewrite
  ifs : List IfBlock
  action : Option Action

def Level.empty : Level := ⟨[],[],none⟩

/-- Rules and conditions go to lists of their own, a bare `set` as a condition that
always holds; the last action stands. -/
def Level.add (lv : Level) : PhaseDirective → Level
  | .rewrite r => { lv with rewrites := lv.rewrites ++ [r] }
  | .ifBlock b => { lv with ifs := lv.ifs ++ [b] }
  | .set name value => { lv with ifs := lv.ifs ++ [⟨.always,[.set name value]⟩] }
  | .ret status body => { lv with action := some (.ret status body) }
  | .handler h => { lv with action := some h.action }

def Level.of (ds : List PhaseDirective) : Level := ds.foldl .add .empty

def PhaseDirective.rule : PhaseDirective → Option Rewrite
  | .rewrite r => some r
  | _ => none

def PhaseDirective.block : PhaseDirective → Option IfBlock
  | .ifBlock b => some b
  | .set name value => some ⟨.always,[.set name value]⟩
  | _ => none

def PhaseDirective.action : PhaseDirective → Option Action
  | .ret status body => some (.ret status body)
  | .handler h => some h.action
  | _ => none

theorem Level.foldl_add (ds : List PhaseDirective) (lv : Level) : ds.foldl .add lv =
    ⟨lv.rewrites ++ ds.filterMap (·.rule),lv.ifs ++ ds.filterMap (·.block),
      ds.foldl (fun a d => d.action.or a) lv.action⟩ := by
  induction ds generalizing lv with
  | nil =>
    rw [List.filterMap_nil,List.filterMap_nil,List.append_nil,List.append_nil]
    rfl
  | cons d ds ih =>
    rw [List.foldl_cons,ih]
    cases d with
    | rewrite r => simp [Level.add,PhaseDirective.rule,PhaseDirective.block,PhaseDirective.action]
    | ifBlock b => simp [Level.add,PhaseDirective.rule,PhaseDirective.block,PhaseDirective.action]
    | set name value => simp [Level.add,PhaseDirective.rule,PhaseDirective.block,PhaseDirective.action]
    | ret status body => simp [Level.add,PhaseDirective.rule,PhaseDirective.block,PhaseDirective.action]
    | handler h => simp [Level.add,PhaseDirective.rule,PhaseDirective.block,PhaseDirective.action]

theorem Level.of_eq (ds : List PhaseDirective) : Level.of ds =
    ⟨ds.filterMap (·.rule),ds.filterMap (·.block),ds.foldl (fun a d => d.action.or a) none⟩ :=
  Level.foldl_add ds .empty

/-- Other directives leave these parts of a level alone. -/
def levelDirective (c : Compiler) (lv : Level) (d : Directive) : Built Level :=
  match phaseDirective c d with
  | some p => p.map lv.add
  | none => .ok lv

/-- The rewrite-phase directives of a block, in the order of the file. -/
def phaseDirectives (c : Compiler) (ds : List Directive) : Built (List PhaseDirective) :=
  (ds.filterMap (phaseDirective c)).mapM id

/-- A level is its directives, each added in turn. -/
theorem levelDirective_foldlM {c : Compiler} {ds : List Directive} {lv lv' : Level}
    (h : ds.foldlM (levelDirective c) lv = .ok lv') :
    ∃ ps, phaseDirectives c ds = .ok ps ∧ lv' = ps.foldl .add lv := by
  induction ds generalizing lv with
  | nil =>
    cases h
    exact ⟨[],rfl,rfl⟩
  | cons d ds ih =>
    rw [List.foldlM_cons] at h
    obtain ⟨lv₁,h₁,h₂⟩ := bind_ok.mp h
    obtain ⟨ps,hps,rfl⟩ := ih h₂
    unfold levelDirective at h₁
    unfold phaseDirectives at hps ⊢
    cases hd : phaseDirective c d with
    | none =>
      rw [hd] at h₁
      cases h₁
      rw [List.filterMap_cons_none hd]
      exact ⟨ps,hps,rfl⟩
    | some b =>
      rw [hd] at h₁
      obtain ⟨p,rfl,rfl⟩ := map_ok.mp h₁
      refine ⟨p :: ps,?_,rfl⟩
      rw [List.filterMap_cons_some hd,List.mapM_cons,hps]
      rfl

/-- A location and a server with what a level says. -/
def Level.location (lv : Level) (base : Location) : Location :=
  { base with action := lv.action.getD .static, rewrites := lv.rewrites, ifs := lv.ifs }

def Level.server (lv : Level) (base : ServerConf) : ServerConf :=
  { base with action := lv.action.getD .none, rewrites := lv.rewrites, ifs := lv.ifs }

end Levels

end OxiServe.Config
