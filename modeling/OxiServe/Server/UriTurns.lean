import OxiServe.Http.Canonical
import OxiServe.Server.Entering

/-! # Where the URI is set

The URI of a request is normalised once. After that it is set by rewriting,
`try_files`, index files and error pages, each to a text rendered from templates.
These turns are listed for a pass and for a whole request, with the calls that map
a URI onto the filesystem.
-/
namespace OxiServe.Server
open Config Response
open Uri (Canonical Clean clean_append_slash)

/-- The text that a URI is set to, or the name that is appended to it. -/
inductive Turn
  | rewrite (target : Bytes)
  | tryFile (target : Bytes)
  | errorPage (target : Bytes)
  | index (name : Bytes)
deriving DecidableEq, Repr

/-- The text keeps the URI canonical. -/
def Turn.Safe : Turn → Prop
  | .rewrite target | .tryFile target | .errorPage target => Canonical target
  | .index name => Clean name

section Turns

def rewriteTurns (env : Env) : List Rewrite → Ctx → List Turn
  | [], _ => []
  | r :: rs, ctx =>
    match r.re.captures ctx.uri with
    | none => rewriteTurns env rs ctx
    | some caps =>
      let (ctx,target) := takeArgs (ctx.setCaptures caps) ((ctx.setCaptures caps).render env r.replacement)
      match r.flag with
      | .redirect | .permanent => []
      | .last | .brk => if isAbsolute target then [] else [.rewrite target]
      | .none => if isAbsolute target then [] else .rewrite target :: rewriteTurns env rs { ctx with uri := target }

def actionTurns (env : Env) : List IfAction → Ctx → List Turn
  | .set name value :: rest, ctx => actionTurns env rest (ctx.set name (ctx.render env value))
  | .rewrite r :: rest, ctx =>
    rewriteTurns env [r] ctx ++
      match runRewrites env [r] ctx with
      | (_,some _) => []
      | (ctx,none) => actionTurns env rest ctx
  | .addHeader _ :: rest, ctx => actionTurns env rest ctx
  | _, _ => []

def ifTurns (env : Env) : List IfBlock → Ctx → List Turn
  | [], _ => []
  | b :: bs, ctx =>
    if evalCond env ctx b.cond then
      actionTurns env b.actions ctx ++
        match runActions env b.actions ctx with
        | (ctx,.goes) => ifTurns env bs ctx
        | _ => []
    else ifTurns env bs ctx

def tryTurns (env : Env) (ctx : Ctx) (loc : Location) (tf : TryFiles) : List Turn :=
  match findCandidate env ctx (ctx.render env (loc.core.aliasTo.getD loc.core.root)) tf.items with
  | some candidate => if candidate = ctx.uri then [] else [.tryFile candidate]
  | none =>
    match tf.fallback with
    | .uri u => [.tryFile (takeArgs ctx (ctx.render env u)).2]
    | _ => []

/-- The name of the first index file that exists. -/
def findIndexName (env : Env) (ctx : Ctx) (dir : Bytes) : List Template → Option Bytes
  | [] => none
  | t :: ts =>
    let name := ctx.render env t
    if name = [] then findIndexName env ctx dir ts
    else
      match env.lookup ctx.clock (joinSlash dir name) with
      | .file _ _ _ => some name
      | _ => findIndexName env ctx dir ts

def serveTurns (env : Env) (ctx : Ctx) (loc : Option Location) : List Turn :=
  let core := (loc.map Location.core).getD ctx.server.core
  let ctx := { ctx with documentRoot := ctx.render env (core.aliasTo.getD core.root) }
  let path := mapPath env ctx core (loc.map Location.matcher)
  let ctx := { ctx with filename := path }
  match env.lookup ctx.clock path with
  | .dir =>
    if ctx.uri.getLast? ≠ some 47 then []
    else ((findIndexName env ctx path core.index).map Turn.index).toList
  | _ => []

def actTurns (env : Env) (ctx : Ctx) (loc : Location) : List Turn :=
  match loc.action with
  | .static => serveTurns env ctx (some loc)
  | _ => []

def contentTurns (env : Env) (ctx : Ctx) (loc : Location) : List Turn :=
  rewriteTurns env loc.rewrites ctx ++
    match runRewrites env loc.rewrites ctx with
    | (_,some _) => []
    | (ctx,none) =>
      ifTurns env loc.ifs ctx ++
        match runIfs env loc.ifs ctx with
        | (_,some _) => []
        | (ctx,none) =>
          match loc.tryFiles with
          | none => actTurns env ctx loc
          | some tf =>
            tryTurns env ctx loc tf ++
              match runTryFiles env ctx loc tf with
              | (_,some _) => []
              | (ctx,none) => actTurns env ctx loc

/-- The context behind the checks of a location. -/
def checkedCtx (env : Env) (sub : Ctx → Reply) (ctx : Ctx) (loc : Location) (internal : Bool) : Option Ctx :=
  if loc.core.internal && !internal then none
  else
    match limitsFor env ctx loc.core internal with
    | some _ => none
    | none =>
      if !methodAllowed loc ctx.req.method then none
      else
        match authorise env sub ctx loc.core with
        | (_,_,.error _) => none
        | (ctx,_,.ok _) => some ctx

/-- Without a location the server's own root is served, unless it has a `return`. -/
def servesRoot (env : Env) (ctx : Ctx) (internal : Bool) : Bool :=
  match limitsFor env ctx ctx.server.core internal with
  | some _ => false
  | none =>
    match ctx.server.action with
    | .ret _ _ => false
    | _ => true

namespace Routing

/-- The location whose checks the pass gets through, with the context there. -/
def checked (env : Env) (sub : Ctx → Reply) (r : Routing) : Option (Ctx × Location) :=
  match r.named with
  | some n =>
    (r.ctx.server.locations.named.lookup n).bind (fun loc =>
      (checkedCtx env sub { r.ctx with matched := some loc } loc true).map (fun c => (c,loc)))
  | none =>
    (r.ctx.server.locate r.ctx.uri).bind (fun p =>
      (checkedCtx env sub { r.ctx with captures := p.2.getD r.ctx.captures, matched := some p.1 } p.1
        r.internal).map (fun c => (c,p.1)))

/-- The context of the server's own root, when that is what the pass serves. -/
def rooted (env : Env) (r : Routing) : Option Ctx :=
  match r.named, r.ctx.server.locate r.ctx.uri with
  | none, none =>
    if servesRoot env { r.ctx with matched := none } r.internal then some { r.ctx with matched := none } else none
  | _, _ => none

def errorTurns (env : Env) (p : Pass) : List Turn :=
  match p.step with
  | .fail code =>
    match errorPageFor env p.ctx code with
    | some (.uri uri _) => [.errorPage uri]
    | _ => []
  | _ => []

def turns (env : Env) (sub : Ctx → Reply) (r : Routing) : List Turn :=
  ((r.checked env sub).toList.flatMap (fun p => contentTurns env p.1 p.2) ++
    (r.rooted env).toList.flatMap (fun c => serveTurns env c none)) ++ errorTurns env (r.pass env sub)

/-- The context in which the pass maps its URI to a path, if it does. -/
def mapped (env : Env) (sub : Ctx → Reply) (r : Routing) : Option Ctx :=
  match r.checked env sub with
  | some (c,loc) =>
    match loc.action with
    | .static => actionCtx env c loc
    | _ => none
  | none => r.rooted env

end Routing

end Turns

end OxiServe.Server
