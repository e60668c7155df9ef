import OxiServe.Config.Phases
import OxiServe.Lib.InTurn
import OxiServe.Server.Handler

/-! # Rewrite-phase directives in the order of the file

What the directives of a level do when each is run where it stands, up to the one that
ends the phase, and which orders of directives the separate passes over rules and
conditions, with the action left to the end, do not disturb.
-/
namespace OxiServe.Server
open Config

section AsWritten

/-- Why a sequence of directives ends. -/
inductive PhaseEnd
  | stops
  | step (s : Step)

/-- One rule where it stands; `break` ends the phase. -/
def runRule (env : Env) (r : Rewrite) (ctx : Ctx) : Ctx × Option PhaseEnd :=
  match runRewrites env [r] ctx with
  | (c,some s) => (c,some (.step s))
  | (c,none) => (c,if r.flag = .brk ∧ r.re.isMatch ctx.uri then some .stops else none)

def runAction (env : Env) (a : IfAction) (ctx : Ctx) : Ctx × Option PhaseEnd :=
  match a with
  | .ret status body => (ctx,some (.step (.done (returnReply env ctx status body) .page)))
  | .set name value => (ctx.set name (ctx.render env value),none)
  | .rewrite r => runRule env r ctx
  | .addHeader _ => (ctx,none)
  | .brk => (ctx,some .stops)

def runBlock (env : Env) (b : IfBlock) (ctx : Ctx) : Ctx × Option PhaseEnd :=
  if evalCond env ctx b.cond then inTurn (runAction env) b.actions ctx else (ctx,none)

/-- The handler of the content waits until the phase is over. -/
def runDirective (env : Env) (d : PhaseDirective) (ctx : Ctx) : Ctx × Option PhaseEnd :=
  match d with
  | .rewrite r => runRule env r ctx
  | .ifBlock b => runBlock env b ctx
  | .set name value => (ctx.set name (ctx.render env value),none)
  | .ret status body => (ctx,some (.step (.done (returnReply env ctx status body) .page)))
  | .handler _ => (ctx,none)

/-- A phase that was stopped has no outcome of its own. -/
def ended (p : Ctx × Option PhaseEnd) : Ctx × Option Step :=
  match p with
  | (c,some (.step s)) => (c,some s)
  | (c,_) => (c,none)

/-- The last handler a level names. -/
def contentAction (ds : List PhaseDirective) : Option Action :=
  ds.foldl (fun a d =>
    match d with
    | .handler h => some h.action
    | _ => a) none

/-- What comes after the rewrite phase of a location. -/
def afterPhase (env : Env) (ctx : Ctx) (loc : Location) : Ctx × Step :=
  match loc.tryFiles with
  | none => act env ctx loc
  | some tf =>
    match runTryFiles env ctx loc tf with
    | (ctx,some step) => (ctx,step)
    | (ctx,none) => act env ctx loc

/-- A location's directives one after another, then the handler of its content. -/
def contentAsWritten (env : Env) (ctx : Ctx) (base : Location) (ds : List PhaseDirective) : Ctx × Step :=
  match ended (inTurn (runDirective env) ds ctx) with
  | (c,some s) => (c,s)
  | (c,none) =>
    afterPhase env c { (Level.of ds).location base with action := (contentAction ds).getD .static }

/-- A request at a server with the given directives. -/
def atServer (ctx : Ctx) (base : ServerConf) (ds : List PhaseDirective) : Ctx :=
  { ctx with server := (Level.of ds).server base }

/-- A server's directives one after another, then the routing of the request. -/
def handleAsWritten (env : Env) (sub : Ctx → Reply) (ctx : Ctx) (base : ServerConf)
    (ds : List PhaseDirective) : Handled :=
  match finish (ended (inTurn (runDirective env) ds (atServer ctx base ds))) with
  | (_,some h) => h
  | (c,none) => Routing.run env sub maxInternalRedirects
      (.start { c with server := { c.server with action := (contentAction ds).getD .none } })

def Handled.outcome (h : Handled) : Ctx × Step := (h.ctx,.done h.made h.producer)

/-- The same URI, arguments and variables, and the same reply or jump. -/
structure Alike (o p : Ctx × Step) : Prop where
  uri : o.1.uri = p.1.uri
  args : o.1.args = p.1.args
  vars : ∀ name, o.1.setVars.lookup name = p.1.setVars.lookup name
  step : o.2 = p.2

theorem Alike.of_eq {o p : Ctx × Step} (h : o = p) : Alike o p := by
  subst h
  exact ⟨rfl,rfl,fun _ => rfl,rfl⟩

end AsWritten

section Forms

/-- An action of an `if` without what it is about. -/
inductive ActionForm
  | ret
  | rewrite (flag : RewriteFlag)
  | set | addHeader | brk
deriving DecidableEq, Repr

def actionForm : IfAction → ActionForm
  | .ret _ _ => .ret
  | .rewrite r => .rewrite r.flag
  | .set _ _ => .set
  | .addHeader _ => .addHeader
  | .brk => .brk

/-- A directive without what it is about. -/
inductive Form
  | rewrite (flag : RewriteFlag)
  | ifBlock (actions : List ActionForm)
  | set | ret | handler
deriving DecidableEq, Repr

def form : PhaseDirective → Form
  | .rewrite r => .rewrite r.flag
  | .ifBlock b => .ifBlock (b.actions.map actionForm)
  | .set _ _ => .set
  | .ret _ _ => .ret
  | .handler _ => .handler

/-- Where a level stands; a location may also have `try_files`. -/
inductive Place
  | server
  | location (tries : Bool)
deriving DecidableEq, Repr

namespace ActionForm

/-- The first action that takes part in the phase. -/
def lead (as : List ActionForm) : Option ActionForm := as.find? (· != .addHeader)

/-- Something is done before the block is left. -/
def acts (as : List ActionForm) : Bool :=
  match lead as with
  | none | some .brk => false
  | _ => true

/-- A `break` of the block can be reached. -/
def halts : List ActionForm → Bool
  | [] | .ret :: _ => false
  | .brk :: _ => true
  | _ :: as => halts as

/-- A rule with `break` can be reached after which the block has no more to do. -/
def leaks : List ActionForm → Bool
  | [] | .ret :: _ | .brk :: _ => false
  | .rewrite .brk :: as => (lead as).isNone || leaks as
  | _ :: as => leaks as

/-- Nothing is done after a rule with `break`. -/
def whole : List ActionForm → Bool
  | [] | .ret :: _ | .brk :: _ => true
  | .rewrite .brk :: as => !acts as && whole as
  | _ :: as => whole as

end ActionForm

namespace Form
open ActionForm

def isRule : Form → Bool
  | .rewrite _ => true
  | _ => false

/-- Nothing is done and nothing ends. -/
def inert : Form → Bool
  | .ifBlock as => (lead as).isNone
  | .handler => true
  | _ => false

/-- A condition or a `set` that does something. -/
def acts : Form → Bool
  | .ifBlock as => ActionForm.acts as
  | .set => true
  | _ => false

def halts : Form → Bool
  | .ifBlock as => ActionForm.halts as
  | _ => false

/-- Ends the phase as written, and the passes over the level go on. At a server that
is also a rule with `last`. -/
def runsOn (p : Place) : Form → Bool
  | .rewrite .brk => true
  | .rewrite .last => p == .server
  | .ifBlock as => leaks as
  | _ => false

def whole : Form → Bool
  | .ifBlock as => ActionForm.whole as
  | _ => true

/-- One directive may stand before another. -/
structure Before (p : Place) (d e : Form) : Prop where
  rule : e.isRule → d.isRule ∨ d.inert
  acts : e.acts → ¬ d.runsOn p ∧ d ≠ .ret
  ret : e = .ret → ¬ d.runsOn p ∧ ¬ d.halts ∧ d ≠ .ret
  handler : e = .handler → d ≠ .ret

end Form

/-- The orders that the passes over a level keep. -/
structure Place.Ordered (p : Place) (fs : List Form) : Prop where
  before : fs.Pairwise (Form.Before p)
  whole : ∀ f ∈ fs, f.whole
  returns : .ret ∈ fs → p = .location false

/-- Every level of this form, on every request, does what it would do as written. -/
def Place.AsWritten : Place → List Form → Prop
  | .location tries, fs => ∀ (ds : List PhaseDirective) (base : Location) (env : Env) (ctx : Ctx),
      ds.map form = fs → base.tryFiles.isSome = tries →
      Alike (content env ctx ((Level.of ds).location base)) (contentAsWritten env ctx base ds)
  | .server, fs => ∀ (ds : List PhaseDirective) (base : ServerConf) (env : Env) (sub : Ctx → Reply) (ctx : Ctx),
      ds.map form = fs →
      Alike (handleInner env sub (atServer ctx base ds)).outcome (handleAsWritten env sub ctx base ds).outcome

end Forms

end OxiServe.Server
