import OxiServe.Server.UriTurns

/-! # The URI stays canonical

Every step of routing keeps the URI canonical as long as its own turns are safe,
and so does a whole request; a text rendered from captures or arguments need not be.
-/
namespace OxiServe.Server
open Config Response
open Uri (Canonical Clean Proper clean_append_slash)

/-- A jump to a URI goes to a canonical one. -/
def Step.Canonical : Step → Prop
  | .internal uri => Uri.Canonical uri
  | _ => True

section Steps
variable {env : Env} {sub : Ctx → Reply} {ctx : Ctx}

/-- Without a location the server's own root is served, or the pass ends at once. -/
theorem fallback_checked {internal : Bool} :
    (servesRoot env ctx internal = true ∧
      fallback env ctx internal = ⟨(serve env ctx none).1,none,servedToStep (serve env ctx none).2⟩) ∨
    (servesRoot env ctx internal = false ∧ (fallback env ctx internal).ctx = ctx ∧
      (fallback env ctx internal).step.Local ∧ (fallback env ctx internal).step.Canonical) := by
  unfold fallback servesRoot
  cases limitsFor env ctx ctx.server.core internal with
  | some status => exact .inr ⟨rfl,rfl,trivial,trivial⟩
  | none =>
    cases ctx.server.action with
    | ret status body => exact .inr ⟨rfl,rfl,⟨rfl,returnReply_open _ _⟩,trivial⟩
    | none => exact .inl ⟨rfl,rfl⟩
    | proxy p => exact .inl ⟨rfl,rfl⟩
    | fastCgi p => exact .inl ⟨rfl,rfl⟩
    | stubStatus json => exact .inl ⟨rfl,rfl⟩
    | static => exact .inl ⟨rfl,rfl⟩

end Steps

section Passes
variable {env : Env} {sub : Ctx → Reply} {r : Routing}

/-- What a pass whose turns are safe leaves behind. -/
structure Routing.Keeps (env : Env) (sub : Ctx → Reply) (r : Routing) : Prop where
  uri : Canonical (r.pass env sub).ctx.uri
  step : (r.pass env sub).step.Canonical
  mapped : ∀ c, r.mapped env sub = some c → Canonical c.uri

end Passes

section Requests
variable {env : Env} {sub : Ctx → Reply} {ctx : Ctx}

end Requests

end OxiServe.Server
