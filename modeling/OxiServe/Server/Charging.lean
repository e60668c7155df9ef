import OxiServe.Config.ZoneRefs
import OxiServe.Server.Authorisation

/-! # What a request is charged for

The limits that are looked at are those of the location the first pass enters, or
the server's own where no location matches. Every later pass is the same request
and is not charged again, whatever limits its location has.
-/
namespace OxiServe.Server
open Config Response

/-- One access to a limiter zone. -/
inductive Charge
  | conn (l : LimitConn) (key : Bytes)
  | req (l : LimitReq) (key : Bytes)
deriving DecidableEq, Repr

section Accesses

/-- Every directive of the lists whose key is not empty, once each. -/
def wholeLists (env : Env) (ctx : Ctx) (core : CoreConf) : List Charge :=
  core.limitConns.filterMap (fun l =>
    (zoneKey env ctx ctx.http.limitConnZones ctx.http.limitConnKeys l.zone).map (Charge.conn l)) ++
  core.limitReqs.filterMap (fun l =>
    (zoneKey env ctx ctx.http.limitReqZones ctx.http.limitReqKeys l.zone).map (Charge.req l))

end Accesses

namespace Routing

/-- Where the next pass looks at limits: the context there and the settings. -/
def effective (r : Routing) : Option (Ctx × CoreConf) :=
  match r.named with
  | some n => (r.ctx.server.locations.named.lookup n).map (fun loc => ({ r.ctx with matched := some loc },loc.core))
  | none =>
    match r.ctx.server.locate r.ctx.uri with
    | some (loc,caps) => some ({ r.ctx with captures := caps.getD r.ctx.captures, matched := some loc },loc.core)
    | none => some ({ r.ctx with matched := none },r.ctx.server.core)

/-- The limits of the location that the next pass enters, or the server's. -/
def limits (env : Env) (r : Routing) : List Charge :=
  match r.effective with
  | some (ctx,core) => wholeLists env ctx core
  | none => []

end Routing

/-- With closed settings a limit is passed over only for want of a key. -/
theorem zoneKey_closed {env : Env} {ctx : Ctx} {core : CoreConf} {l : LimitReq} (hc : core.Closed ctx.http.names)
    (hl : l ∈ core.limitReqs) (h : zoneKey env ctx ctx.http.limitReqZones ctx.http.limitReqKeys l.zone = none) :
    ctx.http.limitReqKeys.lookup l.zone = none ∨
      ∃ t, ctx.http.limitReqKeys.lookup l.zone = some t ∧ ctx.render env t = [] := by
  have hz : l.zone ∈ ctx.http.limitReqZones := hc.reqs l hl
  unfold zoneKey at h
  rw [if_pos (List.contains_iff_mem.mpr hz)] at h
  cases hk : ctx.http.limitReqKeys.lookup l.zone with
  | none => exact .inl rfl
  | some t =>
    simp only [hk] at h
    split at h
    · rename_i he
      exact .inr ⟨t,rfl,he⟩
    · cases h

section Charged
variable {env : Env} {sub : Ctx → Reply} {ctx : Ctx} {core : CoreConf} {r : Routing}

end Charged

section Instance

end Instance

end OxiServe.Server
