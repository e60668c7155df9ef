import OxiServe.Config.CacheValid
import OxiServe.Lib.KeyMap
import OxiServe.Lib.Runs
import OxiServe.Server.CacheEntry
import OxiServe.Server.CacheKey

/-! # What the cache keeps

The files of a cache, with the requests that read and write them in any order. A
file is found by its path, which the zone and a digest of the key decide, and is
read with the key in hand; one that does not decode is removed.
-/
namespace OxiServe.Server.Cache
open Config Response

section Storing

/-- How long a response may be kept; `uses` is how often the key has been asked for. -/
def cacheableTtl (env : Env) (ctx : Ctx) (cc : CacheCtx) (status uses : ℕ) : Option ℕ :=
  if cc.conf.noCache.any (fun t => truthy (ctx.render env t)) then none
  else if 1 < cc.conf.minUses ∧ uses < cc.conf.minUses then none
  else
    ((cc.conf.valid.find? (fun v => v.codes.contains status)).or
      (cc.conf.valid.find? (fun v => v.codes = []))).map CacheValid.ttl

/-- A response under the key it is kept for, and for how long. -/
structure Kept where
  zone : Bytes
  key : Bytes
  page : Decoded
  ttl : ℕ
deriving DecidableEq, Repr

/-- A request that is proxied, by a location whose `proxy_cache_valid` lines are these. -/
structure Visit where
  env : Env
  ctx : Ctx
  loc : Location
  pass : ProxyPass
  valid : List Directive
  parsed : valid.mapM cacheValid = .ok loc.core.proxyCache.valid

namespace Visit

/-- The upstream's answer, when that is what the client gets. -/
def answer (v : Visit) : Option (Ctx × Answer) :=
  match proxy v.env v.ctx v.loc v.pass with
  | (ctx,.ok (.answered a _)) => some (ctx,a)
  | _ => none

/-- The page made of an answer, sticky cookie included. -/
def page (ctx : Ctx) (a : Answer) : Decoded :=
  ⟨answerStatus a,a.fields.headers ++ stickyHeaders ctx a.chosen,a.pre⟩

/-- What the request writes: only an answer whose length is known, and all of
which has come with the head. -/
def keeps (v : Visit) (uses : ℕ) : Option Kept :=
  match cacheContext v.env v.ctx v.loc, v.answer with
  | some cc, some (ctx,a) =>
    if answerStatus a = 101 then none
    else
      match cacheableTtl v.env ctx cc (answerStatus a) uses with
      | none => none
      | some ttl =>
        if a.fields.chunked then none
        else
          match a.fields.len with
          | none => none
          | some n => if n - a.pre.length = 0 then some ⟨cc.zone,cc.key,page ctx a,ttl⟩ else none
  | _, _ => none

end Visit

end Storing

section Disk
variable {Path : Type} [DecidableEq Path]

/-- What a load finds in the file at a path. -/
def load (files : KeyMap Path Bytes) (p : Path) (key : Bytes) (now : ℕ) : Option (Decoded × CacheStatus) :=
  match files.get? p with
  | none => none
  | some buf =>
    match decodeEntry buf key with
    | some (.ok d) => some (d.toDecoded,if d.expires ≤ now then .expired else .hit)
    | _ => none

/-- A corrupt or foreign file is removed. -/
def afterLoad (files : KeyMap Path Bytes) (p : Path) (key : Bytes) : KeyMap Path Bytes :=
  match files.get? p with
  | none => files
  | some buf =>
    match decodeEntry buf key with
    | some (.ok _) => files
    | _ => files.retain (fun q _ => q ≠ p)

/-- A load with its result, the end of a fetch, and the manager at work. -/
inductive Act (Path : Type)
  | load (zone key : Bytes) (now : ℕ) (found : Option (Decoded × CacheStatus))
  | store (v : Visit) (uses now : ℕ)
  | remove (p : Path)

/-- `pathOf` is the file of a key in a zone. -/
def next (pathOf : Bytes → Bytes → Path) (files : KeyMap Path Bytes) : Act Path → Option (KeyMap Path Bytes)
  | .load zone key now found =>
    if found = load files (pathOf zone key) key now then some (afterLoad files (pathOf zone key) key) else none
  | .store v uses now =>
    match v.keeps uses with
    | none => some files
    | some k =>
      some (files.insert (pathOf k.zone k.key) (encodeEntry now k.key k.page.status k.page.headers k.page.body k.ttl))
  | .remove p => some (files.retain (fun q _ => q ≠ p))

end Disk

end OxiServe.Server.Cache
