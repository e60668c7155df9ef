import OxiServe.Server.CanonicalUri
import OxiServe.Server.Entry

/-! # URIs on their way to the filesystem

Requests start with a normalised URI, subrequests included, and every file is read
at a path that one of the mapped URIs gives. The URI is canonical then if no turn
of the request has spoilt it; rewriting captures into a new URI can.
-/
namespace OxiServe.Server
open Config Request Response
open Uri (Canonical Clean Proper)
open Http2 (Parsed StreamTask parseHeaders)

section Starts

/-- A context that the handling of a request starts with: a client's request over
any transport, or a subrequest. -/
inductive Received : Ctx → Prop
  | overHttp1 {l : Listener} {w : Wire} {hp : Httparse} {q : Req} {n : ℕ} {i : Incoming} {ctx : Ctx} {e : BodyEnd} :
    http1 l w hp q n i = some (ctx,e) → Received ctx
  | overHttp2 {l : Listener} {w : Wire} {t : StreamTask} {ctx : Ctx} : http2 l w t = some ctx → Received ctx
  | overHttp3 {l : Listener} {w : Wire} {n : ℕ} {input : Bytes} {ctx : Ctx} :
    http3 l w n input = some ctx → Received ctx
  | sub {outer ctx : Ctx} {uri : Bytes} : subCtx outer uri = some ctx → Received ctx

theorem handOver_uri {p : Parsed} {body : Bytes} {h : Http2.Handed} (hh : p.handOver body = some h) :
    ∃ path, Uri.normalize path = .ok h.uri := by
  unfold Parsed.handOver at hh
  dsimp only at hh
  split at hh
  · rename_i hu
    cases hh
    exact ⟨_,hu⟩
  · cases hh

theorem Received.normalised {ctx : Ctx} (h : Received ctx) : ∃ path, Uri.normalize path = .ok ctx.uri := by
  cases h with
  | overHttp1 h =>
    unfold http1 at h
    split at h
    · dsimp only at h
      split at h
      · cases h
      · rename_i hu
        cases h
        exact ⟨_,hu⟩
    · cases h
  | overHttp2 h =>
    obtain ⟨p,r,-,hr,rfl⟩ := http2_some h
    exact handOver_uri hr
  | overHttp3 h =>
    obtain ⟨fields,p,body,r,-,-,hr,rfl⟩ := http3_some h
    exact handOver_uri hr
  | sub h =>
    unfold subCtx at h
    dsimp only at h
    split at h
    · cases h
    · rename_i hu
      cases h
      exact ⟨_,hu⟩

end Starts

section Files
variable {env : Env} {sub : Ctx → Reply} {ctx : Ctx} {reply : Reply}

/-- The path that was looked up is the one mapped from the URI. -/
def LookedUp (env : Env) (c d : Ctx) : Prop :=
  ∃ core matcher, d.filename = mapPath env { c with documentRoot := d.documentRoot } core matcher

theorem serve_lookedUp {loc : Option Location} : LookedUp env ctx (serve env ctx loc).1 := by
  refine ⟨(loc.map Location.core).getD ctx.server.core,loc.map Location.matcher,?_⟩
  simp only [serve]
  split
  · rfl
  · split
    · rfl
    · rfl
  · split
    · rfl
    · rfl

theorem act_files {loc : Location} (h : (act env ctx loc).2 = .done reply .files) :
    loc.action = .static ∧ LookedUp env ctx (act env ctx loc).1 := by
  unfold act at h ⊢
  split at h
  · cases h
  · cases h
  · split at h
    · rename_i r _
      cases r with
      | cached d => cases h
      | answered a reply => cases h
    · cases h
  · split at h
    · cases h
    · cases h
  · cases h
  · rename_i ha
    rw [ha]
    exact ⟨rfl,serve_lookedUp⟩

end Files

section Claims
variable {env : Env} {sub : Ctx → Reply} {ctx : Ctx}

end Claims

end OxiServe.Server
