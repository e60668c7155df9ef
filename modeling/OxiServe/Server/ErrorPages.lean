import OxiServe.Server.MapPath

/-! # What stands behind a replaced status

An error page is served like any other target, with the client's conditional and range
fields, and its status is replaced afterwards. A part of the document, or a note that it
has not changed, then goes out under the error's status.
-/
namespace OxiServe.Server
open Config Response

section Whole

/-- A part, a note that nothing has changed, and the refusals of a condition or a range. -/
def fragmentStatuses : List ℕ := [206,304,412,416]

def hasContentRange (hs : List (Bytes × Bytes)) : Bool := hs.any (fun h => eqIgnoreAsciiCase h.1 (lit "content-range"))

/-- The fields the server writes itself. -/
structure OwnFields : Prop where
  contentType : eqIgnoreAsciiCase (lit "Content-Type") (lit "content-range") = false
  location : eqIgnoreAsciiCase (lit "Location") (lit "content-range") = false
  cacheControl : eqIgnoreAsciiCase (lit "Cache-Control") (lit "content-range") = false
  lastModified : eqIgnoreAsciiCase (lit "Last-Modified") (lit "content-range") = false
  etag : eqIgnoreAsciiCase (lit "ETag") (lit "content-range") = false
  acceptRanges : eqIgnoreAsciiCase (lit "Accept-Ranges") (lit "content-range") = false
  setCookie : eqIgnoreAsciiCase (lit "Set-Cookie") (lit "content-range") = false
  upgrade : eqIgnoreAsciiCase (lit "Upgrade") (lit "content-range") = false
  connection : eqIgnoreAsciiCase (lit "Connection") (lit "content-range") = false
  contentRange : eqIgnoreAsciiCase (lit "Content-Range") (lit "content-range") = true
  length : toAsciiLowercase (lit "content-range") ≠ toAsciiLowercase (lit "content-length")
  encoding : toAsciiLowercase (lit "content-range") ≠ toAsciiLowercase (lit "transfer-encoding")

theorem ownFields : OwnFields := by
  have h : (∀ n ∈ [lit "Content-Type",lit "Location",lit "Cache-Control",lit "Last-Modified",lit "ETag",
      lit "Accept-Ranges",lit "Set-Cookie",lit "Upgrade",lit "Connection"],
      eqIgnoreAsciiCase n (lit "content-range") = false) ∧
      eqIgnoreAsciiCase (lit "Content-Range") (lit "content-range") = true ∧
      toAsciiLowercase (lit "content-range") ≠ toAsciiLowercase (lit "content-length") ∧
      toAsciiLowercase (lit "content-range") ≠ toAsciiLowercase (lit "transfer-encoding") := by decide +kernel
  obtain ⟨h,hr,hl,he⟩ := h
  simp only [List.forall_mem_cons] at h
  obtain ⟨h1,h2,h3,h4,h5,h6,h7,h8,h9,-⟩ := h
  exact ⟨h1,h2,h3,h4,h5,h6,h7,h8,h9,hr,hl,he⟩

/-- The head of a whole document. -/
def IsWhole (r : Resp) : Prop := r.status ∉ fragmentStatuses ∧ hasContentRange r.hdrs = false

/-- No condition of the request ends it and no range of it applies, if a file is found. -/
def Unconditional (env : Env) (ctx : Ctx) (loc : Option Location) : Prop :=
  let core := (loc.map Location.core).getD ctx.server.core
  let root := ctx.render env (core.aliasTo.getD core.root)
  ∀ f size mtime, env.lookup ctx.clock (mapPath env { ctx with documentRoot := root } core (loc.map Location.matcher)) =
      .file f size mtime →
    evaluatePreconditions env ctx core (makeEtag mtime size) mtime = none ∧
      rangeOf env ctx core (makeEtag mtime size) mtime size = .none

namespace Routing

/-- Where the pass serves static files, with the context there. -/
def serving (env : Env) (sub : Ctx → Reply) (r : Routing) : Option (Ctx × Option Location) :=
  match r.entered env sub with
  | some (c,loc) =>
    match loc.action with
    | .static => some (c,some loc)
    | _ => none
  | none => (r.rooted env).map (fun c => (c,none))

/-- What the reply is made from is whole: a page of its own code, a file that is asked
for without conditions, an entry, an answer or the output of an application as it came. -/
def FromWhole (env : Env) (sub : Ctx → Reply) (r : Routing) (reply : Reply) : Producer → Prop
  | .page => reply.resp.status ∉ fragmentStatuses
  | .files => ∀ c loc, r.serving env sub = some (c,loc) → Unconditional env c loc
  | .cache entry => entry.status ∉ fragmentStatuses ∧ hasContentRange entry.headers = false
  | .upstream a => answerStatus a ∉ fragmentStatuses ∧ hasContentRange a.fields.headers = false
  | .application _ => IsWhole reply.resp

/-- The reply of a pass whose status is replaced. -/
structure Replaced (env : Env) (sub : Ctx → Reply) (ctx : Ctx) (r : Routing) (reply : Reply) (p : Producer)
    (status : ℕ) : Prop where
  pass : r ∈ passesOf env sub ctx
  replaced : r.statusOverride = some status
  done : (r.pass env sub).step = .done reply p

end Routing

end Whole

section Fields

theorem hasContentRange_append (xs ys : List (Bytes × Bytes)) :
    hasContentRange (xs ++ ys) = (hasContentRange xs || hasContentRange ys) := List.any_append

theorem hasContentRange_header (r : Resp) (name value : Bytes)
    (h : eqIgnoreAsciiCase name (lit "content-range") = false) :
    hasContentRange (r.header name value).hdrs = hasContentRange r.hdrs := by
  have hh : (r.header name value).hdrs = r.hdrs ++ [(name,value)] := rfl
  rw [hh,hasContentRange_append,hasContentRange,hasContentRange,List.any_cons,List.any_nil,h,Bool.or_false,Bool.or_false]

theorem errorBody_range (ctx : Ctx) (resp : Resp) (code : ℕ) :
    hasContentRange (errorBody ctx resp code).resp.hdrs = hasContentRange resp.hdrs := by
  unfold errorBody
  split
  · rfl
  · dsimp only
    split
    · rfl
    · exact hasContentRange_header _ _ _ ownFields.contentType

/-- A page has no `Content-Range`. -/
theorem IsPage.range {env : Env} {r : Reply} (h : IsPage env r) : hasContentRange r.resp.hdrs = false := by
  cases h with
  | ret ctx code body =>
    unfold returnReply
    dsimp only
    split
    · split
      · exact hasContentRange_header _ _ _ ownFields.location
      · rfl
    · split
      · rfl
      · split
        · exact hasContentRange_header _ _ _ ownFields.contentType
        · exact errorBody_range _ _ _
  | redirect ctx code target _ =>
    have he := errorBody_range ctx (({ Resp.new with status := code }).header (lit "Location")
      (if ctx.args ≠ [] && !target.contains 63 then target ++ lit "?" ++ ctx.args else target)) code
    exact he.trans (hasContentRange_header _ _ _ ownFields.location)

end Fields

section Producers
variable {env : Env} {ctx : Ctx} {reply : Reply}

theorem evaluatePreconditions_fragment {core : CoreConf} {etag : Bytes} {mtime : Int} {status : ℕ}
    (h : evaluatePreconditions env ctx core etag mtime = some status) : status ∈ fragmentStatuses := by
  have h304 : 304 ∈ fragmentStatuses := by decide
  have h412 : 412 ∈ fragmentStatuses := by decide
  unfold evaluatePreconditions at h
  split at h
  · cases h
    exact h412
  · split at h
    · split at h
      · cases h
        exact h304
      · cases h
    · split at h
      · cases h
      · split at h
        · cases h
        · obtain ⟨-,hs⟩ := Option.ite_none_right_eq_some.mp h
          cases hs
          exact h304

theorem fileHead_range (core : CoreConf) (path etag : Bytes) (mtime : Int) :
    hasContentRange (fileHead env ctx core path etag mtime).hdrs = false := by
  have ho := ownFields
  have hh : (fileHead env ctx core path etag mtime).hdrs =
    [(lit "Content-Type",contentTypeOf ctx core path),(lit "Last-Modified",env.httpDate mtime)] ++
      (if core.etag then [(lit "ETag",etag)] else []) ++ [(lit "Accept-Ranges",lit "bytes")] := rfl
  rw [hh,hasContentRange_append,hasContentRange_append]
  cases core.etag with
  | true =>
    simp only [if_true,hasContentRange,List.any_cons,List.any_nil,ho.contentType,ho.lastModified,ho.etag,
      ho.acceptRanges,Bool.or_false]
  | false =>
    simp only [Bool.false_eq_true,if_false,hasContentRange,List.any_cons,List.any_nil,ho.contentType,ho.lastModified,
      ho.acceptRanges,Bool.or_false]

theorem fileReply_head (core : CoreConf) (path : Bytes) (f : File) (resp : Resp) (start len : ℕ) :
    (fileReply env ctx core path f resp start len).resp.status = resp.status ∧
      (fileReply env ctx core path f resp start len).resp.hdrs = resp.hdrs := by
  unfold fileReply
  split
  · exact ⟨rfl,rfl⟩
  · exact ⟨rfl,rfl⟩

/-- A file is answered as a whole when no condition and no range of the request applies. -/
theorem serveFile_whole {core : CoreConf} {path : Bytes} {f : File} {size : ℕ} {mtime : Int}
    (h : serveFile env ctx core path f size mtime = .ok reply) :
    IsWhole reply.resp ↔ evaluatePreconditions env ctx core (makeEtag mtime size) mtime = none ∧
      rangeOf env ctx core (makeEtag mtime size) mtime size = .none := by
  unfold serveFile at h
  split at h
  · cases h
  · dsimp only at h
    cases hp : evaluatePreconditions env ctx core (makeEtag mtime size) mtime with
    | some status =>
      rw [hp] at h
      cases h
      exact ⟨fun hw => absurd (evaluatePreconditions_fragment hp) hw.1,fun hn => nomatch hn.1⟩
    | none =>
      rw [hp] at h
      dsimp only at h
      cases hr : rangeOf env ctx core (makeEtag mtime size) mtime size with
      | none =>
        rw [hr] at h
        cases h
        obtain ⟨hs,hf⟩ := @fileReply_head env ctx core path f
          (fileHead env ctx core path (makeEtag mtime size) mtime) 0 size
        refine ⟨fun _ => ⟨rfl,rfl⟩,fun _ => ⟨?_,?_⟩⟩
        · rw [hs]
          have hstatus : (fileHead env ctx core path (makeEtag mtime size) mtime).status = 200 := rfl
          rw [hstatus]
          decide
        · rw [hf]
          exact fileHead_range core path _ mtime
      | unsatisfiable =>
        rw [hr] at h
        cases h
        refine ⟨fun hw => absurd ?_ hw.1,fun hn => nomatch hn.2⟩
        have h416 : 416 ∈ fragmentStatuses := by decide
        exact h416
      | one start stop =>
        rw [hr] at h
        cases h
        refine ⟨fun hw => absurd ?_ hw.1,fun hn => nomatch hn.2⟩
        rw [(fileReply_head _ _ _ _ _ _).1]
        have h206 : 206 ∈ fragmentStatuses := by decide
        exact h206

theorem serveDirectory_whole {core : CoreConf} {dir : Bytes} (h : serveDirectory env ctx core dir = .reply reply) :
    IsWhole reply.resp := by
  unfold serveDirectory at h
  split at h
  · cases h
  · split at h
    · split at h
      · rename_i r hr
        cases h
        unfold autoindex at hr
        split at hr
        · cases hr
        · cases hr
          have h200 : 200 ∉ fragmentStatuses := by decide
          exact ⟨h200,hasContentRange_header _ _ _ ownFields.contentType⟩
      · cases h
    · cases h

theorem dirRedirect_whole (core : CoreConf) : IsWhole (dirRedirect ctx core).resp := by
  have h301 : 301 ∉ fragmentStatuses := by decide
  refine ⟨h301,?_⟩
  unfold dirRedirect
  dsimp only
  rw [hasContentRange_header _ _ _ ownFields.contentType]
  exact hasContentRange_header _ _ _ ownFields.location

theorem serve_whole {loc : Option Location} (h : (serve env ctx loc).2 = .reply reply) :
    IsWhole reply.resp ↔ Unconditional env ctx loc := by
  unfold Unconditional
  dsimp only
  simp only [serve] at h
  split at h
  · cases h
  · rename_i hl
    have hw : IsWhole reply.resp := by
      split at h
      · cases h
        exact dirRedirect_whole _
      · exact serveDirectory_whole h
    refine ⟨fun _ f size mtime hf => ?_,fun _ => hw⟩
    rw [hl] at hf
    cases hf
  · rename_i f size mtime hl
    split at h
    · rename_i r hr
      cases h
      rw [serveFile_whole hr]
      constructor
      · intro hu f' size' mtime' hf
        rw [hl] at hf
        cases hf
        exact hu
      · intro hu
        exact hu f size mtime hl
    · cases h

theorem cachedReply_whole (entry : Decoded) :
    IsWhole (cachedReply entry).resp ↔ entry.status ∉ fragmentStatuses ∧ hasContentRange entry.headers = false := by
  have hrange : hasContentRange (cachedReply entry).resp.hdrs = hasContentRange entry.headers := by
    unfold hasContentRange cachedReply
    dsimp only
    induction entry.headers with
    | nil => rfl
    | cons f hs ih =>
      rw [List.filter_cons,List.any_cons]
      split
      · rw [List.any_cons,ih]
      · rename_i hdrop
        have hname : eqIgnoreAsciiCase f.1 (lit "content-range") = false := by
          rw [← Bool.not_eq_true,eqIgnoreAsciiCase_iff]
          intro he
          simp only [Bool.not_eq_true',Bool.not_eq_false,Bool.or_eq_true,eqIgnoreAsciiCase_iff] at hdrop
          rcases hdrop with hd | hd
          · exact ownFields.length (he.symm.trans hd)
          · exact ownFields.encoding (he.symm.trans hd)
        rw [ih,hname,Bool.false_or]
  unfold IsWhole
  rw [hrange]
  rfl

theorem answerResp_range (a : Answer) :
    hasContentRange (answerResp ctx a).hdrs = hasContentRange a.fields.headers := by
  have hh : (answerResp ctx a).hdrs = a.fields.headers ++ stickyHeaders ctx a.chosen := rfl
  have hs : hasContentRange (stickyHeaders ctx a.chosen) = false := by
    unfold stickyHeaders
    split
    · rfl
    · split
      · rfl
      · split
        · rfl
        · simp only [hasContentRange,List.any_cons,List.any_nil,ownFields.setCookie,Bool.or_false]
  rw [hh,hasContentRange_append,hs,Bool.or_false]

theorem frameAnswer_head (resp : Resp) (a : Answer) :
    (frameAnswer resp a).resp.status = resp.status ∧ (frameAnswer resp a).resp.hdrs = resp.hdrs := by
  unfold frameAnswer
  split
  · exact ⟨rfl,rfl⟩
  · split
    · split
      · exact ⟨rfl,rfl⟩
      · exact ⟨rfl,rfl⟩
    · exact ⟨rfl,rfl⟩

theorem answerReply_whole {a : Answer} (h : answerReply ctx a = .ok reply) :
    IsWhole reply.resp ↔ answerStatus a ∉ fragmentStatuses ∧ hasContentRange a.fields.headers = false := by
  unfold answerReply at h
  split at h
  · rename_i h101
    unfold switchProtocols at h
    split at h
    · cases h
    · cases h
      have hconn : hasContentRange [(lit "Connection",lit "Upgrade")] = false := by
        simp only [hasContentRange,List.any_cons,List.any_nil,ownFields.connection,Bool.or_false]
      have hup : ∀ proto : Bytes, hasContentRange [(lit "Upgrade",proto)] = false := by
        intro proto
        simp only [hasContentRange,List.any_cons,List.any_nil,ownFields.upgrade,Bool.or_false]
      have hnil : hasContentRange [] = false := rfl
      unfold IsWhole
      dsimp only
      rw [hasContentRange_append,hasContentRange_append,hconn,Bool.or_false,answerResp_range,h101]
      cases a.fields.upgrade with
      | none => rw [hnil,Bool.or_false]
      | some proto => rw [hup proto,Bool.or_false]
  · cases h
    obtain ⟨hs,hh⟩ := frameAnswer_head (answerResp ctx a) a
    unfold IsWhole
    rw [hs,hh,answerResp_range]
    rfl

end Producers

namespace Routing
variable {env : Env} {sub : Ctx → Reply} {ctx : Ctx} {r : Routing} {reply : Reply}

theorem dispatch_serving {c : Ctx} {loc : Location} {internal : Bool}
    (h : (dispatch env sub c loc internal).step = .done reply .files) :
    ∃ d, admittedCtx env sub c loc internal = some d ∧ loc.action = .static ∧
      (serve env d (some loc)).2 = .reply reply := by
  rcases @dispatch_cases env sub c loc internal with ⟨d,auth,hd,-,hq⟩ | ⟨-,-,hl⟩
  · refine ⟨d,hd,?_⟩
    rw [hq] at h
    obtain ⟨ha,-⟩ := act_files h
    refine ⟨ha,?_⟩
    simp only [act,ha] at h
    revert h
    cases (serve env d (some loc)).2 with
    | reply x =>
      intro h
      cases h
      rfl
    | internal uri => exact fun h => nomatch h
    | status code => exact fun h => nomatch h
  · rw [h] at hl
    cases hl.1

/-- A pass that answers with a file serves it where it says. -/
theorem pass_serving (h : (r.pass env sub).step = .done reply .files) :
    ∃ c loc, r.serving env sub = some (c,loc) ∧ (serve env c loc).2 = .reply reply := by
  cases hn : r.named with
  | some n =>
    cases hl : r.ctx.server.locations.named.lookup n with
    | none =>
      have hp : r.pass env sub = ⟨r.ctx,none,.fail 500⟩ := by simp only [pass,hn,hl]
      rw [hp] at h
      cases h
    | some loc =>
      have hp : r.pass env sub = dispatch env sub { r.ctx with matched := some loc } loc true := by
        simp only [pass,hn,hl]
      rw [hp] at h
      obtain ⟨d,hd,ha,hs⟩ := dispatch_serving h
      refine ⟨d,some loc,?_,hs⟩
      simp only [serving,entered,hn,hl,Option.bind_some,hd,Option.map_some,ha]
  | none =>
    cases hl : r.ctx.server.locate r.ctx.uri with
    | some p =>
      obtain ⟨loc,caps⟩ := p
      have hp : r.pass env sub = dispatch env sub
          { r.ctx with captures := caps.getD r.ctx.captures, matched := some loc } loc r.internal := by
        simp only [pass,hn,route,hl]
      rw [hp] at h
      obtain ⟨d,hd,ha,hs⟩ := dispatch_serving h
      refine ⟨d,some loc,?_,hs⟩
      simp only [serving,entered,hn,hl,Option.bind_some,hd,Option.map_some,ha]
    | none =>
      have hp : r.pass env sub = fallback env { r.ctx with matched := none } r.internal := by
        simp only [pass,hn,route,hl]
      rw [hp] at h
      rcases @fallback_checked env { r.ctx with matched := none } r.internal with ⟨hroot,hq⟩ | ⟨-,-,hl',-⟩
      · rw [hq] at h
        refine ⟨{ r.ctx with matched := none },none,?_,?_⟩
        · simp only [serving,entered,hn,hl,Option.bind_none,rooted,hroot,if_true,Option.map_some]
        · dsimp only at h
          revert h
          cases (serve env { r.ctx with matched := none } none).2 with
          | reply x =>
            intro h
            cases h
            rfl
          | internal uri => intro h; cases h
          | status code => intro h; cases h
      · rw [h] at hl'
        cases hl'.1

theorem act_page {c : Ctx} {loc : Location} (h : (act env c loc).2 = .done reply .page) :
    hasContentRange reply.resp.hdrs = false := by
  unfold act at h
  split at h
  · cases h
    exact @IsPage.range env _ (.ret _ _ _)
  · cases h
  · split at h
    · rename_i x _
      cases x with
      | cached entry => cases h
      | answered a reply => cases h
    · cases h
  · split at h
    · cases h
    · cases h
  · rename_i json _
    cases h
    unfold statusPage
    split
    dsimp only
    rw [hasContentRange_header _ _ _ ownFields.cacheControl]
    exact hasContentRange_header _ _ _ ownFields.contentType
  · dsimp only at h
    cases servedToStep_done h

/-- Pages have no `Content-Range`, whoever makes them. -/
theorem pass_page (h : (r.pass env sub).step = .done reply .page) : hasContentRange reply.resp.hdrs = false := by
  have hdispatch : ∀ c loc internal, r.pass env sub = dispatch env sub c loc internal →
      hasContentRange reply.resp.hdrs = false := by
    intro c loc internal hp
    rw [hp] at h
    rcases @dispatch_cases env sub c loc internal with ⟨d,auth,-,-,hq⟩ | ⟨-,-,hl⟩
    · rw [hq] at h
      exact act_page h
    · rw [h] at hl
      exact hl.2.range
  cases hn : r.named with
  | some n =>
    cases hl : r.ctx.server.locations.named.lookup n with
    | none =>
      have hp : r.pass env sub = ⟨r.ctx,none,.fail 500⟩ := by simp only [pass,hn,hl]
      rw [hp] at h
      cases h
    | some loc => exact hdispatch { r.ctx with matched := some loc } loc true (by simp only [pass,hn,hl])
  | none =>
    cases hl : r.ctx.server.locate r.ctx.uri with
    | some p =>
      obtain ⟨loc,caps⟩ := p
      exact hdispatch { r.ctx with captures := caps.getD r.ctx.captures, matched := some loc } loc r.internal
        (by simp only [pass,hn,route,hl])
    | none =>
      have hp : r.pass env sub = fallback env { r.ctx with matched := none } r.internal := by
        simp only [pass,hn,route,hl]
      rw [hp] at h
      unfold fallback at h
      split at h
      · cases h
      · split at h
        · cases h
          exact @IsPage.range env _ (.ret _ _ _)
        · cases servedToStep_done h

/-- Where a pass ends with an upstream's answer, an entry or an application's output. -/
theorem pass_content {p : Producer} (h : (r.pass env sub).step = .done reply p) (hp : p ≠ .page) (hf : p ≠ .files) :
    ∃ c loc, (act env c loc).2 = .done reply p := by
  rcases pass_ends env sub r with ⟨c,loc,auth,-,-,-,hq⟩ | ⟨-,-,hl⟩
  · rw [hq] at h
    exact ⟨c,loc,h⟩
  · rcases hl reply p h with rfl | rfl
    · exact absurd rfl hp
    · exact absurd rfl hf

theorem act_proxied {c : Ctx} {loc : Location} {p : Producer} (h : (act env c loc).2 = .done reply p) :
    (∀ entry, p = .cache entry → reply = cachedReply entry) ∧
      ∀ a, p = .upstream a → ∃ d, answerReply d a = .ok reply := by
  unfold act at h
  split at h
  · cases h
    exact ⟨(fun _ h => nomatch h),(fun _ h => nomatch h)⟩
  · cases h
  · split at h
    · rename_i x hx
      cases x with
      | cached entry =>
        cases h
        refine ⟨fun e he => ?_,(fun _ h => nomatch h)⟩
        cases he
        rfl
      | answered a x =>
        cases h
        refine ⟨(fun _ h => nomatch h),fun b hb => ?_⟩
        cases hb
        exact proxy_answered hx
    · cases h
  · split at h
    · cases h
      exact ⟨(fun _ h => nomatch h),(fun _ h => nomatch h)⟩
    · cases h
  · cases h
    exact ⟨(fun _ h => nomatch h),(fun _ h => nomatch h)⟩
  · dsimp only at h
    cases servedToStep_done h
    exact ⟨(fun _ h => nomatch h),(fun _ h => nomatch h)⟩

/-- A reply is whole when what it is made from is. -/
theorem pass_whole {p : Producer} (h : (r.pass env sub).step = .done reply p) :
    IsWhole reply.resp ↔ r.FromWhole env sub reply p := by
  cases p with
  | page => exact ⟨fun hw => hw.1,fun hs => ⟨hs,pass_page h⟩⟩
  | files =>
    obtain ⟨c,loc,hserving,hs⟩ := pass_serving h
    rw [serve_whole hs]
    constructor
    · intro hu c' loc' h'
      rw [hserving] at h'
      cases h'
      exact hu
    · exact fun hw => hw c loc hserving
  | cache entry =>
    obtain ⟨c,loc,ha⟩ := pass_content h (fun h => nomatch h) (fun h => nomatch h)
    rw [(act_proxied ha).1 entry rfl]
    exact cachedReply_whole entry
  | upstream a =>
    obtain ⟨c,loc,ha⟩ := pass_content h (fun h => nomatch h) (fun h => nomatch h)
    obtain ⟨d,hd⟩ := (act_proxied ha).2 a rfl
    exact answerReply_whole hd
  | application streamed => exact Iff.rfl

end Routing

section Claim
variable {env : Env} {sub : Ctx → Reply} {ctx : Ctx} {r : Routing} {reply : Reply} {p : Producer} {status : ℕ}

theorem run_done {left : ℕ} {s : Routing} (hr : r ∈ s.passes env sub left)
    (h : (r.pass env sub).step = .done reply p) : (s.run env sub left).made = withStatus reply r.statusOverride := by
  have hnext : r.next env sub = .finished ⟨(r.pass env sub).ctx,withStatus reply r.statusOverride,p⟩ := by
    simp only [Routing.next,Routing.after,h]
  induction left generalizing s with
  | zero =>
    rw [Routing.passes,List.mem_singleton] at hr
    subst hr
    rw [Routing.run,hnext]
  | succ left ih =>
    rw [Routing.passes] at hr
    rw [Routing.run]
    cases hs : s.next env sub with
    | finished k =>
      rw [hs] at hr
      cases List.mem_singleton.mp hr
      rw [hs] at hnext
      cases hnext
      rfl
    | jump c t =>
      rw [hs] at hr
      rcases List.mem_cons.mp hr with rfl | hr
      · rw [hs] at hnext
        cases hnext
      · exact ih hr

/-- The reply of such a pass goes out under the status that replaces its own. -/
theorem Routing.Replaced.made (h : r.Replaced env sub ctx reply p status) :
    (handleInner env sub ctx).made = withStatus reply (some status) := by
  have hpass := h.pass
  unfold passesOf at hpass
  unfold handleInner
  rcases hs : serverPhase env ctx with ⟨c,_ | k⟩
  · rw [hs] at hpass
    dsimp only at hpass ⊢
    rw [run_done hpass h.done,h.replaced]
  · rw [hs] at hpass
    cases hpass

/-- Every reply whose status is replaced is a whole document exactly when each of them
is made from something whole. -/
theorem errorPages_whole_iff (env : Env) (sub : Ctx → Reply) (ctx : Ctx) :
    (∀ r reply p status, Routing.Replaced env sub ctx r reply p status →
      (handleInner env sub ctx).made = withStatus reply (some status) ∧ IsWhole reply.resp) ↔
      ∀ r reply p status, Routing.Replaced env sub ctx r reply p status → r.FromWhole env sub reply p := by
  constructor
  · intro h r reply p status hr
    exact (Routing.pass_whole hr.done).mp (h r reply p status hr).2
  · intro h r reply p status hr
    exact ⟨hr.made,(Routing.pass_whole hr.done).mpr (h r reply p status hr)⟩

/-- `error_page 404 /404.html` in a server without locations. -/
def pagedServer : ServerConf :=
  { ServerConf.bare with errorPages := [⟨[404],none,.uri (.literal (lit "/404.html"))⟩] }

/-- Only the error page exists. -/
def onlyPage : Env :=
  { Env.idle with
    lookup := fun _ path => if (lit "/404.html").isSuffixOf path then .file (.ofBytes (lit "gone")) 4 0 else .error 404 }

/-- A request for a missing page with `If-None-Match: *`. -/
def revalidating : Ctx :=
  let (buf,req) := Request.Req.fromParts (lit "GET") (lit "/gone") [(lit "If-None-Match",lit "*")]
  Ctx.new buf req [] .bare pagedServer (lit "/gone") none none (lit "http") 1 1

/-- The status of the reply a step ends the request with. -/
def Step.doneStatus : Step → Option ℕ
  | .done reply _ => some reply.resp.status
  | _ => none

/-- The error page is found unmodified, and goes out as an empty 404. -/
theorem revalidating_empty : ¬ ∀ r reply p status,
    Routing.Replaced onlyPage (handleSub onlyPage) revalidating r reply p status →
      (handleInner onlyPage (handleSub onlyPage) revalidating).made = withStatus reply (some status) ∧
        IsWhole reply.resp := by
  intro h
  have hrun : (passesOf onlyPage (handleSub onlyPage) revalidating).getLast?.map (fun r =>
      (r.statusOverride,(r.pass onlyPage (handleSub onlyPage)).step.doneStatus)) = some (some 404,some 304) := by decide +kernel
  obtain ⟨r,hr,hs⟩ := Option.map_eq_some_iff.mp hrun
  obtain ⟨ho,hstep⟩ := Prod.mk.inj hs
  cases hd : (r.pass onlyPage (handleSub onlyPage)).step with
  | done reply p =>
    rw [hd] at hstep
    have h304 : reply.resp.status = 304 := Option.some.inj hstep
    have hw := (h r reply p 404 ⟨List.mem_of_getLast? hr,ho,hd⟩).2.1
    rw [h304] at hw
    exact hw (by decide)
  | fail code =>
    rw [hd] at hstep
    cases hstep
  | internal uri =>
    rw [hd] at hstep
    cases hstep
  | named n =>
    rw [hd] at hstep
    cases hstep

end Claim

end OxiServe.Server
