import OxiServe.Server.Producers
import OxiServe.Server.Transport
import OxiServe.Server.VirtualHost

/-! # `HEAD` next to `GET`

The static handler answers `HEAD` with the length of the file and no body. What is done
to every reply afterwards looks at the body, so a file that is compressed for `GET` is
announced as it is for `HEAD`. Everything else of the two heads is the same.
-/
namespace OxiServe.Server
open Config Response
variable {env : Env} {c d : Ctx} {core : CoreConf}

section Pairs

/-- The same request once as `GET` and once as `HEAD`. -/
structure Twin (c d : Ctx) : Prop where
  get : c.req.method = .get
  head : d.req.method = .head
  minor : d.req.minor = c.req.minor
  hot : ∀ h, d.req.hotValue d.buf h = c.req.hotValue c.buf h
  rest : d = { c with buf := d.buf, req := d.req }

/-- The values of `add_header` do not depend on the method. -/
def AddedAlike (env : Env) (c d : Ctx) : Prop :=
  ∀ h ∈ c.matchedCore.addHeaders, d.render env h.value = c.render env h.value

/-- A static resource as it is found. -/
inductive Found
  | file (path : Bytes) (f : File) (size : ℕ) (mtime : Int)
  | listing (dir : Bytes)
  | unslashed
  | missing (code : ℕ)

/-- The reply to it, before it is decorated. -/
def Found.answer (env : Env) (ctx : Ctx) (core : CoreConf) : Found → Reply
  | .file path f size mtime =>
    match serveFile env ctx core path f size mtime with
    | .ok r => r
    | .error code => errorReply ctx code
  | .listing dir =>
    match autoindex env ctx dir with
    | .ok r => r
    | .error code => errorReply ctx code
  | .unslashed => dirRedirect ctx core
  | .missing code => errorReply ctx code

/-- One head on every transport, and no body for `HEAD`. -/
structure HeadOfGet (get head : Reply) : Prop where
  resp : ∀ http11, (head.frame http11).resp = (get.frame http11).resp
  bodiless : SameEntity head true []

/-- The part of a file a request is answered with: the head, the first byte and the
length. None when conditions or an unsatisfiable range answer in its place. -/
def part (env : Env) (ctx : Ctx) (core : CoreConf) (path : Bytes) (size : ℕ) (mtime : Int) :
    Option (Resp × ℕ × ℕ) :=
  match evaluatePreconditions env ctx core (makeEtag mtime size) mtime with
  | some _ => none
  | none =>
    let resp := fileHead env ctx core path (makeEtag mtime size) mtime
    match rangeOf env ctx core (makeEtag mtime size) mtime size with
    | .none => some (resp,0,size)
    | .unsatisfiable => none
    | .one start stop =>
      some (({ resp with status := 206 }).header (lit "Content-Range") (contentRange start stop size),start,
        stop - start)

/-- The part is compressed for `GET`: that is wanted, its length is in bounds and it can be. -/
structure Compresses (env : Env) (ctx : Ctx) (core : CoreConf) (path : Bytes) (f : File)
    (resp : Resp) (start len : ℕ) : Prop where
  wanted : gzipWanted ctx (decorateHead env ctx resp) = true
  long : ctx.matchedCore.gzip.minLength ≤ len
  short : len ≤ gzipMaxFile
  packed : ∃ raw out, (makeBody env ctx path f start len core.sendfile).raw ctx.clock = some raw ∧
    env.gzip ctx.matchedCore.gzip.level raw = some out

theorem Found.answer_file {ctx : Ctx} {path : Bytes} {f : File} {size : ℕ} {mtime : Int} {r : Reply}
    (h : serveFile env ctx core path f size mtime = .ok r) :
    r = (Found.file path f size mtime).answer env ctx core := by
  rw [Found.answer,h]

theorem Found.answer_listing {ctx : Ctx} {dir : Bytes} {r : Reply} (h : Server.autoindex env ctx dir = .ok r) :
    r = (Found.listing dir).answer env ctx core := by
  rw [Found.answer,h]

/-- What the static handler replies is the answer to what it finds. -/
theorem serve_found {ctx : Ctx} {loc : Option Location} {r : Reply} (h : (serve env ctx loc).2 = .reply r) :
    ∃ found : Found, r = found.answer env (serve env ctx loc).1 ((loc.map Location.core).getD ctx.server.core) := by
  simp only [serve] at h ⊢
  split at h
  · cases h
  · split at h
    · rename_i hslash
      cases h
      rw [if_pos hslash]
      exact ⟨.unslashed,rfl⟩
    · rename_i hslash
      rw [if_neg hslash]
      unfold serveDirectory at h
      split at h
      · cases h
      · split at h
        · split at h
          · rename_i x hx
            cases h
            exact ⟨_,Found.answer_listing hx⟩
          · cases h
        · cases h
  · rename_i f size mtime hl
    split at h
    · rename_i x hx
      cases h
      exact ⟨_,Found.answer_file hx⟩
    · cases h

end Pairs

section Alike

theorem Twin.host (tw : Twin c d) : d.req.host d.buf = c.req.host c.buf := by
  unfold Request.Req.host
  rw [tw.hot]

theorem Twin.matchedCore (tw : Twin c d) : d.matchedCore = c.matchedCore := by
  rw [tw.rest]
  rfl

theorem Twin.clock (tw : Twin c d) : d.clock = c.clock := by
  rw [tw.rest]

theorem Twin.conditions (tw : Twin c d) (etag : Bytes) (mtime : Int) :
    evaluatePreconditions env d core etag mtime = evaluatePreconditions env c core etag mtime := by
  unfold evaluatePreconditions preconditionFailed
  rw [tw.hot,tw.hot,tw.hot,tw.hot]

theorem Twin.range (tw : Twin c d) (etag : Bytes) (mtime : Int) (size : ℕ) :
    rangeOf env d core etag mtime size = rangeOf env c core etag mtime size := by
  unfold rangeOf ifRangeMatches
  rw [tw.hot,tw.hot]

theorem Twin.fileHead (tw : Twin c d) (path etag : Bytes) (mtime : Int) :
    fileHead env d core path etag mtime = fileHead env c core path etag mtime := by
  rw [tw.rest]
  rfl

theorem Twin.errorReply (tw : Twin c d) (code : ℕ) : errorReply d code = errorReply c code := by
  rw [tw.rest]
  rfl

theorem Twin.autoindex (tw : Twin c d) (dir : Bytes) : autoindex env d dir = autoindex env c dir := by
  rw [tw.rest]
  rfl

theorem Twin.dirRedirect (tw : Twin c d) : dirRedirect d core = dirRedirect c core := by
  have hb : redirectBase d core = redirectBase c core := by
    unfold redirectBase
    rw [tw.host,tw.rest]
  have huri : d.uri = c.uri := by rw [tw.rest]
  have hargs : d.args = c.args := by rw [tw.rest]
  unfold Server.dirRedirect
  rw [hb,huri,hargs]

/-- Decoration leaves the framing to the reply. -/
theorem decorateHead_framing (r : Resp) (f : Framing) :
    decorateHead env c { r with framing := f } = { decorateHead env c r with framing := f } := by
  have hadd : ∀ (hs : List AddHeader) (r : Resp), hs.foldl (addHeader env c) { r with framing := f } =
      { hs.foldl (addHeader env c) r with framing := f } := by
    intro hs
    induction hs with
    | nil => exact fun _ => rfl
    | cons h hs ih =>
      intro r
      have hone : addHeader env c { r with framing := f } h = { addHeader env c r h with framing := f } := by
        unfold addHeader
        dsimp only
        split
        · split
          · rfl
          · rfl
        · rfl
      rw [List.foldl_cons,List.foldl_cons,hone,ih]
  have halt : ∀ r : Resp, altSvc c.server { r with framing := f } = { altSvc c.server r with framing := f } := by
    intro r
    unfold altSvc
    have hhas : ({ r with framing := f } : Resp).has (lit "alt-svc") = r.has (lit "alt-svc") := rfl
    rw [hhas]
    split
    · split
      · rfl
      · rfl
    · rfl
  have hexp : ∀ (r : Resp) (e : Expires), applyExpires env c.clock { r with framing := f } e =
      { applyExpires env c.clock r e with framing := f } := by
    intro r e
    unfold applyExpires
    split
    · rfl
    · rfl
  unfold decorateHead
  dsimp only
  rw [hadd]
  split
  · rw [hexp,halt]
  · rw [halt]

theorem Twin.decorateHead (tw : Twin c d) (ha : AddedAlike env c d) (r : Resp) :
    decorateHead env d r = decorateHead env c r := by
  have hadd : ∀ (hs : List AddHeader) (r : Resp), (∀ h ∈ hs, d.render env h.value = c.render env h.value) →
      hs.foldl (addHeader env d) r = hs.foldl (addHeader env c) r := by
    intro hs
    induction hs with
    | nil => exact fun _ _ => rfl
    | cons h hs ih =>
      intro r hr
      have hone : addHeader env d r h = addHeader env c r h := by
        unfold addHeader
        rw [hr h List.mem_cons_self]
      rw [List.foldl_cons,List.foldl_cons,hone,ih _ (fun k hk => hr k (List.mem_cons_of_mem _ hk))]
  have hserver : d.server = c.server := by rw [tw.rest]
  unfold Server.decorateHead
  rw [tw.matchedCore,tw.clock,hserver,hadd _ _ ha]

theorem Twin.gzipWanted (tw : Twin c d) (r : Resp) : gzipWanted d r = gzipWanted c r := by
  unfold Server.gzipWanted Request.Req.acceptsGzip
  rw [tw.matchedCore,tw.minor,tw.hot]

theorem Twin.decorate (tw : Twin c d) (ha : AddedAlike env c d) (r : Reply) :
    decorate env d r = decorate env c r := by
  have hc : ∀ r, compressed env d r = compressed env c r := by
    intro r
    unfold compressed
    rw [tw.gzipWanted,tw.matchedCore,tw.clock]
  unfold Server.decorate maybeGzip
  rw [tw.decorateHead ha,hc,tw.matchedCore]

theorem Twin.part (tw : Twin c d) (path : Bytes) (size : ℕ) (mtime : Int) :
    part env d core path size mtime = part env c core path size mtime := by
  unfold Server.part
  rw [tw.conditions,tw.fileHead,tw.range]

end Alike

section Answers
variable {path : Bytes} {f : File} {size : ℕ} {mtime : Int} {resp : Resp} {start len : ℕ}

theorem serveFile_of_part (hm : c.req.method.isSafe = true)
    (h : part env c core path size mtime = some (resp,start,len)) :
    serveFile env c core path f size mtime = .ok (fileReply env c core path f resp start len) := by
  unfold part at h
  unfold serveFile
  cases hp : evaluatePreconditions env c core (makeEtag mtime size) mtime with
  | some status =>
    simp only [hp] at h
    cases h
  | none =>
    cases hr : rangeOf env c core (makeEtag mtime size) mtime size with
    | none =>
      simp only [hp,hr] at h
      cases h
      simp [hm,hp,hr]
    | unsatisfiable =>
      simp only [hp,hr] at h
      cases h
    | one start stop =>
      simp only [hp,hr] at h
      cases h
      simp [hm,hp,hr]

theorem part_framing (h : part env c core path size mtime = some (resp,start,len)) : resp.framing = .none := by
  unfold part at h
  split at h
  · cases h
  · dsimp only at h
    split at h
    · cases h
      rfl
    · cases h
    · cases h
      rfl

/-- Without a part both methods get the same reply. -/
theorem Twin.serveFile_of_none (tw : Twin c d) (h : Server.part env c core path size mtime = none) :
    ∃ r, serveFile env c core path f size mtime = .ok r ∧ serveFile env d core path f size mtime = .ok r := by
  have hc : c.req.method.isSafe = true := by
    rw [tw.get]
    rfl
  have hd : d.req.method.isSafe = true := by
    rw [tw.head]
    rfl
  unfold Server.part at h
  simp only [serveFile,hc,hd,tw.conditions,tw.range,tw.fileHead]
  cases hp : evaluatePreconditions env c core (makeEtag mtime size) mtime with
  | some status => exact ⟨_,rfl,rfl⟩
  | none =>
    cases hr : rangeOf env c core (makeEtag mtime size) mtime size with
    | none =>
      simp only [hp,hr] at h
      cases h
    | unsatisfiable => exact ⟨_,rfl,rfl⟩
    | one start stop =>
      simp only [hp,hr] at h
      cases h

/-- Anything but a part of a file is answered alike. -/
theorem Twin.answer (tw : Twin c d) (found : Found)
    (h : ∀ path f size mtime, found = .file path f size mtime → Server.part env c core path size mtime = none) :
    found.answer env d core = found.answer env c core := by
  cases found with
  | file path f size mtime =>
    obtain ⟨r,hc,hd⟩ := @Twin.serveFile_of_none env c d core path f size mtime tw (h _ _ _ _ rfl)
    simp only [Found.answer,hc,hd]
  | listing dir => simp only [Found.answer,tw.autoindex,tw.errorReply]
  | unslashed => exact tw.dirRedirect
  | missing code => exact tw.errorReply code

theorem errorReply_stored (code : ℕ) : (errorReply c code).body.isStored = true := by
  unfold errorReply errorBody
  split
  · rfl
  · rfl

theorem Found.answer_stored (found : Found) : (found.answer env c core).body.isStored = true := by
  cases found with
  | file path f size mtime =>
    unfold Found.answer
    dsimp only
    split
    · rename_i hr
      exact (serveFile_makes hr).1
    · exact errorReply_stored _
  | listing dir =>
    unfold Found.answer
    dsimp only
    split
    · rename_i r hr
      unfold Server.autoindex at hr
      split at hr
      · cases hr
      · cases hr
        rfl
    · exact errorReply_stored _
  | unslashed => rfl
  | missing code => exact errorReply_stored code

/-- Decoration upgrades nothing. -/
theorem decorate_not_upgraded {r : Reply} (h : r.body.isStored = true) :
    (decorate env c r).body.isUpgraded = false := by
  rw [(decorate_kept r).2.2]
  cases gzipped env c r with
  | some out => rfl
  | none =>
    obtain ⟨resp,body⟩ := r
    cases body with
    | upgraded pre io => cases h
    | _ => rfl

end Answers

section Comparison
variable {path : Bytes} {f : File} {resp : Resp} {start len : ℕ}

theorem makeBody_knownLen (sendfile : Bool) : (makeBody env c path f start len sendfile).knownLen = some len := by
  unfold makeBody
  split
  · rename_i h
    rw [h]
    rfl
  · split
    · rfl
    · split
      · split
        · rfl
        · split
          · simp only [Body.knownLen,Range.len]
            congr 1
            omega
          · rfl
      · rfl

/-- A part is compressed exactly when that is asked for and possible. -/
theorem compresses_iff : Compresses env c core path f resp start len ↔
    ∃ out, gzipped env c ⟨resp,makeBody env c path f start len core.sendfile⟩ = some out := by
  simp only [gzipped,compressed,makeBody_knownLen]
  constructor
  · rintro ⟨hw,hl,hs,raw,out,hr,hz⟩
    refine ⟨out,?_⟩
    have hb : (decide (len < c.matchedCore.gzip.minLength) || decide (gzipMaxFile < len)) = false := by
      rw [Bool.or_eq_false_iff,decide_eq_false_iff_not,decide_eq_false_iff_not]
      omega
    rw [if_pos hw,hb,hr]
    exact hz
  · rintro ⟨out,h⟩
    split at h
    · rename_i hw
      split at h
      · cases h
      · rename_i hb
        rw [Bool.or_eq_true,decide_eq_true_eq,decide_eq_true_eq] at hb
        obtain ⟨raw,hr,hz⟩ := Option.bind_eq_some_iff.mp h
        exact ⟨hw,by omega,by omega,raw,out,hr,hz⟩
    · cases h

theorem decorate_of_none {r : Reply} (h : gzipped env c r = none) :
    decorate env c r = ⟨decorateHead env c r.resp,r.body⟩ := by
  unfold gzipped at h
  unfold Server.decorate maybeGzip
  rw [h]

/-- A compressed reply says so. -/
theorem decorate_encoding {r : Reply} {out : Bytes} (h : gzipped env c r = some out) :
    (lit "Content-Encoding",lit "gzip") ∈ (decorate env c r).resp.hdrs := by
  have hname : eqIgnoreAsciiCase (lit "Content-Encoding") (lit "ETag") = false := by decide +kernel
  have hweak : ∀ r : Resp, (lit "Content-Encoding",lit "gzip") ∈ r.hdrs →
      (lit "Content-Encoding",lit "gzip") ∈ (weakenEtag r).hdrs := by
    intro r hr
    unfold weakenEtag
    split
    · split
      · exact hr
      · refine List.mem_append_left _ (List.mem_filter.mpr ⟨hr,?_⟩)
        rw [hname]
        rfl
    · exact hr
  unfold gzipped at h
  unfold Server.decorate maybeGzip
  rw [h]
  dsimp only
  refine hweak _ ?_
  have hone : ∀ r : Resp, (lit "Content-Encoding",lit "gzip") ∈ (r.header (lit "Content-Encoding") (lit "gzip")).hdrs :=
    fun r => List.mem_append_right _ (List.mem_singleton.mpr rfl)
  split
  · exact List.mem_append_left _ (hone _)
  · exact hone _

/-- Compression is only wanted for a head without an encoding. -/
theorem gzipWanted_encoding {r : Resp} (h : gzipWanted c r = true) :
    (lit "Content-Encoding",lit "gzip") ∉ r.hdrs := by
  intro hmem
  have hname : eqIgnoreAsciiCase (lit "Content-Encoding") (lit "content-encoding") = true := by decide +kernel
  have hhas : r.has (lit "content-encoding") = true := by
    unfold Resp.has Resp.get
    rw [Option.isSome_map,List.find?_isSome]
    exact ⟨_,hmem,hname⟩
  unfold gzipWanted at h
  simp only [hhas,Bool.not_true,Bool.and_false,Bool.false_and,Bool.false_eq_true] at h

/-- The head of a body of known length, framed. -/
theorem frame_known {r : Reply} (hu : r.body.isUpgraded = false) (hl : r.body.knownLen = some len)
    (hf : r.resp.framing = .none ∨ r.resp.framing = .length len) (http11 : Bool) :
    (r.frame http11).resp = { r.resp with framing := if isBodyless r.resp.status then .none else .length len } := by
  have hk : r.body.framing http11 = .length len := by
    unfold Body.framing
    rw [hl]
  have hframing : (r.frame http11).resp.framing = if isBodyless r.resp.status then .none else .length len := by
    cases hb : isBodyless r.resp.status with
    | true => exact (Reply.frame_body_of_bodyless hu hb).2
    | false =>
      rw [Reply.frame_framing hu hb,hk]
      rcases hf with hf | hf
      · rw [hf]
        rfl
      · rw [hf]
        rfl
  have hkeep : (r.frame http11).resp.keepAlive = r.resp.keepAlive := by
    rw [Reply.frame_keepAlive,hu,Bool.not_false,Bool.and_true]
  have hstatus := Reply.frame_status r http11
  have hhdrs := Reply.frame_hdrs r http11
  have heta : (r.frame http11).resp = ⟨(r.frame http11).resp.status,(r.frame http11).resp.hdrs,
      (r.frame http11).resp.framing,(r.frame http11).resp.keepAlive⟩ := rfl
  rw [heta,hstatus,hhdrs,hframing,hkeep]

/-- One decorated reply for both methods. -/
theorem headOfGet_refl {r : Reply} (hu : r.body.isUpgraded = false) : HeadOfGet r r :=
  ⟨fun _ => rfl,sameEntity_of_bodiless hu rfl⟩

/-- A part of a file: the announced length is the length of the body unless that is compressed. -/
theorem headOfGet_part (tw : Twin c d) (ha : AddedAlike env c d) (hf : resp.framing = .none) :
    HeadOfGet (decorate env c ⟨resp,makeBody env c path f start len core.sendfile⟩)
        (decorate env d ⟨{ resp with framing := .length len },.empty⟩) ↔
      ¬Compresses env c core path f resp start len := by
  have hhead : decorate env d ⟨{ resp with framing := .length len },.empty⟩ =
      ⟨{ decorateHead env c resp with framing := .length len },.empty⟩ := by
    rw [decorate_of_none (gzipped_eq_none rfl),tw.decorateHead ha,decorateHead_framing]
  rw [hhead,compresses_iff]
  constructor
  · rintro h ⟨out,hz⟩
    have hwanted : gzipWanted c (decorateHead env c resp) = true := (compresses_iff.mpr ⟨out,hz⟩).wanted
    have hhdrs := congrArg Resp.hdrs (h.resp true)
    rw [Reply.frame_hdrs,Reply.frame_hdrs] at hhdrs
    have hmem := decorate_encoding hz
    rw [← hhdrs] at hmem
    exact gzipWanted_encoding hwanted hmem
  · intro h
    have hz : gzipped env c ⟨resp,makeBody env c path f start len core.sendfile⟩ = none := by
      cases hg : gzipped env c ⟨resp,makeBody env c path f start len core.sendfile⟩ with
      | none => rfl
      | some out => exact absurd ⟨out,hg⟩ h
    have hu : (makeBody env c path f start len core.sendfile).isUpgraded = false := by
      have hd := @decorate_not_upgraded env c ⟨resp,makeBody env c path f start len core.sendfile⟩ makeBody_stored
      rw [decorate_of_none hz] at hd
      exact hd
    rw [decorate_of_none hz]
    refine ⟨?_,sameEntity_of_bodiless rfl rfl⟩
    intro http11
    have hget := @frame_known len ⟨decorateHead env c resp,makeBody env c path f start len core.sendfile⟩ hu
      (makeBody_knownLen _) (.inl ((decorateHead_kept resp).2.trans hf)) http11
    rw [hget]
    unfold Reply.frame
    dsimp only
    cases isBodyless (decorateHead env c resp).status with
    | true => rfl
    | false => rfl

/-- `HEAD` is `GET` without its body for a static resource exactly when it is not a
part of a file that is compressed for `GET`. -/
theorem headOfGet_iff (tw : Twin c d) (ha : AddedAlike env c d) (core : CoreConf) (found : Found) (st : Option ℕ) :
    HeadOfGet (decorate env c (withStatus (found.answer env c core) st))
        (decorate env d (withStatus (found.answer env d core) st)) ↔
      ∀ path f size mtime, found = .file path f size mtime →
        ∀ resp start len, part env c core path size mtime = some (resp,start,len) →
          ¬Compresses env c core path f { resp with status := st.getD resp.status } start len := by
  by_cases hp : ∀ path f size mtime, found = .file path f size mtime → part env c core path size mtime = none
  · rw [tw.answer found hp,tw.decorate ha]
    refine ⟨?_,fun _ => headOfGet_refl (decorate_not_upgraded found.answer_stored)⟩
    intro _ path f size mtime hfound resp start len hpart
    rw [hp _ _ _ _ hfound] at hpart
    cases hpart
  · push Not at hp
    obtain ⟨path,f,size,mtime,rfl,hpart⟩ := hp
    obtain ⟨⟨resp,start,len⟩,hpart⟩ := Option.ne_none_iff_exists'.mp hpart
    have hc : c.req.method.isSafe = true := by
      rw [tw.get]
      rfl
    have hd : d.req.method.isSafe = true := by
      rw [tw.head]
      rfl
    have hget : c.req.method ≠ .head := by
      rw [tw.get]
      exact fun h => nomatch h
    have hpart' := (tw.part path size mtime).trans hpart
    have hframing : resp.framing = .none := part_framing hpart
    simp only [Found.answer,serveFile_of_part hc hpart,serveFile_of_part hd hpart',fileReply,if_pos tw.head,
      if_neg hget]
    have hmain := @headOfGet_part env c d core path f { resp with status := st.getD resp.status } start len tw ha hframing
    refine hmain.trans ⟨?_,fun h => h _ _ _ _ rfl _ _ _ hpart⟩
    intro h path' f' size' mtime' hfound resp' start' len' hpart''
    cases hfound
    rw [hpart] at hpart''
    cases hpart''
    exact h

/-- A page of twenty bytes and what it is packed to. -/
def hello : Bytes := lit "<p>Hello, world.</p>"

def packing : Env := { Env.idle with gzip := fun _ raw => if raw = hello then some [31, 139, 8, 0, 0, 0, 0, 0, 4, 3, 179, 41, 176, 243, 72, 205, 201, 201, 215, 81, 40, 207, 47, 202, 73, 209, 179, 209, 47, 176, 3, 0, 186, 10, 92, 96, 20, 0, 0, 0] else none }

/-- A request for the page, with `gzip` on or off. -/
def helloCtx (method : Bytes) (gzip : Bool) : Ctx :=
  let (buf,req) := Request.Req.fromParts method (lit "/a.html") [(lit "Accept-Encoding",lit "gzip")]
  let core := { defaultCore with defaultType := lit "text/html", gzip := { GzipConf.default with enabled := gzip } }
  Ctx.new buf req [] .bare { ServerConf.bare with core := core } (lit "/a.html") none none (lit "http") 1 1

theorem helloCtx_twin (gzip : Bool) : Twin (helloCtx (lit "GET") gzip) (helloCtx (lit "HEAD") gzip) := by
  refine ⟨rfl,rfl,rfl,?_,rfl⟩
  intro h
  cases h <;> rfl

example : (helloCtx (lit "HEAD") true).req.methodRaw = ⟨0,4⟩ := by decide +kernel

theorem helloCtx_added (gzip : Bool) : AddedAlike packing (helloCtx (lit "GET") gzip) (helloCtx (lit "HEAD") gzip) := by
  intro h hmem
  cases hmem

/-- The page as it is found. -/
def helloFile : Found := .file (lit "/srv/a.html") (.ofBytes hello) hello.length 0

/-- The reply to the request for it. -/
def helloReply (method : Bytes) (gzip : Bool) : Reply :=
  let ctx := helloCtx method gzip
  decorate packing ctx (withStatus (helloFile.answer packing ctx ctx.matchedCore) none)

/-- Without `gzip` the two replies have one head. -/
theorem helloReply_alike : HeadOfGet (helloReply (lit "GET") false) (helloReply (lit "HEAD") false) := by
  refine (headOfGet_iff (helloCtx_twin false) (helloCtx_added false)
    (helloCtx (lit "GET") false).matchedCore helloFile none).mpr ?_
  intro path f size mtime _ resp start len _ hz
  have hoff : gzipWanted (helloCtx (lit "GET") false)
      (decorateHead packing (helloCtx (lit "GET") false) resp) = false := rfl
  have hwanted := hz.wanted
  cases hoff.symm.trans hwanted

/-- With `gzip` only `GET` announces the encoding. -/
theorem helloReply_differs : ¬ HeadOfGet (helloReply (lit "GET") true) (helloReply (lit "HEAD") true) := by
  intro h
  have hget : ((helloReply (lit "GET") true).frame true).resp.has (lit "content-encoding") = true := by decide +kernel
  have hhead : ((helloReply (lit "HEAD") true).frame true).resp.has (lit "content-encoding") = false := by
    decide +kernel
  rw [h.resp true,hget] at hhead
  cases hhead

end Comparison

end OxiServe.Server
