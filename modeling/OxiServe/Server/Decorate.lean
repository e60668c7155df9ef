import OxiServe.Server.Ctx

/-! # Pages the server makes itself, and what is done to every reply

Error pages, `return` and redirects; then `add_header`, `expires`, the HTTP/3
advertisement and compression, which run on a finished reply before it is framed.
-/
namespace OxiServe.Server
open Config Response

section Pages

def errorBody (ctx : Ctx) (resp : Resp) (code : ℕ) : Reply :=
  if isBodyless code then ⟨resp,.empty⟩
  else
    ⟨if resp.has (lit "content-type") then resp else resp.header (lit "Content-Type") (lit "text/html"),
      .bytes (errorPage code (Resp.signature ctx.server.core.serverTokens))⟩

/-- An error that leaves the request body unread ends the connection. -/
def endsConnection (code : ℕ) : Bool := [400,408,413,414,431,500,501,505].contains code

def errorReply (ctx : Ctx) (code : ℕ) : Reply :=
  errorBody ctx { Resp.new with status := code, keepAlive := !endsConnection code } code

/-- For a redirect the argument is a URL, otherwise a body. -/
def returnReply (env : Env) (ctx : Ctx) (code : ℕ) (body : Option Template) : Reply :=
  let resp := { Resp.new with status := code }
  let text := body.map (ctx.render env)
  if 300 ≤ code ∧ code < 400 then
    match text with
    | some url => ⟨resp.header (lit "Location") url,.empty⟩
    | none => ⟨resp,.empty⟩
  else if code = 204 then ⟨resp,.empty⟩
  else
    match text with
    | some t => ⟨resp.header (lit "Content-Type") ctx.matchedCore.defaultType,.bytes t⟩
    | none => errorReply ctx code

/-- The arguments follow unless the target has its own. -/
def redirect (ctx : Ctx) (code : ℕ) (target : Bytes) : Reply :=
  let location := if ctx.args ≠ [] && !target.contains 63 then target ++ lit "?" ++ ctx.args else target
  errorBody ctx (({ Resp.new with status := code }).header (lit "Location") location) code

end Pages

section Headers

/-- Statuses that get an `add_header` without `always`. -/
def isAddHeaderStatus (s : ℕ) : Bool :=
  (200 ≤ s && s ≤ 299) || [301,302,303,304,307,308].contains s

def addHeader (env : Env) (ctx : Ctx) (r : Resp) (h : AddHeader) : Resp :=
  if h.always || isAddHeaderStatus r.status then
    let v := ctx.render env h.value
    if v = [] then r else r.header h.name v
  else r

def decimalInt (n : Int) : Bytes := if n < 0 then lit "-" ++ decimal n.natAbs else decimal n.natAbs

/-- `Cache-Control` and `Expires` values. -/
def expiresValues (env : Env) (t : ℕ) : Expires → Option (Bytes × Bytes)
  | .off => none
  | .epoch => some (lit "no-cache",env.httpDate 0)
  | .max => some (lit "max-age=315360000",lit "Thu, 31 Dec 2037 23:55:55 GMT")
  | .secs s =>
    if s < 0 then some (lit "no-cache",env.httpDate (env.now t))
    else some (lit "max-age=" ++ decimalInt s,env.httpDate (env.now t + s * 1000000000))
  | .daily s => some (lit "max-age=" ++ decimalInt s,env.httpDate (env.now t + s * 1000000000))

def applyExpires (env : Env) (t : ℕ) (r : Resp) (e : Expires) : Resp :=
  match expiresValues env t e with
  | none => r
  | some (cacheControl,expires) =>
    (r.set (lit "Expires") expires).set (lit "Cache-Control") cacheControl

/-- A configuration that sets its own `Alt-Svc` wins. -/
def altSvc (s : ServerConf) (r : Resp) : Resp :=
  match s.altSvc with
  | some alt => if r.has (lit "alt-svc") then r else r.header (lit "Alt-Svc") alt
  | none => r

/-- The head of a reply before compression is considered. -/
def decorateHead (env : Env) (ctx : Ctx) (r : Resp) : Resp :=
  let r := ctx.matchedCore.addHeaders.foldl (addHeader env ctx) r
  altSvc ctx.server
    (match ctx.matchedCore.expires with
      | some e => applyExpires env ctx.clock r e
      | none => r)

end Headers

section Compression

def gzipMaxFile : ℕ := 8 * 1024 * 1024

/-- Reads `len` bytes, tolerating short reads. -/
def readExactAt (f : File) : ℕ → ℕ → ℕ → ℕ → Option Bytes
  | 0, _, _, _ => none
  | fuel + 1, t, off, len =>
    if len = 0 then some []
    else
      match f.readAt t off len with
      | none => none
      | some b =>
        if b = [] then some []
        else (readExactAt f fuel (t + 1) (off + b.length) (len - b.length)).map (b ++ ·)

/-- A body that can be compressed in memory. -/
def Body.raw (t : ℕ) : Body → Option Bytes
  | .bytes b => some b
  | .mmap w => some w.bytes
  | .inline f off len | .file f off len => readExactAt f (len + 1) t off len
  | .empty | .stream _ _ _ | .upgraded _ _ => none

/-- Everything about request and response head that compression asks for. -/
def gzipWanted (ctx : Ctx) (r : Resp) : Bool :=
  let g := ctx.matchedCore.gzip
  g.enabled && !r.has (lit "content-encoding") && ctx.req.acceptsGzip ctx.buf &&
    !(ctx.req.minor == 0 && !g.httpVersion10) &&
    (match r.get (lit "content-type") with
      | none => false
      | some ct =>
        let base := trim ((split 59 ct).headD [])
        g.types.contains base || base == lit "text/html")

/-- The compressed body, when the reply is to be compressed. -/
def compressed (env : Env) (ctx : Ctx) (r : Reply) : Option Bytes :=
  if gzipWanted ctx r.resp then
    match r.body.knownLen with
    | none => none
    | some len =>
      if len < ctx.matchedCore.gzip.minLength || decide (gzipMaxFile < len) then none
      else (r.body.raw ctx.clock).bind (env.gzip ctx.matchedCore.gzip.level)
  else none

/-- A strong tag no longer identifies the bytes. -/
def weakenEtag (r : Resp) : Resp :=
  match r.get (lit "etag") with
  | some e => if (lit "W/").isPrefixOf e then r else r.set (lit "ETag") (lit "W/" ++ e)
  | none => r

def maybeGzip (env : Env) (ctx : Ctx) (r : Reply) : Reply :=
  match compressed env ctx r with
  | none => r
  | some out =>
    let resp := r.resp.header (lit "Content-Encoding") (lit "gzip")
    let resp := if ctx.matchedCore.gzip.vary then resp.header (lit "Vary") (lit "Accept-Encoding") else resp
    ⟨weakenEtag resp,.bytes out⟩

end Compression

def decorate (env : Env) (ctx : Ctx) (r : Reply) : Reply :=
  maybeGzip env ctx ⟨decorateHead env ctx r.resp,r.body⟩

section Kept
variable {env : Env} {ctx : Ctx}

theorem addHeader_kept (r : Resp) (h : AddHeader) :
    (addHeader env ctx r h).status = r.status ∧ (addHeader env ctx r h).framing = r.framing := by
  unfold addHeader
  split
  · dsimp only
    split
    · exact ⟨rfl,rfl⟩
    · exact ⟨rfl,rfl⟩
  · exact ⟨rfl,rfl⟩

theorem foldl_addHeader_kept (hs : List AddHeader) (r : Resp) :
    (hs.foldl (addHeader env ctx) r).status = r.status ∧
      (hs.foldl (addHeader env ctx) r).framing = r.framing := by
  induction hs generalizing r with
  | nil => exact ⟨rfl,rfl⟩
  | cons h hs ih =>
    obtain ⟨h1,h2⟩ := ih (addHeader env ctx r h)
    obtain ⟨k1,k2⟩ := @addHeader_kept env ctx r h
    exact ⟨h1.trans k1,h2.trans k2⟩

theorem applyExpires_kept (t : ℕ) (r : Resp) (e : Expires) :
    (applyExpires env t r e).status = r.status ∧ (applyExpires env t r e).framing = r.framing := by
  unfold applyExpires
  split
  · exact ⟨rfl,rfl⟩
  · exact ⟨rfl,rfl⟩

theorem altSvc_kept (s : ServerConf) (r : Resp) :
    (altSvc s r).status = r.status ∧ (altSvc s r).framing = r.framing := by
  unfold altSvc
  split
  · split
    · exact ⟨rfl,rfl⟩
    · exact ⟨rfl,rfl⟩
  · exact ⟨rfl,rfl⟩

/-- Decoration adds fields and leaves status and framing alone. -/
theorem decorateHead_kept (r : Resp) :
    (decorateHead env ctx r).status = r.status ∧ (decorateHead env ctx r).framing = r.framing := by
  have hf := @foldl_addHeader_kept env ctx ctx.matchedCore.addHeaders r
  simp only [decorateHead]
  split
  · have ha := altSvc_kept ctx.server
      (applyExpires env ctx.clock (ctx.matchedCore.addHeaders.foldl (addHeader env ctx) r) ‹Expires›)
    have he := @applyExpires_kept env ctx.clock (ctx.matchedCore.addHeaders.foldl (addHeader env ctx) r) ‹Expires›
    exact ⟨ha.1.trans (he.1.trans hf.1),ha.2.trans (he.2.trans hf.2)⟩
  · have ha := altSvc_kept ctx.server (ctx.matchedCore.addHeaders.foldl (addHeader env ctx) r)
    exact ⟨ha.1.trans hf.1,ha.2.trans hf.2⟩

theorem weakenEtag_kept (r : Resp) :
    (weakenEtag r).status = r.status ∧ (weakenEtag r).framing = r.framing := by
  unfold weakenEtag
  split
  · split
    · exact ⟨rfl,rfl⟩
    · exact ⟨rfl,rfl⟩
  · exact ⟨rfl,rfl⟩

/-- Compression replaces the body and leaves status and framing alone. -/
theorem maybeGzip_kept (r : Reply) :
    (maybeGzip env ctx r).resp.status = r.resp.status ∧ (maybeGzip env ctx r).resp.framing = r.resp.framing ∧
      (maybeGzip env ctx r).body = ((compressed env ctx r).map Body.bytes).getD r.body := by
  unfold maybeGzip
  cases compressed env ctx r with
  | none => exact ⟨rfl,rfl,rfl⟩
  | some out =>
    dsimp only
    split
    · exact ⟨(weakenEtag_kept _).1,(weakenEtag_kept _).2,rfl⟩
    · exact ⟨(weakenEtag_kept _).1,(weakenEtag_kept _).2,rfl⟩

/-- What compression makes of a reply's body once its head is decorated. -/
def gzipped (env : Env) (ctx : Ctx) (r : Reply) : Option Bytes :=
  compressed env ctx ⟨decorateHead env ctx r.resp,r.body⟩

theorem decorate_kept (r : Reply) :
    (decorate env ctx r).resp.status = r.resp.status ∧ (decorate env ctx r).resp.framing = r.resp.framing ∧
      (decorate env ctx r).body = ((gzipped env ctx r).map Body.bytes).getD r.body := by
  have hm := @maybeGzip_kept env ctx ⟨decorateHead env ctx r.resp,r.body⟩
  have hd := @decorateHead_kept env ctx r.resp
  exact ⟨hm.1.trans hd.1,hm.2.1.trans hd.2,hm.2.2⟩

/-- Only bodies in memory or in a file are compressed. -/
theorem gzipped_eq_none {r : Reply} (h : r.body.raw ctx.clock = none) : gzipped env ctx r = none := by
  simp only [gzipped,compressed,h,Option.bind_none]
  split
  · split
    · rfl
    · split
      · rfl
      · rfl
  · rfl

end Kept

/-! ## The fields of a decorated head

What decoration adds comes after the fields the head has, and it takes away no others
than those that `expires` replaces.
-/
section Fields
open Config Response
variable {env : Env} {ctx : Ctx} {r : Resp} {n v : Bytes} {f : Bytes × Bytes}

/-- The field an `add_header` comes to under a status. -/
def added (env : Env) (ctx : Ctx) (status : ℕ) (h : AddHeader) : Option (Bytes × Bytes) :=
  if h.always || isAddHeaderStatus status then
    if ctx.render env h.value = [] then none else some (h.name,ctx.render env h.value)
  else none

theorem addHeader_hdrs (r : Resp) (h : AddHeader) :
    (addHeader env ctx r h).hdrs = r.hdrs ++ (added env ctx r.status h).toList := by
  unfold addHeader added
  split
  · dsimp only
    split
    · exact (List.append_nil _).symm
    · rfl
  · exact (List.append_nil _).symm

theorem foldl_addHeader_hdrs (hs : List AddHeader) (r : Resp) :
    (hs.foldl (addHeader env ctx) r).hdrs = r.hdrs ++ hs.filterMap (added env ctx r.status) := by
  induction hs generalizing r with
  | nil => exact (List.append_nil _).symm
  | cons h hs ih =>
    rw [List.foldl_cons,ih,addHeader_hdrs,(addHeader_kept r h).1,List.append_assoc,List.filterMap_cons]
    cases added env ctx r.status h with
    | none => rfl
    | some f => rfl

/-- Neither of the names that `expires` replaces. -/
def Lasting (n : Bytes) : Prop :=
  eqIgnoreAsciiCase n (lit "Expires") = false ∧ eqIgnoreAsciiCase n (lit "Cache-Control") = false

theorem self_ne_false (n : Bytes) : eqIgnoreAsciiCase n n ≠ false := by
  simp [eqIgnoreAsciiCase]

theorem mem_set : f ∈ (r.set n v).hdrs ↔ f ∈ r.hdrs ∧ eqIgnoreAsciiCase f.1 n = false ∨ f = (n,v) := by
  simp only [Resp.set,Resp.header,Resp.remove,List.mem_append,List.mem_filter,Bool.not_eq_true',List.mem_singleton]

theorem mem_applyExpires (hl : Lasting f.1) (t : ℕ) (e : Expires) : f ∈ (applyExpires env t r e).hdrs ↔ f ∈ r.hdrs := by
  unfold applyExpires
  split
  · exact Iff.rfl
  · rename_i cacheControl expires _
    rw [mem_set,mem_set]
    constructor
    · rintro (⟨h | rfl,-⟩ | rfl)
      · exact h.1
      · exact absurd hl.1 (self_ne_false _)
      · exact absurd hl.2 (self_ne_false _)
    · intro h
      exact Or.inl ⟨Or.inl ⟨h,hl.1⟩,hl.2⟩

theorem mem_altSvc (hf : eqIgnoreAsciiCase f.1 (lit "Alt-Svc") = false) (s : ServerConf) :
    f ∈ (altSvc s r).hdrs ↔ f ∈ r.hdrs := by
  unfold altSvc
  split
  · split
    · exact Iff.rfl
    · simp only [Resp.header,List.mem_append,List.mem_singleton]
      constructor
      · rintro (h | rfl)
        · exact h
        · exact absurd hf (self_ne_false _)
      · exact Or.inl
  · exact Iff.rfl

/-- Of other names a decorated head has its own fields and those of `add_header`. -/
theorem mem_decorateHead (hl : Lasting f.1) (hf : eqIgnoreAsciiCase f.1 (lit "Alt-Svc") = false) :
    f ∈ (decorateHead env ctx r).hdrs ↔
      f ∈ r.hdrs ∨ ∃ h ∈ ctx.matchedCore.addHeaders, added env ctx r.status h = some f := by
  simp only [decorateHead]
  rw [mem_altSvc hf]
  have hadd : f ∈ (ctx.matchedCore.addHeaders.foldl (addHeader env ctx) r).hdrs ↔
      f ∈ r.hdrs ∨ ∃ h ∈ ctx.matchedCore.addHeaders, added env ctx r.status h = some f := by
    rw [foldl_addHeader_hdrs,List.mem_append,List.mem_filterMap]
  split
  · rw [mem_applyExpires hl]
    exact hadd
  · exact hadd

theorem find?_filter_of_imp {α : Type*} {p q : α → Bool} (hpq : ∀ a, p a = true → q a = true) (l : List α) :
    (l.filter q).find? p = l.find? p := by
  rw [List.find?_filter]
  congr 1
  funext a
  cases hp : p a with
  | false => simp
  | true => simp [hpq a hp]

theorem header_get (hg : r.get n = some v) (n' v' : Bytes) : (r.header n' v').get n = some v := by
  obtain ⟨f,hf,rfl⟩ := Option.map_eq_some_iff.mp hg
  simp only [Resp.get,Resp.header,List.find?_append,hf,Option.some_or,Option.map_some]

/-- A replaced field hides none of another name. -/
theorem set_get (hg : r.get n = some v) {n' v' : Bytes}
    (hne : ∀ m, eqIgnoreAsciiCase m n = true → eqIgnoreAsciiCase m n' = false) :
    (r.set n' v').get n = some v := by
  apply header_get
  unfold Resp.get Resp.remove at *
  dsimp only
  rw [find?_filter_of_imp]
  · exact hg
  · intro a ha
    rw [hne a.1 ha]
    rfl

theorem eqIgnoreAsciiCase_trans_ne {m n n' : Bytes} (h : eqIgnoreAsciiCase m n = true)
    (hne : eqIgnoreAsciiCase n n' = false) : eqIgnoreAsciiCase m n' = false := by
  simp only [eqIgnoreAsciiCase,beq_iff_eq,beq_eq_false_iff_ne] at h hne ⊢
  rw [h]
  exact hne

/-- The first field of a name stays the first. -/
theorem decorateHead_get (hg : r.get n = some v) (hl : Lasting n) : (decorateHead env ctx r).get n = some v := by
  have hadd : (ctx.matchedCore.addHeaders.foldl (addHeader env ctx) r).get n = some v := by
    obtain ⟨f,hf,hv⟩ := Option.map_eq_some_iff.mp hg
    rw [Resp.get,foldl_addHeader_hdrs,List.find?_append,hf,Option.some_or,Option.map_some,hv]
  have halt : ∀ {r' : Resp}, r'.get n = some v → (altSvc ctx.server r').get n = some v := by
    intro r' h
    unfold altSvc
    split
    · split
      · exact h
      · exact header_get h _ _
    · exact h
  simp only [decorateHead]
  apply halt
  split
  · unfold applyExpires
    split
    · exact hadd
    · exact set_get (set_get hadd fun m hm => eqIgnoreAsciiCase_trans_ne hm hl.1)
        fun m hm => eqIgnoreAsciiCase_trans_ne hm hl.2
  · exact hadd

end Fields

end OxiServe.Server
