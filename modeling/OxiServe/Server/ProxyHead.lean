import OxiServe.Server.Ctx
import OxiServe.Lib.Utf8

/-! # The request head sent upstream

The request line and header fields `build_request_head` writes. The URI goes
out as it stands in the context, which is percent-decoded.
-/
namespace OxiServe.Server
open Config Response

/-- Headers that describe one hop and are never forwarded. -/
def hopByHop : List Bytes :=
  [lit "connection",lit "keep-alive",lit "proxy-authenticate",lit "proxy-authorization",lit "te",
    lit "trailer",lit "transfer-encoding",lit "upgrade"]

/-- A Unix socket path is no host. -/
def hostOf (addr : Bytes) : Bytes := if (lit "unix:").isPrefixOf addr then lit "localhost" else addr

def trimStartSlashes (s : Bytes) : Bytes := s.dropWhile (· == 47)

/-- Positions are valid only at a character boundary; past the end there is nothing. -/
def strFrom (s : Bytes) (i : ℕ) : Bytes :=
  match s[i]? with
  | none => []
  | some c => if isCont c then [] else s.drop i

/-- With a URI part the directive replaces the request URI, and a trailing slash
appends the unmatched remainder; without one the URI passes through. -/
def upstreamPath (env : Env) (ctx : Ctx) (loc : Location) (pp : ProxyPass) : Bytes :=
  match pp.uri with
  | some t =>
    let base := ctx.render env t
    match loc.matcher.prefixOf with
    | some p =>
      if base.getLast? = some 47 then base ++ trimStartSlashes (strFrom ctx.uri p.length) else base
    | none => base
  | none => ctx.uri

def upstreamUri (env : Env) (ctx : Ctx) (loc : Location) (pp : ProxyPass) : Bytes :=
  upstreamPath env ctx loc pp ++ (if ctx.args ≠ [] then lit "?" ++ ctx.args else [])

section Fields
variable (env : Env) (ctx : Ctx) (conf : ProxyConf)

/-- The configured fields; an empty value sends nothing. -/
def setFields : List (Bytes × Bytes) :=
  (conf.setHeaders.map (fun h => (h.1,ctx.render env h.2))).filter (fun h => h.2 ≠ [])

def overridden : List Bytes := conf.setHeaders.map (fun h => toAsciiLowercase h.1)

def hostField (addr : Bytes) : List (Bytes × Bytes) :=
  if conf.setHeaders.any (fun h => eqIgnoreAsciiCase h.1 (lit "host")) then []
  else [(lit "Host",hostOf addr)]

def isForwarded (name : Bytes) : Bool :=
  let lower := toAsciiLowercase name
  !(hopByHop.contains lower || lower == lit "host" || lower == lit "content-length" ||
    lower == lit "expect" || (overridden conf).contains lower || conf.hideHeaders.contains lower)

def clientFields : List (Bytes × Bytes) :=
  (ctx.req.headers.map (fun h =>
    (Request.Req.slice ctx.buf h.name,Request.Req.slice ctx.buf h.value))).filter
      (fun h => isForwarded conf h.1)

/-- The decoded body length replaces the client's framing. -/
def lengthField : List (Bytes × Bytes) :=
  if ctx.body ≠ [] then [(lit "Content-Length",decimal ctx.body.length)] else []

def connectionField (wantKeepalive : Bool) : List (Bytes × Bytes) :=
  [(lit "Connection",if wantKeepalive then lit "keep-alive" else lit "close")]

/-- Every field of the head in order. -/
def requestFields (addr : Bytes) (wantKeepalive : Bool) : List (Bytes × Bytes) :=
  setFields env ctx conf ++ hostField conf addr ++ clientFields ctx conf ++ lengthField ctx ++
    connectionField wantKeepalive

end Fields

def httpVersion (conf : ProxyConf) : Bytes := if conf.httpVersion11 then lit "HTTP/1.1" else lit "HTTP/1.0"

def buildRequestHead (env : Env) (ctx : Ctx) (loc : Location) (pp : ProxyPass) (conf : ProxyConf)
    (addr : Bytes) (wantKeepalive : Bool) : Bytes :=
  Request.Req.slice ctx.buf ctx.req.methodRaw ++ lit " " ++ upstreamUri env ctx loc pp ++ lit " " ++
    httpVersion conf ++ lit "\r\n" ++
    (requestFields env ctx conf addr wantKeepalive).flatMap Resp.fieldLine ++ lit "\r\n"

/-! ## The path sent upstream

A URI part of `proxy_pass` takes the place of the location's prefix. It does so where the
part ends in a slash and the remainder does not begin with one, or where nothing remains;
elsewhere the remainder is dropped, or its slashes are.
-/
section Substitution
open Config
variable {env : Env} {ctx : Ctx} {loc : Location} {pp : ProxyPass}

/-- The query, with its question mark, if there are arguments. -/
def queryOf (ctx : Ctx) : Bytes := if ctx.args ≠ [] then lit "?" ++ ctx.args else []

/-- The base stands for the prefix and the remainder follows it. -/
def Substitutes (base rest : Bytes) : Prop := if base.getLast? = some 47 then rest.head? ≠ some 47 else rest = []

instance (base rest : Bytes) : Decidable (Substitutes base rest) := by
  unfold Substitutes
  infer_instance

theorem trimStartSlashes_eq_self {s : Bytes} : trimStartSlashes s = s ↔ s.head? ≠ some 47 := by
  cases s with
  | nil => simp [trimStartSlashes]
  | cons c s =>
    by_cases hc : c = 47
    · subst hc
      constructor
      · intro h
        have hl := congrArg List.length h
        have hle := (List.dropWhile_suffix (l := s) (fun c : UInt8 => c == 47)).length_le
        simp only [trimStartSlashes,List.dropWhile_cons,beq_self_eq_true,if_true,List.length_cons] at hl
        omega
      · intro h
        exact absurd rfl h
    · simp [trimStartSlashes,hc]

/-- The remainder of a text behind a prefix that is one. -/
theorem strFrom_append {p rest : Bytes} (hp : utf8Valid p = true) (hu : utf8Valid (p ++ rest) = true) :
    strFrom (p ++ rest) p.length = rest := by
  have hr := utf8Valid_suffix hp rest hu
  unfold strFrom
  rw [List.getElem?_append_right (Nat.le_refl _),Nat.sub_self]
  cases rest with
  | nil => rfl
  | cons c rest =>
    rw [List.getElem?_cons_zero]
    dsimp only
    rw [if_neg (by rw [not_isCont_head hr]; exact Bool.false_ne_true),List.drop_left]

theorem upstreamPath_base {p rest : Bytes} {t : Template} (hpp : pp.uri = some t) (hl : loc.matcher.prefixOf = some p)
    (hu : ctx.uri = p ++ rest) (hp : utf8Valid p = true) (hv : utf8Valid ctx.uri = true) :
    upstreamPath env ctx loc pp = ctx.render env t ++
      if (ctx.render env t).getLast? = some 47 then trimStartSlashes rest else [] := by
  rw [hu] at hv
  simp only [upstreamPath,hpp,hl,hu,strFrom_append hp hv]
  split
  · rfl
  · exact (List.append_nil _).symm

/-- For a location with a prefix and a URI that begins with it, the URI part is put in its
place exactly in two of the cases; without a URI part the URI is sent as it is. -/
theorem upstreamUri_substitutes (env : Env) (ctx : Ctx) (loc : Location) (pp : ProxyPass) {p rest : Bytes}
    (hl : loc.matcher.prefixOf = some p) (hu : ctx.uri = p ++ rest) (hp : utf8Valid p = true)
    (hv : utf8Valid ctx.uri = true) :
    (pp.uri = none → upstreamUri env ctx loc pp = ctx.uri ++ queryOf ctx) ∧
      ∀ t, pp.uri = some t → (upstreamUri env ctx loc pp = ctx.render env t ++ rest ++ queryOf ctx ↔
        Substitutes (ctx.render env t) rest) := by
  constructor
  · intro hn
    simp only [upstreamUri,upstreamPath,hn]
    rfl
  · intro t ht
    have hq : upstreamUri env ctx loc pp = upstreamPath env ctx loc pp ++ queryOf ctx := rfl
    rw [hq,upstreamPath_base ht hl hu hp hv,List.append_left_inj,List.append_right_inj]
    unfold Substitutes
    split
    · exact trimStartSlashes_eq_self
    · exact eq_comm

/-- `location /api` with `proxy_pass http://app/v1`. -/
def versionedPass : ProxyPass := ⟨.addr (lit "app") 80,some (.literal (lit "/v1")),false⟩

def apiLocation : Location := .bare (.pfx (lit "/api")) (.proxy versionedPass)

theorem versioned_drops : ¬ ∀ (env : Env) (ctx : Ctx) (loc : Location) (pp : ProxyPass) (p rest : Bytes) (t : Template),
    loc.matcher.prefixOf = some p → ctx.uri = p ++ rest → utf8Valid p = true → utf8Valid ctx.uri = true →
      pp.uri = some t → upstreamUri env ctx loc pp = ctx.render env t ++ rest ++ queryOf ctx := by
  intro h
  have hsent := h .idle (getCtx (lit "/api/users")) apiLocation versionedPass (lit "/api") (lit "/users")
    (.literal (lit "/v1")) rfl (by decide +kernel) (by decide +kernel) (by decide +kernel) rfl
  exact absurd hsent (by decide +kernel)

/-- `location /api/` with `proxy_pass http://app/v1/`. -/
def slashedPass : ProxyPass := ⟨.addr (lit "app") 80,some (.literal (lit "/v1/")),false⟩

def slashedLocation : Location := .bare (.pfx (lit "/api/")) (.proxy slashedPass)

theorem slashed_substitutes : upstreamUri .idle (getCtx (lit "/api/users")) slashedLocation slashedPass =
    (getCtx (lit "/api/users")).render .idle (.literal (lit "/v1/")) ++ lit "users" ++
      queryOf (getCtx (lit "/api/users")) :=
  ((upstreamUri_substitutes .idle (getCtx (lit "/api/users")) slashedLocation slashedPass (p := lit "/api/") rfl
    (by decide +kernel) (by decide +kernel) (by decide +kernel)).2 _ rfl).mpr (by decide +kernel)

end Substitution

end OxiServe.Server
