import OxiServe.Http.RequestFraming
import OxiServe.Server.Downgrade
import OxiServe.Server.Entry

/-! # One host on every transport

A request can be put as an HTTP/1 head or as a header list, with its host as a
`Host` field or as the authority. Only HTTP/1 takes the port off before it picks
the server, and a list without an authority still gets a `Host` field, an empty
one in front of its own.
-/
namespace OxiServe.Server
open Config Request
open Hpack (Header)
open Http2 (Parsed StreamTask parseHeaders pseudoValues)

section Port

/-- A host without its port; an address literal keeps its brackets. -/
def stripPort (h : Bytes) : Bytes :=
  if h.head? = some 91 then
    match h.findIdx? (· == 93) with
    | some i => h.take (i + 1)
    | none => h
  else
    match h.reverse.findIdx? (· == 58) with
    | some i => h.take (h.length - 1 - i)
    | none => h

/-- A host without a port: nothing but dots behind the brackets, no colon where
there are none. -/
def isBare (h : Bytes) : Bool :=
  if h.head? = some 91 then
    match h.findIdx? (· == 93) with
    | some i => (h.drop (i + 1)).all (· == dot)
    | none => true
  else !h.contains 58

theorem host_eq_stripPort (q : Req) (buf : Bytes) : q.host buf = stripPort ((q.hotValue buf .host).getD []) := rfl

theorem findIdx?_split {c : UInt8} {s : Bytes} {i : ℕ} (h : s.findIdx? (· == c) = some i) :
    ∃ r, s = s.take i ++ c :: r ∧ (s.take i).length = i := by
  obtain ⟨hi,hc,-⟩ := List.findIdx?_eq_some_iff_getElem.mp h
  refine ⟨s.drop (i + 1),?_,by rw [List.length_take]; omega⟩
  have hc : s[i] = c := by simpa using hc
  rw [← hc,← List.drop_eq_getElem_cons hi,List.take_append_drop]

/-- The stripped host is the front of the host, which has a closing bracket or a
colon behind it when anything was taken off. -/
theorem stripPort_cases (h : Bytes) :
    (stripPort h = h ∧ isBare h = true) ∨
    (∃ a r, h = a ++ 93 :: r ∧ stripPort h = a ++ [93] ∧ isBare h = r.all (· == dot)) ∨
    (∃ a r, h = a ++ 58 :: r ∧ stripPort h = a ∧ isBare h = false) := by
  unfold stripPort isBare
  by_cases hb : h.head? = some 91
  · rw [if_pos hb,if_pos hb]
    cases hf : h.findIdx? (· == 93) with
    | none => exact Or.inl ⟨rfl,rfl⟩
    | some i =>
      obtain ⟨r,hr,hl⟩ := findIdx?_split hf
      refine Or.inr (Or.inl ⟨h.take i,r,hr,?_,?_⟩)
      · dsimp only
        nth_rewrite 1 [hr]
        rw [List.take_append,hl,List.take_of_length_le (by omega)]
        simp
      · have hd : h.drop (i + 1) = r := by
          rw [hr,List.drop_append,hl]
          simp [hl]
        simp only [hd]
  · rw [if_neg hb,if_neg hb]
    cases hf : h.reverse.findIdx? (· == 58) with
    | none =>
      refine Or.inl ⟨rfl,?_⟩
      rw [List.findIdx?_eq_none_iff] at hf
      simp only [Bool.not_eq_true',List.contains_eq_mem,decide_eq_false_iff_not]
      intro hm
      simpa using hf 58 (List.mem_reverse.mpr hm)
    | some i =>
      obtain ⟨r,hr,hl⟩ := findIdx?_split hf
      have hh : h = r.reverse ++ 58 :: (h.reverse.take i).reverse := by
        have := congrArg List.reverse hr
        simpa using this
      refine Or.inr (Or.inr ⟨r.reverse,_,hh,?_,?_⟩)
      · have hlen : h.length - 1 - i = r.reverse.length := by
          have := congrArg List.length hr
          simp only [List.length_reverse,List.length_append,List.length_cons,hl] at this ⊢
          omega
        dsimp only
        rw [hlen]
        nth_rewrite 1 [hh]
        rw [List.take_left]
      · simp only [Bool.not_eq_false',List.contains_eq_mem,decide_eq_true_eq]
        rw [hh]
        simp

theorem trimEndDots_stripPort {h : Bytes} (hb : isBare h = true) : trimEndDots (stripPort h) = trimEndDots h := by
  rcases stripPort_cases h with ⟨hs,-⟩ | ⟨a,r,rfl,hs,hd⟩ | ⟨a,r,-,-,hd⟩
  · rw [hs]
  · have hr : trimEndDots r = [] := trimEndDots_nil_iff.mpr (hd.symm.trans hb)
    rw [hs,trimEndDots_append_cons (by decide),trimEndDots_append_cons (by decide),hr]
    rfl
  · rw [hd] at hb
    cases hb

/-- A port shows in the length of the host. -/
theorem length_trimEndDots_stripPort {h : Bytes} (hb : isBare h = false) :
    (trimEndDots (stripPort h)).length < (trimEndDots h).length := by
  rcases stripPort_cases h with ⟨-,hd⟩ | ⟨a,r,rfl,hs,hd⟩ | ⟨a,r,rfl,hs,-⟩
  · rw [hd] at hb
    cases hb
  · have hr : trimEndDots r ≠ [] := by
      intro hnil
      rw [hd,trimEndDots_nil_iff.mp hnil] at hb
      cases hb
    have hp := List.length_pos_iff.mpr hr
    rw [hs,trimEndDots_append_cons (by decide),trimEndDots_append_cons (by decide)]
    have hnil : trimEndDots [] = [] := rfl
    simp only [hnil,List.length_append,List.length_cons,List.length_nil]
    omega
  · have hle := length_trimEndDots_le a
    rw [hs,trimEndDots_append_cons (by decide)]
    simp only [List.length_append,List.length_cons]
    omega

end Port

section Synthesised
variable {buf : Bytes} {q : Req}

/-- The `Host` slot points at the first field. -/
structure HostFirst (q : Req) : Prop where
  slot : q.hot .host = 0
  headers : q.headers ≠ []

theorem putField_hostFirst {acc : Bytes × Req} (h : HostFirst acc.2) (f : Bytes × Bytes) :
    HostFirst (putField acc f).2 := by
  constructor
  · simp only [putField,Req.pushHeader,h.slot]
    rw [if_neg]
    rintro ⟨-,hn⟩
    exact absurd hn (by decide)
  · simp [putField,Req.pushHeader]

theorem foldl_putField_hostFirst (fs : List (Bytes × Bytes)) {acc : Bytes × Req} (h : HostFirst acc.2) :
    HostFirst (fs.foldl putField acc).2 := by
  induction fs generalizing acc with
  | nil => exact h
  | cons f fs ih =>
    rw [List.foldl_cons]
    exact ih (putField_hostFirst h f)

theorem fromParts_hostFirst (method target v : Bytes) (fs : List (Bytes × Bytes)) :
    HostFirst (Req.fromParts method target ((lit "host",v) :: fs)).2 := by
  apply foldl_putField_hostFirst fs
  constructor
  · simp only [Req.pushHeader,Req.new]
    have hs : OxiServe.slice (method ++ target ++ lit "host" ++ v)
        ⟨(method ++ target).length,(method ++ target).length + (lit "host").length⟩ = lit "host" := by
      rw [slice_append (by simp [Nat.add_assoc]),slice_last]
    have hhot : hotOf (OxiServe.slice (method ++ target ++ lit "host" ++ v)
        ⟨(method ++ target).length,(method ++ target).length + (lit "host").length⟩) = some .host := by
      rw [hs]
      exact hotOf_name .host
    rw [if_pos ⟨hhot,trivial⟩]
    rfl
  · simp [Req.pushHeader]

theorem HostFirst.hotValue {v : Bytes} {fs : List (Bytes × Bytes)} (h : HostFirst q)
    (hf : q.fields buf = (lit "host",v) :: fs) : q.hotValue buf .host = some (lossy v) := by
  unfold Req.hotValue
  rw [h.slot,if_neg (by decide)]
  obtain ⟨hd,hs,hh⟩ := List.exists_cons_of_ne_nil h.headers
  rw [Req.fields,hh,List.map_cons] at hf
  have hv := congrArg Prod.snd (List.cons.inj hf).1
  rw [hh]
  simp only [UInt16.toNat_zero,List.getElem?_cons_zero,Option.map_some,Req.slice,lossy]
  dsimp only at hv
  rw [hv]

/-- The `Host` field of a context made from a list is the authority. -/
theorem isFor_host {ctx : Ctx} {p : Parsed} (h : ctx.IsFor p) :
    ctx.req.hotValue ctx.buf .host = some (lossy p.authority) := by
  have hfields := (isFor_fields h).1
  obtain ⟨body,r,hr,hb,hq⟩ := h
  refine HostFirst.hotValue ?_ hfields
  have hfirst := fromParts_hostFirst p.method p.path p.authority p.ordinary
  unfold Parsed.handOver at hr
  dsimp only at hr
  split at hr
  · cases hr
    rw [hq]
    split
    · exact ⟨hfirst.slot,hfirst.headers⟩
    · exact hfirst
  · cases hr

end Synthesised

section Requests

/-- A request apart from its transport: its other fields have lower-case names. -/
structure Asked where
  method : Bytes
  target : Bytes
  host : Bytes
  fields : List (Bytes × Bytes)

/-- The fields other than `Host`, their names in lower case. -/
def otherFields (fs : List (Bytes × Bytes)) : List (Bytes × Bytes) :=
  (fs.map (fun f => (toAsciiLowercase f.1,f.2))).filter (fun f => f.1 != lit "host")

/-- The request as an accepted HTTP/1 head. -/
structure OverHttp1 (a : Asked) (hp : Httparse) (q : Req) (i : Incoming) : Prop where
  complete : (q.parse hp i.buf).2 = .complete
  method : OxiServe.slice i.buf (q.parse hp i.buf).1.methodRaw = a.method
  target : OxiServe.slice i.buf (q.parse hp i.buf).1.target = a.target
  host : fieldValues (hp.fields i.buf) (lit "host") = [a.host]
  fields : otherFields (hp.fields i.buf) = a.fields

/-- Where a header list names the host. -/
inductive HostIn
  | authority
  | field
deriving DecidableEq, Repr

/-- The values the authority and the `host` fields of the list have. -/
def HostIn.Names (f : HostIn) (host : Bytes) (hs : List Header) (p : Parsed) : Prop :=
  match f with
  | .authority => pseudoValues (lit "authority") hs = [host] ∧ fieldValues p.ordinary (lit "host") = []
  | .field => pseudoValues (lit "authority") hs = [] ∧ fieldValues p.ordinary (lit "host") = [host]

/-- The request as an accepted header list. -/
structure InList (a : Asked) (f : HostIn) (hs : List Header) : Prop where
  strings : AreStrings hs
  accepted : ∃ p, parseHeaders hs = .ok p ∧ p.method = a.method ∧ p.path = a.target ∧
    otherFields p.ordinary = a.fields ∧ f.Names a.host hs p

/-- What a list makes of its host. -/
def HostIn.seen : HostIn → Bytes → Bytes
  | .authority, host => host
  | .field, _ => []

/-- The host comes through: it has no port, or it is empty where only a field has it. -/
def HostIn.keeps : HostIn → Bytes → Bool
  | .authority, host => isBare host
  | .field, host => host.isEmpty

variable {a : Asked} {f : HostIn} {hs : List Header} {p : Parsed}

theorem InList.authority (h : InList a f hs) (hp : parseHeaders hs = .ok p) : p.authority = f.seen a.host := by
  obtain ⟨p',hp',-,-,-,hn⟩ := h.accepted
  obtain rfl : p = p' := by
    rw [hp] at hp'
    exact Except.ok.inj hp'
  have ha := (Http2.parseHeaders_accepts hp).authority
  cases f with
  | authority =>
    obtain ⟨hone,-⟩ := hn
    rcases ha with ha | ⟨ha,-⟩
    · rw [hone] at ha
      exact (List.cons.inj ha).1.symm
    · rw [hone] at ha
      cases ha
  | field =>
    obtain ⟨hnone,-⟩ := hn
    rcases ha with ha | ⟨-,ha⟩
    · rw [hnone] at ha
      cases ha
    · exact ha

theorem InList.utf8_host (h : InList a f hs) : utf8Valid a.host = true := by
  obtain ⟨p,hp,-,-,-,hn⟩ := h.accepted
  cases f with
  | authority =>
    have hm : a.host ∈ pseudoValues (lit "authority") hs := by simp [hn.1]
    obtain ⟨g,hg,-,hv⟩ := mem_pseudoValues.mp hm
    exact hv ▸ (h.strings g hg).2
  | field =>
    have hm : a.host ∈ fieldValues p.ordinary (lit "host") := by simp [hn.2]
    obtain ⟨g,hg,hv⟩ := List.mem_map.mp hm
    have hg := List.mem_cons_of_mem (lit "host",p.authority) (List.mem_filter.mp hg).1
    exact hv ▸ ((utf8_parsed h.strings hp).2 g hg).2

end Requests

section Selection
variable {env : Env} {a b c : Ctx}

/-- Two contexts agree on the server and on every reading of the host. -/
structure SameHost (env : Env) (a b : Ctx) : Prop where
  server : a.server = b.server
  host : a.var env .host = b.var env .host
  httpHost : a.var env (.http (lit "host")) = b.var env (.http (lit "host"))
  field : a.req.hotValue a.buf .host = b.req.hotValue b.buf .host
  name : a.req.host a.buf = b.req.host b.buf

/-- Every reading of the host goes back to the field. -/
theorem sameHost_iff : SameHost env a b ↔
    a.server = b.server ∧ a.req.hotValue a.buf .host = b.req.hotValue b.buf .host := by
  constructor
  · intro h
    exact ⟨h.server,h.field⟩
  · rintro ⟨hs,hf⟩
    have hname : a.req.host a.buf = b.req.host b.buf := by
      rw [host_eq_stripPort,host_eq_stripPort,hf]
    refine ⟨hs,?_,?_,hf,hname⟩
    · simp only [Ctx.var,varFuel,varDepth,hname,hs]
    · have hhost : hotOf (lit "host") = some .host := hotOf_name .host
      simp only [Ctx.var,varFuel,varDepth,Req.header,hhost,hf]

/-- A context was given this server and this host. -/
structure Chose (ctx : Ctx) (server : ServerConf) (host : Bytes) : Prop where
  server : ctx.server = server
  field : ctx.req.hotValue ctx.buf .host = some host

theorem sameHost_of_chose {s t : ServerConf} {u v : Bytes} (ha : Chose a s u) (hb : Chose b t v) :
    SameHost env a b ↔ s = t ∧ u = v := by
  rw [sameHost_iff,ha.server,hb.server,ha.field,hb.field,Option.some_inj]

variable {l : Listener} {w : Wire} {hp : Httparse} {q : Req} {n : ℕ} {i : Incoming} {e : BodyEnd} {r : Asked}
  {f : HostIn} {t : StreamTask} {input : Bytes} {fields : List Header}

theorem http1_chose (hr : OverHttp1 r hp q i) (hu : utf8Valid r.host = true)
    (h : http1 l w hp q n i = some (c,e)) : Chose c (l.matchHost (stripPort r.host)) r.host := by
  obtain ⟨hc,hb,hq,hs,-⟩ := http1_some h
  have hfield : c.req.hotValue i.buf .host = some r.host := by
    rw [hq,parse_complete_hotValue hc]
    have hv : fieldValues (hp.fields i.buf) Hot.host.name = [r.host] := hr.host
    rw [hv]
    simp only [List.head?_cons,Option.map_some,lossy,if_pos hu]
  refine ⟨?_,hb ▸ hfield⟩
  rw [hs,host_eq_stripPort,hfield]
  rfl

theorem listCtx_chose {p : Parsed} {scheme body : Bytes} {h : Http2.Handed} (hr : InList r f fields)
    (hp : parseHeaders fields = .ok p) (hh : p.handOver body = some h) :
    Chose (listCtx l w scheme n p h) (l.matchHost (f.seen r.host)) (f.seen r.host) := by
  have ha := hr.authority hp
  refine ⟨by rw [← ha]; rfl,?_⟩
  have hfor : (listCtx l w scheme n p h).IsFor p := ⟨body,h,hh,rfl,rfl⟩
  have hu : utf8Valid p.authority = true := by
    exact ((utf8_parsed hr.strings hp).2 (lit "host",p.authority) List.mem_cons_self).2
  rw [isFor_host hfor,lossy,if_pos hu,ha]

theorem http2_chose (hr : InList r f t.headers) (h : http2 l w t = some c) :
    Chose c (l.matchHost (f.seen r.host)) (f.seen r.host) := by
  obtain ⟨p,hd,hp,hh,rfl⟩ := http2_some h
  exact listCtx_chose hr hp hh

theorem http3_chose (ha : Http3.Asks input fields) (hr : InList r f fields) (h : http3 l w n input = some c) :
    Chose c (l.matchHost (f.seen r.host)) (f.seen r.host) := by
  obtain ⟨fields',p,body,hd,hreq,hp,hh,rfl⟩ := http3_some h
  obtain rfl := (Http3.request_asks hreq).deterministic ha
  exact listCtx_chose hr hp hh

end Selection

section Listeners

/-- Two servers with the same directives, the second of which has a name. -/
def contrast (core : CoreConf) (host : Bytes) : Listener where
  servers := [{ ServerConf.bare with core := core },
    { ServerConf.bare with core := core, names := [if host = [] then .empty else .exact host] }]
  defaultServer := 0
  default_lt := Nat.zero_lt_succ _

theorem matchHost_contrast (core : CoreConf) (host h : Bytes) :
    (contrast core host).matchHost h =
      if eqIgnoreAsciiCase (trimEndDots h) host then
        { ServerConf.bare with core := core, names := [if host = [] then .empty else .exact host] }
      else { ServerConf.bare with core := core } := by
  by_cases hn : host = []
  · subst hn
    have he : eqIgnoreAsciiCase (trimEndDots h) [] = (trimEndDots h).isEmpty := by
      cases trimEndDots h with
      | nil => rfl
      | cons x s => rfl
    cases hd : (trimEndDots h).isEmpty with
    | true => simp [contrast,Listener.matchHost,scanServers,scanNames,ServerConf.bare,he,hd]
    | false =>
      simp [contrast,Listener.matchHost,scanServers,scanNames,ServerConf.bare,he,hd,matchesRegex,Listener.default]
  · cases he : eqIgnoreAsciiCase (trimEndDots h) host with
    | true => simp [contrast,Listener.matchHost,scanServers,scanNames,ServerConf.bare,he,hn]
    | false =>
      simp [contrast,Listener.matchHost,scanServers,scanNames,ServerConf.bare,he,hn,matchesRegex,Listener.default]

/-- A host with a port and the host without it are told apart by some listener. -/
theorem contrast_splits (core : CoreConf) {h : Bytes} (hb : isBare h = false) :
    (contrast core (trimEndDots (stripPort h))).matchHost (stripPort h) ≠
      (contrast core (trimEndDots (stripPort h))).matchHost h := by
  have hself : eqIgnoreAsciiCase (trimEndDots (stripPort h)) (trimEndDots (stripPort h)) = true :=
    eqIgnoreAsciiCase_iff.mpr rfl
  have hother : ¬ eqIgnoreAsciiCase (trimEndDots h) (trimEndDots (stripPort h)) = true := by
    intro he
    have hlen := length_eq_of_eqIgnoreAsciiCase he
    have hlt := length_trimEndDots_stripPort hb
    omega
  rw [matchHost_contrast,matchHost_contrast,if_pos hself,if_neg hother]
  intro he
  have hn := congrArg ServerConf.names he
  cases hn

/-- All listeners with one limit read the host as HTTP/1 does exactly when it comes through. -/
theorem keeps_iff (f : HostIn) (host : Bytes) (core : CoreConf) : f.keeps host = true ↔
    ∀ l : Listener, listenerLimit l = core.clientMaxBodySize →
      l.matchHost (stripPort host) = l.matchHost (f.seen host) ∧ host = f.seen host := by
  have hlimit (h : Bytes) : listenerLimit (contrast core h) = core.clientMaxBodySize := rfl
  cases f with
  | authority =>
    constructor
    · intro hb l _
      exact ⟨l.matchHost_congr (trimEndDots_stripPort hb),rfl⟩
    · intro hall
      by_contra hb
      exact contrast_splits core (Bool.not_eq_true _ ▸ hb) (hall _ (hlimit _)).1
  | field =>
    constructor
    · intro he l _
      obtain rfl := List.isEmpty_iff.mp he
      exact ⟨rfl,rfl⟩
    · intro hall
      exact List.isEmpty_iff.mpr (hall _ (hlimit [])).2

end Listeners

section Transports
variable {env : Env} {hp : Httparse} {q : Req} {i : Incoming} {t : StreamTask} {input : Bytes}
  {fields : List Header} {r : Asked} {f g : HostIn} {w₁ w₂ w₃ : Wire} {m n : ℕ}

/-- Served over all three transports, the request meets the same server and the
same host, whatever the listener. -/
def AgreesEverywhere (env : Env) (w₁ w₂ w₃ : Wire) (hp : Httparse) (q : Req) (m n : ℕ) (i : Incoming)
    (t : StreamTask) (input : Bytes) : Prop :=
  ∀ l c₁ e c₂ c₃, http1 l w₁ hp q m i = some (c₁,e) → http2 l w₂ t = some c₂ → http3 l w₃ n input = some c₃ →
    SameHost env c₁ c₂ ∧ SameHost env c₁ c₃

theorem agreesEverywhere_iff (h1 : OverHttp1 r hp q i) (h2 : InList r f t.headers)
    (ha : Http3.Asks input fields) (h3 : InList r g fields)
    (hs : ∃ l c₁ c₂ c₃, http1 l w₁ hp q m i = some c₁ ∧ http2 l w₂ t = some c₂ ∧ http3 l w₃ n input = some c₃) :
    AgreesEverywhere env w₁ w₂ w₃ hp q m n i t input ↔ f.keeps r.host = true ∧ g.keeps r.host = true := by
  have hu := h2.utf8_host
  have hstep {l : Listener} {c₁ c₂ c₃ : Ctx} {e : BodyEnd} (k1 : http1 l w₁ hp q m i = some (c₁,e))
      (k2 : http2 l w₂ t = some c₂) (k3 : http3 l w₃ n input = some c₃) : SameHost env c₁ c₂ ∧ SameHost env c₁ c₃ ↔
        (l.matchHost (stripPort r.host) = l.matchHost (f.seen r.host) ∧ r.host = f.seen r.host) ∧
        (l.matchHost (stripPort r.host) = l.matchHost (g.seen r.host) ∧ r.host = g.seen r.host) :=
    and_congr (sameHost_of_chose (http1_chose h1 hu k1) (http2_chose h2 k2))
      (sameHost_of_chose (http1_chose h1 hu k1) (http3_chose ha h3 k3))
  obtain ⟨l₀,c₁,c₂,c₃,k1,k2,k3⟩ := hs
  rw [keeps_iff f r.host l₀.default.core,keeps_iff g r.host l₀.default.core]
  constructor
  · intro h
    have hall (l : Listener) (hl : listenerLimit l = l₀.default.core.clientMaxBodySize) :
        (l.matchHost (stripPort r.host) = l.matchHost (f.seen r.host) ∧ r.host = f.seen r.host) ∧
        (l.matchHost (stripPort r.host) = l.matchHost (g.seen r.host) ∧ r.host = g.seen r.host) := by
      obtain ⟨d₁,e,j1⟩ := http1_transfer k1 l
      obtain ⟨d₂,j2⟩ := http2_transfer k2 l
      obtain ⟨d₃,j3⟩ := http3_transfer k3 hl
      exact (hstep j1 j2 j3).mp (h l d₁ e d₂ d₃ j1 j2 j3)
    exact ⟨fun l hl => (hall l hl).1,fun l hl => (hall l hl).2⟩
  · rintro ⟨hf,hg⟩ l d₁ e d₂ d₃ j1 j2 j3
    have hf' := (keeps_iff f r.host l.default.core).mp ((keeps_iff f r.host l₀.default.core).mpr hf) l rfl
    have hg' := (keeps_iff g r.host l.default.core).mp ((keeps_iff g r.host l₀.default.core).mpr hg) l rfl
    exact (hstep j1 j2 j3).mpr ⟨hf',hg'⟩

/-- `GET / HTTP/1.1` with the host `a`, or with `a:81`. -/
def plainHead : Bytes := lit "GET / HTTP/1.1\r\nHost: a\r\n\r\n"

def portHead : Bytes := lit "GET / HTTP/1.1\r\nHost: a:81\r\n\r\n"

def plainHttparse : Httparse :=
  .only plainHead { len := 27, method := some ⟨0,3⟩, path := some ⟨4,5⟩, version := some 1, headers := [⟨⟨16,20⟩,⟨22,23⟩⟩] }
    (by decide +kernel) (by decide)

def portHttparse : Httparse :=
  .only portHead { len := 30, method := some ⟨0,3⟩, path := some ⟨4,5⟩, version := some 1, headers := [⟨⟨16,20⟩,⟨22,26⟩⟩] }
    (by decide +kernel) (by decide)

/-- The same request as a header list. -/
def hostList (host : Bytes) : List Header :=
  [⟨lit ":method",lit "GET"⟩,⟨lit ":scheme",lit "https"⟩,⟨lit ":path",lit "/"⟩,⟨lit ":authority",host⟩]

/-- The list as a HEADERS frame on a stream of HTTP/3. -/
def hostStream (host : Bytes) : Bytes :=
  [1,(7 + host.length).toUInt8,0,0,0xd1,0xd7,0xc1,0x50,host.length.toUInt8] ++ host

def plainWire : Wire := ⟨.bare,none,none,lit "http",1⟩

def requestFor (host : Bytes) : Asked := ⟨lit "GET",lit "/",host,[]⟩

/-- The header list of a request that was handed over. -/
def handedFields : Http3.Outcome → Option (List Header)
  | .handed fields _ => some fields
  | _ => none

theorem asks_of_handedFields (n : ℕ) (h : handedFields (Http3.request n input) = some fields) :
    Http3.Asks input fields := by
  unfold handedFields at h
  split at h
  · rename_i fs d hd
    cases h
    exact Http3.request_asks hd
  · cases h

theorem plainHost_agrees : AgreesEverywhere .idle plainWire plainWire plainWire plainHttparse .new 1 1
    ⟨plainHead,[],false⟩ ⟨1,hostList (lit "a"),[]⟩ (hostStream (lit "a")) := by
  have h1 : OverHttp1 (requestFor (lit "a")) plainHttparse .new ⟨plainHead,[],false⟩ :=
    ⟨by decide +kernel,by decide +kernel,by decide +kernel,by decide +kernel,by decide +kernel⟩
  have h2 : InList (requestFor (lit "a")) .authority (hostList (lit "a")) := by
    refine ⟨by unfold AreStrings; decide +kernel,⟨lit "GET",lit "/",lit "a",[]⟩,by decide +kernel,rfl,rfl,rfl,?_,rfl⟩
    decide +kernel
  have h3 : Http3.Asks (hostStream (lit "a")) (hostList (lit "a")) :=
    asks_of_handedFields 0 (by decide +kernel)
  have k1 : (http1 (contrast defaultCore []) plainWire plainHttparse .new 1 ⟨plainHead,[],false⟩).isSome = true := by
    decide +kernel
  have k2 : (http2 (contrast defaultCore []) plainWire ⟨1,hostList (lit "a"),[]⟩).isSome = true := by decide +kernel
  have k3 : (http3 (contrast defaultCore []) plainWire 1 (hostStream (lit "a"))).isSome = true := by decide +kernel
  obtain ⟨c₁,j1⟩ := Option.isSome_iff_exists.mp k1
  obtain ⟨c₂,j2⟩ := Option.isSome_iff_exists.mp k2
  obtain ⟨c₃,j3⟩ := Option.isSome_iff_exists.mp k3
  exact (agreesEverywhere_iff h1 h2 h3 h2 ⟨_,c₁,c₂,c₃,j1,j2,j3⟩).mpr ⟨by decide +kernel,by decide +kernel⟩

/-- With its port the authority misses the server the `Host` field finds. -/
theorem portHost_splits : ∃ l c₁ e c₂ c₃, http1 l plainWire portHttparse .new 1 ⟨portHead,[],false⟩ = some (c₁,e) ∧
    http2 l plainWire ⟨1,hostList (lit "a:81"),[]⟩ = some c₂ ∧
    http3 l plainWire 1 (hostStream (lit "a:81")) = some c₃ ∧
    OverHttp1 (requestFor (lit "a:81")) portHttparse .new ⟨portHead,[],false⟩ ∧
    InList (requestFor (lit "a:81")) .authority (hostList (lit "a:81")) ∧
    Http3.Asks (hostStream (lit "a:81")) (hostList (lit "a:81")) ∧
    ∀ env, ¬ SameHost env c₁ c₂ ∧ ¬ SameHost env c₁ c₃ := by
  have h1 : OverHttp1 (requestFor (lit "a:81")) portHttparse .new ⟨portHead,[],false⟩ :=
    ⟨by decide +kernel,by decide +kernel,by decide +kernel,by decide +kernel,by decide +kernel⟩
  have h2 : InList (requestFor (lit "a:81")) .authority (hostList (lit "a:81")) := by
    refine ⟨by unfold AreStrings; decide +kernel,⟨lit "GET",lit "/",lit "a:81",[]⟩,by decide +kernel,rfl,rfl,rfl,?_,rfl⟩
    decide +kernel
  have h3 : Http3.Asks (hostStream (lit "a:81")) (hostList (lit "a:81")) :=
    asks_of_handedFields 0 (by decide +kernel)
  have k1 : (http1 (contrast defaultCore (lit "a")) plainWire portHttparse .new 1 ⟨portHead,[],false⟩).map
      (fun c => c.1.server.names.length) = some 1 := by decide +kernel
  have k2 : (http2 (contrast defaultCore (lit "a")) plainWire ⟨1,hostList (lit "a:81"),[]⟩).map
      (fun c => c.server.names.length) = some 0 := by decide +kernel
  have k3 : (http3 (contrast defaultCore (lit "a")) plainWire 1 (hostStream (lit "a:81"))).map
      (fun c => c.server.names.length) = some 0 := by decide +kernel
  obtain ⟨⟨c₁,e⟩,j1,n1⟩ := Option.map_eq_some_iff.mp k1
  obtain ⟨c₂,j2,n2⟩ := Option.map_eq_some_iff.mp k2
  obtain ⟨c₃,j3,n3⟩ := Option.map_eq_some_iff.mp k3
  refine ⟨_,c₁,e,c₂,c₃,j1,j2,j3,h1,h2,h3,?_⟩
  have hsplit {d : Ctx} (hd : d.server.names.length = 0) (env : Env) : ¬ SameHost env c₁ d := by
    intro h
    rw [h.server,hd] at n1
    cases n1
  exact fun env => ⟨hsplit n2 env,hsplit n3 env⟩

end Transports

end OxiServe.Server
