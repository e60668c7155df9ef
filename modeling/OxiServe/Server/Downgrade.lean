import OxiServe.Http2.Request
import OxiServe.Server.ProxyHeadSafe

/-! # From a header list to an HTTP/1 head

A header list of HTTP/2 or HTTP/3 carries arbitrary text in its fields. The
request built from it gives the text back unchanged, and the head sent upstream
writes it unchanged, so whether that head holds exactly the fields of the list
depends on the list alone.
-/
namespace OxiServe.Request
variable {buf s t : Bytes} {r : Range}

theorem slice_append (h : r.stop ≤ buf.length) (s : Bytes) : OxiServe.slice (buf ++ s) r = OxiServe.slice buf r := by
  unfold OxiServe.slice Range.len
  by_cases hs : r.start ≤ buf.length
  · rw [List.drop_append_of_le_length hs,List.take_append_of_le_length]
    rw [List.length_drop]
    omega
  · have h0 : r.stop - r.start = 0 := by omega
    rw [h0,List.take_zero,List.take_zero]

theorem slice_last (buf s : Bytes) : OxiServe.slice (buf ++ s) ⟨buf.length,buf.length + s.length⟩ = s := by
  simp [OxiServe.slice,Range.len]

/-- The fields a request holds, as bytes of its buffer. -/
def Req.fields (self : Req) (buf : Bytes) : List (Bytes × Bytes) :=
  self.headers.map (fun h => (OxiServe.slice buf h.name,OxiServe.slice buf h.value))

/-- Every range of a request lies in its buffer. -/
structure Req.Within (q : Req) (buf : Bytes) : Prop where
  methodRaw : q.methodRaw.stop ≤ buf.length
  headers : ∀ h ∈ q.headers, h.name.stop ≤ buf.length ∧ h.value.stop ≤ buf.length

variable {q : Req}

theorem Req.Within.append (h : q.Within buf) (s : Bytes) : q.Within (buf ++ s) := by
  constructor
  · rw [List.length_append]
    exact Nat.le_add_right_of_le h.methodRaw
  · intro k hk
    rw [List.length_append]
    exact ⟨Nat.le_add_right_of_le (h.headers k hk).1,Nat.le_add_right_of_le (h.headers k hk).2⟩

theorem Req.Within.fields_append (h : q.Within buf) (s : Bytes) : q.fields (buf ++ s) = q.fields buf := by
  unfold Req.fields
  apply List.map_congr_left
  intro k hk
  rw [slice_append (h.headers k hk).1,slice_append (h.headers k hk).2]

/-- One field put at the end of the buffer and of the request. -/
def putField (acc : Bytes × Req) (f : Bytes × Bytes) : Bytes × Req :=
  (acc.1 ++ f.1 ++ f.2,acc.2.pushHeader (acc.1 ++ f.1 ++ f.2)
    ⟨⟨acc.1.length,acc.1.length + f.1.length⟩,
      ⟨acc.1.length + f.1.length,acc.1.length + f.1.length + f.2.length⟩⟩)

theorem putField_within {acc : Bytes × Req} (h : acc.2.Within acc.1) (f : Bytes × Bytes) :
    (putField acc f).2.Within (putField acc f).1 := by
  have hw := (h.append f.1).append f.2
  refine ⟨hw.methodRaw,?_⟩
  intro k hk
  rcases List.mem_append.mp hk with hk | hk
  · exact hw.headers k hk
  · obtain rfl := List.mem_singleton.mp hk
    simp only [putField,List.length_append]
    omega

theorem putField_fields {acc : Bytes × Req} (h : acc.2.Within acc.1) (f : Bytes × Bytes) :
    (putField acc f).2.fields (putField acc f).1 = acc.2.fields acc.1 ++ [f] := by
  have hname : OxiServe.slice (acc.1 ++ f.1 ++ f.2) ⟨acc.1.length,acc.1.length + f.1.length⟩ = f.1 := by
    rw [slice_append (by simp),slice_last]
  have hvalue : OxiServe.slice (acc.1 ++ f.1 ++ f.2)
      ⟨acc.1.length + f.1.length,acc.1.length + f.1.length + f.2.length⟩ = f.2 := by
    have h1 := slice_last (acc.1 ++ f.1) f.2
    rwa [List.length_append] at h1
  have hold := (h.append f.1).fields_append f.2
  rw [h.fields_append f.1] at hold
  rw [← hold]
  simp only [putField,Req.fields,Req.pushHeader,List.map_append,List.map_cons,List.map_nil,hname,hvalue]

theorem foldl_putField (fs : List (Bytes × Bytes)) {acc : Bytes × Req} (h : acc.2.Within acc.1) :
    (fs.foldl putField acc).2.fields (fs.foldl putField acc).1 = acc.2.fields acc.1 ++ fs ∧
      OxiServe.slice (fs.foldl putField acc).1 (fs.foldl putField acc).2.methodRaw =
        OxiServe.slice acc.1 acc.2.methodRaw := by
  induction fs generalizing acc with
  | nil => exact ⟨(List.append_nil _).symm,rfl⟩
  | cons f fs ih =>
    obtain ⟨h1,h2⟩ := ih (putField_within h f)
    simp only [List.foldl_cons]
    constructor
    · rw [h1,putField_fields h,List.append_assoc]
      rfl
    · rw [h2]
      simp only [putField,Req.pushHeader]
      rw [slice_append (h.append f.1).methodRaw,slice_append h.methodRaw]

/-- A request built from parts gives back its fields and its method. -/
theorem fromParts_fields (method target : Bytes) (fs : List (Bytes × Bytes)) :
    (Req.fromParts method target fs).2.fields (Req.fromParts method target fs).1 = fs ∧
      OxiServe.slice (Req.fromParts method target fs).1 (Req.fromParts method target fs).2.methodRaw = method := by
  have hstart {p : Range} {u : Range} : ({ Req.new with
      methodRaw := ⟨0,method.length⟩
      method := Method.parse method
      target := ⟨method.length,method.length + target.length⟩
      path := p
      query := u } : Req).Within (method ++ target) := by
    constructor
    · simp
    · intro k hk
      cases hk
  obtain ⟨h1,h2⟩ := @foldl_putField fs (method ++ target,_) hstart
  refine ⟨h1,h2.trans ?_⟩
  simp [OxiServe.slice,Range.len]

end OxiServe.Request

namespace OxiServe.Server
open Config Response Http1Head Http2
open Hpack (Header)

section Clean

/-- No carriage return, line feed or NUL. -/
def isCleanText (s : Bytes) : Bool := s.all (fun c => c != 13 && c != 10 && c != 0)

def isWhitespace (c : UInt8) : Bool := c == 32 || (9 ≤ c && c ≤ 13)

def isCleanName (s : Bytes) : Bool := isCleanText s && s.all (fun c => c != 58 && !isWhitespace c)

/-- Text for the request line: clean and without blanks. -/
def isCleanToken (s : Bytes) : Bool := isCleanText s && !s.contains 32

structure CleanParsed (p : Parsed) : Prop where
  method : isCleanToken p.method = true
  path : isCleanToken p.path = true
  authority : isCleanText p.authority = true
  ordinary : ∀ f ∈ p.ordinary, isCleanName f.1 = true ∧ isCleanText f.2 = true

/-- The same of the fields of a list; what the list says of its scheme is not
used any further. -/
structure CleanList (hs : List Header) : Prop where
  line : ∀ h ∈ hs, h.name = lit ":method" ∨ h.name = lit ":path" → isCleanToken h.value = true
  authority : ∀ h ∈ hs, h.name = lit ":authority" → isCleanText h.value = true
  ordinary : ∀ h ∈ hs, isOrdinary h = true → isCleanName h.name = true ∧ isCleanText h.value = true

theorem mem_pseudoValues {name v : Bytes} {hs : List Header} :
    v ∈ pseudoValues name hs ↔ ∃ h ∈ hs, h.name = 58 :: name ∧ h.value = v := by
  simp [pseudoValues,and_assoc]

theorem cleanParsed_iff {hs : List Header} {p : Parsed} (h : parseHeaders hs = .ok p) :
    CleanParsed p ↔ CleanList hs := by
  have ha := parseHeaders_accepts h
  have hm : lit ":method" = 58 :: lit "method" := rfl
  have hp : lit ":path" = 58 :: lit "path" := rfl
  have hau : lit ":authority" = 58 :: lit "authority" := rfl
  constructor
  · intro hc
    constructor
    · rintro f hf (hn | hn)
      · have hv : f.value ∈ pseudoValues (lit "method") hs := mem_pseudoValues.mpr ⟨f,hf,hn.trans hm,rfl⟩
        rw [ha.method] at hv
        rw [List.mem_singleton.mp hv]
        exact hc.method
      · have hv : f.value ∈ pseudoValues (lit "path") hs := mem_pseudoValues.mpr ⟨f,hf,hn.trans hp,rfl⟩
        rw [ha.path] at hv
        rw [List.mem_singleton.mp hv]
        exact hc.path
    · intro f hf hn
      have hv : f.value ∈ pseudoValues (lit "authority") hs := mem_pseudoValues.mpr ⟨f,hf,hn.trans hau,rfl⟩
      rcases ha.authority with h1 | ⟨h1,-⟩
      · rw [h1] at hv
        rw [List.mem_singleton.mp hv]
        exact hc.authority
      · rw [h1] at hv
        cases hv
    · intro f hf ho
      have hmem : (f.name,f.value) ∈ p.ordinary := by
        rw [ha.ordinary,ordinaryOf]
        exact List.mem_map.mpr ⟨f,List.mem_filter.mpr ⟨hf,ho⟩,rfl⟩
      exact hc.ordinary _ hmem
  · intro hc
    constructor
    · have hv : p.method ∈ pseudoValues (lit "method") hs := by simp [ha.method]
      obtain ⟨f,hf,hn,hv⟩ := mem_pseudoValues.mp hv
      exact hv ▸ hc.line f hf (Or.inl (hn.trans hm.symm))
    · have hv : p.path ∈ pseudoValues (lit "path") hs := by simp [ha.path]
      obtain ⟨f,hf,hn,hv⟩ := mem_pseudoValues.mp hv
      exact hv ▸ hc.line f hf (Or.inr (hn.trans hp.symm))
    · rcases ha.authority with h1 | ⟨-,h1⟩
      · have hv : p.authority ∈ pseudoValues (lit "authority") hs := by simp [h1]
        obtain ⟨f,hf,hn,hv⟩ := mem_pseudoValues.mp hv
        exact hv ▸ hc.authority f hf (hn.trans hau.symm)
      · rw [h1]
        rfl
    · intro f hf
      rw [ha.ordinary,ordinaryOf] at hf
      obtain ⟨g,hg,rfl⟩ := List.mem_map.mp hf
      obtain ⟨hg,ho⟩ := List.mem_filter.mp hg
      exact hc.ordinary g hg ho

end Clean

section Forwarded

/-- The names and values of a list are strings. -/
def AreStrings (hs : List Header) : Prop := ∀ h ∈ hs, utf8Valid h.name = true ∧ utf8Valid h.value = true

/-- The context holds the request that was built from a parsed list. -/
def Ctx.IsFor (ctx : Ctx) (p : Parsed) : Prop :=
  ∃ body r, p.handOver body = some r ∧ ctx.buf = r.buf ∧ ctx.req = r.req

variable {hs : List Header} {p : Parsed} {env : Env} {ctx : Ctx} {loc : Location} {pp : ProxyPass}
  {conf : ProxyConf} {addr : Bytes} {keep : Bool}

theorem isFor_fields (h : ctx.IsFor p) :
    ctx.req.fields ctx.buf = p.headers ∧ OxiServe.slice ctx.buf ctx.req.methodRaw = p.method := by
  obtain ⟨body,r,hr,hb,hq⟩ := h
  obtain ⟨h1,h2⟩ := Request.fromParts_fields p.method p.path p.headers
  unfold Parsed.handOver at hr
  dsimp only at hr
  split at hr
  · cases hr
    rw [hb,hq]
    split
    · exact ⟨h1,h2⟩
    · exact ⟨h1,h2⟩
  · cases hr

theorem utf8_parsed (hs' : AreStrings hs) (hp : parseHeaders hs = .ok p) :
    utf8Valid p.method = true ∧ ∀ f ∈ p.headers, utf8Valid f.1 = true ∧ utf8Valid f.2 = true := by
  have ha := parseHeaders_accepts hp
  have hvalue (name : Bytes) {v : Bytes} (hv : v ∈ pseudoValues name hs) : utf8Valid v = true := by
    obtain ⟨f,hf,-,rfl⟩ := mem_pseudoValues.mp hv
    exact (hs' f hf).2
  constructor
  · exact hvalue (lit "method") (by simp [ha.method])
  · intro f hf
    rcases List.mem_cons.mp hf with rfl | hf
    · have hhost : utf8Valid (lit "host") = true := by decide +kernel
      refine ⟨hhost,?_⟩
      rcases ha.authority with h1 | ⟨-,h1⟩
      · exact hvalue (lit "authority") (by simp [h1])
      · rw [h1]
        rfl
    · rw [ha.ordinary,ordinaryOf] at hf
      obtain ⟨g,hg,rfl⟩ := List.mem_map.mp hf
      exact hs' g (List.mem_filter.mp hg).1

theorem ctx_method (hs' : AreStrings hs) (hp : parseHeaders hs = .ok p) (hc : ctx.IsFor p) : ctx.method = p.method := by
  unfold Ctx.method Request.Req.slice
  dsimp only
  rw [(isFor_fields hc).2,if_pos (utf8_parsed hs' hp).1]

/-- The client's part of the head is the list's own fields. -/
theorem clientFields_eq (hs' : AreStrings hs) (hp : parseHeaders hs = .ok p) (hc : ctx.IsFor p) :
    clientFields ctx conf = p.headers.filter (fun f => isForwarded conf f.1) := by
  have hmap : ctx.req.headers.map (fun h =>
      (Request.Req.slice ctx.buf h.name,Request.Req.slice ctx.buf h.value)) = ctx.req.fields ctx.buf := by
    unfold Request.Req.fields
    apply List.map_congr_left
    intro k hk
    have hmem : (OxiServe.slice ctx.buf k.name,OxiServe.slice ctx.buf k.value) ∈ p.headers := by
      rw [← (isFor_fields hc).1]
      exact List.mem_map.mpr ⟨k,hk,rfl⟩
    obtain ⟨h1,h2⟩ := (utf8_parsed hs' hp).2 _ hmem
    unfold Request.Req.slice
    dsimp only at h1 h2 ⊢
    rw [if_pos h1,if_pos h2]
  unfold clientFields
  rw [hmap,(isFor_fields hc).1]

/-- Read again, the head is one request of the list's method whose fields are
the configured ones, the forwarded fields of the list and those of the hop. -/
def ForwardsExactly (p : Parsed) (env : Env) (ctx : Ctx) (loc : Location) (pp : ProxyPass) (conf : ProxyConf)
    (addr : Bytes) (keep : Bool) : Prop :=
  parse (buildRequestHead env ctx loc pp conf addr keep) =
    some ((p.method,upstreamUri env ctx loc pp,httpVersion conf),
      setFields env ctx conf ++ hostField conf addr ++ p.headers.filter (fun f => isForwarded conf f.1) ++
        lengthField ctx ++ connectionField keep,[])

theorem isLine_of_isCleanText {s : Bytes} (h : isCleanText s = true) : isLine s = true := by
  simp only [isCleanText,isLine,List.all_eq_true,Bool.and_eq_true] at h ⊢
  exact fun c hc => (h c hc).1

theorem isField_of_clean {f : Bytes × Bytes} (hne : f.1 ≠ []) (hn : isCleanName f.1 = true)
    (hv : isCleanText f.2 = true) : isField f = true := by
  simp only [isCleanName,Bool.and_eq_true,List.all_eq_true] at hn
  have h58 : (58 : UInt8) ∉ f.1 := by
    intro hm
    have := (hn.2 58 hm).1
    simp at this
  have h32 : (32 : UInt8) ∉ f.1 := by
    intro hm
    have := (hn.2 32 hm).2
    simp [isWhitespace] at this
  simp [isField,hne,h58,h32,isLine_of_isCleanText hn.1,isLine_of_isCleanText hv]

theorem forwardsExactly_iff (hs' : AreStrings hs) (hp : parseHeaders hs = .ok p) (hc : ctx.IsFor p) :
    ForwardsExactly p env ctx loc pp conf addr keep ↔ isPart p.method = true ∧
      isPart (upstreamUri env ctx loc pp) = true ∧ ∀ f ∈ requestFields env ctx conf addr keep, isField f = true := by
  have hfields : setFields env ctx conf ++ hostField conf addr ++ p.headers.filter (fun f => isForwarded conf f.1) ++
      lengthField ctx ++ connectionField keep = requestFields env ctx conf addr keep := by
    rw [requestFields,clientFields_eq hs' hp hc]
  unfold ForwardsExactly
  rw [hfields,buildRequestHead_eq,ctx_method hs' hp hc]
  constructor
  · intro h
    obtain ⟨-,hm,ht,-,hf⟩ := parse_sound h
    exact ⟨hm,ht,hf⟩
  · rintro ⟨hm,ht,hf⟩
    exact parse_serialise hm ht (isPart_httpVersion conf) hf

/-- What the text of the configuration and the rewritten target contribute. -/
structure CleanSetting (env : Env) (ctx : Ctx) (loc : Location) (pp : ProxyPass) (conf : ProxyConf)
    (addr : Bytes) : Prop where
  target : isPart (upstreamUri env ctx loc pp) = true
  configured : ∀ f ∈ setFields env ctx conf ++ hostField conf addr, isField f = true

theorem not_forwarded_host (conf : ProxyConf) : isForwarded conf (lit "host") = false := by
  have h : toAsciiLowercase (lit "host") = lit "host" := by decide
  simp [isForwarded,h]

theorem requestFields_clean (hs' : AreStrings hs) (hp : parseHeaders hs = .ok p) (hc : ctx.IsFor p)
    (hclean : CleanParsed p) (hset : ∀ f ∈ setFields env ctx conf ++ hostField conf addr, isField f = true) :
    ∀ f ∈ requestFields env ctx conf addr keep, isField f = true := by
  intro f hf
  rw [requestFields,clientFields_eq hs' hp hc] at hf
  rcases List.mem_append.mp hf with hf | hf
  · rcases List.mem_append.mp hf with hf | hf
    · rcases List.mem_append.mp hf with hf | hf
      · exact hset f hf
      · obtain ⟨hmem,hfwd⟩ := List.mem_filter.mp hf
        rcases List.mem_cons.mp hmem with rfl | hmem
        · rw [not_forwarded_host] at hfwd
          cases hfwd
        · obtain ⟨hn,hv⟩ := hclean.ordinary f hmem
          exact isField_of_clean ((parseHeaders_accepts hp).named f hmem) hn hv
    · unfold lengthField at hf
      split at hf
      · rw [List.mem_singleton.mp hf]
        have hname : isField (lit "Content-Length",[]) = true := by decide +kernel
        simp only [isField,Bool.and_eq_true] at hname ⊢
        exact ⟨hname.1,isLine_decimal _⟩
      · cases hf
  · rw [connectionField,List.mem_singleton] at hf
    rw [hf]
    cases keep
    · decide +kernel
    · decide +kernel

/-- An accepted list is free of delimiters and forwarded as it is exactly when its
own text is, it names a method, and the settings add no delimiter. -/
theorem downgraded_iff (hs' : AreStrings hs) (hp : parseHeaders hs = .ok p) (hc : ctx.IsFor p) :
    (CleanParsed p ∧ ForwardsExactly p env ctx loc pp conf addr keep) ↔
      CleanList hs ∧ (∀ h ∈ hs, h.name = lit ":method" → h.value ≠ []) ∧ CleanSetting env ctx loc pp conf addr := by
  have ha := parseHeaders_accepts hp
  have hm : lit ":method" = 58 :: lit "method" := rfl
  have hmethod : (∀ h ∈ hs, h.name = lit ":method" → h.value ≠ []) ↔ p.method ≠ [] := by
    constructor
    · intro h
      have hv : p.method ∈ pseudoValues (lit "method") hs := by simp [ha.method]
      obtain ⟨f,hf,hn,hv⟩ := mem_pseudoValues.mp hv
      exact hv ▸ h f hf (hn.trans hm.symm)
    · intro h f hf hn
      have hv : f.value ∈ pseudoValues (lit "method") hs := mem_pseudoValues.mpr ⟨f,hf,hn.trans hm,rfl⟩
      rw [ha.method] at hv
      rw [List.mem_singleton.mp hv]
      exact h
  rw [forwardsExactly_iff hs' hp hc,hmethod,← cleanParsed_iff hp]
  constructor
  · rintro ⟨hclean,hpm,hpt,hf⟩
    refine ⟨hclean,(isPart_iff.mp hpm).1,hpt,?_⟩
    intro f hmem
    exact hf f (by simp only [requestFields,List.mem_append] at hmem ⊢; tauto)
  · rintro ⟨hclean,hne,hset⟩
    refine ⟨hclean,?_,hset.target,requestFields_clean hs' hp hc hclean hset.configured⟩
    have htok := hclean.method
    simp only [isCleanToken,Bool.and_eq_true,Bool.not_eq_true',List.contains_eq_mem,decide_eq_false_iff_not] at htok
    exact isPart_iff.mpr ⟨hne,htok.2,isLine_of_isCleanText htok.1⟩

/-- The context of a request without a body, as its task makes it. -/
def ctxOf (hs : List Header) : Option (Parsed × Ctx) :=
  match parseHeaders hs with
  | .error _ => none
  | .ok p => (p.handOver []).map (fun r =>
      (p,Ctx.new r.buf r.req r.body .bare .bare r.uri none none (lit "https") 1 1))

theorem ctxOf_isFor (h : ctxOf hs = some (p,ctx)) : parseHeaders hs = .ok p ∧ ctx.IsFor p := by
  unfold ctxOf at h
  split at h
  · cases h
  · rename_i q hq
    obtain ⟨r,hr,he⟩ := Option.map_eq_some_iff.mp h
    cases he
    exact ⟨hq,[],r,hr,rfl,rfl⟩

def plainList : List Header :=
  [⟨lit ":method",lit "GET"⟩,⟨lit ":scheme",lit "https"⟩,⟨lit ":path",lit "/a"⟩,⟨lit ":authority",lit "h"⟩,
    ⟨lit "x-a",lit "1"⟩]

example : (plainList.map (fun h => h.name)).Nodup := by decide +kernel

theorem plainList_downgraded : ∃ p ctx, parseHeaders plainList = .ok p ∧ ctx.IsFor p ∧ CleanParsed p ∧
    ForwardsExactly p .idle ctx (.bare (.pfx (lit "/")) (.proxy passUnchanged)) passUnchanged .default
      (lit "app:80") false := by
  have h : (ctxOf plainList).map (fun x => isPart (upstreamUri .idle x.2
      (.bare (.pfx (lit "/")) (.proxy passUnchanged)) passUnchanged)) = some true := by decide +kernel
  obtain ⟨⟨p,ctx⟩,hx,ht⟩ := Option.map_eq_some_iff.mp h
  obtain ⟨hp,hc⟩ := ctxOf_isFor hx
  have hset : CleanSetting .idle ctx (.bare (.pfx (lit "/")) (.proxy passUnchanged)) passUnchanged .default
      (lit "app:80") := by
    refine ⟨ht,?_⟩
    intro f hf
    have hf : f ∈ [(lit "Host",lit "app:80")] := hf
    rw [List.mem_singleton.mp hf]
    decide +kernel
  have hstr : AreStrings plainList := by
    unfold AreStrings
    decide +kernel
  refine ⟨p,ctx,hp,hc,(downgraded_iff hstr hp hc).mpr ?_⟩
  exact ⟨⟨by decide +kernel,by decide +kernel,by decide +kernel⟩,by decide +kernel,hset⟩

/-- A line end in the value of an ordinary field. -/
def splitList : List Header :=
  [⟨lit ":method",lit "GET"⟩,⟨lit ":scheme",lit "https"⟩,⟨lit ":path",lit "/a"⟩,⟨lit ":authority",lit "h"⟩,
    ⟨lit "x-a",lit "1\r\nx-evil: 2"⟩]

theorem splitList_injects : ∃ p ctx, parseHeaders splitList = .ok p ∧ ctx.IsFor p ∧ ¬ CleanParsed p ∧
    ∃ line fs rest, parse (buildRequestHead .idle ctx (.bare (.pfx (lit "/")) (.proxy passUnchanged)) passUnchanged
      .default (lit "app:80") false) = some (line,fs,rest) ∧ (lit "x-evil",lit "2") ∈ fs ∧
        (lit "x-evil",lit "2") ∉ p.headers := by
  have h : (ctxOf splitList).map (fun x => ((parse (buildRequestHead .idle x.2
      (.bare (.pfx (lit "/")) (.proxy passUnchanged)) passUnchanged .default (lit "app:80") false)).map
        (fun r => r.2.1.contains (lit "x-evil",lit "2")),x.1.headers)) =
          some (some true,[(lit "host",lit "h"),(lit "x-a",lit "1\r\nx-evil: 2")]) := by decide +kernel
  obtain ⟨⟨p,ctx⟩,hx,hr⟩ := Option.map_eq_some_iff.mp h
  obtain ⟨hp,hc⟩ := ctxOf_isFor hx
  simp only [Prod.mk.injEq] at hr
  obtain ⟨⟨line,fs,rest⟩,hparse,hin⟩ := Option.map_eq_some_iff.mp hr.1
  refine ⟨p,ctx,hp,hc,?_,line,fs,rest,hparse,by simpa using hin,?_⟩
  · intro hclean
    have hl := (cleanParsed_iff hp).mp hclean
    have hv := (hl.ordinary ⟨lit "x-a",lit "1\r\nx-evil: 2"⟩ (by decide +kernel) (by decide +kernel)).2
    exact absurd hv (by decide +kernel)
  · rw [hr.2]
    decide +kernel

end Forwarded

end OxiServe.Server
