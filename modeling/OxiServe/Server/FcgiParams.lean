import OxiServe.Server.FastCgi
import OxiServe.Server.FcgiWire

/-! # The CGI environment sent to a FastCGI application

The records of a request and the name/value pairs inside them. The configured
parameters come first and one for every client header follows; several header
names map onto one parameter name, and nothing keeps a configured name free.
-/
namespace OxiServe.Fcgi

section Records

def requestId : ℕ := 1
def roleResponder : ℕ := 1
def flagKeepConn : UInt8 := 1

def pushHeader (ty : RecordType) (contentLen padding : ℕ) : Bytes :=
  [recordVersion,ty.code] ++ toBe 2 requestId ++ toBe 2 contentLen ++ [padding.toUInt8,0]

/-- The body is padded to a multiple of eight bytes. -/
def pushRecord (ty : RecordType) (body : Bytes) : Bytes :=
  let padding := (8 - body.length % 8) % 8
  pushHeader ty body.length padding ++ body ++ List.replicate padding 0

def pushBeginRequest (keepConn : Bool) : Bytes :=
  pushRecord .beginRequest (toBe 2 roleResponder ++ [if keepConn then flagKeepConn else 0,0,0,0,0,0])

/-- `slice::chunks`. -/
def chunks (n : ℕ) (b : Bytes) : List Bytes :=
  go b.length b
where
  go : ℕ → Bytes → List Bytes
    | 0, _ => []
    | fuel + 1, b => if b = [] then [] else b.take n :: go fuel (b.drop n)

/-- A stream is its chunks and an empty record. -/
def pushStream (ty : RecordType) (b : Bytes) : Bytes :=
  (chunks maxContent b).flatMap (pushRecord ty) ++ pushRecord ty []

def pushParams (params : Bytes) : Bytes := pushStream .params params

def pushStdin (body : Bytes) : Bytes := pushStream .stdin body

theorem be16_toBe (n : ℕ) : toBe 2 n = [(n / 256).toUInt8,n.toUInt8] := by
  rw [toBe_succ,toBe_succ]
  simp [toBe]

theorem length_pushRecord (ty : RecordType) (body : Bytes) :
    (pushRecord ty body).length = 8 + body.length + (8 - body.length % 8) % 8 := by
  simp only [pushRecord,pushHeader,List.length_append,List.length_cons,List.length_nil,length_toBe,
    List.length_replicate]

/-- A pushed record is one of the wire. -/
def pushed (ty : RecordType) (body : Bytes) (h : body.length ≤ maxContent) : WireRecord where
  ty := ty
  id1 := (requestId / 256).toUInt8
  id0 := requestId.toUInt8
  reserved := 0
  body := body
  pad := List.replicate ((8 - body.length % 8) % 8) 0
  body_le := h
  pad_le := by
    rw [List.length_replicate]
    omega

theorem pushRecord_eq (ty : RecordType) {body : Bytes} (h : body.length ≤ maxContent) :
    pushRecord ty body = (pushed ty body h).encode := by
  simp only [pushRecord,pushHeader,be16_toBe,List.cons_append,List.nil_append,
    WireRecord.encode,pushed,List.length_replicate]

/-- A record is read back whatever follows it. -/
theorem parseRecord_pushRecord (ty : RecordType) {body : Bytes} (h : body.length ≤ maxContent) (rest : Bytes) :
    parseRecord (pushRecord ty body ++ rest) = .ok ⟨ty,requestId,body,(pushRecord ty body).length⟩ := by
  have hid : be16 (requestId / 256).toUInt8 requestId.toUInt8 = requestId := be16_bytes (by decide)
  rw [pushRecord_eq ty h,WireRecord.parseRecord_encode,WireRecord.length_encode]
  simp only [pushed,hid]

end Records

section Pairs

/-- One byte below 128, else four with the top bit of the first one set. -/
def pushLen (n : ℕ) : Bytes :=
  if n < 128 then [n.toUInt8] else toBe 4 ((n % 2 ^ 32) ||| 0x80000000)

def pushNvPair (p : Bytes × Bytes) : Bytes :=
  pushLen p.1.length ++ pushLen p.2.length ++ p.1 ++ p.2

/-- The length at the front as the specification reads it, and the bytes behind it. -/
def readLen : Bytes → Option (ℕ × Bytes)
  | a :: r =>
    if a < 128 then some (a.toNat,r)
    else if r.length < 3 then none
    else some (ofBe (a :: r.take 3) % 2 ^ 31,r.drop 3)
  | [] => none

def readPair (b : Bytes) : Option ((Bytes × Bytes) × Bytes) :=
  match readLen b with
  | none => none
  | some (n,b) =>
    match readLen b with
    | none => none
    | some (v,b) =>
      if b.length < n + v then none
      else some ((b.take n,(b.drop n).take v),b.drop (n + v))

/-- Every pair of a parameter stream. -/
def readPairs (b : Bytes) : Option (List (Bytes × Bytes)) :=
  go b.length b
where
  go : ℕ → Bytes → Option (List (Bytes × Bytes))
    | _, [] => some []
    | 0, _ :: _ => none
    | fuel + 1, c :: r =>
      match readPair (c :: r) with
      | none => none
      | some (p,rest) => (go fuel rest).map (fun ps => p :: ps)

/-- The lengths a pair can carry. -/
def Carried (p : Bytes × Bytes) : Prop := p.1.length < 2 ^ 31 ∧ p.2.length < 2 ^ 31

theorem readLen_pushLen {n : ℕ} (h : n < 2 ^ 31) (rest : Bytes) :
    readLen (pushLen n ++ rest) = some (n,rest) := by
  have h128 : (128 : UInt8).toNat = 128 := rfl
  unfold pushLen
  by_cases hn : n < 128
  · rw [if_pos hn]
    have hlt : n.toUInt8 < 128 := by
      rw [UInt8.lt_iff_toNat_lt,h128]
      simp only [Nat.toUInt8_eq,UInt8.toNat_ofNat']
      omega
    have hv : n.toUInt8.toNat = n := by
      simp only [Nat.toUInt8_eq,UInt8.toNat_ofNat']
      omega
    simp only [List.cons_append,List.nil_append,readLen,if_pos hlt,hv]
  · rw [if_neg hn]
    have hm : n % 2 ^ 32 = n := Nat.mod_eq_of_lt (by omega)
    have hor : n ||| 0x80000000 = n + 2 ^ 31 := by
      rw [Nat.or_comm,Nat.add_comm]
      exact (Nat.two_pow_add_eq_or_of_lt h 1 |>.symm)
    rw [hm,hor,toBe_succ]
    have hge : ¬ ((n + 2 ^ 31) / 256 ^ 3).toUInt8 < 128 := by
      rw [UInt8.lt_iff_toNat_lt,h128]
      simp only [Nat.toUInt8_eq,UInt8.toNat_ofNat']
      omega
    have hback : (n + 2 ^ 31) % 256 ^ (3 + 1) % 2 ^ 31 = n := by omega
    have hl : (toBe 3 (n + 2 ^ 31)).length = 3 := length_toBe 3 _
    simp only [List.cons_append,readLen,if_neg hge,List.length_append,hl]
    rw [if_neg (by omega),List.take_left' hl,List.drop_left' hl,← toBe_succ,ofBe_toBe,hback]

theorem readPair_pushNvPair {p : Bytes × Bytes} (h : Carried p) (rest : Bytes) :
    readPair (pushNvPair p ++ rest) = some (p,rest) := by
  have hs : pushNvPair p ++ rest =
      pushLen p.1.length ++ (pushLen p.2.length ++ (p.1 ++ (p.2 ++ rest))) := by
    simp only [pushNvPair,List.append_assoc]
  have hd : (p.1 ++ (p.2 ++ rest)).drop (p.1.length + p.2.length) = rest := by
    rw [← List.append_assoc]
    exact List.drop_left' (by simp)
  rw [hs]
  simp only [readPair,readLen_pushLen h.1,readLen_pushLen h.2]
  rw [if_neg (by simp only [List.length_append]; omega),hd,List.take_left' rfl,List.drop_left' rfl,
    List.take_left' rfl]

theorem pushNvPair_ne_nil (p : Bytes × Bytes) : pushNvPair p ≠ [] := by
  have hl : pushLen p.1.length ≠ [] := by
    unfold pushLen
    split
    · simp
    · rw [toBe_succ]
      simp
  simp [pushNvPair,hl]

theorem readPairs_go {ps : List (Bytes × Bytes)} (h : ∀ p ∈ ps, Carried p) {fuel : ℕ}
    (hf : (ps.flatMap pushNvPair).length ≤ fuel) : readPairs.go fuel (ps.flatMap pushNvPair) = some ps := by
  induction ps generalizing fuel with
  | nil => cases fuel <;> rfl
  | cons p ps ih =>
    have hr := readPair_pushNvPair (h p List.mem_cons_self) (ps.flatMap pushNvPair)
    rw [List.flatMap_cons] at hf ⊢
    obtain ⟨c,r,hcr⟩ := List.exists_cons_of_ne_nil (pushNvPair_ne_nil p)
    rw [hcr] at hr hf ⊢
    simp only [List.cons_append,List.length_cons,List.length_append] at hr hf ⊢
    obtain ⟨fuel,rfl⟩ : ∃ k, fuel = k + 1 := ⟨fuel - 1,by omega⟩
    simp only [readPairs.go,hr]
    rw [ih (fun p hp => h p (List.mem_cons_of_mem _ hp)) (by omega)]
    rfl

/-- The application reads the pairs that were written. -/
theorem readPairs_flatMap {ps : List (Bytes × Bytes)} (h : ∀ p ∈ ps, Carried p) :
    readPairs (ps.flatMap pushNvPair) = some ps :=
  readPairs_go h (Nat.le_refl _)

end Pairs

section Streams

/-- The body of the next record of the stream; an empty one ends it. -/
def readStream (ty : RecordType) : ℕ → Bytes → Bytes → Option (Bytes × Bytes)
  | 0, _, _ => none
  | fuel + 1, acc, b =>
    match parseRecord b with
    | .error _ => none
    | .ok r =>
      if r.ty ≠ ty then none
      else if r.body = [] then some (acc,b.drop r.total)
      else readStream ty fuel (acc ++ r.body) (b.drop r.total)

theorem chunks_go {n fuel : ℕ} (hn : 0 < n) {b : Bytes} (hf : b.length ≤ fuel) :
    (chunks.go n fuel b).flatten = b ∧
      ∀ c ∈ chunks.go n fuel b, c ≠ [] ∧ c.length ≤ n := by
  induction fuel generalizing b with
  | zero =>
    have hb : b = [] := List.eq_nil_of_length_eq_zero (by omega)
    subst hb
    exact ⟨rfl,by simp [chunks.go]⟩
  | succ fuel ih =>
    by_cases hb : b = []
    · subst hb
      exact ⟨rfl,by simp [chunks.go]⟩
    · have hpos := List.length_pos_iff.mpr hb
      obtain ⟨h1,h2⟩ := ih (b := b.drop n) (by rw [List.length_drop]; omega)
      simp only [chunks.go,if_neg hb]
      constructor
      · rw [List.flatten_cons,h1,List.take_append_drop]
      · intro c hc
        rcases List.mem_cons.mp hc with rfl | hc
        · constructor
          · intro he
            have hl := congrArg List.length he
            rw [List.length_take,List.length_nil] at hl
            omega
          · exact List.length_take_le n b
        · exact h2 c hc

theorem readStream_records {ty : RecordType} {cs : List Bytes}
    (h : ∀ c ∈ cs, c ≠ [] ∧ c.length ≤ maxContent) (acc rest : Bytes) (fuel : ℕ) (hf : cs.length < fuel) :
    readStream ty fuel acc (cs.flatMap (pushRecord ty) ++ pushRecord ty [] ++ rest) =
      some (acc ++ cs.flatten,rest) := by
  induction cs generalizing acc fuel with
  | nil =>
    obtain ⟨fuel,rfl⟩ : ∃ k, fuel = k + 1 := ⟨fuel - 1,by omega⟩
    have hend : parseRecord (pushRecord ty [] ++ rest) = .ok ⟨ty,requestId,[],(pushRecord ty []).length⟩ :=
      parseRecord_pushRecord ty (by simp) rest
    simp only [List.flatMap_nil,List.nil_append,List.flatten_nil,List.append_nil,readStream,hend,ne_eq,
      not_true_eq_false,if_false,if_true,List.drop_left]
  | cons c cs ih =>
    obtain ⟨fuel,rfl⟩ : ∃ k, fuel = k + 1 := ⟨fuel - 1,by omega⟩
    obtain ⟨hc,hl⟩ := h c List.mem_cons_self
    have hr := parseRecord_pushRecord ty hl (cs.flatMap (pushRecord ty) ++ pushRecord ty [] ++ rest)
    have hn := ih (fun c hc => h c (List.mem_cons_of_mem _ hc)) (acc ++ c) fuel
      (by simp only [List.length_cons] at hf; omega)
    have hs : (c :: cs).flatMap (pushRecord ty) ++ pushRecord ty [] ++ rest =
        pushRecord ty c ++ (cs.flatMap (pushRecord ty) ++ pushRecord ty [] ++ rest) := by
      simp only [List.flatMap_cons,List.append_assoc]
    rw [hs]
    simp only [readStream,hr,ne_eq,not_true_eq_false,if_false,if_neg hc,List.drop_left]
    rw [hn,List.flatten_cons,List.append_assoc]

theorem length_le_flatMap_pushRecord (ty : RecordType) (cs : List Bytes) :
    cs.length ≤ (cs.flatMap (pushRecord ty)).length := by
  induction cs with
  | nil => exact Nat.le_refl _
  | cons c cs ih =>
    have := length_pushRecord ty c
    simp only [List.flatMap_cons,List.length_append,List.length_cons]
    omega

/-- A stream is read back whatever follows it. -/
theorem readStream_pushStream (ty : RecordType) (b rest : Bytes) :
    readStream ty (pushStream ty b ++ rest).length [] (pushStream ty b ++ rest) = some (b,rest) := by
  obtain ⟨h1,h2⟩ := chunks_go (n := maxContent) (by decide) (Nat.le_refl b.length)
  have hle := length_le_flatMap_pushRecord ty (chunks maxContent b)
  have hend := length_pushRecord ty []
  have hf : (chunks maxContent b).length < (pushStream ty b ++ rest).length := by
    simp only [pushStream,List.length_append]
    omega
  have hr := @readStream_records ty _ h2 [] rest _ hf
  rw [List.nil_append,h1] at hr
  exact hr

/-- Everything written to the application for one request. -/
def requestRecords (keepConn : Bool) (params body : Bytes) : Bytes :=
  pushBeginRequest keepConn ++ pushParams params ++ pushStdin body

/-- The application's view: the parameters and the body of the request. -/
def readRequest (b : Bytes) : Option (List (Bytes × Bytes) × Bytes) :=
  match parseRecord b with
  | .error _ => none
  | .ok r =>
    if r.ty ≠ .beginRequest then none
    else
      match readStream .params (b.drop r.total).length [] (b.drop r.total) with
      | none => none
      | some (params,b) =>
        match readPairs params, readStream .stdin b.length [] b with
        | some ps, some (body,[]) => some (ps,body)
        | _, _ => none

/-- The application reads the parameters and the body that were meant. -/
theorem readRequest_requestRecords (keepConn : Bool) {ps : List (Bytes × Bytes)} (h : ∀ p ∈ ps, Carried p)
    (body : Bytes) : readRequest (requestRecords keepConn (ps.flatMap pushNvPair) body) = some (ps,body) := by
  have hl : (toBe 2 roleResponder ++ [if keepConn then flagKeepConn else 0,0,0,0,0,0]).length ≤ maxContent := by
    simp [maxContent]
  have hb := parseRecord_pushRecord .beginRequest hl
    (pushParams (ps.flatMap pushNvPair) ++ pushStdin body)
  have hs := readStream_pushStream .stdin body []
  rw [List.append_nil] at hs
  simp only [requestRecords,pushBeginRequest,List.append_assoc,readRequest] at hb ⊢
  rw [hb]
  simp only [ne_eq,not_true_eq_false,if_false,List.drop_left]
  simp only [pushParams,pushStdin,readStream_pushStream,readPairs_flatMap h,hs]

end Streams

/-- Letters in upper case, dashes as underscores. -/
def paramByte (c : UInt8) : UInt8 := if c = 45 then 95 else if 97 ≤ c ∧ c ≤ 122 then c - 32 else c

def httpParamName (name : Bytes) : Bytes := lit "HTTP_" ++ name.map paramByte

/-- Two header names are one parameter when they differ in case and in dashes only. -/
theorem httpParamName_eq_iff {n m : Bytes} :
    httpParamName n = httpParamName m ↔ n.map paramByte = m.map paramByte :=
  List.append_right_inj _

end OxiServe.Fcgi

namespace OxiServe.Server
open Config Response Fcgi

structure FastCgiParam where
  name : Bytes
  value : Template
  ifNotEmpty : Bool

section Params
variable (env : Env) (ctx : Ctx) (params : List FastCgiParam)

def configuredPairs : List (Bytes × Bytes) :=
  (params.filter (fun p => !(p.ifNotEmpty && ctx.render env p.value == []))).map
    (fun p => (p.name,ctx.render env p.value))

/-- Fields with a parameter of their own name. -/
def hasOwnParam (name : Bytes) : Bool :=
  eqIgnoreAsciiCase name (lit "content-type") || eqIgnoreAsciiCase name (lit "content-length")

/-- Every client header as a parameter. -/
def clientPairs : List (Bytes × Bytes) :=
  ((ctx.req.headers.map (fun h =>
    (Request.Req.slice ctx.buf h.name,Request.Req.slice ctx.buf h.value))).filter
      (fun h => !hasOwnParam h.1)).map (fun h => (httpParamName h.1,h.2))

def paramPairs : List (Bytes × Bytes) := configuredPairs env ctx params ++ clientPairs ctx

def buildParams : Bytes := (paramPairs env ctx params).flatMap pushNvPair

/-- What the application is sent for a request. -/
theorem readRequest_buildParams (keepConn : Bool) (h : ∀ p ∈ paramPairs env ctx params, Carried p) :
    readRequest (requestRecords keepConn (buildParams env ctx params) ctx.body) =
      some (paramPairs env ctx params,ctx.body) :=
  readRequest_requestRecords keepConn h ctx.body

/-- The values a list of parameters gives a name, in order. -/
def valuesOf (name : Bytes) (ps : List (Bytes × Bytes)) : List Bytes :=
  (ps.filter (fun p => p.1 == name)).map Prod.snd

/-- Every configured name has its configured values and no other. -/
def ConfiguredOnly : Prop :=
  ∀ p ∈ params, valuesOf p.name (paramPairs env ctx params) = valuesOf p.name (configuredPairs env ctx params)

/-- No client header becomes the parameter of a configured name. -/
def NoHeaderNamed : Prop :=
  ∀ h ∈ ctx.req.headers, hasOwnParam (Request.Req.slice ctx.buf h.name) = false →
    ∀ p ∈ params, p.name ≠ lit "HTTP_" ++ (Request.Req.slice ctx.buf h.name).map paramByte

variable {env ctx params}

theorem valuesOf_append (name : Bytes) (ps qs : List (Bytes × Bytes)) :
    valuesOf name (ps ++ qs) = valuesOf name ps ++ valuesOf name qs := by
  simp only [valuesOf,List.filter_append,List.map_append]

theorem valuesOf_eq_nil {name : Bytes} {ps : List (Bytes × Bytes)} :
    valuesOf name ps = [] ↔ ∀ p ∈ ps, p.1 ≠ name := by
  simp only [valuesOf,List.map_eq_nil_iff,List.filter_eq_nil_iff,beq_iff_eq,ne_eq]

theorem mem_clientPairs {p : Bytes × Bytes} :
    p ∈ clientPairs ctx ↔
      ∃ h ∈ ctx.req.headers, hasOwnParam (Request.Req.slice ctx.buf h.name) = false ∧
        p = (httpParamName (Request.Req.slice ctx.buf h.name),Request.Req.slice ctx.buf h.value) := by
  simp only [clientPairs,List.mem_map,List.mem_filter,Bool.not_eq_true']
  constructor
  · rintro ⟨q,⟨⟨h,hh,rfl⟩,hq⟩,rfl⟩
    exact ⟨h,hh,hq,rfl⟩
  · rintro ⟨h,hh,hq,rfl⟩
    exact ⟨_,⟨⟨h,hh,rfl⟩,hq⟩,rfl⟩

/-- The configured names keep their values exactly when no client header is
spelled, up to case and dashes, like what follows `HTTP_` in one of them. -/
theorem configuredOnly_iff : ConfiguredOnly env ctx params ↔ NoHeaderNamed ctx params := by
  have hone : ∀ p : FastCgiParam,
      valuesOf p.name (paramPairs env ctx params) = valuesOf p.name (configuredPairs env ctx params) ↔
        ∀ q ∈ clientPairs ctx, q.1 ≠ p.name := by
    intro p
    rw [paramPairs,valuesOf_append,List.append_right_eq_self,valuesOf_eq_nil]
  constructor
  · intro h r hr hown p hp he
    exact (hone p).mp (h p hp) _ (mem_clientPairs.mpr ⟨r,hr,hown,rfl⟩) he.symm
  · intro h p hp
    apply (hone p).mpr
    intro q hq he
    obtain ⟨r,hr,hown,rfl⟩ := mem_clientPairs.mp hq
    exact h r hr hown p hp he.symm

/-- `fastcgi_param HTTP_PROXY ""`, and a client that sends `proxy: evil`. -/
def blankProxy : List FastCgiParam := [⟨lit "HTTP_PROXY",⟨[]⟩,false⟩]

def sendsProxy : Ctx :=
  let p := Request.Req.fromParts (lit "GET") (lit "/a") [(lit "proxy",lit "evil")]
  Ctx.new p.1 p.2 [] .bare .bare (lit "/a") none none (lit "https") 1 1

/-- The application reads the client's value after the configured one. -/
theorem blankedProxy_overridden :
    paramPairs .idle sendsProxy blankProxy = [(lit "HTTP_PROXY",[]),(lit "HTTP_PROXY",lit "evil")] ∧
      ¬ ConfiguredOnly .idle sendsProxy blankProxy := by
  have hp : paramPairs .idle sendsProxy blankProxy = [(lit "HTTP_PROXY",[]),(lit "HTTP_PROXY",lit "evil")] := by
    decide +kernel
  refine ⟨hp,?_⟩
  intro h
  have hv := h ⟨lit "HTTP_PROXY",⟨[]⟩,false⟩ List.mem_cons_self
  rw [hp] at hv
  exact absurd hv (by decide +kernel)

end Params

end OxiServe.Server

/-! ## The streams of a request read back

A stream is cut into records of at most 65535 bytes, each padded to a multiple of eight,
and one empty record ends it. Whatever its length, the records read back are those that
were written, and a part of a record is never taken for one.
-/
namespace OxiServe.Fcgi

/-- `Parses b rs`: records are read off the bytes one after the other, to their end. -/
inductive Parses : Bytes → List Record → Prop
  | nil : Parses [] []
  | cons {b : Bytes} {r : Record} {rs : List Record} :
    parseRecord b = .ok r → Parses (b.drop r.total) rs → Parses b (r :: rs)

/-- A record of our own with a payload that fills its bytes up to the padding. -/
structure Aligned (ty : RecordType) (r : Record) : Prop where
  ty : r.ty = ty
  requestId : r.requestId = requestId
  body_le : r.body.length ≤ maxContent
  aligned : 8 ∣ r.total
  padded : headerLen + r.body.length ≤ r.total ∧ r.total < headerLen + r.body.length + 8

/-- The bytes are records with some payload each, whose payloads are the input, and one
empty record behind them; there is no other way to read them. -/
def StreamOf (ty : RecordType) (input b : Bytes) : Prop :=
  ∃ rs last, (∀ l, Parses b l ↔ l = rs ++ [last]) ∧ (∀ r ∈ rs, Aligned ty r ∧ r.body ≠ []) ∧
    rs.flatMap Record.body = input ∧ Aligned ty last ∧ last.body = []

section Parses
variable {b : Bytes} {rs rs' : List Record} {ty : RecordType}

theorem Parses.unique (h : Parses b rs) (h' : Parses b rs') : rs = rs' := by
  induction h generalizing rs' with
  | nil =>
    cases h' with
    | nil => rfl
    | cons hp _ => cases hp
  | cons hp _ ih =>
    cases h' with
    | nil => cases hp
    | cons hp' h' =>
      cases hp.symm.trans hp'
      rw [ih h']

/-- The record that reading gives back of a pushed one. -/
def readBack (ty : RecordType) (body : Bytes) : Record := ⟨ty,requestId,body,(pushRecord ty body).length⟩

theorem aligned_readBack {body : Bytes} (h : body.length ≤ maxContent) : Aligned ty (readBack ty body) := by
  have hl := length_pushRecord ty body
  refine ⟨rfl,rfl,h,?_,?_⟩
  · apply Nat.dvd_of_mod_eq_zero
    simp only [readBack,hl]
    omega
  · simp only [readBack,hl,headerLen]
    omega

theorem parses_push {body rest : Bytes} (h : body.length ≤ maxContent) (hr : Parses rest rs) :
    Parses (pushRecord ty body ++ rest) (readBack ty body :: rs) := by
  apply Parses.cons (parseRecord_pushRecord ty h rest)
  rw [List.drop_left' rfl]
  exact hr

theorem parses_records {cs : List Bytes} (h : ∀ c ∈ cs, c.length ≤ maxContent) :
    Parses (cs.flatMap (pushRecord ty) ++ pushRecord ty []) (cs.map (readBack ty) ++ [readBack ty []]) := by
  induction cs with
  | nil =>
    have hlast : Parses (pushRecord ty [] ++ []) [readBack ty []] := parses_push (Nat.zero_le _) .nil
    rw [List.append_nil] at hlast
    exact hlast
  | cons c cs ih =>
    rw [List.flatMap_cons,List.append_assoc]
    exact parses_push (h c List.mem_cons_self) (ih (fun x hx => h x (List.mem_cons_of_mem _ hx)))

theorem streamOf_pushStream (ty : RecordType) (input : Bytes) : StreamOf ty input (pushStream ty input) := by
  obtain ⟨hall,hcs⟩ := chunks_go (n := maxContent) (by decide) (Nat.le_refl input.length)
  have hp : Parses (pushStream ty input) _ := parses_records (fun c hc => (hcs c hc).2)
  refine ⟨(chunks maxContent input).map (readBack ty),readBack ty [],?_,?_,?_,aligned_readBack (Nat.zero_le _),rfl⟩
  · intro l
    constructor
    · intro hl
      exact hl.unique hp
    · rintro rfl
      exact hp
  · intro r hr
    obtain ⟨c,hc,rfl⟩ := List.mem_map.mp hr
    obtain ⟨hne,hle⟩ := hcs c hc
    exact ⟨aligned_readBack hle,hne⟩
  · rw [List.flatMap_map]
    exact List.flatMap_id'.trans hall

/-- A record that is not there to its end. -/
theorem parseRecord_cut (r : WireRecord) {p : Bytes} (hp : p <+: r.encode) (hn : p ≠ r.encode) :
    parseRecord p = .error .incomplete := by
  obtain ⟨q,hq⟩ := hp
  have hlen : p.length < r.size := by
    have hq0 : q ≠ [] := by
      rintro rfl
      rw [List.append_nil] at hq
      exact hn hq
    have hpos := List.length_pos_of_ne_nil hq0
    rw [← r.length_encode,← hq,List.length_append]
    omega
  exact WireRecord.parseRecord_short (s := []) (by rw [hq,List.append_nil]) hlen

end Parses

/-- What is written to the application reads back: the parameter blob and the body, each
as records that end in one empty one; no strict prefix of a record is a record; and the
pairs, with the lengths of the specification. -/
theorem streams_round_trip :
    (∀ params, StreamOf .params params (pushParams params)) ∧
    (∀ body, StreamOf .stdin body (pushStdin body)) ∧
    (∀ (r : WireRecord) p, p <+: r.encode → p ≠ r.encode → parseRecord p = .error .incomplete) ∧
    (∀ ty body p, body.length ≤ maxContent → p <+: pushRecord ty body → p ≠ pushRecord ty body →
      parseRecord p = .error .incomplete) ∧
    (∀ ps : List (Bytes × Bytes), (∀ p ∈ ps, p.1.length < 2 ^ 31 ∧ p.2.length < 2 ^ 31) →
      readPairs (ps.flatMap pushNvPair) = some ps) := by
  refine ⟨streamOf_pushStream .params,streamOf_pushStream .stdin,?_,?_,?_⟩
  · intro r p hp hn
    exact parseRecord_cut r hp hn
  · intro ty body p hl hp hn
    rw [pushRecord_eq ty hl] at hp hn
    exact parseRecord_cut _ hp hn
  · intro ps hps
    exact readPairs_flatMap hps

theorem streams_round_trip_short :
    StreamOf .stdin [104,105] (pushStdin [104,105]) ∧
    parseRecord ((pushRecord .stdin [104,105]).take 15) = .error .incomplete ∧
    readPairs (pushNvPair ([65],[])) = some [([65],[])] := by
  refine ⟨streams_round_trip.2.1 _,?_,streams_round_trip.2.2.2.2 [([65],[])] (by decide)⟩
  exact streams_round_trip.2.2.2.1 .stdin [104,105] _ (by decide) (List.take_prefix _ _) (by decide)

end OxiServe.Fcgi
