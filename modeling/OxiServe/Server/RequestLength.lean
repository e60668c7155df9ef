import OxiServe.Http2.Spawning
import OxiServe.Http3.Request

/-! # The declared length of a request body

Both newer protocols frame a body themselves, so a content-length field is only
a statement about it. HTTP/2 compares the first such field with the body when it
reads as a number; HTTP/3 compares none.
-/
namespace OxiServe.Server
open Hpack (Header)
open Http2

def isLengthField (h : Header) : Bool := h.name == lit "content-length"

/-- Every content-length field is the length of the body in decimal digits. -/
def LengthsAgree (hs : List Header) (body : Bytes) : Prop :=
  ∀ h ∈ hs, isLengthField h = true → isDecimal h.value = true ∧ decimalValue h.value = body.length

/-- The content-length fields are decimal digits for one number of 64 bits. -/
structure OneLength (hs : List Header) : Prop where
  plain : ∀ h ∈ hs, isLengthField h = true → isDecimal h.value = true ∧ decimalValue h.value < 2 ^ 64
  same : ∀ h ∈ hs, ∀ k ∈ hs, isLengthField h = true → isLengthField k = true →
    decimalValue h.value = decimalValue k.value

/-- With the check HTTP/2 makes, agreement is a matter of the fields alone. -/
theorem lengthsAgree_iff {hs : List Header} {body : Bytes} (hb : body.length < 2 ^ 64)
    (hd : declaredLength hs = none ∨ declaredLength hs = some body.length) :
    LengthsAgree hs body ↔ OneLength hs := by
  constructor
  · intro h
    constructor
    · intro f hf hl
      obtain ⟨h1,h2⟩ := h f hf hl
      exact ⟨h1,h2 ▸ hb⟩
    · intro f hf g hg hlf hlg
      rw [(h f hf hlf).2,(h g hg hlg).2]
  · intro h f hf hl
    refine ⟨(h.plain f hf hl).1,?_⟩
    have hsome : (hs.find? (fun k => k.name == lit "content-length")).isSome = true := by
      rw [List.find?_isSome]
      exact ⟨f,hf,hl⟩
    obtain ⟨g,hg⟩ := Option.isSome_iff_exists.mp hsome
    have hgm := List.mem_of_find?_eq_some hg
    have hgl : isLengthField g = true := List.find?_some hg
    have hdecl : declaredLength hs = some (decimalValue g.value) := by
      rw [declaredLength,hg,Option.bind_some]
      exact parseUnsigned_of_isDecimal (h.plain g hgm hgl).1 (h.plain g hgm hgl).2
    rw [hdecl] at hd
    rcases hd with hd | hd
    · cases hd
    · rw [h.same f hf g hgm hl hgl]
      exact Option.some.inj hd

theorem handOver_body {p : Parsed} {body : Bytes} {r : Handed} (h : p.handOver body = some r) : r.body = body := by
  unfold Parsed.handOver at h
  dsimp only at h
  split at h
  · cases h
    rfl
  · cases h

theorem request_body {t : StreamTask} {r : Handed} (h : t.request = .ok r) : r.body = t.body := by
  unfold StreamTask.request at h
  split at h
  · cases h
  · split at h
    · cases h
    · rename_i hr
      cases h
      exact handOver_body hr

/-- The sender's own content-length fields are the decimal total of the DATA
frames it sent on the stream. -/
def DeclaresSent (input : Bytes) : Prop :=
  ∀ block fs fields, Http3.Carries input ((Http3.Kind.headers,block) :: fs) →
    Qpack.decode block Http3.maxFieldSection = .ok fields → ∀ h ∈ fields, isLengthField h = true →
      isDecimal h.value = true ∧
        decimalValue h.value = ((fs.filter (fun f => f.1 == Http3.Kind.data)).map (fun f => f.2.length)).sum

theorem length_dataOf (fs : List (ℕ × Bytes)) :
    (Http3.dataOf fs).length = ((fs.filter (fun f => f.1 == Http3.Kind.data)).map (fun f => f.2.length)).sum := by
  unfold Http3.dataOf
  rw [List.length_flatMap]

theorem http3_lengthsAgree_iff {maxBody : ℕ} {input : Bytes} {fields : List Header} {r : Handed}
    (h : Http3.request maxBody input = .handed fields r) : LengthsAgree fields r.body ↔ DeclaresSent input := by
  obtain ⟨block,fs,parsed,hc,hq,-,hr,-⟩ := Http3.request_handed h
  have hb := handOver_body hr
  constructor
  · intro ha block' fs' fields' hc' hq' f hf hl
    cases hc.deterministic hc'
    rw [hq] at hq'
    cases hq'
    rw [← length_dataOf,← hb]
    exact ha f hf hl
  · intro hd f hf hl
    rw [hb,length_dataOf]
    exact hd block fs fields hc hq f hf hl

/-- When the fields of a request that reaches the handler agree with its body. -/
theorem handed_lengthsAgree_iff (maxBody : ℕ) (hm : maxBody < 2 ^ 64) :
    (∀ es c, Runs (stepRel Conn.next) (Conn.new maxBody) es c → ∀ t ∈ spawned (Conn.new maxBody) es,
      ∀ r, t.request = .ok r → (LengthsAgree t.headers r.body ↔ OneLength t.headers)) ∧
    ∀ input fields r, Http3.request maxBody input = .handed fields r →
      (LengthsAgree fields r.body ↔ DeclaresSent input) := by
  constructor
  · intro es c hr t ht r hreq
    obtain ⟨_,_,_,_,-,-,-,-,hd⟩ := spawned_received hr t ht
    rw [request_body hreq]
    exact lengthsAgree_iff (Nat.lt_of_le_of_lt hd.fits hm) hd.length
  · intro input fields r h
    exact http3_lengthsAgree_iff h

/-- A POST of three bytes with its length. -/
def postThree : List Event :=
  [.frame (.of Kind.headers Flag.endHeaders 1 [0x83,0x86,0x84,0x0f,0x0d,1,51]),
    .frame (.of Kind.data Flag.endStream 1 [1,2,3])]

def postThreeTask : StreamTask :=
  ⟨1,[⟨lit ":method",lit "POST"⟩,⟨lit ":scheme",lit "http"⟩,⟨lit ":path",lit "/"⟩,⟨lit "content-length",lit "3"⟩],
    [1,2,3]⟩

theorem request_ok_of_isOk {t : StreamTask} (h : t.request.isOk = true) : ∃ r, t.request = .ok r := by
  cases hq : t.request with
  | error e =>
    rw [hq] at h
    cases h
  | ok r => exact ⟨r,rfl⟩

theorem postThree_lengthsAgree : ∃ c, Runs (stepRel Conn.next) (Conn.new 1024) postThree c ∧
    postThreeTask ∈ spawned (Conn.new 1024) postThree ∧ ∃ r, postThreeTask.request = .ok r ∧
      LengthsAgree postThreeTask.headers r.body := by
  have h : (runList Conn.next (Conn.new 1024) postThree).map (fun c => c.running) = some [1] := by decide +kernel
  obtain ⟨c,hc,-⟩ := Option.map_eq_some_iff.mp h
  have hr := Runs.of_runList hc
  have hmem : postThreeTask ∈ spawned (Conn.new 1024) postThree := by decide +kernel
  obtain ⟨r,hq⟩ := request_ok_of_isOk (t := postThreeTask) (by decide +kernel)
  refine ⟨c,hr,hmem,r,hq,?_⟩
  apply ((handed_lengthsAgree_iff 1024 (by decide)).1 postThree c hr _ hmem r hq).mpr
  exact ⟨by decide +kernel,by decide +kernel⟩

/-- Two lengths on HTTP/2, of which only the first is compared. -/
def twoLengths : List Event :=
  [.frame (.of Kind.headers (Flag.endStream ||| Flag.endHeaders) 1
    [0x83,0x86,0x84,0x0f,0x0d,1,48,0x0f,0x0d,1,53])]

def twoLengthsTask : StreamTask :=
  ⟨1,[⟨lit ":method",lit "POST"⟩,⟨lit ":scheme",lit "http"⟩,⟨lit ":path",lit "/"⟩,⟨lit "content-length",lit "0"⟩,
    ⟨lit "content-length",lit "5"⟩],[]⟩

/-- An HTTP/3 request stream that declares five bytes and sends none. -/
def shortUpload : Bytes := [0x01,0x08,0x00,0x00,0xd4,0xd6,0xc1,0x54,0x01,53]

def handedBody : Http3.Outcome → Option (List Header × Bytes)
  | .handed fields r => some (fields,r.body)
  | _ => none

theorem declaredLengths_disagree :
    (∃ c, Runs (stepRel Conn.next) (Conn.new 1024) twoLengths c ∧
      twoLengthsTask ∈ spawned (Conn.new 1024) twoLengths ∧ ∃ r, twoLengthsTask.request = .ok r ∧
        ¬ LengthsAgree twoLengthsTask.headers r.body) ∧
    ∃ fields r, Http3.request 1024 shortUpload = .handed fields r ∧ ¬ LengthsAgree fields r.body := by
  constructor
  · have h : (runList Conn.next (Conn.new 1024) twoLengths).map (fun c => c.running) = some [1] := by
      decide +kernel
    obtain ⟨c,hc,-⟩ := Option.map_eq_some_iff.mp h
    obtain ⟨r,hq⟩ := request_ok_of_isOk (t := twoLengthsTask) (by decide +kernel)
    refine ⟨c,Runs.of_runList hc,by decide +kernel,r,hq,fun ha => ?_⟩
    have hlast := (ha ⟨lit "content-length",lit "5"⟩ (by decide +kernel) (by decide +kernel)).2
    rw [request_body hq] at hlast
    exact absurd hlast (by decide +kernel)
  · have h : handedBody (Http3.request 1024 shortUpload) =
        some ([⟨lit ":method",lit "POST"⟩,⟨lit ":scheme",lit "http"⟩,⟨lit ":path",lit "/"⟩,
          ⟨lit "content-length",lit "5"⟩],[]) := by decide +kernel
    cases hq : Http3.request 1024 shortUpload with
    | nothing => rw [hq] at h; cases h
    | refused r => rw [hq] at h; cases h
    | handed fields r =>
      rw [hq] at h
      simp only [handedBody,Option.some.injEq,Prod.mk.injEq] at h
      obtain ⟨rfl,hb⟩ := h
      refine ⟨_,r,rfl,fun ha => ?_⟩
      have hlast := (ha ⟨lit "content-length",lit "5"⟩ (by decide +kernel) (by decide +kernel)).2
      rw [hb] at hlast
      exact absurd hlast (by decide +kernel)

end OxiServe.Server
