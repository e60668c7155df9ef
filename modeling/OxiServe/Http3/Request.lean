import OxiServe.Http2.Request
import OxiServe.Http3.Qpack

/-! # A request stream of HTTP/3

Frame headers are two variable-length integers. A request is read from one
stream, from its first byte to its end: the field section, then the body frames.
Reading is a function of the bytes alone, however they arrive.
-/
namespace OxiServe.Http3
open Hpack (Header)
open Http2 (Handed Parsed parseHeaders)

namespace Kind
def data : ℕ := 0x00
def headers : ℕ := 0x01
def cancelPush : ℕ := 0x03
def settings : ℕ := 0x04
def pushPromise : ℕ := 0x05
def goaway : ℕ := 0x07
def maxPushId : ℕ := 0x0d
end Kind

namespace Code
def frameUnexpected : ℕ := 0x0105
def frameError : ℕ := 0x0106
def excessiveLoad : ℕ := 0x0107
def qpackDecompressionFailed : ℕ := 0x0200
end Code

def maxFieldSection : ℕ := 64 * 1024

section Framing

/-- The two top bits of the first byte give the width, the rest is the value. -/
def getVarint (buf : Bytes) : Option (ℕ × ℕ) :=
  match buf with
  | [] => none
  | first :: rest =>
    let len := 2 ^ (first.toNat / 64)
    if buf.length < len then none
    else some ((rest.take (len - 1)).foldl (fun v b => v * 256 + b.toNat) (first.toNat % 64),len)

structure Head where
  kind : ℕ
  len : ℕ
  headLen : ℕ
deriving DecidableEq, Repr

/-- The frame types RFC 9114 reserves because HTTP/2 used them. -/
def isReservedH2 (kind : ℕ) : Bool := kind == 0x02 || kind == 0x06 || kind == 0x08 || kind == 0x09

def parseHead (buf : Bytes) : Except ℕ (Option Head) :=
  match getVarint buf with
  | none => .ok none
  | some (kind,a) =>
    match getVarint (buf.drop a) with
    | none => .ok none
    | some (len,b) => if isReservedH2 kind then .error Code.frameUnexpected else .ok (some ⟨kind,len,a + b⟩)

/-- A frame header; the end of the stream between two frames is clean. -/
def head (buf : Bytes) : Except ℕ (Option (Head × Bytes)) :=
  match parseHead buf with
  | .error e => .error e
  | .ok (some h) => .ok (some (h,buf.drop h.headLen))
  | .ok none => if buf = [] then .ok none else .error Code.frameError

def exact (buf : Bytes) (n : ℕ) : Option (Bytes × Bytes) :=
  if buf.length < n then none else some (buf.take n,buf.drop n)

theorem getVarint_pos {buf : Bytes} {v n : ℕ} (h : getVarint buf = some (v,n)) : 0 < n ∧ n ≤ buf.length := by
  unfold getVarint at h
  split at h
  · cases h
  · dsimp only at h
    split at h
    · cases h
    · rename_i hl
      cases h
      exact ⟨Nat.two_pow_pos _,Nat.not_lt.mp hl⟩

theorem head_shorter {buf rest : Bytes} {h : Head} (hh : head buf = .ok (some (h,rest))) :
    rest.length < buf.length := by
  unfold head at hh
  split at hh
  · cases hh
  · rename_i h' hp
    cases hh
    unfold parseHead at hp
    split at hp
    · cases hp
    · rename_i kind a ha
      split at hp
      · cases hp
      · rename_i len b hb
        split at hp
        · cases hp
        · cases hp
          have h1 := getVarint_pos ha
          rw [List.length_drop]
          dsimp only
          omega
  · split at hh
    · cases hh
    · cases hh

end Framing

section Request

/-- The connection is closed with a code, or a bare status is sent. -/
inductive Refusal
  | closed (code : ℕ)
  | bare (status : ℕ)
deriving DecidableEq, Repr

/-- What became of a request stream: nothing was asked, it was refused, or the
handler is called. -/
inductive Outcome
  | nothing
  | refused (r : Refusal)
  | handed (fields : List Header) (request : Handed)

def qpackCode : Qpack.QpackError → ℕ
  | .decompressionFailed => Code.qpackDecompressionFailed
  | .excessiveLoad => Code.excessiveLoad

/-- The frames after the field section, up to the end of the stream. A frame
takes at least two bytes, so a fuel above the length of the input is enough. -/
def readBody (maxBody : ℕ) : ℕ → Bytes → Bytes → Except Refusal Bytes
  | 0, _, _ => .error (.closed Code.frameError)
  | fuel + 1, buf, body =>
    match head buf with
    | .error e => .error (.closed e)
    | .ok none => .ok body
    | .ok (some (h,rest)) =>
      if h.kind = Kind.data then
        if maxBody < body.length + h.len then .error (.bare 413)
        else
          match exact rest h.len with
          | none => .error (.closed Code.frameError)
          | some (chunk,rest) => readBody maxBody fuel rest (body ++ chunk)
      else if h.kind = Kind.settings ∨ h.kind = Kind.goaway ∨ h.kind = Kind.maxPushId ∨ h.kind = Kind.cancelPush then
        .error (.closed Code.frameUnexpected)
      else
        match exact rest h.len with
        | none => .error (.closed Code.frameError)
        | some (_,rest) => readBody maxBody fuel rest body

/-- Reads one request off its stream, up to the call of the handler. -/
def request (maxBody : ℕ) (buf : Bytes) : Outcome :=
  match head buf with
  | .error e => .refused (.closed e)
  | .ok none => .nothing
  | .ok (some (h,rest)) =>
    if h.kind ≠ Kind.headers then .refused (.closed Code.frameUnexpected)
    else if maxFieldSection < h.len then .refused (.closed Code.excessiveLoad)
    else
      match exact rest h.len with
      | none => .refused (.closed Code.frameError)
      | some (block,rest) =>
        match Qpack.decode block maxFieldSection with
        | .error e => .refused (.closed (qpackCode e))
        | .ok fields =>
          match parseHeaders fields with
          | .error _ => .refused (.bare 400)
          | .ok parsed =>
            match readBody maxBody (rest.length + 1) rest [] with
            | .error r => .refused r
            | .ok body =>
              match parsed.handOver body with
              | none => .refused (.bare 400)
              | some r => .handed fields r

end Request

section Carried

/-- `Carries b fs`: the stream `b` is the frames `fs`, each a type and a payload. -/
inductive Carries : Bytes → List (ℕ × Bytes) → Prop
  | nil : Carries [] []
  | cons {b rest rest' payload : Bytes} {h : Head} {fs : List (ℕ × Bytes)} :
    head b = .ok (some (h,rest)) → exact rest h.len = some (payload,rest') → Carries rest' fs →
      Carries b ((h.kind,payload) :: fs)

/-- The frame types of a control stream that the body loop refuses. -/
def isControl (kind : ℕ) : Bool :=
  kind == Kind.settings || kind == Kind.goaway || kind == Kind.maxPushId || kind == Kind.cancelPush

theorem isControl_iff {kind : ℕ} : isControl kind = true ↔
    kind = Kind.settings ∨ kind = Kind.goaway ∨ kind = Kind.maxPushId ∨ kind = Kind.cancelPush := by
  simp [isControl,or_assoc]

theorem not_control_data : isControl Kind.data = false := rfl

/-- The payloads of the DATA frames. -/
def dataOf (fs : List (ℕ × Bytes)) : Bytes := (fs.filter (fun f => f.1 == Kind.data)).flatMap Prod.snd

theorem head_nil : head [] = .ok none := rfl

theorem head_none {b : Bytes} (h : head b = .ok none) : b = [] := by
  unfold head at h
  split at h
  · cases h
  · cases h
  · split at h
    · assumption
    · cases h

theorem Carries.deterministic {b : Bytes} {fs gs : List (ℕ × Bytes)} (h : Carries b fs) (h' : Carries b gs) :
    fs = gs := by
  induction h generalizing gs with
  | nil =>
    cases h' with
    | nil => rfl
    | cons hh _ _ => cases hh
  | cons hh hx _ ih =>
    cases h' with
    | nil => cases hh
    | cons hh' hx' hr' =>
      rw [hh] at hh'
      cases hh'
      rw [hx] at hx'
      cases hx'
      rw [ih hr']

theorem exact_some {buf b rest : Bytes} {n : ℕ} (h : exact buf n = some (b,rest)) :
    b.length = n ∧ buf.length = n + rest.length := by
  unfold exact at h
  split at h
  · cases h
  · cases h
    rw [List.length_take,List.length_drop]
    omega

theorem readBody_carries {maxBody fuel : ℕ} {buf body out : Bytes}
    (h : readBody maxBody fuel buf body = .ok out) :
    ∃ fs, Carries buf fs ∧ out = body ++ dataOf fs ∧ (body.length ≤ maxBody → out.length ≤ maxBody) ∧
      ∀ f ∈ fs, isControl f.1 = false := by
  induction fuel generalizing buf body with
  | zero => cases h
  | succ fuel ih =>
    unfold readBody at h
    split at h
    · cases h
    · rename_i hh
      cases h
      rw [head_none hh]
      exact ⟨[],.nil,by simp [dataOf],fun hb => hb,by simp⟩
    · rename_i hd rest hh
      split at h
      · rename_i hk
        split at h
        · cases h
        rename_i hfit
        split at h
        · cases h
        · rename_i chunk rest' hx
          obtain ⟨fs,hc,ho,hle,hn⟩ := ih h
          refine ⟨_,.cons hh hx hc,?_,?_,List.forall_mem_cons.mpr ⟨hk ▸ not_control_data,hn⟩⟩
          · rw [ho]
            simp [dataOf,hk]
          · intro _
            apply hle
            have hlen := exact_some hx
            rw [List.length_append]
            omega
      · rename_i hk
        split at h
        · cases h
        rename_i hctl
        split at h
        · cases h
        · rename_i chunk rest' hx
          obtain ⟨fs,hc,ho,hle,hn⟩ := ih h
          have hk' : isControl hd.kind = false := Bool.eq_false_iff.mpr (fun he => hctl (isControl_iff.mp he))
          refine ⟨_,.cons hh hx hc,?_,hle,List.forall_mem_cons.mpr ⟨hk',hn⟩⟩
          rw [ho]
          simp [dataOf,hk]

/-- Frames without a control type and with no more data than is allowed are a body. -/
theorem Carries.readBody {maxBody fuel : ℕ} {buf body : Bytes} {fs : List (ℕ × Bytes)} (h : Carries buf fs)
    (hn : ∀ f ∈ fs, isControl f.1 = false) (hl : (body ++ dataOf fs).length ≤ maxBody) (hf : buf.length < fuel) :
    readBody maxBody fuel buf body = .ok (body ++ dataOf fs) := by
  induction h generalizing fuel body with
  | nil =>
    cases fuel with
    | zero => omega
    | succ fuel => simp [Http3.readBody,head_nil,dataOf]
  | @cons b rest rest' payload hd fs hh hx hc ih =>
    cases fuel with
    | zero => omega
    | succ fuel =>
      have h1 := head_shorter hh
      have h2 := exact_some hx
      have hlt : rest'.length < fuel := by omega
      obtain ⟨hk,hn⟩ := List.forall_mem_cons.mp hn
      rw [Http3.readBody]
      simp only [hh,hx]
      by_cases hd' : hd.kind = Kind.data
      · have hdata : body ++ dataOf ((hd.kind,payload) :: fs) = body ++ payload ++ dataOf fs := by simp [dataOf,hd']
        rw [hdata] at hl ⊢
        have hfit : ¬ maxBody < body.length + hd.len := by
          simp only [List.length_append] at hl
          omega
        rw [if_pos hd',if_neg hfit]
        exact ih hn hl hlt
      · have hdata : dataOf ((hd.kind,payload) :: fs) = dataOf fs := by simp [dataOf,hd']
        rw [hdata] at hl ⊢
        have hctl : ¬ (hd.kind = Kind.settings ∨ hd.kind = Kind.goaway ∨ hd.kind = Kind.maxPushId ∨
            hd.kind = Kind.cancelPush) := by
          rw [← isControl_iff]
          exact Bool.eq_false_iff.mp hk
        rw [if_neg hd',if_neg hctl]
        exact ih hn hl hlt

/-- The fuel never runs out: above the length of the input, more of it changes nothing. -/
theorem readBody_fuel {maxBody fuel : ℕ} {buf body : Bytes} (h : buf.length < fuel) :
    readBody maxBody (fuel + 1) buf body = readBody maxBody fuel buf body := by
  induction fuel generalizing buf body with
  | zero => omega
  | succ fuel ih =>
    have hrest {hd : Head} {rest chunk rest' : Bytes} (hh : head buf = .ok (some (hd,rest)))
        (hx : exact rest hd.len = some (chunk,rest')) : rest'.length < fuel := by
      have h1 := head_shorter hh
      have h2 := exact_some hx
      omega
    rw [readBody,readBody]
    cases hh : head buf with
    | error e => rfl
    | ok r =>
      cases r with
      | none => rfl
      | some hr =>
        obtain ⟨hd,rest⟩ := hr
        dsimp only
        cases hx : exact rest hd.len with
        | none => rfl
        | some cr =>
          obtain ⟨chunk,rest'⟩ := cr
          have hlt := hrest hh hx
          dsimp only
          rw [ih hlt,ih hlt]

/-- A request that reaches the handler was read from a field section and the
DATA frames after it, within the limits of both. -/
theorem request_handed {maxBody : ℕ} {buf : Bytes} {fields : List Header} {r : Handed}
    (h : request maxBody buf = .handed fields r) :
    ∃ block fs parsed, Carries buf ((Kind.headers,block) :: fs) ∧ Qpack.decode block maxFieldSection = .ok fields ∧
      parseHeaders fields = .ok parsed ∧ parsed.handOver (dataOf fs) = some r ∧ block.length ≤ maxFieldSection ∧
        (dataOf fs).length ≤ maxBody ∧ ∀ f ∈ fs, isControl f.1 = false := by
  unfold request at h
  split at h
  · cases h
  · cases h
  rename_i hd rest hh
  split at h
  · cases h
  rename_i hk
  split at h
  · cases h
  rename_i hsize
  split at h
  · cases h
  rename_i block rest' hx
  split at h
  · cases h
  rename_i fs' hq
  split at h
  · cases h
  rename_i parsed hp
  split at h
  · cases h
  rename_i body hb
  split at h
  · cases h
  rename_i r' hr
  cases h
  obtain ⟨fs,hc,ho,hle,hn⟩ := readBody_carries hb
  rw [List.nil_append] at ho
  have hk' : hd.kind = Kind.headers := by simpa using hk
  have hlen := exact_some hx
  refine ⟨block,fs,parsed,?_,hq,hp,ho ▸ hr,by omega,ho ▸ hle (Nat.zero_le _),hn⟩
  rw [← hk']
  exact .cons hh hx hc

/-- A field section and frames without a control type, all within their limits, are a request. -/
theorem Carries.request {maxBody : ℕ} {buf block : Bytes} {fs : List (ℕ × Bytes)} {fields : List Header}
    {parsed : Parsed} {r : Handed} (h : Carries buf ((Kind.headers,block) :: fs))
    (hq : Qpack.decode block maxFieldSection = .ok fields) (hp : parseHeaders fields = .ok parsed)
    (hr : parsed.handOver (dataOf fs) = some r) (hb : block.length ≤ maxFieldSection)
    (hl : (dataOf fs).length ≤ maxBody) (hn : ∀ f ∈ fs, isControl f.1 = false) :
    request maxBody buf = .handed fields r := by
  generalize hg : (Kind.headers,block) :: fs = gs at h
  cases h with
  | nil => cases hg
  | @cons b rest rest' payload hd gs hh hx hc =>
    obtain ⟨hf,rfl⟩ := List.cons.inj hg
    obtain ⟨hk,rfl⟩ := Prod.mk.inj hf
    have hsize : ¬ maxFieldSection < hd.len := by
      rw [← (exact_some hx).1]
      omega
    have hbody : Http3.readBody maxBody (rest'.length + 1) rest' [] = .ok ([] ++ dataOf fs) :=
      hc.readBody hn hl (Nat.lt_succ_self _)
    rw [List.nil_append] at hbody
    rw [Http3.request]
    simp only [hh,hx,← hk,ne_eq,not_true_eq_false,if_false,if_neg hsize,hq,hp,hbody,hr]

/-- The stream carries a request with these fields. -/
def Asks (buf : Bytes) (fields : List Header) : Prop :=
  ∃ block fs, Carries buf ((Kind.headers,block) :: fs) ∧ Qpack.decode block maxFieldSection = .ok fields

theorem Asks.deterministic {buf : Bytes} {fields fields' : List Header} (h : Asks buf fields)
    (h' : Asks buf fields') : fields = fields' := by
  obtain ⟨block,fs,hc,hd⟩ := h
  obtain ⟨block',fs',hc',hd'⟩ := h'
  obtain ⟨he,-⟩ := List.cons.inj (hc.deterministic hc')
  obtain rfl : block = block' := congrArg Prod.snd he
  rw [hd] at hd'
  exact Except.ok.inj hd'

theorem request_asks {maxBody : ℕ} {buf : Bytes} {fields : List Header} {r : Handed}
    (h : request maxBody buf = .handed fields r) : Asks buf fields := by
  obtain ⟨block,fs,-,hc,hd,-⟩ := request_handed h
  exact ⟨block,fs,hc,hd⟩

end Carried

end OxiServe.Http3
