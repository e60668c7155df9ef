import OxiServe.Lib.Stream

/-! # FastCGI records and the STDOUT reader

The record format of FastCGI 1.0 and the reader that hands on the payload of
`STDOUT` with the record framing removed.
-/
namespace OxiServe.Fcgi

def headerLen : ℕ := 8
def recordVersion : UInt8 := 1

inductive RecordType
  | beginRequest | abortRequest | endRequest | params | stdin | stdout | stderr | data
  | getValues | getValuesResult | unknownType
deriving DecidableEq, Repr

def RecordType.fromU8 (v : UInt8) : Option RecordType :=
  match v.toNat with
  | 1 => some .beginRequest
  | 2 => some .abortRequest
  | 3 => some .endRequest
  | 4 => some .params
  | 5 => some .stdin
  | 6 => some .stdout
  | 7 => some .stderr
  | 8 => some .data
  | 9 => some .getValues
  | 10 => some .getValuesResult
  | 11 => some .unknownType
  | _ => none

structure Record where
  ty : RecordType
  requestId : ℕ
  body : Bytes
  total : ℕ
deriving DecidableEq, Repr

inductive ParseError
  | incomplete
  | malformed
deriving DecidableEq, Repr

def be16 (a b : UInt8) : ℕ := a.toNat * 256 + b.toNat

/-- Parses one record from the front of `buf`. -/
def parseRecord (buf : Bytes) : Except ParseError Record :=
  match buf with
  | v :: t :: i1 :: i0 :: c1 :: c0 :: padding :: _ :: rest =>
    if v ≠ recordVersion then .error .malformed
    else
      match RecordType.fromU8 t with
      | none => .error .malformed
      | some ty =>
        let total := headerLen + be16 c1 c0 + padding.toNat
        if buf.length < total then .error .incomplete
        else .ok ⟨ty,be16 i1 i0,rest.take (be16 c1 c0),total⟩
  | _ => .error .incomplete

/-- The application status and the protocol status of `END_REQUEST`. -/
def endRequestStatus : Bytes → Option (ℕ × UInt8)
  | a :: b :: c :: d :: proto :: _ :: _ :: _ :: _ =>
    some (((a.toNat * 256 + b.toNat) * 256 + c.toNat) * 256 + d.toNat,proto)
  | _ => none

/-- A record is its header, at least its body, and lies within the buffer. -/
theorem parseRecord_total {buf : Bytes} {r : Record} (h : parseRecord buf = .ok r) :
    8 + r.body.length ≤ r.total ∧ r.total ≤ buf.length := by
  match buf with
  | [] | [_] | [_,_] | [_,_,_] | [_,_,_,_] | [_,_,_,_,_] | [_,_,_,_,_,_] | [_,_,_,_,_,_,_] => cases h
  | v :: t :: i1 :: i0 :: c1 :: c0 :: padding :: x :: rest =>
    simp only [parseRecord] at h
    split at h
    · cases h
    · split at h
      · cases h
      · split at h
        · cases h
        · rename_i hlen
          cases h
          simp only [headerLen,List.length_take] at hlen ⊢
          omega

/-- The reader of one exchange. `raw` holds the bytes not parsed yet and `out`
the payload the caller has not taken; the source keeps both with an offset. -/
structure FcgiBody where
  sock : Source
  raw : Bytes
  out : Bytes
  appStatus : ℕ
  done : Bool
deriving DecidableEq, Repr

namespace FcgiBody

def new (sock : Source) : FcgiBody := ⟨sock,[],[],0,false⟩

/-- Skips a parsed record. -/
def consume (me : FcgiBody) (r : Record) : FcgiBody := { me with raw := me.raw.drop r.total }

/-- The record loop of `drain_records`; the answer says whether the request ended. -/
def drainLoop : ℕ → FcgiBody → Bytes → (FcgiBody × Bytes) × Except ℕ Bool
  | 0, me, sink => ((me,sink),.ok false)
  | fuel + 1, me, sink =>
    match parseRecord me.raw with
    | .error .incomplete => ((me,sink),.ok false)
    | .error .malformed => ((me,sink),.error 502)
    | .ok r =>
      match r.ty with
      | .stdout => drainLoop fuel (me.consume r) (sink ++ r.body)
      | .endRequest =>
        match endRequestStatus r.body with
        | some (app,proto) =>
          if proto ≠ 0 then (({ me with appStatus := app },sink),.error 502)
          else (({ me.consume r with appStatus := app, done := true },sink),.ok true)
        | none => (({ me.consume r with done := true },sink),.ok true)
      | _ => drainLoop fuel (me.consume r) sink

/-- Parses whatever is buffered. -/
def drainRecords (me : FcgiBody) (sink : Bytes) : (FcgiBody × Bytes) × Except ℕ Bool :=
  drainLoop (me.raw.length + 1) me sink

inductive Pump
  | more
  | ended
deriving DecidableEq, Repr

/-- One read plus a parse pass. A timeout and a failed read differ in the status. -/
def pump (timeout : Bool) (me : FcgiBody) (sink : Bytes) : (FcgiBody × Bytes) × Except ℕ Pump :=
  match me.drainRecords sink with
  | (st,.error c) => (st,.error c)
  | (st,.ok true) => (st,.ok .ended)
  | ((me,sink),.ok false) =>
    match Source.read (16 * 1024) me.sock with
    | (.failed,s) => (({ me with sock := s },sink),.error (if timeout then 504 else 502))
    | (.data b,s) =>
      if b = [] then (({ me with sock := s, done := true },sink),.ok .ended)
      else
        match { me with sock := s, raw := me.raw ++ b }.drainRecords sink with
        | (st,.error c) => (st,.error c)
        | (st,.ok true) => (st,.ok .ended)
        | (st,.ok false) => (st,.ok .more)

/-- The loop of `poll_read`: decoded payload first, then buffered records, then the socket. -/
def pollLoop (cap : ℕ) : ℕ → FcgiBody → ReadResult × FcgiBody
  | 0, me => (.failed,me)
  | fuel + 1, me =>
    if me.out ≠ [] then (.data (me.out.take cap),{ me with out := me.out.drop cap })
    else if me.done then (.data [],me)
    else
      match me.drainRecords [] with
      | ((me,_),.error _) => (.failed,me)
      | ((me,decoded),.ok _) =>
        if decoded ≠ [] ∨ me.done = true then pollLoop cap fuel { me with out := decoded }
        else
          match Source.read (16 * 1024) me.sock with
          | (.failed,s) => (.failed,{ me with sock := s })
          | (.data b,s) =>
            if b = [] then pollLoop cap fuel { me with sock := s, done := true }
            else pollLoop cap fuel { me with sock := s, raw := me.raw ++ b }

def pollRead (cap : ℕ) (me : FcgiBody) : ReadResult × FcgiBody := pollLoop cap (Source.size me.sock + 3) me

/-- Bytes that may still be handed on, framing included. -/
def size (me : FcgiBody) : ℕ := Source.size me.sock + me.raw.length + me.out.length

section Size

/-- A parse pass moves bytes from the buffer to the sink and leaves the socket alone. -/
theorem drainLoop_spec {fuel : ℕ} {me me' : FcgiBody} {sink sink' : Bytes} {e : Except ℕ Bool}
    (h : drainLoop fuel me sink = ((me',sink'),e)) :
    me'.sock = me.sock ∧ me'.out = me.out ∧
      me'.raw.length + sink'.length ≤ me.raw.length + sink.length := by
  induction fuel generalizing me sink with
  | zero =>
    cases h
    exact ⟨rfl,rfl,Nat.le_refl _⟩
  | succ fuel ih =>
    simp only [drainLoop] at h
    split at h
    · cases h
      exact ⟨rfl,rfl,Nat.le_refl _⟩
    · cases h
      exact ⟨rfl,rfl,Nat.le_refl _⟩
    · rename_i r hr
      obtain ⟨hb,ht⟩ := parseRecord_total hr
      split at h
      · obtain ⟨hs,ho,hl⟩ := ih h
        simp only [consume,List.length_drop,List.length_append] at hs ho hl
        exact ⟨hs,ho,by omega⟩
      · split at h
        · split at h
          · cases h
            exact ⟨rfl,rfl,Nat.le_refl _⟩
          · cases h
            refine ⟨rfl,rfl,?_⟩
            simp only [consume,List.length_drop]
            omega
        · cases h
          refine ⟨rfl,rfl,?_⟩
          simp only [consume,List.length_drop]
          omega
      · obtain ⟨hs,ho,hl⟩ := ih h
        simp only [consume,List.length_drop] at hs ho hl
        exact ⟨hs,ho,by omega⟩

theorem drainRecords_spec {me me' : FcgiBody} {decoded : Bytes} {e : Except ℕ Bool}
    (h : me.drainRecords [] = ((me',decoded),e)) :
    me'.sock = me.sock ∧ me'.out = me.out ∧ me'.raw.length + decoded.length ≤ me.raw.length := by
  simpa using drainLoop_spec h

theorem source_size_add {cap : ℕ} {s s' : Source} {b : Bytes} (h : Source.read cap s = (.data b,s')) :
    Source.size s' + b.length ≤ Source.size s := by
  match s with
  | [] =>
    cases h
    exact Nat.le_refl _
  | .failed :: s => cases h
  | .data c :: s =>
    simp only [Source.read] at h
    split at h
    · cases h
      simp only [Source.size]
      omega
    · cases h
      simp only [Source.size,List.length_drop,List.length_take]
      omega

theorem pollLoop_size {cap fuel : ℕ} {me me' : FcgiBody} {b : Bytes}
    (h : pollLoop cap fuel me = (.data b,me')) : me'.size + b.length ≤ me.size := by
  induction fuel generalizing me with
  | zero => cases h
  | succ fuel ih =>
    simp only [pollLoop] at h
    split at h
    · cases h
      simp only [size,List.length_drop,List.length_take]
      omega
    · split at h
      · cases h
        exact Nat.le_refl _
      · split at h
        · cases h
        · rename_i hd
          obtain ⟨hs,ho,hl⟩ := drainRecords_spec hd
          split at h
          · have hk := ih h
            simp only [size,hs] at hk ⊢
            omega
          · rename_i hz
            have hz' : _ = ([] : Bytes) := Classical.not_not.mp (fun hn => hz (Or.inl hn))
            subst hz'
            simp only [List.length_nil] at hl
            split at h
            · cases h
            · rename_i hr
              rw [hs] at hr
              have ha := source_size_add hr
              split at h
              · rename_i hb
                have hk := ih h
                subst hb
                simp only [size,ho] at hk ⊢
                omega
              · have hk := ih h
                simp only [size,ho,List.length_append] at hk ⊢
                omega

theorem pollLoop_length_le {cap fuel : ℕ} {me me' : FcgiBody} {b : Bytes}
    (h : pollLoop cap fuel me = (.data b,me')) : b.length ≤ cap := by
  induction fuel generalizing me with
  | zero => cases h
  | succ fuel ih =>
    simp only [pollLoop] at h
    split at h
    · cases h
      exact List.length_take_le _ _
    · split at h
      · cases h
        exact Nat.zero_le _
      · split at h
        · cases h
        · split at h
          · exact ih h
          · split at h
            · cases h
            · split at h
              · exact ih h
              · exact ih h

end Size

instance : Reader FcgiBody where
  read := pollRead
  size := size
  size_lt := by
    intro cap me b me' h hb
    have hs := pollLoop_size h
    have hp := List.length_pos_iff.mpr hb
    omega
  length_le := by
    intro cap me b me' h
    exact pollLoop_length_le h

end FcgiBody

end OxiServe.Fcgi
