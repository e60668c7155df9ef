import Mathlib.Data.List.TakeWhile
import OxiServe.Http.Request

/-! # Message framing of an accepted request head

The index table of a parsed head is the table of first occurrences, so `parse`
sees one Transfer-Encoding and one Content-Length value however often either
field was sent. The framing it accepts is compared with the one RFC 9112
section 6.3 assigns to the whole field list.
-/
namespace OxiServe.Request

/-- The literal name behind a slot of the index table. -/
def Hot.name : Hot → Bytes
  | .host => lit "host"
  | .connection => lit "connection"
  | .contentLength => lit "content-length"
  | .transferEncoding => lit "transfer-encoding"
  | .acceptEncoding => lit "accept-encoding"
  | .ifNoneMatch => lit "if-none-match"
  | .ifModifiedSince => lit "if-modified-since"
  | .ifMatch => lit "if-match"
  | .ifUnmodifiedSince => lit "if-unmodified-since"
  | .ifRange => lit "if-range"
  | .rangeH => lit "range"
  | .userAgent => lit "user-agent"
  | .referer => lit "referer"
  | .cookie => lit "cookie"
  | .expect => lit "expect"
  | .xForwardedFor => lit "x-forwarded-for"
  | .contentType => lit "content-type"
  | .upgrade => lit "upgrade"
  | .authorization => lit "authorization"

theorem hotOf_sound {name : Bytes} {h : Hot} (he : hotOf name = some h) :
    eqIgnoreAsciiCase name h.name = true := by
  unfold hotOf at he
  split at he <;> (repeat' split at he) <;> first
    | cases he; assumption
    | cases he

theorem hotOf_congr {s t : Bytes} (h : toAsciiLowercase s = toAsciiLowercase t) : hotOf s = hotOf t := by
  have hl : s.length = t.length := by simpa using congrArg List.length h
  have he (p : Bytes) : eqIgnoreAsciiCase s p = eqIgnoreAsciiCase t p := by
    simp only [eqIgnoreAsciiCase,h]
  simp only [hotOf,hl,he]

theorem hotOf_name (h : Hot) : hotOf h.name = some h := by
  cases h <;> decide +kernel

/-- A slot stands for exactly the spellings of its name. -/
theorem hotOf_eq_some_iff {name : Bytes} {h : Hot} :
    hotOf name = some h ↔ eqIgnoreAsciiCase name h.name = true := by
  refine ⟨hotOf_sound,fun he => ?_⟩
  rw [hotOf_congr (eqIgnoreAsciiCase_iff.mp he)]
  exact hotOf_name h

section FirstOccurrence

def isHot (buf : Bytes) (slot : Hot) (h : HeaderRef) : Bool := hotOf (slice buf h.name) == some slot

/-- Every slot points at the first header of its name, or holds the sentinel. -/
def HotFirst (buf : Bytes) (r : Req) : Prop :=
  ∀ slot, r.hot slot = match r.headers.findIdx? (isHot buf slot) with
    | some i => i.toUInt16
    | none => noHeader

theorem toUInt16_ne_noHeader {i : ℕ} (hi : i < maxHeaders) : i.toUInt16 ≠ noHeader := by
  intro h
  have hn := congrArg UInt16.toNat h
  simp only [Nat.toUInt16,UInt16.toNat_ofNat',noHeader] at hn
  have : i < 96 := hi
  simp only [UInt16.reduceToNat] at hn
  omega

theorem findIdx?_lt {r : Req} {buf : Bytes} {slot : Hot} {i : ℕ}
    (h : r.headers.findIdx? (isHot buf slot) = some i) : i < r.headers.length := by
  obtain ⟨hi,-⟩ := List.findIdx?_eq_some_iff_getElem.mp h
  exact hi

theorem pushHeader_hotFirst {buf : Bytes} {r : Req} (h : HeaderRef) (hr : HotFirst buf r)
    (hl : r.headers.length < maxHeaders) : HotFirst buf (r.pushHeader buf h) := by
  intro slot
  have hs := hr slot
  simp only [Req.pushHeader,List.findIdx?_append,List.findIdx?_singleton]
  cases hf : r.headers.findIdx? (isHot buf slot) with
  | some i =>
    rw [hf] at hs
    have hne : r.hot slot ≠ noHeader := by
      rw [hs]
      exact toUInt16_ne_noHeader (Nat.lt_trans (findIdx?_lt hf) hl)
    rw [if_neg (fun h => hne h.2),hs]
    simp
  | none =>
    rw [hf] at hs
    by_cases hh : hotOf (slice buf h.name) = some slot
    · simp [hs,hh,isHot]
    · simp [hs,hh,isHot]

theorem foldl_pushHeader_headers (buf : Bytes) (r : Req) (hs : List HeaderRef) :
    (hs.foldl (fun r h => r.pushHeader buf h) r).headers = r.headers ++ hs := by
  induction hs generalizing r with
  | nil => simp
  | cons h hs ih =>
    rw [List.foldl_cons,ih]
    simp [Req.pushHeader]

theorem foldl_pushHeader_hotFirst {buf : Bytes} {r : Req} (hs : List HeaderRef) (hr : HotFirst buf r)
    (hl : r.headers.length + hs.length ≤ maxHeaders) :
    HotFirst buf (hs.foldl (fun r h => r.pushHeader buf h) r) := by
  induction hs generalizing r with
  | nil => exact hr
  | cons h hs ih =>
    simp only [List.length_cons] at hl
    apply ih (pushHeader_hotFirst h hr (by omega))
    simp only [Req.pushHeader,List.length_append,List.length_cons,List.length_nil]
    omega

/-- With at most `maxHeaders` fields a slot yields the first value of its name. -/
theorem hotValue_eq_find {buf : Bytes} {r : Req} (hr : HotFirst buf r)
    (hl : r.headers.length ≤ maxHeaders) (slot : Hot) :
    r.hotValue buf slot = (r.headers.find? (isHot buf slot)).map (fun h => Req.slice buf h.value) := by
  unfold Req.hotValue
  rw [hr slot]
  cases hf : r.headers.findIdx? (isHot buf slot) with
  | none =>
    have hn : r.headers.find? (isHot buf slot) = none := by
      rw [List.findIdx?_eq_none_iff] at hf
      rw [List.find?_eq_none]
      intro h hh
      simpa using hf h hh
    simp [hn]
  | some i =>
    have hi := findIdx?_lt hf
    have hlt : i < 96 := Nat.lt_of_lt_of_le hi hl
    have hn : i.toUInt16.toNat = i := by
      simp only [Nat.toUInt16,UInt16.toNat_ofNat']
      omega
    obtain ⟨_,hp,hmin⟩ := List.findIdx?_eq_some_iff_getElem.mp hf
    have hfind : r.headers.find? (isHot buf slot) = some r.headers[i] := by
      rw [List.find?_eq_some_iff_getElem]
      exact ⟨hp,i,hi,rfl,fun j hj => by simpa using hmin j hj⟩
    simp [toUInt16_ne_noHeader hlt,hn,hfind,List.getElem?_eq_getElem hi]

end FirstOccurrence

section Fields

/-- The values of every field of one name, in order. -/
def fieldValues (fields : List (Bytes × Bytes)) (name : Bytes) : List Bytes :=
  (fields.filter (fun f => eqIgnoreAsciiCase f.1 name)).map Prod.snd

def transferEncodings (fields : List (Bytes × Bytes)) : List Bytes :=
  fieldValues fields (lit "transfer-encoding")

def contentLengths (fields : List (Bytes × Bytes)) : List Bytes :=
  fieldValues fields (lit "content-length")

/-- The body framing RFC 9112 section 6.3 assigns to a request with these fields. -/
def rfcFraming (fields : List (Bytes × Bytes)) : Option Body :=
  match transferEncodings fields, contentLengths fields with
  | [], [] => some .none
  | [te], [] => if eqIgnoreAsciiCase te (lit "chunked") then some .chunked else none
  | [], [cl] => if isDecimal cl then some (.length (decimalValue cl)) else none
  | _, _ => none

/-- The head carries at most one framing field, of the only legal form, and the
framing applied is the one the RFC assigns. -/
structure Unambiguous (fields : List (Bytes × Bytes)) (applied : Body) : Prop where
  exclusive : ¬ (transferEncodings fields ≠ [] ∧ contentLengths fields ≠ [])
  coding : (transferEncodings fields).length ≤ 1 ∧
    ∀ v ∈ transferEncodings fields, eqIgnoreAsciiCase v (lit "chunked") = true
  length : (contentLengths fields).length ≤ 1 ∧ ∀ v ∈ contentLengths fields, isDecimal v = true
  framing : rfcFraming fields = some applied

/-- Transfer-Encoding is not repeated, and no Content-Length value has a plus
sign or Unicode whitespace around its digits. -/
structure PlainFraming (fields : List (Bytes × Bytes)) : Prop where
  single : (transferEncodings fields).length ≤ 1
  unsigned : ∀ v ∈ contentLengths fields, v.head? ≠ some 43
  untrimmed : ∀ v ∈ contentLengths fields, trim v = v

theorem fieldValues_map (buf : Bytes) (hs : List HeaderRef) (slot : Hot) :
    fieldValues (hs.map (fun h => (slice buf h.name,slice buf h.value))) slot.name =
      (hs.filter (isHot buf slot)).map (fun h => slice buf h.value) := by
  have hp : ((fun f : Bytes × Bytes => eqIgnoreAsciiCase f.1 slot.name) ∘
      fun h : HeaderRef => (slice buf h.name,slice buf h.value)) = isHot buf slot := by
    funext h
    apply Bool.eq_iff_iff.mpr
    simp only [Function.comp_apply,isHot,beq_iff_eq]
    exact hotOf_eq_some_iff.symm
  simp only [fieldValues,List.filter_map,List.map_map,hp]
  rfl

theorem isWs1_digit {a : UInt8} (h : isAsciiDigit a = true) :
    isWs1 a = false ∧ a.toNat < 0x80 := by
  simp only [isAsciiDigit,Bool.and_eq_true,decide_eq_true_eq,UInt8.le_iff_toNat_le] at h
  have h1 : (48 : UInt8).toNat = 48 := rfl
  have h2 : (57 : UInt8).toNat = 57 := rfl
  rw [h1,h2] at h
  refine ⟨?_,by omega⟩
  simp only [isWs1,Bool.or_eq_false_iff,Bool.and_eq_false_iff,decide_eq_false_iff_not,
    UInt8.le_iff_toNat_le,beq_eq_false_iff_ne,ne_eq,← UInt8.toNat_inj]
  have h3 : (9 : UInt8).toNat = 9 := rfl
  have h4 : (13 : UInt8).toNat = 13 := rfl
  have h5 : (32 : UInt8).toNat = 32 := rfl
  rw [h3,h4,h5]
  omega

theorem isWs2_digit {a c : UInt8} (h : a.toNat < 0x80) : isWs2 a c = false ∧ isWs2 c a = false := by
  have h1 : a ≠ 0xC2 := by rintro rfl; revert h; decide
  have h2 : a ≠ 0x85 := by rintro rfl; revert h; decide
  have h3 : a ≠ 0xA0 := by rintro rfl; revert h; decide
  simp [isWs2,h1,h2,h3]

theorem isWs3_digit {a c d : UInt8} (h : a.toNat < 0x80) : isWs3 a c d = false ∧ isWs3 d c a = false := by
  have h1 : a ≠ 0xE1 := by rintro rfl; revert h; decide
  have h2 : a ≠ 0xE2 := by rintro rfl; revert h; decide
  have h3 : a ≠ 0xE3 := by rintro rfl; revert h; decide
  have hge (k : UInt8) (hk : 0x80 ≤ k.toNat) : a ≠ k := by rintro rfl; omega
  have hle : ¬ (0x80 : UInt8) ≤ a := by
    rw [UInt8.le_iff_toNat_le]
    have : (0x80 : UInt8).toNat = 0x80 := rfl
    omega
  simp [isWs3,h1,h2,h3,hle,hge 0x80 (by decide),hge 0xA8 (by decide),hge 0xA9 (by decide),
    hge 0xAF (by decide),hge 0x9F (by decide)]

/-- Trimming stops at a byte that begins no blank. -/
theorem trimWith_plain {ws2 : UInt8 → UInt8 → Bool} {ws3 : UInt8 → UInt8 → UInt8 → Bool} {a : UInt8}
    (h1 : isWs1 a = false) (h2 : ∀ c, ws2 a c = false) (h3 : ∀ c d, ws3 a c d = false) (r : Bytes) :
    trimWith ws2 ws3 (a :: r) = a :: r := by
  rcases r with _ | ⟨c,_ | ⟨d,r⟩⟩
  · simp [trimWith,h1]
  · simp [trimWith,h1,h2]
  · simp [trimWith,h1,h2,h3]

/-- Trimming stops at a digit, read from either end. -/
theorem trimWith_digits {ws2 : UInt8 → UInt8 → Bool} {ws3 : UInt8 → UInt8 → UInt8 → Bool}
    (h2 : ∀ a c, a.toNat < 0x80 → ws2 a c = false) (h3 : ∀ a c d, a.toNat < 0x80 → ws3 a c d = false)
    {v : Bytes} (hv : ∀ a ∈ v, isAsciiDigit a = true) : trimWith ws2 ws3 v = v := by
  cases v with
  | nil => rfl
  | cons a r =>
    obtain ⟨h1,hlt⟩ := isWs1_digit (hv a (List.mem_cons_self ..))
    exact trimWith_plain h1 (fun c => h2 a c hlt) (fun c d => h3 a c d hlt) r

theorem trim_eq_self_of_isDecimal {v : Bytes} (h : isDecimal v = true) : trim v = v := by
  simp only [isDecimal,Bool.and_eq_true,List.all_eq_true] at h
  have hs : trimStart v = v :=
    trimWith_digits (fun _ _ ha => (isWs2_digit ha).1) (fun _ _ _ ha => (isWs3_digit ha).1) h.2
  have he : trimWith (fun a c => isWs2 c a) (fun a c d => isWs3 d c a) v.reverse = v.reverse := by
    apply trimWith_digits (fun _ _ ha => (isWs2_digit ha).2) (fun _ _ _ ha => (isWs3_digit ha).2)
    intro a ha
    exact h.2 a (List.mem_reverse.mp ha)
  rw [trim,hs,trimEnd,he,List.reverse_reverse]

/-- A value as `Req::slice` reads it. -/
def lossy (v : Bytes) : Bytes := if utf8Valid v then v else []

theorem stripPlus_eq_self {v : Bytes} (h : v.head? ≠ some 43) : stripPlus v = v := by
  rcases stripPlus_cases v with ⟨r,rfl,-⟩ | h'
  · exact absurd rfl h
  · exact h'

theorem lossy_chunked {v : Bytes} (h : eqIgnoreAsciiCase (lossy v) (lit "chunked") = true) : lossy v = v := by
  unfold lossy at h ⊢
  by_cases hu : utf8Valid v = true
  · rw [if_pos hu]
  · rw [if_neg hu] at h
    exact absurd h (by decide +kernel)

theorem lossy_parse {v : Bytes} {n : ℕ} (h : parseUnsigned 64 (trim (lossy v)) = some n) : lossy v = v := by
  have hnil : parseUnsigned 64 (trim []) = none := by decide +kernel
  unfold lossy at h ⊢
  by_cases hu : utf8Valid v = true
  · rw [if_pos hu]
  · rw [if_neg hu,hnil] at h
    cases h

/-- What the accepted framing says about the values of the two fields. -/
theorem framing_cases {te cl : Option Bytes} {n : ℕ} {b : Body} (h : Req.framing te cl n = .ok b) :
    (∃ v, te = some v ∧ cl = none ∧ eqIgnoreAsciiCase v (lit "chunked") = true ∧ b = .chunked) ∨
    (∃ v k, te = none ∧ cl = some v ∧ n ≤ 1 ∧ parseUnsigned 64 (trim v) = some k ∧ b = .length k) ∨
    (te = none ∧ cl = none ∧ b = .none) := by
  unfold Req.framing at h
  split at h
  · rename_i v
    split at h
    · cases h
    · split at h
      · cases h
      · rename_i hv hcl
        simp only [Option.isSome_iff_ne_none,ne_eq,not_not] at hcl
        cases h
        exact Or.inl ⟨v,rfl,hcl,by simpa using hv,rfl⟩
  · rename_i v
    split at h
    · cases h
    · rename_i hn
      split at h
      · rename_i k hk
        cases h
        exact Or.inr (Or.inl ⟨v,k,rfl,rfl,by omega,hk,rfl⟩)
      · cases h
  · cases h
    exact Or.inr (Or.inr ⟨rfl,rfl,rfl⟩)

/-- A head whose values are spelled plainly is framed as the RFC says once
`framing` accepts it. -/
theorem unambiguous_of_plain {fs : List (Bytes × Bytes)} {b : Body}
    (hf : Req.framing ((transferEncodings fs).head?.map lossy) ((contentLengths fs).head?.map lossy)
      (contentLengths fs).length = .ok b) (hp : PlainFraming fs) : Unambiguous fs b := by
  obtain ⟨hs,hu,ht⟩ := hp
  rcases framing_cases hf with ⟨v,hte,hcl,hv,rfl⟩ | ⟨v,k,hte,hcl,hn,hk,rfl⟩ | ⟨hte,hcl,rfl⟩
  · simp only [Option.map_eq_none_iff,List.head?_eq_none_iff] at hcl
    obtain ⟨w,hw,rfl⟩ := Option.map_eq_some_iff.mp hte
    obtain ⟨r,hr⟩ := List.head?_eq_some_iff.mp hw
    obtain rfl : r = [] := by
      rw [hr] at hs
      simpa using hs
    rw [lossy_chunked hv] at hv
    exact ⟨by simp [hcl],by simp [hr,hv],by simp [hcl],by simp [rfcFraming,hr,hcl,hv]⟩
  · simp only [Option.map_eq_none_iff,List.head?_eq_none_iff] at hte
    obtain ⟨w,hw,rfl⟩ := Option.map_eq_some_iff.mp hcl
    obtain ⟨r,hr⟩ := List.head?_eq_some_iff.mp hw
    obtain rfl : r = [] := by
      rw [hr] at hn
      simpa using hn
    have hmem : w ∈ contentLengths fs := by simp [hr]
    rw [lossy_parse hk,ht w hmem] at hk
    obtain ⟨hd,rfl⟩ := parseUnsigned_eq_some hk
    rw [stripPlus_eq_self (hu w hmem)] at hd ⊢
    exact ⟨by simp [hte],by simp [hte],by simp [hr,hd],by simp [rfcFraming,hr,hte,hd]⟩
  · simp only [Option.map_eq_none_iff,List.head?_eq_none_iff] at hte hcl
    exact ⟨by simp [hcl],by simp [hte],by simp [hcl],by simp [rfcFraming,hte,hcl]⟩

end Fields

section Parse

/-- The head stage of `parse`: an accepted buffer went through `withHeaders` and
`finishHead` from an empty index table. -/
theorem parse_complete_cases {hp : Httparse} {self : Req} {buf : Bytes}
    (hc : (self.parse hp buf).2 = .complete) :
    ∃ (p : Head) (r : Req), hp.parse buf = .ok (some p) ∧ r.headers = [] ∧ (r.hot = fun _ => noHeader) ∧
      self.parse hp buf = (r.withHeaders buf p.headers).finishHead buf := by
  unfold Req.parse at hc ⊢
  revert hc
  cases hp.parse buf with
  | error e => cases e <;> intro hc <;> cases hc
  | ok o =>
    cases o with
    | none => intro hc; cases hc
    | some p =>
      intro hc
      refine ⟨p,?_⟩
      rcases p with ⟨len,m,t,v,hs⟩
      rcases m with _ | m
      · cases hc
      rcases t with _ | t
      · cases hc
      rcases v with _ | _ | _ | v
      · cases hc
      · exact ⟨_,rfl,rfl,rfl,rfl⟩
      · exact ⟨_,rfl,rfl,rfl,rfl⟩
      · cases hc

theorem withHeaders_headers {hp : Httparse} {buf : Bytes} {p : Head} {r : Req}
    (hp' : hp.parse buf = .ok (some p)) (hr : r.headers = []) :
    (r.withHeaders buf p.headers).headers = p.headers := by
  have ht : p.headers.takeWhile (fun h => !(slice buf h.name).isEmpty) = p.headers := by
    apply List.takeWhile_eq_self_iff.mpr
    intro h hh
    simpa using hp.name_ne_nil buf p hp' h hh
  rw [Req.withHeaders,ht,foldl_pushHeader_headers,hr,List.nil_append]

theorem withHeaders_hotFirst {hp : Httparse} {buf : Bytes} {p : Head} {r : Req}
    (hp' : hp.parse buf = .ok (some p)) (hr : r.headers = []) (hh : r.hot = fun _ => noHeader) :
    HotFirst buf (r.withHeaders buf p.headers) := by
  apply foldl_pushHeader_hotFirst
  · intro slot
    simp [hr,hh]
  · have h1 := hp.headers_le buf p hp'
    have h2 := (List.takeWhile_sublist (fun h : HeaderRef => !(slice buf h.name).isEmpty) (l := p.headers)).length_le
    rw [hr]
    simp only [List.length_nil,Nat.zero_add]
    omega

theorem finishHead_complete {q : Req} {buf : Bytes} (hc : (q.finishHead buf).2 = .complete) :
    Req.framing (q.hotValue buf .transferEncoding) (q.hotValue buf .contentLength) (q.contentLengths buf) =
      .ok (q.finishHead buf).1.body := by
  have hsame (k : Bool) : Req.framing (({ q with keepAlive := k } : Req).hotValue buf .transferEncoding)
      (({ q with keepAlive := k } : Req).hotValue buf .contentLength) (({ q with keepAlive := k } : Req).contentLengths buf) =
        Req.framing (q.hotValue buf .transferEncoding) (q.hotValue buf .contentLength) (q.contentLengths buf) := rfl
  have he := Req.finishHead.eq_def q buf
  dsimp only at he
  rw [hsame] at he
  rw [he] at hc ⊢
  cases hf : Req.framing (q.hotValue buf .transferEncoding) (q.hotValue buf .contentLength)
      (q.contentLengths buf) with
  | error e =>
    rw [hf] at hc
    cases hc
  | ok b =>
    simp only
    split <;> rfl

/-- A slot of a head that went through the header loop yields the first value of its name. -/
theorem withHeaders_hotValue {hp : Httparse} {buf : Bytes} {p : Head} {r : Req} (hp' : hp.parse buf = .ok (some p))
    (hr : r.headers = []) (hh : r.hot = fun _ => noHeader) (slot : Hot) :
    (r.withHeaders buf p.headers).hotValue buf slot = (fieldValues (hp.fields buf) slot.name).head?.map lossy := by
  have hhs := withHeaders_headers hp' hr
  have hfirst := withHeaders_hotFirst hp' hr hh
  have hl : (r.withHeaders buf p.headers).headers.length ≤ maxHeaders := by
    rw [hhs]
    exact hp.headers_le buf p hp'
  rw [hotValue_eq_find hfirst hl,hhs]
  simp only [Httparse.fields,hp',fieldValues_map,List.head?_map,List.head?_filter,Option.map_map]
  rfl

theorem finishHead_hotValue (q : Req) (buf : Bytes) (slot : Hot) :
    (q.finishHead buf).1.hotValue buf slot = q.hotValue buf slot := by
  unfold Req.finishHead
  dsimp only
  split
  · rfl
  · split <;> rfl

/-- The index table of an accepted head holds the first value of every hot name. -/
theorem parse_complete_hotValue {hp : Httparse} {self : Req} {buf : Bytes} (hc : (self.parse hp buf).2 = .complete)
    (slot : Hot) :
    (self.parse hp buf).1.hotValue buf slot = (fieldValues (hp.fields buf) slot.name).head?.map lossy := by
  obtain ⟨p,r,hp',hr,hh,he⟩ := parse_complete_cases hc
  rw [he,finishHead_hotValue]
  exact withHeaders_hotValue hp' hr hh slot

/-- The framing decision of an accepted head, over its field list. -/
theorem parse_complete_framing {hp : Httparse} {self : Req} {buf : Bytes}
    (hc : (self.parse hp buf).2 = .complete) :
    Req.framing ((transferEncodings (hp.fields buf)).head?.map lossy)
      ((contentLengths (hp.fields buf)).head?.map lossy) (contentLengths (hp.fields buf)).length =
        .ok (self.parse hp buf).1.body := by
  obtain ⟨p,r,hp',hr,hh,he⟩ := parse_complete_cases hc
  rw [he] at hc ⊢
  have hhs := withHeaders_headers hp' hr
  have hvals := withHeaders_hotValue hp' hr hh
  have hcount : (r.withHeaders buf p.headers).contentLengths buf = (contentLengths (hp.fields buf)).length := by
    simp only [Req.contentLengths,contentLengths,fieldValues,Httparse.fields,hp',hhs,List.countP_eq_length_filter,
      List.filter_map,List.length_map]
    rfl
  have hf := finishHead_complete hc
  rw [hvals .transferEncoding,hvals .contentLength,hcount] at hf
  exact hf

/-- An accepted head is framed the one way the RFC allows exactly when its
Transfer-Encoding is not repeated and its Content-Length is spelled plainly. -/
theorem parse_unambiguous_iff (hp : Httparse) (self : Req) (buf : Bytes)
    (hc : (self.parse hp buf).2 = .complete) :
    Unambiguous (hp.fields buf) (self.parse hp buf).1.body ↔ PlainFraming (hp.fields buf) := by
  have hf := parse_complete_framing hc
  generalize (self.parse hp buf).1.body = b at hf ⊢
  generalize hp.fields buf = fs at hf ⊢
  constructor
  · intro h
    refine ⟨h.coding.1,fun v hv => ?_,fun v hv => trim_eq_self_of_isDecimal (h.length.2 v hv)⟩
    intro hh
    obtain ⟨r,rfl⟩ : ∃ r, v = 43 :: r := List.head?_eq_some_iff.mp hh
    have := h.length.2 _ hv
    rw [isDecimal_cons_plus] at this
    cases this
  · intro h
    exact unambiguous_of_plain hf h

/-- An `httparse` that knows one head. -/
def Httparse.only (sample : Bytes) (p : Head) (hn : ∀ h ∈ p.headers, slice sample h.name ≠ [])
    (hl : p.headers.length ≤ maxHeaders) : Httparse where
  parse buf := if buf = sample then .ok (some p) else .error .other
  name_ne_nil := by
    intro buf q hq
    split at hq
    · rename_i hb
      cases hq
      exact hb ▸ hn
    · cases hq
  headers_le := by
    intro buf q hq
    split at hq
    · cases hq
      exact hl
    · cases hq

/-- A head with `Content-Length: 5`. -/
def sampleLength : Bytes := lit "PUT / HTTP/1.1\r\nHost: a\r\nContent-Length: 5\r\n\r\n"

def sampleLengthHttparse : Httparse :=
  .only sampleLength
    { len := 46, method := some ⟨0,3⟩, path := some ⟨4,5⟩, version := some 1,
      headers := [⟨⟨16,20⟩,⟨22,23⟩⟩,⟨⟨25,39⟩,⟨41,42⟩⟩] } (by decide +kernel) (by decide)

theorem sampleLength_unambiguous :
    (Req.new.parse sampleLengthHttparse sampleLength).2 = .complete ∧
      Unambiguous (sampleLengthHttparse.fields sampleLength)
        (Req.new.parse sampleLengthHttparse sampleLength).1.body := by
  have hc : (Req.new.parse sampleLengthHttparse sampleLength).2 = .complete := by decide +kernel
  have hp : PlainFraming (sampleLengthHttparse.fields sampleLength) :=
    ⟨by decide +kernel,by decide +kernel,by decide +kernel⟩
  exact ⟨hc,(parse_unambiguous_iff _ _ _ hc).mpr hp⟩

/-- A head with `Transfer-Encoding: chunked` followed by `Transfer-Encoding: gzip`. -/
def sampleCodings : Bytes :=
  lit "PUT / HTTP/1.1\r\nHost: a\r\nTransfer-Encoding: chunked\r\nTransfer-Encoding: gzip\r\n\r\n"

def sampleCodingsHttparse : Httparse :=
  .only sampleCodings
    { len := 80, method := some ⟨0,3⟩, path := some ⟨4,5⟩, version := some 1,
      headers := [⟨⟨16,20⟩,⟨22,23⟩⟩,⟨⟨25,42⟩,⟨44,51⟩⟩,⟨⟨53,70⟩,⟨72,76⟩⟩] } (by decide +kernel) (by decide)

theorem sampleCodings_ambiguous :
    (Req.new.parse sampleCodingsHttparse sampleCodings).2 = .complete ∧
      ¬ Unambiguous (sampleCodingsHttparse.fields sampleCodings)
        (Req.new.parse sampleCodingsHttparse sampleCodings).1.body := by
  refine ⟨by decide +kernel,fun h => ?_⟩
  have hl : (transferEncodings (sampleCodingsHttparse.fields sampleCodings)).length = 2 := by decide +kernel
  have hc := h.coding.1
  omega

end Parse

end OxiServe.Request
