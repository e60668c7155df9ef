import OxiServe.Lib.Bytes

/-! # The chunked transfer coding

The coding of RFC 9112 section 7.1 as a relation between the bytes on the wire
and the body they stand for: sized chunks with optional extensions, a last chunk
of size zero, an optional trailer section and the final empty line.
-/
namespace OxiServe.Chunked

def crlf : Bytes := [13,10]

def hexDigit (c : UInt8) : Option ℕ :=
  if 48 ≤ c && c ≤ 57 then some (c.toNat - 48)
  else if 97 ≤ c && c ≤ 102 then some (c.toNat - 87)
  else if 65 ≤ c && c ≤ 70 then some (c.toNat - 55)
  else none

def hexFold : ℕ → Bytes → Option ℕ
  | n, [] => some n
  | n, c :: r => (hexDigit c).bind (fun d => hexFold (n * 16 + d) r)

/-- The value of `1*HEXDIG`. -/
def hexValue (s : Bytes) : Option ℕ := if s = [] then none else hexFold 0 s

def isText (s : Bytes) : Bool := s.all (fun c => c != 13 && c != 10)

/-- Nothing, or an extension set off by blanks or a semicolon. -/
def isExt (s : Bytes) : Bool :=
  isText s && (match s with
    | [] => true
    | c :: _ => c == 59 || c == 32 || c == 9)

/-- Field lines, each with its line end. -/
inductive Trailers : Bytes → Prop
  | nil : Trailers []
  | line {f t : Bytes} : f ≠ [] → isText f = true → Trailers t → Trailers (f ++ crlf ++ t)

/-- `Coding w e`: the bytes `w` are one complete chunked body standing for `e`. -/
inductive Coding : Bytes → Bytes → Prop
  | last {size ext t : Bytes} : hexValue size = some 0 → isExt ext = true → Trailers t →
      Coding (size ++ ext ++ crlf ++ t ++ crlf) []
  | chunk {size ext data w e : Bytes} : hexValue size = some data.length → data ≠ [] →
      isExt ext = true → Coding w e → Coding (size ++ ext ++ crlf ++ data ++ crlf ++ w) (data ++ e)

/-- The coding costs bytes, so nothing is a coding of itself. -/
theorem Coding.length_lt {w e : Bytes} (h : Coding w e) : e.length < w.length := by
  induction h with
  | last _ _ _ =>
    simp only [crlf,List.length_append,List.length_cons,List.length_nil]
    omega
  | chunk _ _ _ _ ih =>
    simp only [crlf,List.length_append,List.length_cons,List.length_nil]
    omega

theorem Coding.ne {w e : Bytes} (h : Coding w e) : w ≠ e := by
  intro he
  have hl := h.length_lt
  rw [he] at hl
  omega

theorem Coding.ne_nil {w e : Bytes} (h : Coding w e) : w ≠ [] := by
  intro he
  have hl := h.length_lt
  rw [he] at hl
  simp only [List.length_nil] at hl
  omega

/-- The coding of a single chunk and the last chunk, without extensions. -/
theorem Coding.single {size data : Bytes} (hs : hexValue size = some data.length) (hd : data ≠ []) :
    Coding (size ++ crlf ++ data ++ crlf ++ ([48] ++ crlf ++ crlf)) data := by
  have hl : Coding ([48] ++ [] ++ crlf ++ [] ++ crlf) [] := .last rfl rfl .nil
  have he : isExt [] = true := rfl
  have hc := Coding.chunk hs hd he hl
  simpa using hc

end OxiServe.Chunked
