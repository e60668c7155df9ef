import Mathlib.Algebra.Ring.Nat
import Mathlib.Data.List.Basic
import Mathlib.Order.Basic

/-! # Byte strings

Strings are their UTF-8 bytes. The operations below follow the documented
behaviour of the standard library of the modelled language: ASCII case folding,
UTF-8 validation, Unicode trimming, splitting and decimal integers.
-/
namespace OxiServe

abbrev Bytes := List UInt8

/-- An ASCII literal as bytes. -/
def lit (s : String) : Bytes := s.toList.map (fun c => c.val.toUInt8)

/-- A half-open range of positions of a buffer. -/
structure Range where
  start : ℕ
  stop : ℕ
deriving DecidableEq, Repr

def Range.len (r : Range) : ℕ := r.stop - r.start

/-- The bytes of `buf` a range points at. -/
def slice (buf : Bytes) (r : Range) : Bytes := (buf.drop r.start).take r.len

/-- What a test says of the numbers below 256 it says of every byte. -/
theorem forall_byte (p : UInt8 → Bool) (h : (List.range 256).all (fun n => p n.toUInt8) = true) (c : UInt8) :
    p c = true := by
  have hc := List.all_eq_true.mp h c.toNat (List.mem_range.mpr c.toNat_lt)
  rwa [Nat.toUInt8_eq,UInt8.ofNat_toNat] at hc

section Ascii

def asciiLower (c : UInt8) : UInt8 := if 65 ≤ c ∧ c ≤ 90 then c + 32 else c

def toAsciiLowercase (s : Bytes) : Bytes := s.map asciiLower

def eqIgnoreAsciiCase (s t : Bytes) : Bool := toAsciiLowercase s == toAsciiLowercase t

def isAsciiDigit (c : UInt8) : Bool := 48 ≤ c && c ≤ 57

def isAsciiUppercase (c : UInt8) : Bool := 65 ≤ c && c ≤ 90

def isAsciiAlphabetic (c : UInt8) : Bool := isAsciiUppercase c || (97 ≤ c && c ≤ 122)

def isAsciiAlphanumeric (c : UInt8) : Bool := isAsciiAlphabetic c || isAsciiDigit c

@[simp] theorem length_toAsciiLowercase (s : Bytes) : (toAsciiLowercase s).length = s.length := by
  simp [toAsciiLowercase]

theorem eqIgnoreAsciiCase_iff {s t : Bytes} :
    eqIgnoreAsciiCase s t = true ↔ toAsciiLowercase s = toAsciiLowercase t := by
  simp [eqIgnoreAsciiCase]

theorem length_eq_of_eqIgnoreAsciiCase {s t : Bytes} (h : eqIgnoreAsciiCase s t = true) :
    s.length = t.length := by
  have hl := congrArg List.length (eqIgnoreAsciiCase_iff.mp h)
  simpa using hl

end Ascii

section Utf8

def isCont (c : UInt8) : Bool := 0x80 ≤ c && c ≤ 0xBF

/-- Second byte of a three byte sequence: no overlong form and no surrogate. -/
def isThreeSecond (a c : UInt8) : Bool :=
  if a = 0xE0 then 0xA0 ≤ c && c ≤ 0xBF
  else if a = 0xED then 0x80 ≤ c && c ≤ 0x9F
  else isCont c

/-- Second byte of a four byte sequence: no overlong form, nothing past U+10FFFF. -/
def isFourSecond (a c : UInt8) : Bool :=
  if a = 0xF0 then 0x90 ≤ c && c ≤ 0xBF
  else if a = 0xF4 then 0x80 ≤ c && c ≤ 0x8F
  else isCont c

/-- `std::str::from_utf8` succeeds. -/
def utf8Valid : Bytes → Bool
  | [] => true
  | a :: r =>
    if a < 0x80 then utf8Valid r
    else match r with
      | [] => false
      | c :: r2 =>
        if 0xC2 ≤ a && a ≤ 0xDF then isCont c && utf8Valid r2
        else match r2 with
          | [] => false
          | d :: r3 =>
            if 0xE0 ≤ a && a ≤ 0xEF then isThreeSecond a c && isCont d && utf8Valid r3
            else match r3 with
              | [] => false
              | e :: r4 =>
                0xF0 ≤ a && a ≤ 0xF4 && isFourSecond a c && isCont d && isCont e && utf8Valid r4

/-- The length of the sequence at the front and whether it is a character. A
broken sequence is as long as the part of it that could still have become one. -/
def utf8Front : Bytes → ℕ × Bool
  | [] => (0,true)
  | a :: r =>
    if a < 0x80 then (1,true)
    else if 0xC2 ≤ a && a ≤ 0xDF then
      match r with
      | c :: _ => if isCont c then (2,true) else (1,false)
      | [] => (1,false)
    else if 0xE0 ≤ a && a ≤ 0xEF then
      match r with
      | c :: d :: _ => if !isThreeSecond a c then (1,false) else if isCont d then (3,true) else (2,false)
      | [c] => if isThreeSecond a c then (2,false) else (1,false)
      | [] => (1,false)
    else if 0xF0 ≤ a && a ≤ 0xF4 then
      match r with
      | c :: d :: e :: _ =>
        if !isFourSecond a c then (1,false)
        else if !isCont d then (2,false)
        else if isCont e then (4,true) else (3,false)
      | [c,d] => if !isFourSecond a c then (1,false) else if isCont d then (3,false) else (2,false)
      | [c] => if isFourSecond a c then (2,false) else (1,false)
      | [] => (1,false)
    else (1,false)

def utf8LossyLoop : ℕ → Bytes → Bytes
  | 0, _ => []
  | fuel + 1, s =>
    if s = [] then []
    else
      let (n,ok) := utf8Front s
      (if ok then s.take n else [0xEF,0xBF,0xBD]) ++ utf8LossyLoop fuel (s.drop n)

/-- `String::from_utf8_lossy`: every broken sequence becomes U+FFFD. -/
def utf8Lossy (s : Bytes) : Bytes := utf8LossyLoop s.length s

theorem utf8Valid_append {s t : Bytes} (hs : utf8Valid s = true) (ht : utf8Valid t = true) :
    utf8Valid (s ++ t) = true := by
  induction s using utf8Valid.induct with
  | case1 => exact ht
  | case2 a r h ih =>
    rw [utf8Valid.eq_def] at hs
    simp only [if_pos h] at hs
    rw [List.cons_append,utf8Valid.eq_def]
    simp only [if_pos h]
    exact ih hs
  | case3 a h =>
    rw [utf8Valid.eq_def] at hs
    simp only [if_neg h] at hs
    cases hs
  | case4 a h c r2 h2 ih =>
    rw [utf8Valid.eq_def] at hs
    simp only [if_neg h,if_pos h2] at hs
    obtain ⟨hp,hr⟩ := Bool.and_eq_true_iff.mp hs
    rw [List.cons_append,List.cons_append,utf8Valid.eq_def]
    simp only [if_neg h,if_pos h2]
    exact Bool.and_eq_true_iff.mpr ⟨hp,ih hr⟩
  | case5 a h c h2 =>
    rw [utf8Valid.eq_def] at hs
    simp only [if_neg h,if_neg h2] at hs
    cases hs
  | case6 a h c h2 d r3 h3 ih =>
    rw [utf8Valid.eq_def] at hs
    simp only [if_neg h,if_neg h2,if_pos h3] at hs
    obtain ⟨hp,hr⟩ := Bool.and_eq_true_iff.mp hs
    simp only [List.cons_append]
    rw [utf8Valid.eq_def]
    simp only [if_neg h,if_neg h2,if_pos h3]
    exact Bool.and_eq_true_iff.mpr ⟨hp,ih hr⟩
  | case7 a h c h2 d h3 =>
    rw [utf8Valid.eq_def] at hs
    simp only [if_neg h,if_neg h2,if_neg h3] at hs
    cases hs
  | case8 a h c h2 d h3 e r4 ih =>
    rw [utf8Valid.eq_def] at hs
    simp only [if_neg h,if_neg h2,if_neg h3] at hs
    obtain ⟨hp,hr⟩ := Bool.and_eq_true_iff.mp hs
    simp only [List.cons_append]
    rw [utf8Valid.eq_def]
    simp only [if_neg h,if_neg h2,if_neg h3]
    exact Bool.and_eq_true_iff.mpr ⟨hp,ih hr⟩

end Utf8

section Trim

def isWs1 (a : UInt8) : Bool := (9 ≤ a && a ≤ 13) || a == 32

/-- U+0085 and U+00A0. -/
def isWs2 (a c : UInt8) : Bool := a == 0xC2 && (c == 0x85 || c == 0xA0)

/-- U+1680, U+2000 to U+200A, U+2028, U+2029, U+202F, U+205F and U+3000. -/
def isWs3 (a c d : UInt8) : Bool :=
  (a == 0xE1 && c == 0x9A && d == 0x80) ||
  (a == 0xE2 && c == 0x80 && ((0x80 ≤ d && d ≤ 0x8A) || d == 0xA8 || d == 0xA9 || d == 0xAF)) ||
  (a == 0xE2 && c == 0x81 && d == 0x9F) ||
  (a == 0xE3 && c == 0x80 && d == 0x80)

def trimWith (ws2 : UInt8 → UInt8 → Bool) (ws3 : UInt8 → UInt8 → UInt8 → Bool) : Bytes → Bytes
  | [] => []
  | a :: r =>
    if isWs1 a then trimWith ws2 ws3 r
    else match r with
      | [] => [a]
      | c :: r2 =>
        if ws2 a c then trimWith ws2 ws3 r2
        else match r2 with
          | [] => [a,c]
          | d :: r3 => if ws3 a c d then trimWith ws2 ws3 r3 else a :: c :: d :: r3

def trimStart (s : Bytes) : Bytes := trimWith isWs2 isWs3 s

/-- Trailing whitespace is recognised on the reversed bytes. -/
def trimEnd (s : Bytes) : Bytes :=
  (trimWith (fun a c => isWs2 c a) (fun a c d => isWs3 d c a) s.reverse).reverse

def trim (s : Bytes) : Bytes := trimEnd (trimStart s)

end Trim

section Split

def stripPrefix (p s : Bytes) : Option Bytes :=
  if p.isPrefixOf s then some (s.drop p.length) else none

theorem stripPrefix_eq_some {p s r : Bytes} : stripPrefix p s = some r ↔ s = p ++ r := by
  unfold stripPrefix
  constructor
  · intro hs
    split at hs
    · rename_i hp
      obtain ⟨t,rfl⟩ := List.isPrefixOf_iff_prefix.mp hp
      rw [List.drop_left] at hs
      rw [Option.some.inj hs]
    · cases hs
  · rintro rfl
    rw [if_pos (List.isPrefixOf_iff_prefix.mpr (List.prefix_append _ _)),List.drop_left]

/-- Drops every repetition of `p` at the front. -/
def trimStartMatches (p s : Bytes) : Bytes :=
  go s.length s
where
  go : ℕ → Bytes → Bytes
    | 0, s => s
    | fuel + 1, s =>
      match stripPrefix p s with
      | some r => go fuel r
      | none => s

/-- The text from a byte position on; none when it is past the end or within a character. -/
def textFrom (s : Bytes) (n : ℕ) : Option Bytes :=
  if n ≤ s.length && !(s[n]?.any isCont) then some (s.drop n) else none

/-- Everything before the first `c`, and everything after it when there is one. -/
def splitOnce (c : UInt8) (s : Bytes) : Option (Bytes × Bytes) :=
  match s.findIdx? (· == c) with
  | some i => some (s.take i, s.drop (i + 1))
  | none => none

def split (c : UInt8) (s : Bytes) : List Bytes := s.splitOn c

end Split

section Decimal

def digitValue (c : UInt8) : ℕ := c.toNat - 48

def decimalValue (s : Bytes) : ℕ := s.foldl (fun n c => n * 10 + digitValue c) 0

/-- `1*DIGIT`. -/
def isDecimal (s : Bytes) : Bool := !s.isEmpty && s.all isAsciiDigit

def stripPlus : Bytes → Bytes
  | 43 :: r => r
  | s => s

/-- `str::parse` for an unsigned integer of the given width: an optional plus
sign, at least one digit, nothing else, and no overflow. -/
def parseUnsigned (bits : ℕ) (s : Bytes) : Option ℕ :=
  if isDecimal (stripPlus s) && decimalValue (stripPlus s) < 2 ^ bits then
    some (decimalValue (stripPlus s))
  else none

/-- Decimal notation without leading zeros. -/
def decimal (n : ℕ) : Bytes := (Nat.toDigits 10 n).map (fun c => c.val.toUInt8)

theorem stripPlus_cases (s : Bytes) : (∃ r, s = 43 :: r ∧ stripPlus s = r) ∨ stripPlus s = s := by
  unfold stripPlus
  split
  · rename_i r
    exact Or.inl ⟨r,rfl,rfl⟩
  · exact Or.inr rfl

theorem parseUnsigned_eq_some {bits : ℕ} {s : Bytes} {n : ℕ} (h : parseUnsigned bits s = some n) :
    isDecimal (stripPlus s) = true ∧ decimalValue (stripPlus s) = n := by
  unfold parseUnsigned at h
  split at h
  · rename_i hd
    simp only [Bool.and_eq_true] at hd
    exact ⟨hd.1,Option.some.inj h⟩
  · cases h

theorem isDecimal_cons_plus (r : Bytes) : isDecimal (43 :: r) = false := by
  simp [isDecimal,isAsciiDigit]

theorem stripPlus_of_isDecimal {s : Bytes} (h : isDecimal s = true) : stripPlus s = s := by
  rcases stripPlus_cases s with ⟨r,rfl,-⟩ | hs
  · rw [isDecimal_cons_plus] at h
    cases h
  · exact hs

theorem parseUnsigned_of_isDecimal {bits : ℕ} {s : Bytes} (h : isDecimal s = true) (hb : decimalValue s < 2 ^ bits) :
    parseUnsigned bits s = some (decimalValue s) := by
  unfold parseUnsigned
  rw [stripPlus_of_isDecimal h]
  simp [h,hb]

end Decimal

end OxiServe
