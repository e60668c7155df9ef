import Mathlib.Tactic.Ring
import OxiServe.Lib.Bytes

/-! # Numbers in bytes

In decimal notation, where what `decimal` writes is read back as the same number,
and big-endian in a fixed count of bytes, where writing keeps the low bytes only
and reading back what was written gives the number cut to that width.
-/
namespace OxiServe

section Decimal

/-- A string of digits that stands for `n`. -/
def Denotes (s : Bytes) (n : ℕ) : Prop := isDecimal s = true ∧ decimalValue s = n

instance (s : Bytes) (n : ℕ) : Decidable (Denotes s n) := inferInstanceAs (Decidable (_ ∧ _))

theorem digit_byte {c : Char} (h : c.isDigit = true) :
    isAsciiDigit c.val.toUInt8 = true ∧ digitValue c.val.toUInt8 = c.toNat - 48 := by
  simp only [Char.isDigit,Bool.and_eq_true,decide_eq_true_eq,ge_iff_le,UInt32.le_iff_toNat_le] at h
  have h48 : ('0' : Char).val.toNat = 48 := rfl
  have h57 : ('9' : Char).val.toNat = 57 := rfl
  have hc : c.val.toUInt8.toNat = c.val.toNat := by
    rw [UInt32.toNat_toUInt8]
    omega
  constructor
  · simp only [isAsciiDigit,Bool.and_eq_true,decide_eq_true_eq,UInt8.le_iff_toNat_le,hc]
    exact ⟨h.1,h.2⟩
  · rw [digitValue,hc]
    rfl

theorem decimalValue_foldl {cs : List Char} (h : ∀ c ∈ cs, c.isDigit = true) (n : ℕ) :
    (cs.map (fun c => c.val.toUInt8)).foldl (fun n c => n * 10 + digitValue c) n = Nat.ofDigitChars 10 cs n := by
  induction cs generalizing n with
  | nil => rfl
  | cons c cs ih =>
    rw [List.map_cons,List.foldl_cons,ih (fun d hd => h d (List.mem_cons_of_mem _ hd)),
      (digit_byte (h c List.mem_cons_self)).2,Nat.ofDigitChars_cons,Nat.mul_comm]
    rfl

theorem decimal_denotes (n : ℕ) : Denotes (decimal n) n := by
  have hd : ∀ c ∈ Nat.toDigits 10 n, c.isDigit = true := fun c hc =>
    Nat.isDigit_of_mem_toDigits (by decide) (by decide) hc
  constructor
  · simp only [isDecimal,decimal,Bool.and_eq_true,Bool.not_eq_true',List.isEmpty_eq_false_iff,ne_eq,
      List.map_eq_nil_iff,List.all_map,List.all_eq_true,Function.comp_apply]
    exact ⟨Nat.toDigits_ne_nil,fun c hc => (digit_byte (hd c hc)).1⟩
  · rw [decimalValue,decimal,decimalValue_foldl hd,Nat.ofDigitChars_ten_toDigits]

end Decimal

section BigEndian

/-- The low `k` bytes of a number, most significant first. -/
def toBe (k n : ℕ) : Bytes := (List.range k).reverse.map (fun i => (n / 256 ^ i).toUInt8)

def ofBe (b : Bytes) : ℕ := b.foldl (fun n c => n * 256 + c.toNat) 0

theorem toBe_succ (k n : ℕ) : toBe (k + 1) n = (n / 256 ^ k).toUInt8 :: toBe k n := by
  simp [toBe,List.range_succ]

@[simp] theorem length_toBe (k n : ℕ) : (toBe k n).length = k := by simp [toBe]

theorem ofBe_foldl (b : Bytes) (m : ℕ) :
    b.foldl (fun n c => n * 256 + c.toNat) m = m * 256 ^ b.length + ofBe b := by
  induction b generalizing m with
  | nil => simp [ofBe]
  | cons a b ih =>
    have h := ih (m * 256 + a.toNat)
    have h0 := ih (0 * 256 + a.toNat)
    simp only [ofBe,List.foldl_cons,List.length_cons] at h h0 ⊢
    rw [h,h0,Nat.pow_succ]
    ring

theorem ofBe_cons (a : UInt8) (b : Bytes) : ofBe (a :: b) = a.toNat * 256 ^ b.length + ofBe b := by
  have h := ofBe_foldl b (0 * 256 + a.toNat)
  rw [Nat.zero_mul,Nat.zero_add] at h
  simpa only [ofBe,List.foldl_cons,Nat.zero_mul,Nat.zero_add] using h

theorem ofBe_toBe (k n : ℕ) : ofBe (toBe k n) = n % 256 ^ k := by
  induction k with
  | zero => simp [toBe,ofBe,Nat.mod_one]
  | succ k ih =>
    have hb : ((n / 256 ^ k).toUInt8).toNat = n / 256 ^ k % 256 := by simp
    rw [toBe_succ,ofBe_cons,length_toBe,ih,hb,Nat.mod_pow_succ]
    ring

end BigEndian

end OxiServe
