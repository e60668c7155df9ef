import OxiServe.Http2.RoundTrip

/-! # Prefixed integers at their limits

What the encoder writes is read back up to the last value the continuation can
carry. On any bytes the reader stays within ten of them, and none of its 64-bit
shifts and sums loses a bit.
-/
namespace OxiServe.Hpack

section Turns

/-- One addition of the continuation loop: the value so far, the seven bits of
the byte and their position. -/
structure Turn where
  value : ℕ
  group : ℕ
  shift : ℕ

/-- The shift and the sum, done on machine words, are those of the numbers. -/
structure Turn.Exact (t : Turn) : Prop where
  shifted : (t.group.toUInt64 <<< t.shift.toUInt64).toNat = t.group * 2 ^ t.shift
  added : (t.value.toUInt64 + t.group.toUInt64 <<< t.shift.toUInt64).toNat = t.value + t.group * 2 ^ t.shift

/-- The additions `intLoop` makes. -/
def loopTurns : Bytes → ℕ → ℕ → List Turn
  | [], _, _ => []
  | b :: rest, value, shift =>
    if 63 ≤ shift then []
    else ⟨value,b.toNat % 128,shift⟩ ::
      (if 2 ^ 64 ≤ value + b.toNat % 128 * 2 ^ shift ∨ b.toNat < 128 then []
        else loopTurns rest (value + b.toNat % 128 * 2 ^ shift) (shift + 7))

/-- The additions `int` makes. -/
def intTurns (buf : Bytes) (prefixBits : ℕ) : List Turn :=
  match buf with
  | [] => []
  | b :: rest =>
    if b.toNat % 2 ^ prefixBits < 2 ^ prefixBits - 1 then [] else loopTurns rest (2 ^ prefixBits - 1) 0

theorem group_fits {group shift : ℕ} (hg : group < 128) (hs : shift ≤ 56) :
    group * 2 ^ shift + 2 ^ shift ≤ 2 ^ (shift + 7) ∧ 2 ^ (shift + 7) ≤ 2 ^ 63 := by
  constructor
  · calc group * 2 ^ shift + 2 ^ shift = (group + 1) * 2 ^ shift := by ring
      _ ≤ 128 * 2 ^ shift := Nat.mul_le_mul_right _ hg
      _ = 2 ^ (shift + 7) := by ring
  · exact Nat.pow_le_pow_right (by omega) (by omega)

theorem toNat_toUInt64 {n : ℕ} (h : n < 2 ^ 64) : n.toUInt64.toNat = n := by
  rw [Nat.toUInt64,UInt64.toNat_ofNat',Nat.mod_eq_of_lt h]

theorem turn_exact {t : Turn} (hg : t.group < 128) (hs : t.shift ≤ 56) (hv : t.value < 256 + 2 ^ t.shift) :
    t.Exact := by
  obtain ⟨hfit,htop⟩ := group_fits hg hs
  have hgroup : t.group.toUInt64.toNat = t.group := toNat_toUInt64 (by omega)
  have hshift : t.shift.toUInt64.toNat = t.shift := toNat_toUInt64 (by omega)
  have hvalue : t.value.toUInt64.toNat = t.value := toNat_toUInt64 (by omega)
  have hterm : (t.group.toUInt64 <<< t.shift.toUInt64).toNat = t.group * 2 ^ t.shift := by
    rw [UInt64.toNat_shiftLeft,hgroup,hshift,Nat.mod_eq_of_lt (by omega : t.shift < 64),Nat.shiftLeft_eq,
      Nat.mod_eq_of_lt (by omega)]
  refine ⟨hterm,?_⟩
  rw [UInt64.toNat_add,hterm,hvalue,Nat.mod_eq_of_lt (by omega)]

theorem loopTurns_exact {buf : Bytes} {value shift : ℕ} (hd : 7 ∣ shift) (hv : value < 256 + 2 ^ shift) :
    ∀ t ∈ loopTurns buf value shift, t.Exact := by
  induction buf generalizing value shift with
  | nil => simp [loopTurns]
  | cons b rest ih =>
    intro t ht
    rw [loopTurns] at ht
    split at ht
    · cases ht
    · next hs =>
      have hg : b.toNat % 128 < 128 := Nat.mod_lt _ (by decide)
      have hs' : shift ≤ 56 := by omega
      obtain ⟨hfit,-⟩ := group_fits hg hs'
      rcases List.mem_cons.mp ht with rfl | ht
      · exact turn_exact hg hs' hv
      · split at ht
        · cases ht
        · exact ih (by omega) (by omega) t ht

theorem intTurns_exact {buf : Bytes} {bits : ℕ} (hbits : bits ≤ 8) : ∀ t ∈ intTurns buf bits, t.Exact := by
  have hmask : 2 ^ bits ≤ 2 ^ 8 := Nat.pow_le_pow_right (by decide) hbits
  intro t ht
  unfold intTurns at ht
  split at ht
  · cases ht
  · split at ht
    · cases ht
    · exact loopTurns_exact (Nat.dvd_zero 7) (by omega) t ht

end Turns

section Bounds

theorem intLoop_error {buf : Bytes} {value shift : ℕ} {e : HpackError} (h : intLoop buf value shift = .error e) :
    e = .compression := by
  induction buf generalizing value shift with
  | nil =>
    cases h
    rfl
  | cons b rest ih =>
    unfold intLoop at h
    split at h
    · cases h
      rfl
    · split at h
      · cases h
        rfl
      · split at h
        · cases h
        · exact ih h

theorem int_error {buf : Bytes} {bits : ℕ} {e : HpackError} (h : int buf bits = .error e) : e = .compression := by
  unfold int at h
  split at h
  · cases h
    rfl
  · split at h
    · cases h
    · exact intLoop_error h

/-- Each continuation byte moves the shift on by seven, and none is read past 63. -/
theorem intLoop_consumed {buf rest : Bytes} {value shift n : ℕ} (h : intLoop buf value shift = .ok (n,rest)) :
    n < 2 ^ 64 ∧ ∃ k, rest = buf.drop (k + 1) ∧ k < buf.length ∧ shift + 7 * k < 63 := by
  induction buf generalizing value shift with
  | nil => cases h
  | cons b buf ih =>
    unfold intLoop at h
    split at h
    · cases h
    · next hs =>
      split at h
      · cases h
      · next hv =>
        split at h
        · cases h
          exact ⟨by omega,0,rfl,Nat.succ_pos _,by omega⟩
        · obtain ⟨hn,k,hr,hk,hshift⟩ := ih h
          refine ⟨hn,k + 1,hr,?_,by omega⟩
          simpa using hk

theorem int_consumed {buf rest : Bytes} {bits n : ℕ} (hbits : bits ≤ 8) (h : int buf bits = .ok (n,rest)) :
    n < 2 ^ 64 ∧ ∃ k, rest = buf.drop k ∧ 0 < k ∧ k ≤ buf.length ∧ k ≤ 10 := by
  have hmask : 2 ^ bits ≤ 2 ^ 8 := Nat.pow_le_pow_right (by decide) hbits
  unfold int at h
  split at h
  · cases h
  · split at h
    · cases h
      exact ⟨by omega,1,rfl,by omega,by simp,by omega⟩
    · obtain ⟨hn,k,hr,hk,hshift⟩ := intLoop_consumed h
      refine ⟨hn,k + 2,hr,by omega,?_,by omega⟩
      simp only [List.length_cons]
      omega

/-- Integers are exact and bounded: what is written with the flags above the
prefix is read back with the bytes behind it, up to a continuation of 63 bits.
On every byte string the reader takes at most ten bytes and returns a number of
64 bits, or reports a compression error, and its arithmetic never overflows. -/
theorem int_exact {bits : ℕ} (hpos : 1 ≤ bits) (hbits : bits ≤ 8) :
    (∀ (flags : UInt8) (v : ℕ) (rest : Bytes), flags.toNat % 2 ^ bits = 0 → v - (2 ^ bits - 1) < 2 ^ 63 →
      int (writeInt v bits flags ++ rest) bits = .ok (v,rest)) ∧
    ∀ buf : Bytes,
      (int buf bits = .error .compression ∨ ∃ v rest k, int buf bits = .ok (v,rest) ∧
        rest = buf.drop k ∧ 0 < k ∧ k ≤ buf.length ∧ k ≤ 10 ∧ v < 2 ^ 64) ∧
      ∀ t ∈ intTurns buf bits, t.Exact := by
  refine ⟨fun flags v rest => int_writeInt_continued rest hbits hpos,fun buf => ⟨?_,intTurns_exact hbits⟩⟩
  cases h : int buf bits with
  | error e =>
    left
    rw [int_error h]
  | ok p =>
    right
    obtain ⟨hv,k,hr,hk,hlen,hten⟩ := int_consumed hbits h
    exact ⟨p.1,p.2,k,rfl,hr,hk,hlen,hten,hv⟩

theorem int_exact_largest :
    int (writeInt (2 ^ 63 + 30) 5 0x20 ++ [7]) 5 = .ok (2 ^ 63 + 30,[7]) :=
  (int_exact (by decide) (by decide)).1 0x20 _ [7] (by decide) (by decide)

end Bounds

end OxiServe.Hpack
