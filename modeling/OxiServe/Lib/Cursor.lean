import OxiServe.Lib.Numerals

/-! # A bounds-checked cursor

Reading from the front of a byte string: a count of bytes, or an integer of one, two or
three bytes. Where fewer are left there is no result. A vector is a length followed by
that many bytes.
-/
namespace OxiServe.Cursor
variable {n k : ℕ} {c x r s : Bytes}

section Reads

/-- The next `n` bytes and what follows them. -/
def take (n : ℕ) (c : Bytes) : Option (Bytes × Bytes) :=
  if c.length < n then none else some (c.take n,c.drop n)

def u8 : Bytes → Option (UInt8 × Bytes)
  | [] => none
  | a :: r => some (a,r)

def u16 (c : Bytes) : Option (ℕ × Bytes) := (take 2 c).map (fun p => (ofBe p.1,p.2))

def u24 (c : Bytes) : Option (ℕ × Bytes) := (take 3 c).map (fun p => (ofBe p.1,p.2))

theorem take_eq_some : take n c = some (x,r) ↔ c = x ++ r ∧ x.length = n := by
  unfold take
  constructor
  · intro h
    split at h
    · cases h
    · rename_i hn
      cases h
      exact ⟨(List.take_append_drop n c).symm,by rw [List.length_take]; omega⟩
  · rintro ⟨rfl,rfl⟩
    rw [if_neg (by rw [List.length_append]; omega)]
    simp

@[simp] theorem take_append (x r : Bytes) : take x.length (x ++ r) = some (x,r) := take_eq_some.mpr ⟨rfl,rfl⟩

@[simp] theorem u8_cons (a : UInt8) (r : Bytes) : u8 (a :: r) = some (a,r) := rfl

theorem u8_eq_some {a : UInt8} : u8 c = some (a,r) ↔ c = a :: r := by
  cases c with
  | nil => exact ⟨(fun h => nomatch h),(fun h => nomatch h)⟩
  | cons b s =>
    constructor
    · intro h
      cases h
      rfl
    · intro h
      cases h
      rfl

theorem u16_eq_some : u16 c = some (n,r) ↔ ∃ x, c = x ++ r ∧ x.length = 2 ∧ ofBe x = n := by
  unfold u16
  rw [Option.map_eq_some_iff]
  constructor
  · rintro ⟨⟨x,s⟩,h,he⟩
    cases he
    obtain ⟨hc,hx⟩ := take_eq_some.mp h
    exact ⟨x,hc,hx,rfl⟩
  · rintro ⟨x,hc,hx,rfl⟩
    exact ⟨(x,r),take_eq_some.mpr ⟨hc,hx⟩,rfl⟩

theorem u24_eq_some : u24 c = some (n,r) ↔ ∃ x, c = x ++ r ∧ x.length = 3 ∧ ofBe x = n := by
  unfold u24
  rw [Option.map_eq_some_iff]
  constructor
  · rintro ⟨⟨x,s⟩,h,he⟩
    cases he
    obtain ⟨hc,hx⟩ := take_eq_some.mp h
    exact ⟨x,hc,hx,rfl⟩
  · rintro ⟨x,hc,hx,rfl⟩
    exact ⟨(x,r),take_eq_some.mpr ⟨hc,hx⟩,rfl⟩

/-- A number that fits is read back. -/
theorem u16_toBe (hn : n < 2 ^ 16) (r : Bytes) : u16 (toBe 2 n ++ r) = some (n,r) :=
  u16_eq_some.mpr ⟨_,rfl,length_toBe 2 n,(ofBe_toBe 2 n).trans (Nat.mod_eq_of_lt hn)⟩

theorem u24_toBe (hn : n < 2 ^ 24) (r : Bytes) : u24 (toBe 3 n ++ r) = some (n,r) :=
  u24_eq_some.mpr ⟨_,rfl,length_toBe 3 n,(ofBe_toBe 3 n).trans (Nat.mod_eq_of_lt hn)⟩

end Reads

section Extension

/-- What has been read is not changed by more bytes behind it. -/
theorem take_more (h : take n c = some (x,r)) (s : Bytes) : take n (c ++ s) = some (x,r ++ s) := by
  obtain ⟨rfl,hx⟩ := take_eq_some.mp h
  exact take_eq_some.mpr ⟨List.append_assoc _ _ _,hx⟩

theorem u8_more {a : UInt8} (h : u8 c = some (a,r)) (s : Bytes) : u8 (c ++ s) = some (a,r ++ s) := by
  rw [u8_eq_some.mp h]
  rfl

theorem u16_more (h : u16 c = some (n,r)) (s : Bytes) : u16 (c ++ s) = some (n,r ++ s) := by
  obtain ⟨x,rfl,hx,hn⟩ := u16_eq_some.mp h
  exact u16_eq_some.mpr ⟨x,List.append_assoc _ _ _,hx,hn⟩

end Extension

section Vectors

/-- A length of `k` bytes and that many bytes of data, in front of the rest. -/
def IsVector (k : ℕ) (c data rest : Bytes) : Prop :=
  ∃ len, c = len ++ (data ++ rest) ∧ len.length = k ∧ data.length = ofBe len

/-- The data behind its own length. -/
def vector (k : ℕ) (data : Bytes) : Bytes := toBe k data.length ++ data

@[simp] theorem length_vector (k : ℕ) (data : Bytes) : (vector k data).length = k + data.length := by
  simp [vector]

theorem take_u16_vector (h : x.length < 2 ^ 16) (r : Bytes) : u16 (vector 2 x ++ r) = some (x.length,x ++ r) := by
  rw [vector,List.append_assoc]
  exact u16_toBe h _

theorem take_u8_vector (h : x.length < 2 ^ 8) (r : Bytes) :
    ∃ a, u8 (vector 1 x ++ r) = some (a,x ++ r) ∧ a.toNat = x.length := by
  refine ⟨x.length.toUInt8,?_,?_⟩
  · simp [vector,toBe]
  · simpa using Nat.mod_eq_of_lt h

end Vectors

section Results
variable {α : Type*}

/-- A read goes on exactly when the bytes are there. -/
theorem take_bind_isSome {f : Bytes × Bytes → Option α} :
    ((take n c).bind f).isSome = true ↔ ∃ x r, c = x ++ r ∧ x.length = n ∧ (f (x,r)).isSome = true := by
  constructor
  · intro h
    cases ht : take n c with
    | none =>
      rw [ht] at h
      cases h
    | some p =>
      obtain ⟨hc,hx⟩ := take_eq_some.mp ht
      rw [ht] at h
      exact ⟨p.1,p.2,hc,hx,h⟩
  · rintro ⟨x,r,hc,hx,h⟩
    rw [take_eq_some.mpr ⟨hc,hx⟩]
    exact h

theorem u8_bind_isSome {f : UInt8 × Bytes → Option α} :
    ((u8 c).bind f).isSome = true ↔ ∃ a r, c = a :: r ∧ (f (a,r)).isSome = true := by
  cases c with
  | nil =>
    constructor
    · intro h
      cases h
    · rintro ⟨a,r,hc,-⟩
      cases hc
  | cons b s =>
    constructor
    · intro h
      exact ⟨b,s,rfl,h⟩
    · rintro ⟨a,r,hc,h⟩
      cases hc
      exact h

theorem u16_bind_isSome {f : ℕ × Bytes → Option α} :
    ((u16 c).bind f).isSome = true ↔
      ∃ x r, c = x ++ r ∧ x.length = 2 ∧ (f (ofBe x,r)).isSome = true := by
  unfold u16
  rw [Option.bind_map]
  exact take_bind_isSome

end Results

end OxiServe.Cursor
