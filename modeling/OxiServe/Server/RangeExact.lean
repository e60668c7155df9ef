import OxiServe.Lib.Http1Head
import OxiServe.Server.Files

/-! # Byte ranges

A header that names one range has two numbers around a dash, of which either may be
missing. The range they stand for is reckoned here without bounds on the numbers, and
the handler's reckoning in 64 bits is compared with it.
-/
namespace OxiServe.Server
open Http1Head (splitOnce_eq_some)

/-- The header names one range, with these texts on the two sides of its dash. -/
def Names (h a b : Bytes) : Prop := ∃ s, trim h = lit "bytes=" ++ s ∧ 44 ∉ s ∧ splitOnce 45 (trim s) = some (a,b)

/-- Digits on both sides, or on one of them alone. -/
def Numerals (a b : Bytes) : Prop :=
  (a ≠ [] ∨ b ≠ []) ∧ (a ≠ [] → isDecimal a = true) ∧ (b ≠ [] → isDecimal b = true)

/-- The last bytes of the file, or those from the first position up to the last one as
far as the file goes. -/
def byteRange (a b : Bytes) (size : ℕ) : RangeSpec :=
  let start := if a = [] then size - decimalValue b else decimalValue a
  let stop := if a = [] ∨ b = [] then size else min (decimalValue b + 1) size
  if start < stop then .one start stop else .unsatisfiable

structure RangeExact (h : Bytes) (size : ℕ) : Prop where
  bounds : ∀ start stop, parseRange h size = .one start stop → start < stop ∧ stop ≤ size
  exact : ∀ a b, Names h a b → Numerals a b → parseRange h size = byteRange a b size
  /-- The last position is one less than the end in the field too. -/
  noUnderflow : ∀ start stop, parseRange h size = .one start stop →
    contentRange start stop size =
      lit "bytes " ++ decimal start ++ lit "-" ++ decimal (stop - 1) ++ lit "/" ++ decimal size

/-- The numbers fit 64 bits, the last position with its successor where that is formed. -/
def Fits64 (a b : Bytes) (size : ℕ) : Prop :=
  if a = [] then decimalValue b < 2 ^ 64
  else decimalValue a < 2 ^ 64 ∧ (decimalValue a < size → decimalValue b + 1 < 2 ^ 64)

/-- No bytes are asked for from the end of an empty file, and the numbers fit. -/
structure RangeSafe (h : Bytes) (size : ℕ) : Prop where
  suffix : ∀ b n, Names h [] b → parseUnsigned 64 b = some n → n ≠ 0 → 0 < size
  fits : ∀ a b, Names h a b → Numerals a b → Fits64 a b size

variable {h a b : Bytes} {size start stop n : ℕ}

section Reading

/-- What the two sides are read as. -/
def readSides (a b : Bytes) (size : ℕ) : RangeSpec :=
  if a = [] then
    match parseUnsigned 64 b with
    | none => .none
    | some n => if n = 0 then .unsatisfiable else .one (size - n) size
  else
    match parseUnsigned 64 a with
    | none => .none
    | some start =>
      if size ≤ start then .unsatisfiable
      else
        match if b = [] then some size else (parseUnsigned 64 b).map (fun n => min ((n + 1) % 2 ^ 64) size) with
        | none => .none
        | some stop => if stop ≤ start then .unsatisfiable else .one start stop

theorem split_eq_singleton {c : UInt8} {s t : Bytes} : split c s = [t] ↔ t = s ∧ c ∉ s := by
  unfold split
  constructor
  · intro hs
    have hc : c ∉ s := by
      intro hc
      obtain ⟨x,y,rfl⟩ := List.append_of_mem hc
      rw [List.splitOn_append_cons_self] at hs
      have hlen := congrArg List.length hs
      have hx := List.length_pos_iff.mpr (List.splitOn_ne_nil c x)
      have hy := List.length_pos_iff.mpr (List.splitOn_ne_nil c y)
      simp only [List.length_append,List.length_singleton] at hlen
      omega
    rw [List.splitOn_eq_singleton hc] at hs
    exact ⟨(List.singleton_inj.mp hs).symm,hc⟩
  · rintro ⟨rfl,hc⟩
    exact List.splitOn_eq_singleton hc

theorem parseRange_of_names (hn : Names h a b) : parseRange h size = readSides a b size := by
  obtain ⟨s,ht,hc,hs⟩ := hn
  simp only [parseRange,stripPrefix_eq_some.mpr ht,split_eq_singleton.mpr ⟨rfl,hc⟩,hs]
  rfl

theorem names_of_one (ho : parseRange h size = .one start stop) : ∃ a b, Names h a b := by
  unfold parseRange at ho
  split at ho
  · cases ho
  · rename_i s hs
    split at ho
    · rename_i first hf
      obtain ⟨rfl,hc⟩ := split_eq_singleton.mp hf
      split at ho
      · cases ho
      · rename_i a b hab
        exact ⟨a,b,first,stripPrefix_eq_some.mp hs,hc,hab⟩
    · cases ho

/-- A header is read as a range only when it names one. -/
theorem readSides_of_one (ho : parseRange h size = .one start stop) :
    ∃ a b, Names h a b ∧ readSides a b size = .one start stop := by
  obtain ⟨a,b,hn⟩ := names_of_one ho
  exact ⟨a,b,hn,(parseRange_of_names hn).symm.trans ho⟩

end Reading

section Bounds

theorem readSides_bounds (hr : readSides a b size = .one start stop) :
    stop ≤ size ∧ (start < stop ∨ size = 0 ∧ a = [] ∧ ∃ n, parseUnsigned 64 b = some n ∧ n ≠ 0) := by
  unfold readSides at hr
  split at hr
  · rename_i ha
    split at hr
    · cases hr
    · rename_i n hn
      split at hr
      · cases hr
      · rename_i hn0
        cases hr
        refine ⟨Nat.le_refl _,?_⟩
        rcases Nat.eq_zero_or_pos size with hz | hpos
        · exact Or.inr ⟨hz,ha,n,hn,hn0⟩
        · exact Or.inl (by omega)
  · split at hr
    · cases hr
    · rename_i first hf
      split at hr
      · cases hr
      · split at hr
        · cases hr
        · rename_i last hl
          split at hr
          · cases hr
          · rename_i hle
            cases hr
            refine ⟨?_,Or.inl (Nat.lt_of_not_le hle)⟩
            split at hl
            · exact Nat.le_of_eq (Option.some.inj hl).symm
            · obtain ⟨n,-,rfl⟩ := Option.map_eq_some_iff.mp hl
              exact Nat.min_le_right _ _

theorem readSides_empty (hn : parseUnsigned 64 b = some n) (hn0 : n ≠ 0) : readSides [] b 0 = .one 0 0 := by
  simp only [readSides,if_true,hn,if_neg hn0,Nat.zero_sub]

/-- Ranges have bytes and end in the file, but for the end of an empty file. -/
theorem bounds_iff :
    (∀ start stop, parseRange h size = .one start stop → start < stop ∧ stop ≤ size) ↔
      ∀ b n, Names h [] b → parseUnsigned 64 b = some n → n ≠ 0 → 0 < size := by
  constructor
  · intro hb b n hn hp hn0
    apply Nat.pos_of_ne_zero
    rintro rfl
    have hone := hb 0 0 ((parseRange_of_names hn).trans (readSides_empty hp hn0))
    exact absurd hone.1 (Nat.lt_irrefl 0)
  · intro hs start stop ho
    obtain ⟨a,b,hn,hr⟩ := readSides_of_one ho
    obtain ⟨hle,hlt | ⟨rfl,rfl,n,hp,hn0⟩⟩ := readSides_bounds hr
    · exact ⟨hlt,hle⟩
    · exact absurd (hs b n hn hp hn0) (Nat.lt_irrefl 0)

/-- An end that is not zero has a predecessor in 64 bits. -/
theorem contentRange_eq (hlt : 0 < stop) (hle : stop < 2 ^ 64) :
    contentRange start stop size =
      lit "bytes " ++ decimal start ++ lit "-" ++ decimal (stop - 1) ++ lit "/" ++ decimal size := by
  have hpred : (stop + 2 ^ 64 - 1) % 2 ^ 64 = stop - 1 := by omega
  rw [contentRange,hpred]

end Bounds

section Exact

theorem parseUnsigned_isDecimal (hd : isDecimal a = true) :
    parseUnsigned 64 a = if decimalValue a < 2 ^ 64 then some (decimalValue a) else none := by
  unfold parseUnsigned
  rw [stripPlus_of_isDecimal hd,hd,Bool.true_and]
  simp only [decide_eq_true_eq]

theorem none_ne_range (p : Prop) [Decidable p] (start stop : ℕ) :
    RangeSpec.none ≠ if p then .one start stop else .unsatisfiable := by
  split <;> exact nofun

/-- From the end of a file that has bytes, exact up to 64 bits. -/
theorem readSides_suffix (hd : isDecimal b = true) (hz : size = 0 → decimalValue b < 2 ^ 64 → decimalValue b = 0) :
    readSides [] b size = byteRange [] b size ↔ decimalValue b < 2 ^ 64 := by
  have hrange : byteRange [] b size =
      if size - decimalValue b < size then .one (size - decimalValue b) size else .unsatisfiable := rfl
  simp only [hrange,readSides,if_true,parseUnsigned_isDecimal hd]
  by_cases hf : decimalValue b < 2 ^ 64
  · simp only [if_pos hf,iff_true_right hf]
    by_cases h0 : decimalValue b = 0
    · rw [if_pos h0,h0,if_neg (by omega)]
    · rw [if_neg h0,if_pos]
      have hs0 : size ≠ 0 := fun hs => h0 (hz hs hf)
      omega
  · simp only [if_neg hf,iff_false_right hf]
    exact none_ne_range _ _ _

theorem byteRange_first (hne : a ≠ []) :
    byteRange a b size =
      if decimalValue a < (if b = [] then size else min (decimalValue b + 1) size) then
        .one (decimalValue a) (if b = [] then size else min (decimalValue b + 1) size)
      else .unsatisfiable := by
  simp only [byteRange,hne,false_or,if_false]

/-- From a first position within the file. -/
theorem readSides_within (ha : isDecimal a = true) (hne : a ≠ []) (hb : b ≠ [] → isDecimal b = true)
    (hs : size < 2 ^ 64) (hlt : decimalValue a < size) :
    readSides a b size = byteRange a b size ↔ decimalValue b + 1 < 2 ^ 64 := by
  have hfit : decimalValue a < 2 ^ 64 := Nat.lt_trans hlt hs
  rw [byteRange_first hne]
  simp only [readSides,if_neg hne,parseUnsigned_isDecimal ha,if_pos hfit,if_neg (Nat.not_le_of_lt hlt)]
  by_cases hbn : b = []
  · subst hbn
    simp only [if_true,if_neg (Nat.not_le_of_lt hlt),if_pos hlt,true_iff]
    decide
  · simp only [if_neg hbn,parseUnsigned_isDecimal (hb hbn)]
    rcases Nat.lt_trichotomy (decimalValue b + 1) (2 ^ 64) with hf | hf | hf
    · have hstop : min ((decimalValue b + 1) % 2 ^ 64) size = min (decimalValue b + 1) size := by
        rw [Nat.mod_eq_of_lt hf]
      simp only [if_pos (show decimalValue b < 2 ^ 64 by omega),Option.map_some,hstop,iff_true_right hf]
      split
      · rename_i hle
        rw [if_neg (by omega)]
      · rename_i hle
        rw [if_pos (by omega)]
    · -- the successor is zero and the range reads as empty
      have hstop : min ((decimalValue b + 1) % 2 ^ 64) size = 0 := by omega
      have hlast : decimalValue a < min (decimalValue b + 1) size := by omega
      simp only [if_pos (show decimalValue b < 2 ^ 64 by omega),Option.map_some,hstop,Nat.zero_le,if_true,if_pos hlast,
        iff_false_right (show ¬ decimalValue b + 1 < 2 ^ 64 by omega)]
      exact nofun
    · simp only [if_neg (show ¬ decimalValue b < 2 ^ 64 by omega),Option.map_none,
        iff_false_right (show ¬ decimalValue b + 1 < 2 ^ 64 by omega)]
      exact none_ne_range _ _ _

/-- From a first position, exact when it fits and the successor of the last one fits. -/
theorem readSides_first (ha : isDecimal a = true) (hne : a ≠ []) (hb : b ≠ [] → isDecimal b = true)
    (hs : size < 2 ^ 64) :
    readSides a b size = byteRange a b size ↔
      decimalValue a < 2 ^ 64 ∧ (decimalValue a < size → decimalValue b + 1 < 2 ^ 64) := by
  rcases Nat.lt_or_ge (decimalValue a) size with hlt | hge
  · have hfit : decimalValue a < 2 ^ 64 := Nat.lt_trans hlt hs
    rw [readSides_within ha hne hb hs hlt]
    exact ⟨fun h => ⟨hfit,fun _ => h⟩,fun h => h.2 hlt⟩
  · have hnone : byteRange a b size = .unsatisfiable := by
      rw [byteRange_first hne,if_neg]
      split <;> omega
    rw [hnone]
    simp only [readSides,if_neg hne,parseUnsigned_isDecimal ha]
    by_cases hf : decimalValue a < 2 ^ 64
    · simp only [if_pos hf,if_pos hge,true_iff]
      exact ⟨hf,fun hlt => absurd hlt (Nat.not_lt_of_le hge)⟩
    · simp only [if_neg hf,iff_false_right (fun h : _ ∧ _ => hf h.1)]
      exact nofun

end Exact

/-- Where no bytes are asked for from the end of an empty file, the sides are read exactly
when their numbers fit. -/
theorem readSides_exact_iff (hd : Numerals a b) (hs : size < 2 ^ 64)
    (hz : ∀ n, a = [] → parseUnsigned 64 b = some n → n ≠ 0 → 0 < size) :
    readSides a b size = byteRange a b size ↔ Fits64 a b size := by
  obtain ⟨hab,hda,hdb⟩ := hd
  unfold Fits64
  split
  · rename_i ha
    subst ha
    have hb := hdb (hab.resolve_left (fun hne => hne rfl))
    apply readSides_suffix hb
    intro hs0 hf
    apply Decidable.byContradiction
    intro hn0
    have hpos := hz _ rfl (parseUnsigned_of_isDecimal hb hf) hn0
    omega
  · rename_i ha
    exact readSides_first (hda ha) ha hdb hs

/-- Ranges are exact just when none is asked from the end of an empty file and the
numbers fit. -/
theorem rangeExact_iff (h : Bytes) (size : UInt64) : RangeExact h size.toNat ↔ RangeSafe h size.toNat := by
  have hsize := size.toNat_lt
  have hsides : ∀ {a b}, (∀ b n, Names h [] b → parseUnsigned 64 b = some n → n ≠ 0 → 0 < size.toNat) →
      Names h a b → Numerals a b →
      (parseRange h size.toNat = byteRange a b size.toNat ↔ Fits64 a b size.toNat) := by
    intro a b hz hn hd
    rw [parseRange_of_names hn]
    apply readSides_exact_iff hd hsize
    rintro n rfl
    exact hz b n hn
  constructor
  · rintro ⟨hb,he,-⟩
    have hz := bounds_iff.mp hb
    exact ⟨hz,fun a b hn hd => (hsides hz hn hd).mp (he a b hn hd)⟩
  · rintro ⟨hz,hf⟩
    have hb := bounds_iff.mpr hz
    refine ⟨hb,fun a b hn hd => (hsides hz hn hd).mpr (hf a b hn hd),?_⟩
    intro start stop ho
    obtain ⟨hlt,hle⟩ := hb start stop ho
    exact contentRange_eq (Nat.zero_lt_of_lt hlt) (Nat.lt_of_le_of_lt hle hsize)

/-- The last five bytes of an empty file are the bytes from 0 to the one before it. -/
theorem empty_suffix :
    parseRange (lit "bytes=-5") 0 = .one 0 0 ∧
      contentRange 0 0 0 = lit "bytes 0-18446744073709551615/0" ∧ ¬ RangeExact (lit "bytes=-5") 0 := by
  have hone : parseRange (lit "bytes=-5") 0 = .one 0 0 := by decide +kernel
  refine ⟨hone,by decide +kernel,fun he => ?_⟩
  exact absurd (he.bounds 0 0 hone).1 (Nat.lt_irrefl 0)

end OxiServe.Server
