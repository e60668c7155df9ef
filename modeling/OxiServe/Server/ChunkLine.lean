import OxiServe.Server.ClientBody

/-! # Chunk-size lines

What the grammar takes for the size line of a chunk, and what `read_chunked_body` does. The
parser of the size skips blanks wherever they stand, wants no digit, and counts what it skips
against its limit of sixteen bytes.
-/
namespace OxiServe.Server
open Chunked (hexDigit hexFold hexValue crlf)

section Grammar

def isBlank (c : UInt8) : Bool := c == 32 || c == 9

/-- `1*HEXDIG` of a value below `2 ^ 64`, and an extension that blanks may precede. -/
inductive SizeLine : Bytes → ℕ → Prop
  | plain {digits : Bytes} {n : ℕ} : hexValue digits = some n → n < 2 ^ 64 → SizeLine digits n
  | extended {digits blanks ext : Bytes} {n : ℕ} : hexValue digits = some n → n < 2 ^ 64 →
    (∀ c ∈ blanks, isBlank c = true) → SizeLine (digits ++ blanks ++ 59 :: ext) n

/-- What is in front of the extension. -/
def sizeText (line : Bytes) : Bytes := line.takeWhile (· != 59)

/-- Digits, and blanks behind them if an extension follows. -/
structure Regular (line : Bytes) (digits blanks : Bytes) : Prop where
  text : sizeText line = digits ++ blanks
  some_digit : digits ≠ []
  allDigits : ∀ c ∈ digits, (hexDigit c).isSome = true
  allBlank : ∀ c ∈ blanks, isBlank c = true
  before : blanks = [] ∨ 59 ∈ line

/-- The number that the bytes other than blanks stand for. -/
def skippedValue (text : Bytes) : Option ℕ := hexFold 0 (text.filter (fun c => !isBlank c))

/-- Digits and blanks in another arrangement. -/
structure Lenient (line : Bytes) : Prop where
  ne_nil : sizeText line ≠ []
  short : (sizeText line).length ≤ 16
  bytes : ∀ c ∈ sizeText line, (hexDigit c).isSome = true ∨ isBlank c = true
  irregular : ∀ digits blanks, ¬ Regular line digits blanks

/-- A number below `2 ^ 64` in more than sixteen bytes. -/
structure Overlong (line : Bytes) : Prop where
  long : 16 < (sizeText line).length
  regular : ∃ digits blanks, Regular line digits blanks
  small : ∃ n < 2 ^ 64, skippedValue (sizeText line) = some n

end Grammar

section Digits
variable {c : UInt8} {b digits blanks line : Bytes} {n m d : ℕ}

theorem hexDigit_lt (h : hexDigit c = some d) : d < 16 := by
  unfold hexDigit at h
  split_ifs at h with h1 h2 h3
  · cases h
    simp only [Bool.and_eq_true,decide_eq_true_eq,UInt8.le_iff_toNat_le,UInt8.reduceToNat] at h1
    omega
  · cases h
    simp only [Bool.and_eq_true,decide_eq_true_eq,UInt8.le_iff_toNat_le,UInt8.reduceToNat] at h2
    omega
  · cases h
    simp only [Bool.and_eq_true,decide_eq_true_eq,UInt8.le_iff_toNat_le,UInt8.reduceToNat] at h3
    omega

theorem isBlank_of_hexDigit (h : hexDigit c = some d) : isBlank c = false := by
  cases hb : isBlank c with
  | false => rfl
  | true =>
    rw [isBlank,Bool.or_eq_true,beq_iff_eq,beq_iff_eq] at hb
    have hspace : hexDigit 32 = none := by decide
    have htab : hexDigit 9 = none := by decide
    rcases hb with rfl | rfl
    · rw [hspace] at h
      cases h
    · rw [htab] at h
      cases h

/-- Sixteen bytes cannot take the number past its bound. -/
theorem parseHexFrom_eq (hb : b.length ≤ 16) (hn : n < 16 ^ (16 - b.length)) :
    parseHexFrom n b = hexFold n (b.filter (fun c => !isBlank c)) := by
  induction b generalizing n with
  | nil => rfl
  | cons c b ih =>
    rw [List.length_cons] at hb hn
    have hpow : 16 ^ (16 - b.length) = 16 ^ (16 - (b.length + 1)) * 16 := by
      rw [← Nat.pow_succ]
      congr 1
      omega
    have hle : (16 : ℕ) ^ (16 - b.length) ≤ 16 ^ 16 := Nat.pow_le_pow_right (by decide) (Nat.sub_le _ _)
    have hmax : (16 : ℕ) ^ 16 = 2 ^ 64 := by decide
    unfold parseHexFrom
    cases hd : hexDigit c with
    | some d =>
      have hlt := hexDigit_lt hd
      have hval : n * 16 + d < 16 ^ (16 - b.length) := by omega
      dsimp only
      rw [if_pos ⟨by omega,by omega⟩,ih (by omega) hval,List.filter_cons_of_pos (by rw [isBlank_of_hexDigit hd]; rfl)]
      simp only [hexFold,hd,Option.bind_some]
    | none =>
      dsimp only
      by_cases hblank : c = 32 ∨ c = 9
      · have hbl : isBlank c = true := by
          rw [isBlank,Bool.or_eq_true,beq_iff_eq,beq_iff_eq]
          exact hblank
        rw [if_pos hblank,ih (by omega) (by omega),List.filter_cons_of_neg (by rw [hbl]; exact Bool.false_ne_true)]
      · have hbl : isBlank c = false := by
          rw [isBlank,Bool.or_eq_false_iff,beq_eq_false_iff_ne,beq_eq_false_iff_ne]
          exact not_or.mp hblank
        rw [if_neg hblank,List.filter_cons_of_pos (by rw [hbl]; rfl)]
        simp only [hexFold,hd,Option.bind_none]

theorem parseHex_eq (b : Bytes) : parseHex b = if b = [] ∨ 16 < b.length then none else skippedValue b := by
  unfold parseHex
  split
  · rfl
  · rename_i h
    rw [not_or,Nat.not_lt] at h
    exact parseHexFrom_eq h.2 (Nat.pow_pos (by decide))

theorem hexFold_some (h : hexFold m digits = some n) : ∀ c ∈ digits, (hexDigit c).isSome = true := by
  induction digits generalizing m with
  | nil => nofun
  | cons c r ih =>
    obtain ⟨d,hd,hr⟩ := Option.bind_eq_some_iff.mp h
    exact List.forall_mem_cons.mpr ⟨by rw [hd]; rfl,ih hr⟩

theorem hexFold_lt (h : hexFold m digits = some n) (k : ℕ) (hm : m < 16 ^ k) : n < 16 ^ (k + digits.length) := by
  induction digits generalizing m k with
  | nil =>
    cases h
    exact hm
  | cons c r ih =>
    obtain ⟨d,hd,hr⟩ := Option.bind_eq_some_iff.mp h
    have hlt := hexDigit_lt hd
    have hpow : (16 : ℕ) ^ (k + 1) = 16 ^ k * 16 := Nat.pow_succ 16 k
    have hn := ih hr (k + 1) (by omega)
    rw [List.length_cons,Nat.add_comm r.length 1,← Nat.add_assoc]
    exact hn

theorem isBlank_of_isSome (h : (hexDigit c).isSome = true) : isBlank c = false := by
  obtain ⟨d,hd⟩ := Option.isSome_iff_exists.mp h
  exact isBlank_of_hexDigit hd

/-- Digits with blanks behind them have the value of the digits. -/
theorem skippedValue_append (hd : ∀ c ∈ digits, (hexDigit c).isSome = true) (hb : ∀ c ∈ blanks, isBlank c = true) :
    skippedValue (digits ++ blanks) = hexFold 0 digits := by
  have h1 : digits.filter (fun c => !isBlank c) = digits :=
    List.filter_eq_self.mpr (fun c hc => by rw [isBlank_of_isSome (hd c hc)]; rfl)
  have h2 : blanks.filter (fun c => !isBlank c) = [] :=
    List.filter_eq_nil_iff.mpr (fun c hc => by rw [hb c hc]; decide)
  rw [skippedValue,List.filter_append,h1,h2,List.append_nil]

theorem sizeText_extended (text ext : Bytes) (h : 59 ∉ text) : sizeText (text ++ 59 :: ext) = text := by
  unfold sizeText
  rw [List.takeWhile_append_of_pos (fun c hc => by
    rw [bne_iff_ne]
    exact fun he => h (he ▸ hc))]
  simp

theorem sizeText_plain (h : 59 ∉ line) : sizeText line = line := by
  have ht : (line ++ []).takeWhile (· != 59) = line ++ ([] : Bytes).takeWhile (· != 59) :=
    List.takeWhile_append_of_pos (fun c hc => by
      rw [bne_iff_ne]
      exact fun he => h (he ▸ hc))
  rwa [List.append_nil,List.takeWhile_nil,List.append_nil] at ht

theorem no_semicolon (hd : ∀ c ∈ digits, (hexDigit c).isSome = true) (hb : ∀ c ∈ blanks, isBlank c = true) :
    59 ∉ digits ++ blanks := by
  intro h
  rcases List.mem_append.mp h with h | h
  · exact absurd (hd 59 h) (by decide)
  · exact absurd (hb 59 h) (by decide)

/-- The grammar in terms of the text in front of the extension. -/
theorem sizeLine_iff : SizeLine line n ↔ (∃ digits blanks, Regular line digits blanks) ∧
    skippedValue (sizeText line) = some n ∧ n < 2 ^ 64 := by
  constructor
  · intro h
    cases h with
    | plain hv hn =>
      unfold hexValue at hv
      split_ifs at hv with hne
      have hd := hexFold_some hv
      have hnil : ∀ c ∈ ([] : Bytes), isBlank c = true := nofun
      have hno : 59 ∉ line := by simpa using no_semicolon hd hnil
      refine ⟨⟨line,[],by rw [sizeText_plain hno,List.append_nil],hne,hd,hnil,.inl rfl⟩,?_,hn⟩
      have hs := skippedValue_append hd hnil
      rw [List.append_nil] at hs
      rw [sizeText_plain hno,hs,hv]
    | @extended digits blanks ext _ hv hn hb =>
      unfold hexValue at hv
      split_ifs at hv with hne
      have hd := hexFold_some hv
      have htext := sizeText_extended (digits ++ blanks) ext (no_semicolon hd hb)
      refine ⟨⟨digits,blanks,htext,hne,hd,hb,.inr (by simp)⟩,?_,hn⟩
      rw [htext,skippedValue_append hd hb,hv]
  · rintro ⟨⟨digits,blanks,hr⟩,hv,hn⟩
    rw [hr.text,skippedValue_append hr.allDigits hr.allBlank] at hv
    have hval : hexValue digits = some n := by rw [hexValue,if_neg hr.some_digit,hv]
    by_cases hs : 59 ∈ line
    · obtain ⟨text,ext,rfl,hno⟩ := List.eq_append_cons_of_mem hs
      have ht := hr.text
      rw [sizeText_extended text ext hno] at ht
      rw [ht]
      exact .extended hval hn hr.allBlank
    · have hb := hr.before.resolve_right hs
      have ht := hr.text
      rw [sizeText_plain hs,hb,List.append_nil] at ht
      rw [ht]
      exact .plain hval hn

end Digits

section Lines
variable {r t line : Bytes} {n : ℕ}

theorem findCrlf_lt (h : findCrlf r = some n) : n + 2 ≤ r.length := by
  induction r generalizing n with
  | nil => cases h
  | cons c r ih =>
    unfold findCrlf at h
    split_ifs at h with hc
    · cases h
      cases r with
      | nil => cases hc.2
      | cons d r => simp
    · obtain ⟨m,hm,rfl⟩ := Option.map_eq_some_iff.mp h
      have hlt := ih hm
      rw [List.length_cons]
      omega

theorem findCrlf_append (t : Bytes) (h : findCrlf r = some n) : findCrlf (r ++ t) = some n := by
  induction r generalizing n with
  | nil => cases h
  | cons c r ih =>
    unfold findCrlf at h
    rw [List.cons_append,findCrlf]
    split_ifs at h with hc
    · cases r with
      | nil => cases hc.2
      | cons d r =>
        cases h
        exact if_pos hc
    · obtain ⟨m,hm,rfl⟩ := Option.map_eq_some_iff.mp h
      have hno : ¬ (c = 13 ∧ (r ++ t).head? = some 10) := by
        rintro ⟨rfl,hh⟩
        cases r with
        | nil => cases hm
        | cons d r => exact hc ⟨rfl,hh⟩
      rw [if_neg hno,ih hm]
      rfl

/-- A line ends where its line end is. -/
theorem findCrlf_line (t : Bytes) (h : findCrlf line = none) : findCrlf (line ++ crlf ++ t) = some line.length := by
  induction line with
  | nil => rfl
  | cons c r ih =>
    unfold findCrlf at h
    split_ifs at h with hc
    rw [Option.map_eq_none_iff] at h
    have hno : ¬ (c = 13 ∧ (r ++ crlf ++ t).head? = some 10) := by
      rintro ⟨rfl,hh⟩
      cases r with
      | nil => exact absurd (Option.some.inj hh) (by decide)
      | cons d r => exact hc ⟨rfl,hh⟩
    rw [List.cons_append,List.cons_append,findCrlf,if_neg hno,ih h]
    rfl

end Lines

section Accepted
variable {line : Bytes}

/-- `read_chunked_body` behind the size line of a chunk of `size` bytes. -/
def afterSize (timesOut : Bool) (max fuel size : ℕ) (rest : Bytes) (reads : Source) (body : Bytes) : BodyRead :=
  if size = 0 then
    match readTrailers timesOut fuel rest reads with
    | .error status => ⟨body,.refused status⟩
    | .ok (rest,reads) => ⟨body,.done rest reads⟩
  else if max < (body.length + size) % 2 ^ 64 then ⟨body,.refused 413⟩
  else
    match fillUntil timesOut (holds ((size + 2) % 2 ^ 64)) reads rest with
    | .error status => ⟨body,.refused status⟩
    | .ok (_,rest,reads) =>
      if 2 ^ 64 ≤ size + 2 then ⟨body,.panic⟩
      else if (rest.drop size).take 2 ≠ crlf then ⟨body ++ rest.take size,.refused 400⟩
      else readChunks timesOut max fuel (rest.drop (size + 2)) reads (body ++ rest.take size)

theorem readChunks_line {timesOut : Bool} {rest rest' : Bytes} {reads reads' : Source} {i : ℕ} (max fuel : ℕ)
    (body : Bytes) (h : fillUntil timesOut sizeLine reads rest = .ok (i,rest',reads')) :
    readChunks timesOut max (fuel + 1) rest reads body = match parseHex (sizeText (rest'.take i)) with
      | none => ⟨body,.refused 400⟩
      | some size => afterSize timesOut max fuel size (rest'.drop (i + 2)) reads' body := by
  rw [readChunks,h]
  dsimp only
  rw [sizeText]
  cases parseHex ((rest'.take i).takeWhile (· != 59)) with
  | none => rfl
  | some size => rfl

/-- Whenever the line is the one that is read, it is a size line exactly if the grammar says
so, and then the size is the one it has. -/
def ReadRight (line : Bytes) : Prop :=
  ∀ (timesOut : Bool) (max fuel : ℕ) (rest rest' : Bytes) (reads reads' : Source) (body : Bytes) (i : ℕ),
    fillUntil timesOut sizeLine reads rest = .ok (i,rest',reads') → rest'.take i = line →
      (∀ n, SizeLine line n → readChunks timesOut max (fuel + 1) rest reads body =
        afterSize timesOut max fuel n (rest'.drop (i + 2)) reads' body) ∧
      ((∀ n, ¬ SizeLine line n) → readChunks timesOut max (fuel + 1) rest reads body = ⟨body,.refused 400⟩)

/-- A size is not refused as if it were none. -/
theorem afterSize_ne {n : ℕ} (hn : n < 2 ^ 64) : afterSize false 0 1 n crlf [] [] ≠ ⟨[],.refused 400⟩ := by
  unfold afterSize
  by_cases h0 : n = 0
  · subst h0
    decide
  · rw [if_neg h0,List.length_nil,Nat.zero_add,Nat.mod_eq_of_lt hn,if_pos (Nat.pos_of_ne_zero h0)]
    intro h
    exact absurd (BodyEnd.refused.inj (congrArg BodyRead.ended h)) (by decide)

theorem skippedValue_lt {text : Bytes} {n : ℕ} (hl : text.length ≤ 16) (h : skippedValue text = some n) :
    n < 2 ^ 64 := by
  have hlt := hexFold_lt h 0 (by decide)
  have hf := List.length_filter_le (fun c => !isBlank c) text
  have hpow : (16 : ℕ) ^ (0 + (text.filter (fun c => !isBlank c)).length) ≤ 16 ^ 16 :=
    Nat.pow_le_pow_right (by decide) (by omega)
  have hmax : (16 : ℕ) ^ 16 = 2 ^ 64 := by decide
  omega

theorem skippedValue_bytes {text : Bytes} {n : ℕ} (h : skippedValue text = some n) :
    ∀ c ∈ text, (hexDigit c).isSome = true ∨ isBlank c = true := by
  intro c hc
  cases hb : isBlank c with
  | true => exact .inr rfl
  | false => exact .inl (hexFold_some h c (List.mem_filter.mpr ⟨hc,by rw [hb]; rfl⟩))

theorem skippedValue_some {text : Bytes} (h : ∀ c ∈ text, (hexDigit c).isSome = true ∨ isBlank c = true) :
    ∃ n, skippedValue text = some n := by
  have hall : ∀ c ∈ text.filter (fun c => !isBlank c), (hexDigit c).isSome = true := by
    intro c hc
    obtain ⟨hm,hb⟩ := List.mem_filter.mp hc
    refine (h c hm).resolve_right (fun ht => ?_)
    rw [ht] at hb
    cases hb
  unfold skippedValue
  generalize text.filter (fun c => !isBlank c) = s at hall
  suffices hm : ∀ m, ∃ n, hexFold m s = some n from hm 0
  clear h
  induction s with
  | nil => exact fun m => ⟨m,rfl⟩
  | cons c s ih =>
    intro m
    obtain ⟨hc,hs⟩ := List.forall_mem_cons.mp hall
    obtain ⟨d,hd⟩ := Option.isSome_iff_exists.mp hc
    obtain ⟨n,hn⟩ := ih hs (m * 16 + d)
    exact ⟨n,by rw [hexFold,hd,Option.bind_some,hn]⟩

/-- Chunk-size lines are read as the grammar has it, but for those in which blanks stand
elsewhere and those whose number takes more than sixteen bytes. -/
theorem readRight_iff (h : findCrlf line = none) : ReadRight line ↔ ¬ Lenient line ∧ ¬ Overlong line := by
  constructor
  · intro hr
    have hfill : fillUntil false sizeLine [] (line ++ crlf ++ crlf) = .ok (line.length,line ++ crlf ++ crlf,[]) := by
      unfold fillUntil
      rw [sizeLine,findCrlf_line crlf h]
    have htake : (line ++ crlf ++ crlf).take line.length = line := by rw [List.append_assoc,List.take_left]
    have hdrop : (line ++ crlf ++ crlf).drop (line.length + 2) = crlf := by
      have he : line.length + 2 = (line ++ crlf).length := by
        rw [List.length_append]
        rfl
      rw [he,List.drop_left]
    obtain ⟨hyes,hno⟩ := hr false 0 1 _ _ [] [] [] _ hfill htake
    rw [readChunks_line 0 1 [] hfill,htake,hdrop,parseHex_eq] at hyes hno
    refine ⟨fun hl => ?_,fun ho => ?_⟩
    · obtain ⟨n,hn⟩ := skippedValue_some hl.bytes
      have hsize : ∀ m, ¬ SizeLine line m := by
        intro m hm
        obtain ⟨⟨digits,blanks,hreg⟩,-⟩ := sizeLine_iff.mp hm
        exact hl.irregular digits blanks hreg
      have hne : ¬ (sizeText line = [] ∨ 16 < (sizeText line).length) := by
        rw [not_or]
        exact ⟨hl.ne_nil,Nat.not_lt.mpr hl.short⟩
      rw [if_neg hne,hn] at hno
      exact afterSize_ne (skippedValue_lt hl.short hn) (hno hsize)
    · obtain ⟨n,hlt,hn⟩ := ho.small
      have hs := hyes n (sizeLine_iff.mpr ⟨ho.regular,hn,hlt⟩)
      rw [if_pos (.inr ho.long)] at hs
      exact afterSize_ne hlt hs.symm
  · rintro ⟨hl,ho⟩ timesOut max fuel rest rest' reads reads' body i hfill rfl
    rw [readChunks_line max fuel body hfill,parseHex_eq]
    constructor
    · intro n hn
      obtain ⟨hreg,hv,hlt⟩ := sizeLine_iff.mp hn
      have hshort : ¬ (sizeText (rest'.take i) = [] ∨ 16 < (sizeText (rest'.take i)).length) := by
        rintro (he | hlong)
        · obtain ⟨digits,blanks,hreg⟩ := hreg
          have ht := hreg.text
          rw [he] at ht
          exact hreg.some_digit (List.append_eq_nil_iff.mp ht.symm).1
        · exact ho ⟨hlong,hreg,n,hlt,hv⟩
      rw [if_neg hshort,hv]
    · intro hno
      split_ifs with hc
      · rfl
      · rw [not_or,Nat.not_lt] at hc
        cases hv : skippedValue (sizeText (rest'.take i)) with
        | none => rfl
        | some n =>
          refine absurd ?_ hl
          refine ⟨hc.1,hc.2,skippedValue_bytes hv,fun digits blanks hreg => ?_⟩
          exact hno n (sizeLine_iff.mpr ⟨⟨digits,blanks,hreg⟩,hv,skippedValue_lt hc.2 hv⟩)

/-- `5;x` -/
theorem five_readRight : ReadRight [53,59,120] := by
  refine (readRight_iff (by decide)).mpr ⟨fun hl => ?_,fun ho => absurd ho.long (by decide)⟩
  have hdigits : ∀ c ∈ ([53] : Bytes), (hexDigit c).isSome = true := by
    intro c hc
    rw [List.mem_singleton.mp hc]
    rfl
  exact hl.irregular [53] [] ⟨rfl,List.cons_ne_nil _ _,hdigits,nofun,.inl rfl⟩

/-- A line of one blank is the last chunk. -/
theorem blank_readWrong : ¬ ∀ line, findCrlf line = none → ReadRight line := by
  intro h
  have hr := h [32] (by decide) false 0 1 ([32] ++ crlf ++ crlf) ([32] ++ crlf ++ crlf) [] [] [] 1 rfl rfl
  have hno : ∀ n, ¬ SizeLine [32] n := by
    intro n hn
    obtain ⟨⟨digits,blanks,hreg⟩,-⟩ := sizeLine_iff.mp hn
    have ht : [32] = digits ++ blanks := hreg.text
    cases digits with
    | nil => exact hreg.some_digit rfl
    | cons c digits =>
      obtain ⟨rfl,-⟩ := List.cons.inj ht
      exact absurd (hreg.allDigits 32 List.mem_cons_self) (by decide)
  exact absurd (hr.2 hno) (by decide)

end Accepted

end OxiServe.Server
