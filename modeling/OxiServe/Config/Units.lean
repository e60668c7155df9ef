import OxiServe.Config.CacheValid
import OxiServe.Lib.Numerals

/-! # What a number of the configuration is worth

Sizes, times, rates and bursts are numbers with a unit. A size is multiplied with
a check; the products of the others wrap around, and a time that is too large for
its type stops the server. Each text has a value of its own, given beside.
-/
namespace OxiServe.Config

section Outcome

/-- How reading a time ends. -/
inductive Outcome
  | rejected
  | value (ms : ℕ)
  | panicked
deriving DecidableEq, Repr

def Outcome.toOption : Outcome → Option ℕ
  | .value ms => some ms
  | _ => none

/-- The milliseconds that seconds of 64 bits have no room for. -/
def durationLimit : ℕ := 2 ^ 64 * 1000

/-- Adds up the parts, and panics where the sum has no room. -/
def timeRunFrom : ℕ → Bytes → ℕ → Outcome
  | 0, _, _ => .rejected
  | fuel + 1, s, total =>
    if s = [] then .value total
    else
      let digits := s.takeWhile isAsciiDigit
      let rest := s.dropWhile isAsciiDigit
      if digits = [] then .rejected
      else
        match (parseUnsigned 64 digits).bind (timeUnit (rest.takeWhile isAsciiAlphabetic)) with
        | none => .rejected
        | some t =>
          if total + t < durationLimit then timeRunFrom fuel (rest.dropWhile isAsciiAlphabetic) (total + t)
          else .panicked

def timeRun (s : Bytes) : Outcome := if s = [] then .rejected else timeRunFrom (s.length + 1) s 0

theorem timeRunFrom_toOption (fuel : ℕ) (s : Bytes) (total : ℕ) :
    (timeRunFrom fuel s total).toOption = parseTimeFrom fuel s total := by
  induction fuel generalizing s total with
  | zero => rfl
  | succ fuel ih =>
    unfold timeRunFrom parseTimeFrom
    by_cases hs : s = []
    · rw [if_pos hs,if_pos hs]
      rfl
    · rw [if_neg hs,if_neg hs]
      dsimp only
      by_cases hd : s.takeWhile isAsciiDigit = []
      · rw [if_pos hd,if_pos hd]
        rfl
      · rw [if_neg hd,if_neg hd]
        cases (parseUnsigned 64 (s.takeWhile isAsciiDigit)).bind
            (timeUnit ((s.dropWhile isAsciiDigit).takeWhile isAsciiAlphabetic)) with
        | none => rfl
        | some t =>
          dsimp only
          rw [durationLimit]
          by_cases hlt : total + t < 2 ^ 64 * 1000
          · rw [if_pos hlt,if_pos hlt]
            exact ih _ _
          · rw [if_neg hlt,if_neg hlt]
            rfl

theorem timeRun_toOption (s : Bytes) : (timeRun s).toOption = parseTime s := by
  unfold timeRun parseTime
  by_cases hs : s = []
  · rw [if_pos hs,if_pos hs]
    rfl
  · rw [if_neg hs,if_neg hs]
    exact timeRunFrom_toOption _ _ _

end Outcome

section Texts

/-- The milliseconds of a unit. -/
def unitMs (unit : Bytes) : Option ℕ :=
  if unit = lit "ms" then some 1
  else if unit = lit "s" ∨ unit = [] then some 1000
  else if unit = lit "m" then some 60000
  else if unit = lit "h" then some 3600000
  else if unit = lit "d" then some 86400000
  else if unit = lit "w" then some 604800000
  else if unit = lit "M" then some 2592000000
  else if unit = lit "y" then some 31536000000
  else none

/-- A time and its milliseconds. Only the last number can be without a unit. -/
inductive TimeText : Bytes → ℕ → Prop
  | last {d u : Bytes} {n k : ℕ} (hd : Denotes d n) (hu : unitMs u = some k) : TimeText (d ++ u) (n * k)
  | more {d u s : Bytes} {n k m : ℕ} (hd : Denotes d n) (hu : unitMs u = some k) (hne : u ≠ [])
      (hs : TimeText s m) : TimeText (d ++ (u ++ s)) (n * k + m)

def sizeUnit (c : UInt8) : Option ℕ :=
  if c = 107 ∨ c = 75 then some 1024
  else if c = 109 ∨ c = 77 then some (1024 * 1024)
  else if c = 103 ∨ c = 71 then some (1024 * 1024 * 1024)
  else none

inductive SizeText : Bytes → ℕ → Prop
  | bare {t : Bytes} {n : ℕ} (h : Denotes (stripPlus t) n) : SizeText t n
  | scaled {t : Bytes} {c : UInt8} {n k : ℕ} (h : Denotes (stripPlus t) n) (hc : sizeUnit c = some k) :
      SizeText (t ++ [c]) (n * k)

/-- A rate and its thousandths of a request in a second. -/
inductive RateText : Bytes → ℕ → Prop
  | second {t : Bytes} {n : ℕ} (h : Denotes (stripPlus t) n) : RateText (t ++ (lit "r/" ++ lit "s")) (n * 1000)
  | minute {t : Bytes} {n : ℕ} (h : Denotes (stripPlus t) n) : RateText (t ++ (lit "r/" ++ lit "m")) (n * 1000 / 60)

/-- A time is rejected or has the value of its text. -/
def TimeExact (s : Bytes) : Prop :=
  match timeRun s with
  | .rejected => True
  | .value ms => TimeText s ms
  | .panicked => False

def SizeExact (s : Bytes) : Prop := ∀ q, parseSize s = some q → SizeText s q

def RateExact (s : Bytes) : Prop := ∀ q, parseRate s = some q → RateText s q

def BurstExact (v : Bytes) : Prop := ∀ d lr lr', limitReqArg d lr (lit "burst=" ++ v) = .ok lr' →
  ∃ n, Denotes (stripPlus v) n ∧ lr' = { lr with burst := n * 1000 }

def DelayExact (v : Bytes) : Prop := ∀ d lr lr', limitReqArg d lr (lit "delay=" ++ v) = .ok lr' →
  ∃ n, Denotes (stripPlus v) n ∧ lr' = { lr with delayAfter := n * 1000 }

/-- The parts of a time that can be read from its front, each a number and the
milliseconds of its unit, and whether they are all of it. -/
def timeParts : ℕ → Bytes → List (ℕ × ℕ) × Bool
  | 0, _ => ([],false)
  | fuel + 1, s =>
    if s = [] then ([],true)
    else
      let digits := s.takeWhile isAsciiDigit
      let rest := s.dropWhile isAsciiDigit
      if digits = [] then ([],false)
      else
        match parseUnsigned 64 digits, unitMs (rest.takeWhile isAsciiAlphabetic) with
        | some n, some k =>
          let more := timeParts fuel (rest.dropWhile isAsciiAlphabetic)
          ((n,k) :: more.1,more.2)
        | _, _ => ([],false)

def worth (ps : List (ℕ × ℕ)) : ℕ := (ps.map (fun p => p.1 * p.2)).sum

/-- The milliseconds that are added for a part: its seconds have wrapped around. -/
def kept (p : ℕ × ℕ) : ℕ := if p.2 = 1 then p.1 else p.1 * (p.2 / 1000) % 2 ^ 64 * 1000

def keptSum (ps : List (ℕ × ℕ)) : ℕ := (ps.map kept).sum

/-- What is added up has room, and so has the value of the text if it has one. -/
def TimeFits (s : Bytes) : Prop :=
  keptSum (timeParts (s.length + 1) s).1 < durationLimit ∧
    ((timeParts (s.length + 1) s).2 = true → worth (timeParts (s.length + 1) s).1 < durationLimit)

instance (s : Bytes) : Decidable (TimeFits s) := inferInstanceAs (Decidable (_ ∧ _))

/-- A number that is accepted has room for a thousand times as much. -/
def ScaledFits (v : Bytes) : Prop := ∀ n, Denotes (stripPlus v) n → n < 2 ^ 64 → n * 1000 < 2 ^ 64

def RateFits (s : Bytes) : Prop :=
  ∀ t u, s = t ++ (lit "r/" ++ u) → u = lit "s" ∨ u = lit "m" → ScaledFits t

end Texts

section Times
variable {s d u : Bytes} {n k v : ℕ}

theorem timeUnit_eq (u : Bytes) (n : ℕ) : timeUnit u n = (unitMs u).map (fun k => kept (n,k)) := by
  unfold timeUnit unitMs
  split_ifs <;> simp [kept]

theorem keptSum_nil : keptSum [] = 0 := rfl

/-- What adding up the parts comes to. -/
theorem timeRunFrom_parts (fuel : ℕ) (s : Bytes) {total : ℕ} (ht : total < durationLimit) : timeRunFrom fuel s total =
    if total + keptSum (timeParts fuel s).1 < durationLimit then
      if (timeParts fuel s).2 then .value (total + keptSum (timeParts fuel s).1) else .rejected
    else .panicked := by
  have hnil : total + keptSum [] < durationLimit := by
    rw [keptSum_nil,Nat.add_zero]
    exact ht
  induction fuel generalizing s total with
  | zero =>
    unfold timeRunFrom timeParts
    rw [if_pos hnil]
    rfl
  | succ fuel ih =>
    unfold timeRunFrom timeParts
    by_cases hs : s = []
    · rw [if_pos hs,if_pos hs,if_pos hnil]
      rfl
    · rw [if_neg hs,if_neg hs]
      dsimp only
      by_cases hd : s.takeWhile isAsciiDigit = []
      · rw [if_pos hd,if_pos hd,if_pos hnil]
        rfl
      · rw [if_neg hd,if_neg hd]
        cases hn : parseUnsigned 64 (s.takeWhile isAsciiDigit) with
        | none =>
          dsimp only [Option.bind_none]
          rw [if_pos hnil]
          rfl
        | some n =>
          rw [Option.bind_some,timeUnit_eq]
          cases hk : unitMs ((s.dropWhile isAsciiDigit).takeWhile isAsciiAlphabetic) with
          | none =>
            dsimp only [Option.map_none]
            rw [if_pos hnil]
            rfl
          | some k =>
            dsimp only [Option.map_some]
            generalize (s.dropWhile isAsciiDigit).dropWhile isAsciiAlphabetic = rest
            have hsum : keptSum ((n,k) :: (timeParts fuel rest).1) = kept (n,k) + keptSum (timeParts fuel rest).1 := rfl
            rw [hsum,← Nat.add_assoc]
            by_cases hlt : total + kept (n,k) < durationLimit
            · rw [if_pos hlt]
              exact ih rest hlt (Nat.lt_of_le_of_lt (Nat.le_of_eq (Nat.add_zero _)) hlt)
            · rw [if_neg hlt,if_neg (by omega)]

theorem takeWhile_split {p : UInt8 → Bool} {a b : Bytes} (ha : ∀ c ∈ a, p c = true) (hb : ∀ c, b.head? = some c → p c = false) :
    (a ++ b).takeWhile p = a ∧ (a ++ b).dropWhile p = b := by
  have htake : b.takeWhile p = [] := by
    cases b with
    | nil => rfl
    | cons c r => exact List.takeWhile_cons_of_neg (by simp [hb c rfl])
  have hdrop : b.dropWhile p = b := by
    cases b with
    | nil => rfl
    | cons c r => exact List.dropWhile_cons_of_neg (by simp [hb c rfl])
  rw [List.takeWhile_append_of_pos ha,List.dropWhile_append_of_pos ha,htake,hdrop,List.append_nil]
  exact ⟨rfl,rfl⟩

theorem denotes_digits (h : Denotes d n) : d ≠ [] ∧ ∀ c ∈ d, isAsciiDigit c = true := by
  have hd := h.1
  unfold isDecimal at hd
  simp only [Bool.and_eq_true,Bool.not_eq_true',List.isEmpty_eq_false_iff,List.all_eq_true] at hd
  exact hd

theorem unit_alphabetic (h : unitMs u = some k) : ∀ c ∈ u, isAsciiAlphabetic c = true := by
  have hall : u.all isAsciiAlphabetic = true := by
    unfold unitMs at h
    split_ifs at h with h1 h2 h3 h4 h5 h6 h7 h8
    · rw [h1]; rfl
    · rcases h2 with rfl | rfl <;> rfl
    · rw [h3]; rfl
    · rw [h4]; rfl
    · rw [h5]; rfl
    · rw [h6]; rfl
    · rw [h7]; rfl
    · rw [h8]; rfl
  exact List.all_eq_true.mp hall

theorem digit_not_alphabetic {c : UInt8} (h : isAsciiDigit c = true) : isAsciiAlphabetic c = false := by
  simp only [isAsciiDigit,isAsciiAlphabetic,isAsciiUppercase,Bool.and_eq_true,decide_eq_true_eq,Bool.or_eq_false_iff,
    Bool.and_eq_false_iff,decide_eq_false_iff_not,UInt8.le_iff_toNat_le] at h ⊢
  have h57 : (57 : UInt8).toNat = 57 := rfl
  have h65 : (65 : UInt8).toNat = 65 := rfl
  have h97 : (97 : UInt8).toNat = 97 := rfl
  exact ⟨.inl (by omega),.inl (by omega)⟩

theorem alphabetic_not_digit {c : UInt8} (h : isAsciiAlphabetic c = true) : isAsciiDigit c = false := by
  cases hd : isAsciiDigit c with
  | false => rfl
  | true =>
    rw [digit_not_alphabetic hd] at h
    cases h

/-- A time begins with a digit. -/
theorem TimeText.head (h : TimeText s v) : ∀ c, s.head? = some c → isAsciiDigit c = true := by
  have hdigits : ∀ (d u : Bytes) (n : ℕ), Denotes d n → ∀ c, (d ++ u).head? = some c → isAsciiDigit c = true := by
    intro d u n hd c hc
    obtain ⟨hne,hall⟩ := denotes_digits hd
    cases d with
    | nil => exact absurd rfl hne
    | cons e d =>
      obtain rfl : e = c := Option.some.inj hc
      exact hall e List.mem_cons_self
  cases h with
  | last hd hu => exact hdigits _ _ _ hd
  | more hd hu hne hs => exact hdigits _ _ _ hd

theorem parseUnsigned_digits (hd : Denotes d n) : parseUnsigned 64 d = if n < 2 ^ 64 then some n else none := by
  unfold parseUnsigned
  rw [stripPlus_of_isDecimal hd.1,hd.1,hd.2]
  simp

/-- A part is read back from the front of a text. -/
theorem timeParts_cons (hd : Denotes d n) (hu : unitMs u = some k) (hs : ∀ c, s.head? = some c → isAsciiDigit c = true)
    (hne : s ≠ [] → u ≠ []) (fuel : ℕ) : timeParts (fuel + 1) (d ++ (u ++ s)) =
      if n < 2 ^ 64 then ((n,k) :: (timeParts fuel s).1,(timeParts fuel s).2) else ([],false) := by
  obtain ⟨hdne,hdigits⟩ := denotes_digits hd
  have hfirst : ∀ c, (u ++ s).head? = some c → isAsciiDigit c = false := by
    intro c hc
    cases u with
    | nil =>
      cases s with
      | nil => cases hc
      | cons e s => exact absurd rfl (hne (List.cons_ne_nil e s))
    | cons e u =>
      obtain rfl : e = c := Option.some.inj hc
      exact alphabetic_not_digit (unit_alphabetic hu e List.mem_cons_self)
  obtain ⟨htake,hdrop⟩ := takeWhile_split hdigits hfirst
  obtain ⟨htake',hdrop'⟩ := takeWhile_split (unit_alphabetic hu) fun c hc => digit_not_alphabetic (hs c hc)
  have hsne : d ++ (u ++ s) ≠ [] := List.append_ne_nil_of_left_ne_nil hdne _
  simp only [timeParts,if_neg hsne,htake,hdrop,htake',hdrop',if_neg hdne,parseUnsigned_digits hd,hu]
  by_cases hlt : n < 2 ^ 64
  · rw [if_pos hlt,if_pos hlt]
  · rw [if_neg hlt,if_neg hlt]

/-- The parts of a text that has a value add up to it. -/
theorem TimeText.worth_eq (h : TimeText s v) {fuel : ℕ} (hf : s.length < fuel) (hw : (timeParts fuel s).2 = true) :
    worth (timeParts fuel s).1 = v := by
  induction h generalizing fuel with
  | @last d u n k hd hu =>
    cases fuel with
    | zero => omega
    | succ fuel =>
      have hpos : 0 < d.length := List.length_pos_iff.mpr (denotes_digits hd).1
      have hcons := timeParts_cons (s := []) hd hu (fun c hc => by cases hc) (fun h => absurd rfl h) fuel
      rw [List.append_nil] at hcons
      rw [hcons] at hw ⊢
      by_cases hlt : n < 2 ^ 64
      · rw [if_pos hlt] at hw ⊢
        cases fuel with
        | zero => cases hw
        | succ fuel => rfl
      · rw [if_neg hlt] at hw
        cases hw
  | @more d u s n k m hd hu hne hs ih =>
    cases fuel with
    | zero => omega
    | succ fuel =>
      have hpos : 0 < d.length := List.length_pos_iff.mpr (denotes_digits hd).1
      rw [List.length_append,List.length_append] at hf
      rw [timeParts_cons hd hu hs.head (fun _ => hne) fuel] at hw ⊢
      by_cases hlt : n < 2 ^ 64
      · rw [if_pos hlt] at hw ⊢
        have hih := ih (by omega) hw
        exact congrArg (n * k + ·) hih
      · rw [if_neg hlt] at hw
        cases hw

theorem timeParts_head {fuel : ℕ} (hw : (timeParts fuel s).2 = true) :
    ∀ c, s.head? = some c → isAsciiDigit c = true := by
  intro c hc
  cases fuel with
  | zero => cases hw
  | succ fuel =>
    cases s with
    | nil => cases hc
    | cons e r =>
      obtain rfl : e = c := Option.some.inj hc
      cases hd : isAsciiDigit e with
      | true => rfl
      | false =>
        have htake : (e :: r).takeWhile isAsciiDigit = [] := List.takeWhile_cons_of_neg (by simp [hd])
        simp [timeParts,htake] at hw

/-- The first part of a text that is read to its end. -/
theorem timeParts_whole {fuel : ℕ} (hne : s ≠ []) (hw : (timeParts (fuel + 1) s).2 = true) :
    ∃ d u rest n k, s = d ++ (u ++ rest) ∧ Denotes d n ∧ unitMs u = some k ∧ (rest ≠ [] → u ≠ []) ∧
      timeParts (fuel + 1) s = ((n,k) :: (timeParts fuel rest).1,(timeParts fuel rest).2) := by
  have hs := List.takeWhile_append_dropWhile (p := isAsciiDigit) (l := s)
  have hs' := List.takeWhile_append_dropWhile (p := isAsciiAlphabetic) (l := s.dropWhile isAsciiDigit)
  have hfirst := List.head?_dropWhile_not isAsciiDigit s
  have hdigits : (s.takeWhile isAsciiDigit).all isAsciiDigit = true := List.all_takeWhile
  unfold timeParts at hw
  rw [if_neg hne] at hw
  dsimp only at hw
  by_cases hd : s.takeWhile isAsciiDigit = []
  · rw [if_pos hd] at hw
    cases hw
  · rw [if_neg hd] at hw
    have hdec : isDecimal (s.takeWhile isAsciiDigit) = true := by
      unfold isDecimal
      rw [hdigits,List.isEmpty_eq_false_iff.mpr hd]
      rfl
    cases hn : parseUnsigned 64 (s.takeWhile isAsciiDigit) with
    | none =>
      rw [hn] at hw
      cases hw
    | some n =>
      cases hk : unitMs ((s.dropWhile isAsciiDigit).takeWhile isAsciiAlphabetic) with
      | none =>
        rw [hn,hk] at hw
        cases hw
      | some k =>
        rw [hn,hk] at hw
        obtain ⟨-,hval⟩ := parseUnsigned_eq_some hn
        rw [stripPlus_of_isDecimal hdec] at hval
        refine ⟨_,_,(s.dropWhile isAsciiDigit).dropWhile isAsciiAlphabetic,n,k,?_,⟨hdec,hval⟩,hk,?_,?_⟩
        · rw [hs',hs]
        · intro hrest hu
          rw [hu,List.nil_append] at hs'
          have hmore := timeParts_head hw
          rw [hs'] at hmore hrest
          cases hr : s.dropWhile isAsciiDigit with
          | nil => exact hrest hr
          | cons c r =>
            rw [hr] at hfirst hmore
            have hdigit := hmore c rfl
            simp [hdigit] at hfirst
        · simp only [timeParts,if_neg hne,if_neg hd,hn,hk]

/-- A text that is read to its end has a value. -/
theorem timeText_of_parts (fuel : ℕ) (s : Bytes) (hne : s ≠ []) (hw : (timeParts fuel s).2 = true) :
    TimeText s (worth (timeParts fuel s).1) := by
  induction fuel generalizing s with
  | zero => cases hw
  | succ fuel ih =>
    obtain ⟨d,u,rest,n,k,rfl,hd,hu,hnext,hparts⟩ := timeParts_whole hne hw
    rw [hparts] at hw ⊢
    by_cases hrest : rest = []
    · subst hrest
      have hnil : (timeParts fuel []).1 = [] := by
        cases fuel with
        | zero => rfl
        | succ fuel => rfl
      rw [hnil,List.append_nil]
      exact .last hd hu
    · exact .more hd hu (hnext hrest) (ih rest hrest hw)

/-- Nothing wraps around in a sum that has room. -/
theorem keptSum_eq {ps : List (ℕ × ℕ)} (hk : ∀ p ∈ ps, p.2 = 1 ∨ 1000 ∣ p.2) (h : worth ps < durationLimit) :
    keptSum ps = worth ps := by
  induction ps with
  | nil => rfl
  | cons p ps ih =>
    have hsum : worth (p :: ps) = p.1 * p.2 + worth ps := rfl
    have hsum' : keptSum (p :: ps) = kept p + keptSum ps := rfl
    rw [hsum] at h
    rw [hsum,hsum',ih (fun q hq => hk q (List.mem_cons_of_mem _ hq)) (by omega)]
    congr 1
    unfold kept
    rcases hk p List.mem_cons_self with h1 | ⟨j,hj⟩
    · rw [if_pos h1,h1,Nat.mul_one]
    · have hmul : p.1 * (1000 * j) = p.1 * j * 1000 := by rw [Nat.mul_comm 1000,Nat.mul_assoc]
      by_cases h1 : p.2 = 1
      · omega
      · rw [if_neg h1]
        rw [hj] at h ⊢
        rw [hmul] at h ⊢
        rw [Nat.mul_div_cancel_left j (by decide),Nat.mod_eq_of_lt]
        unfold durationLimit at h
        omega

theorem unitMs_cases (h : unitMs u = some k) : k = 1 ∨ 1000 ∣ k := by
  unfold unitMs at h
  split_ifs at h <;> cases h <;> decide

theorem timeParts_units (fuel : ℕ) (s : Bytes) : ∀ p ∈ (timeParts fuel s).1, p.2 = 1 ∨ 1000 ∣ p.2 := by
  induction fuel generalizing s with
  | zero => exact fun p hp => by cases hp
  | succ fuel ih =>
    unfold timeParts
    split
    · exact fun p hp => by cases hp
    · dsimp only
      split
      · exact fun p hp => by cases hp
      · cases hn : parseUnsigned 64 (s.takeWhile isAsciiDigit) with
        | none => exact fun p hp => by cases hp
        | some n =>
          cases hk : unitMs ((s.dropWhile isAsciiDigit).takeWhile isAsciiAlphabetic) with
          | none => exact fun p hp => by cases hp
          | some k =>
            intro p hp
            rcases List.mem_cons.mp hp with rfl | hp
            · exact unitMs_cases hk
            · exact ih _ p hp

theorem timeExact_iff (s : Bytes) : TimeExact s ↔ TimeFits s := by
  unfold TimeExact TimeFits timeRun
  by_cases hs : s = []
  · subst hs
    exact iff_of_true trivial ⟨by decide,fun _ => by decide⟩
  · have hrun := timeRunFrom_parts (s.length + 1) s (by decide : 0 < durationLimit)
    rw [Nat.zero_add] at hrun
    rw [if_neg hs,hrun]
    by_cases hlt : keptSum (timeParts (s.length + 1) s).1 < durationLimit
    · rw [if_pos hlt]
      by_cases hw : (timeParts (s.length + 1) s).2 = true
      · rw [if_pos hw]
        dsimp only
        constructor
        · intro ht
          rw [ht.worth_eq (Nat.lt_succ_self _) hw]
          exact ⟨hlt,fun _ => hlt⟩
        · rintro ⟨-,hworth⟩
          rw [keptSum_eq (timeParts_units _ _) (hworth hw)]
          exact timeText_of_parts _ s hs hw
      · rw [if_neg hw]
        exact iff_of_true trivial ⟨hlt,fun h => absurd h hw⟩
    · rw [if_neg hlt]
      exact iff_of_false id fun h => hlt h.1

end Times

section Numbers
variable {s t u v : Bytes} {n q : ℕ}

theorem parseUnsigned_denotes (h : parseUnsigned 64 t = some n) : Denotes (stripPlus t) n ∧ n < 2 ^ 64 := by
  unfold parseUnsigned at h
  split at h
  · next hd =>
    simp only [Bool.and_eq_true,decide_eq_true_eq] at hd
    obtain rfl : decimalValue (stripPlus t) = n := Option.some.inj h
    exact ⟨⟨hd.1,rfl⟩,hd.2⟩
  · cases h

theorem parseUnsigned_of_denotes (hd : Denotes (stripPlus t) n) (hn : n < 2 ^ 64) : parseUnsigned 64 t = some n := by
  unfold parseUnsigned
  rw [hd.1,hd.2,decide_eq_true hn]
  rfl

theorem sizeExact (s : Bytes) : SizeExact s := by
  intro q hq
  unfold parseSize at hq
  cases hc : s.getLast? with
  | none =>
    rw [hc] at hq
    cases hq
  | some c =>
    rw [hc] at hq
    dsimp only at hq
    have hs : s = s.dropLast ++ [c] := (List.dropLast_append_getLast? c hc).symm
    have hscaled : ∀ k, sizeUnit c = some k → (parseUnsigned 64 s.dropLast).bind
        (fun n => if n * k < 2 ^ 64 then some (n * k) else none) = some q → SizeText s q := by
      intro k hk h
      obtain ⟨n,hn,hif⟩ := Option.bind_eq_some_iff.mp h
      split at hif
      · cases hif
        rw [hs]
        exact .scaled (parseUnsigned_denotes hn).1 hk
      · cases hif
    by_cases h1 : c = 107 ∨ c = 75
    · rw [if_pos h1] at hq
      exact hscaled _ (if_pos h1) hq
    · rw [if_neg h1] at hq
      by_cases h2 : c = 109 ∨ c = 77
      · rw [if_pos h2] at hq
        exact hscaled _ ((if_neg h1).trans (if_pos h2)) hq
      · rw [if_neg h2] at hq
        by_cases h3 : c = 103 ∨ c = 71
        · rw [if_pos h3] at hq
          exact hscaled _ ((if_neg h1).trans ((if_neg h2).trans (if_pos h3))) hq
        · rw [if_neg h3] at hq
          obtain ⟨n,hn,hif⟩ := Option.bind_eq_some_iff.mp hq
          rw [Nat.mul_one] at hif
          split at hif
          · cases hif
            exact .bare (parseUnsigned_denotes hn).1
          · cases hif

theorem splitOnceText_eq_some {p a b : Bytes} (h : splitOnceText p s = some (a,b)) : s = a ++ (p ++ b) := by
  induction s generalizing a with
  | nil =>
    unfold splitOnceText at h
    split at h
    · next hp =>
      cases h
      rw [hp]
      rfl
    · cases h
  | cons c s ih =>
    unfold splitOnceText at h
    cases hp : stripPrefix p (c :: s) with
    | some rest =>
      rw [hp] at h
      obtain ⟨rfl,rfl⟩ := Prod.mk.inj (Option.some.inj h)
      rw [stripPrefix_eq_some.mp hp]
      rfl
    | none =>
      rw [hp] at h
      obtain ⟨⟨a',b'⟩,hab,heq⟩ := Option.map_eq_some_iff.mp h
      cases heq
      exact congrArg (c :: ·) (ih hab)

/-- No number holds the letter that a rate goes on with. -/
theorem denotes_no_r (h : Denotes (stripPlus t) n) : (114 : UInt8) ∉ t := by
  intro hm
  have hall := (denotes_digits h).2
  rcases stripPlus_cases t with ⟨r,rfl,hr⟩ | he
  · rw [hr] at hall
    rcases List.mem_cons.mp hm with hc | hm
    · cases hc
    · exact absurd (hall _ hm) (by decide)
  · rw [he] at hall
    exact absurd (hall _ hm) (by decide)

theorem splitOnceText_rate (ht : (114 : UInt8) ∉ t) : splitOnceText (lit "r/") (t ++ (lit "r/" ++ u)) = some (t,u) := by
  induction t with
  | nil => rfl
  | cons c t ih =>
    obtain ⟨hne,ht⟩ := List.ne_and_not_mem_of_not_mem_cons ht
    have hnone : stripPrefix (lit "r/") (c :: (t ++ (lit "r/" ++ u))) = none := by
      cases hs : stripPrefix (lit "r/") (c :: (t ++ (lit "r/" ++ u))) with
      | none => rfl
      | some rest => exact absurd (List.cons.inj (stripPrefix_eq_some.mp hs)).1.symm hne
    rw [List.cons_append,splitOnceText,hnone]
    dsimp only
    rw [ih ht]
    rfl

/-- A text of a rate has one value. -/
theorem RateText.value (h : RateText (t ++ (lit "r/" ++ u)) q) (hd : Denotes (stripPlus t) n) :
    u = lit "s" ∧ q = n * 1000 ∨ u = lit "m" ∧ q = n * 1000 / 60 := by
  have hsplit := splitOnceText_rate (u := u) (denotes_no_r hd)
  generalize hw : t ++ (lit "r/" ++ u) = w at h hsplit
  cases h with
  | second hd' =>
    rw [splitOnceText_rate (denotes_no_r hd')] at hsplit
    cases hsplit
    exact .inl ⟨rfl,by rw [← hd.2,← hd'.2]⟩
  | minute hd' =>
    rw [splitOnceText_rate (denotes_no_r hd')] at hsplit
    cases hsplit
    exact .inr ⟨rfl,by rw [← hd.2,← hd'.2]⟩

theorem rateExact_iff (s : Bytes) : RateExact s ↔ RateFits s := by
  constructor
  · rintro h t u rfl hu n hd hn
    by_contra hge
    have hparse : parseRate (t ++ (lit "r/" ++ u)) =
        if u = lit "s" then some (n * 1000 % 2 ^ 64)
        else if u = lit "m" then some (n * 1000 % 2 ^ 64 / 60) else none := by
      unfold parseRate
      rw [splitOnceText_rate (denotes_no_r hd)]
      dsimp only
      rw [parseUnsigned_of_denotes hd hn,Option.bind_some]
    rcases hu with rfl | rfl
    · rcases (h _ hparse).value hd with ⟨-,he⟩ | ⟨he,-⟩
      · omega
      · cases he
    · rcases (h _ hparse).value hd with ⟨he,-⟩ | ⟨-,he⟩
      · cases he
      · omega
  · intro hfits q hq
    unfold parseRate at hq
    cases hsplit : splitOnceText (lit "r/") s with
    | none =>
      rw [hsplit] at hq
      cases hq
    | some p =>
      obtain ⟨t,u⟩ := p
      rw [hsplit] at hq
      obtain ⟨n,hn,hq⟩ := Option.bind_eq_some_iff.mp hq
      obtain ⟨hd,hlt⟩ := parseUnsigned_denotes hn
      have hs := splitOnceText_eq_some hsplit
      split at hq
      · next hu =>
        have hsmall := hfits t u hs (.inl hu) n hd hlt
        rw [Nat.mod_eq_of_lt hsmall] at hq
        cases hq
        rw [hs,hu]
        exact .second hd
      · split at hq
        · next hu =>
          have hsmall := hfits t u hs (.inr hu) n hd hlt
          rw [Nat.mod_eq_of_lt hsmall] at hq
          cases hq
          rw [hs,hu]
          exact .minute hd
        · cases hq

theorem limitReqArg_burst (d : Directive) (lr : LimitReq) (v : Bytes) : limitReqArg d lr (lit "burst=" ++ v) =
    match parseUnsigned 64 v with
    | some n => .ok { lr with burst := n * 1000 % 2 ^ 64 }
    | none => bail d (lit "invalid \"burst\" value " ++ quoted v ++ lit " in \"limit_req\"") := by
  have hzone : stripPrefix (lit "zone=") (lit "burst=" ++ v) = none := rfl
  have hburst : stripPrefix (lit "burst=") (lit "burst=" ++ v) = some v := stripPrefix_eq_some.mpr rfl
  cases hv : parseUnsigned 64 v with
  | none => simp only [limitReqArg,hzone,hburst,hv]
  | some n => simp only [limitReqArg,hzone,hburst,hv]

theorem limitReqArg_delay (d : Directive) (lr : LimitReq) (v : Bytes) : limitReqArg d lr (lit "delay=" ++ v) =
    match parseUnsigned 64 v with
    | some n => .ok { lr with delayAfter := n * 1000 % 2 ^ 64 }
    | none => bail d (lit "invalid \"delay\" value " ++ quoted v ++ lit " in \"limit_req\"") := by
  have hzone : stripPrefix (lit "zone=") (lit "delay=" ++ v) = none := rfl
  have hburst : stripPrefix (lit "burst=") (lit "delay=" ++ v) = none := rfl
  have hnodelay : lit "delay=" ++ v ≠ lit "nodelay" := fun h => by cases h
  have hdelay : stripPrefix (lit "delay=") (lit "delay=" ++ v) = some v := stripPrefix_eq_some.mpr rfl
  cases hv : parseUnsigned 64 v with
  | none => simp only [limitReqArg,hzone,hburst,if_neg hnodelay,hdelay,hv]
  | some n => simp only [limitReqArg,hzone,hburst,if_neg hnodelay,hdelay,hv]

theorem burstExact_iff (v : Bytes) : BurstExact v ↔ ScaledFits v := by
  constructor
  · intro h n hd hn
    obtain ⟨m,hm,he⟩ := h (.mk [] [] [] []) ⟨[],0,false,0⟩ _
      (by rw [limitReqArg_burst,parseUnsigned_of_denotes hd hn])
    have hmn : m = n := hm.2.symm.trans hd.2
    have hburst := congrArg LimitReq.burst he
    dsimp only at hburst
    omega
  · intro hfits d lr lr' h
    rw [limitReqArg_burst] at h
    cases hn : parseUnsigned 64 v with
    | none =>
      rw [hn] at h
      cases h
    | some n =>
      rw [hn] at h
      obtain ⟨hd,hlt⟩ := parseUnsigned_denotes hn
      dsimp only at h
      rw [Nat.mod_eq_of_lt (hfits n hd hlt)] at h
      cases h
      exact ⟨n,hd,rfl⟩

theorem delayExact_iff (v : Bytes) : DelayExact v ↔ ScaledFits v := by
  constructor
  · intro h n hd hn
    obtain ⟨m,hm,he⟩ := h (.mk [] [] [] []) ⟨[],0,false,0⟩ _
      (by rw [limitReqArg_delay,parseUnsigned_of_denotes hd hn])
    have hmn : m = n := hm.2.symm.trans hd.2
    have hdelay := congrArg LimitReq.delayAfter he
    dsimp only at hdelay
    omega
  · intro hfits d lr lr' h
    rw [limitReqArg_delay] at h
    cases hn : parseUnsigned 64 v with
    | none =>
      rw [hn] at h
      cases h
    | some n =>
      rw [hn] at h
      obtain ⟨hd,hlt⟩ := parseUnsigned_denotes hn
      dsimp only at h
      rw [Nat.mod_eq_of_lt (hfits n hd hlt)] at h
      cases h
      exact ⟨n,hd,rfl⟩

/-- A size is worth what its text says. The others are where there is room for it. -/
theorem numbers_exact_iff (s : Bytes) : SizeExact s ∧ (TimeExact s ↔ TimeFits s) ∧ (RateExact s ↔ RateFits s) ∧
    (BurstExact s ↔ ScaledFits s) ∧ (DelayExact s ↔ ScaledFits s) :=
  ⟨sizeExact s,timeExact_iff s,rateExact_iff s,burstExact_iff s,delayExact_iff s⟩

/-- Sixty times this number of seconds is 44 seconds more than fits. -/
theorem minutes_wrap : ¬ ∀ s, SizeExact s ∧ TimeExact s ∧ RateExact s ∧ BurstExact s ∧ DelayExact s := by
  intro h
  have hfits := (timeExact_iff (lit "307445734561825861m")).mp (h _).2.1
  exact absurd hfits (by decide +kernel)

example : parseTime (lit "307445734561825861m") = some 44000 := by decide +kernel

end Numbers

end OxiServe.Config
