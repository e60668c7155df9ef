import OxiServe.Config.ZoneRefs

/-! # `proxy_cache_valid`

The last argument is a time, the ones before it are statuses. `any` empties the
list of statuses, and so does giving none: the two are the same afterwards.
-/
namespace OxiServe.Config

section Times

/-- A unit of time for a number of it, in milliseconds; a product wraps at 64 bits. -/
def timeUnit (unit : Bytes) (n : ℕ) : Option ℕ :=
  let secs (k : ℕ) : Option ℕ := some (n * k % 2 ^ 64 * 1000)
  if unit = lit "ms" then some n
  else if unit = lit "s" ∨ unit = [] then secs 1
  else if unit = lit "m" then secs 60
  else if unit = lit "h" then secs 3600
  else if unit = lit "d" then secs 86400
  else if unit = lit "w" then secs 604800
  else if unit = lit "M" then secs 2592000
  else if unit = lit "y" then secs 31536000
  else none

/-- Adds up the parts. A sum beyond 64 bits of seconds stops the server, which is
no configuration either. -/
def parseTimeFrom : ℕ → Bytes → ℕ → Option ℕ
  | 0, _, _ => none
  | fuel + 1, s, total =>
    if s = [] then some total
    else
      let digits := s.takeWhile isAsciiDigit
      let rest := s.dropWhile isAsciiDigit
      if digits = [] then none
      else
        match (parseUnsigned 64 digits).bind (timeUnit (rest.takeWhile isAsciiAlphabetic)) with
        | none => none
        | some t =>
          if total + t < 2 ^ 64 * 1000 then parseTimeFrom fuel (rest.dropWhile isAsciiAlphabetic) (total + t)
          else none

/-- `30s`, `10m`, `1h30m`. -/
def parseTime (s : Bytes) : Option ℕ := if s = [] then none else parseTimeFrom (s.length + 1) s 0

def timeArg (d : Directive) (i : ℕ) : Built ℕ :=
  let a := (d.args[i]?).getD []
  match parseTime a with
  | some t => .ok t
  | none => bail d (lit "invalid time value " ++ quoted a ++ lit " in " ++ quoted d.name ++ lit " directive")

example : parseTime (lit "1h30m") = some 5400000 := by decide +kernel

end Times

section Statuses

def validCodes (d : Directive) : List Bytes → List ℕ → Built (List ℕ)
  | [], codes => .ok codes
  | a :: as, codes =>
    if a = lit "any" then .ok []
    else
      match parseUnsigned 16 a with
      | some n => validCodes d as (codes ++ [n])
      | none => bail d (lit "invalid status " ++ quoted a ++ lit " in \"proxy_cache_valid\"")

def cacheValid (d : Directive) : Built CacheValid := do
  wantArgsRange d 1 32
  let ttl ← timeArg d (d.args.length - 1)
  let codes ← validCodes d d.args.dropLast []
  .ok ⟨codes,ttl⟩

/-- What a directive says about a status: it gives it or `any`, or it gives no
status and this is one kept by default. -/
def Directive.Keeps (d : Directive) (status : ℕ) : Prop :=
  lit "any" ∈ d.args.dropLast ∨ (∃ a ∈ d.args.dropLast, parseUnsigned 16 a = some status) ∨
    (d.args.dropLast = [] ∧ (status = 200 ∨ status = 301 ∨ status = 302))

/-- What the server lets a directive cover, which no longer tells a list left
empty by `any` from one that never had a status. -/
def Directive.Covers (d : Directive) (status : ℕ) : Prop :=
  lit "any" ∈ d.args.dropLast ∨ (∃ a ∈ d.args.dropLast, parseUnsigned 16 a = some status) ∨ d.args.dropLast = []

theorem validCodes_ok {d : Directive} {as : List Bytes} {codes got : List ℕ} (h : validCodes d as codes = .ok got) :
    (lit "any" ∈ as ∧ got = []) ∨
      (∀ s ∈ got, s ∈ codes ∨ ∃ a ∈ as, parseUnsigned 16 a = some s) ∧ got.length = codes.length + as.length := by
  induction as generalizing codes with
  | nil =>
    cases h
    exact .inr ⟨fun s hs => .inl hs,rfl⟩
  | cons a as ih =>
    unfold validCodes at h
    split at h
    · rename_i ha
      cases h
      exact .inl ⟨ha ▸ List.mem_cons_self,rfl⟩
    · split at h
      · rename_i n hn
        rcases ih h with ⟨hm,he⟩ | ⟨hs,hl⟩
        · exact .inl ⟨List.mem_cons_of_mem _ hm,he⟩
        · refine .inr ⟨?_,?_⟩
          · intro s hg
            rcases hs s hg with hc | ⟨b,hb,hp⟩
            · rcases List.mem_append.mp hc with hc | hc
              · exact .inl hc
              · rw [List.mem_singleton.mp hc]
                exact .inr ⟨a,List.mem_cons_self,hn⟩
            · exact .inr ⟨b,List.mem_cons_of_mem _ hb,hp⟩
          · simp only [List.length_append,List.length_cons,List.length_nil] at hl ⊢
            omega
      · cases h

theorem cacheValid_ok {d : Directive} {v : CacheValid} (h : cacheValid d = .ok v) :
    validCodes d d.args.dropLast [] = .ok v.codes := by
  unfold cacheValid at h
  obtain ⟨-,-,h⟩ := bind_ok.mp h
  obtain ⟨ttl,-,h⟩ := bind_ok.mp h
  obtain ⟨codes,hc,h⟩ := bind_ok.mp h
  cases h
  exact hc

theorem covers_of_valid {d : Directive} {v : CacheValid} {s : ℕ} (h : cacheValid d = .ok v)
    (hs : s ∈ v.codes ∨ v.codes = []) : d.Covers s := by
  rcases validCodes_ok (cacheValid_ok h) with ⟨ha,-⟩ | ⟨hc,hl⟩
  · exact .inl ha
  · rcases hs with hs | he
    · rcases hc s hs with hn | ha
      · cases hn
      · exact .inr (.inl ha)
    · rw [he] at hl
      exact .inr (.inr (List.eq_nil_of_length_eq_zero (by simpa using hl.symm)))

end Statuses

end OxiServe.Config
