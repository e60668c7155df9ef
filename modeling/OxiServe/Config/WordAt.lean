import OxiServe.Config.Words

/-! # Words where they stand

What is read when reading starts within a word that was escaped for double quotes, and
how a word that is read lies in the text it is read from.
-/
namespace OxiServe.Config.Lexer

section Rotation

variable {α : Type}

theorem cons_eq_concat {c d : α} {r a : List α} (h : c :: r = a ++ [d]) :
    (a = [] ∧ r = [] ∧ c = d) ∨ ∃ a', a = c :: a' ∧ r = a' ++ [d] := by
  cases a with
  | nil =>
    obtain ⟨rfl,rfl⟩ := List.cons.inj h
    exact .inl ⟨rfl,rfl,rfl⟩
  | cons x a =>
    obtain ⟨rfl,rfl⟩ := List.cons.inj h
    exact .inr ⟨a,rfl,rfl⟩

theorem eq_of_rotate {a b : α} {z : List α} (h : a :: z = z ++ [b]) : ∀ c ∈ z, c = b := by
  induction z generalizing a with
  | nil => exact fun c hc => nomatch hc
  | cons x z ih =>
    obtain ⟨-,hz⟩ := List.cons.inj h
    have hall := ih hz
    intro c hc
    rw [hz] at hc
    rcases List.mem_append.mp hc with hc | hc
    · exact hall c hc
    · exact List.mem_singleton.mp hc

end Rotation

section Scanning
variable {s w y T : Bytes}

theorem suffix_escapeAll (h : y <:+ escapeAll w ++ T) : y <:+ T ∨
    (∃ u c x, w = u ++ c :: x ∧ y = escapeAll (c :: x) ++ T) ∨
    ∃ u c x, w = u ++ c :: x ∧ (c = 92 ∨ c = 34) ∧ y = c :: (escapeAll x ++ T) := by
  induction w with
  | nil => exact .inl h
  | cons c w ih =>
    have hcons : (∃ u d x, w = u ++ d :: x ∧ y = escapeAll (d :: x) ++ T) ∨
        (∃ u d x, w = u ++ d :: x ∧ (d = 92 ∨ d = 34) ∧ y = d :: (escapeAll x ++ T)) →
        (∃ u d x, c :: w = u ++ d :: x ∧ y = escapeAll (d :: x) ++ T) ∨
        ∃ u d x, c :: w = u ++ d :: x ∧ (d = 92 ∨ d = 34) ∧ y = d :: (escapeAll x ++ T) := by
      rintro (⟨u,d,x,rfl,hy⟩ | ⟨u,d,x,rfl,hd,hy⟩)
      · exact .inl ⟨c :: u,d,x,rfl,hy⟩
      · exact .inr ⟨c :: u,d,x,rfl,hd,hy⟩
    by_cases hs : c = 92 ∨ c = 34
    · rw [escapeAll_special hs,List.cons_append,List.cons_append] at h
      rcases List.suffix_cons_iff.mp h with h | h
      · exact .inr (.inl ⟨[],c,w,rfl,by rw [escapeAll_special hs]; exact h⟩)
      · rcases List.suffix_cons_iff.mp h with h | h
        · exact .inr (.inr ⟨[],c,w,rfl,hs,h⟩)
        · exact (ih h).imp id hcons
    · have hne := not_or.mp hs
      rw [escapeAll_cons hne.1 hne.2,List.cons_append] at h
      rcases List.suffix_cons_iff.mp h with h | h
      · exact .inr (.inl ⟨[],c,w,rfl,by rw [escapeAll_cons hne.1 hne.2]; exact h⟩)
      · exact (ih h).imp id hcons

/-- Outside quotes an escaped word is read up to a delimiter in it, or with the quote
behind it. -/
theorem scanBare_escapeAll (x : Bytes) (hs : s.head?.all isDelim = true) :
    (scanBare (escapeAll x ++ 34 :: s)).1 = escapeAll x ++ [34] ∨
      ∃ x1 d x2, x = x1 ++ d :: x2 ∧ (scanBare (escapeAll x ++ 34 :: s)).1 = escapeAll x1 := by
  induction x with
  | nil =>
    have h := scanBare_cons (c := 34) (by decide) rfl s
    rw [scanBare_nil hs] at h
    exact .inl (congrArg Prod.fst h)
  | cons c x ih =>
    by_cases hc : c = 92 ∨ c = 34
    · rw [escapeAll_special hc,List.cons_append,List.cons_append,scanBare_pair]
      rcases ih with ih | ⟨x1,d,x2,rfl,ih⟩
      · exact .inl (by rw [ih]; rfl)
      · exact .inr ⟨c :: x1,d,x2,rfl,by rw [ih,escapeAll_special hc]⟩
    · have hne := not_or.mp hc
      rw [escapeAll_cons hne.1 hne.2,List.cons_append]
      cases hd : isDelim c with
      | true => exact .inr ⟨[],c,x,rfl,by rw [scanBare_nil (s := c :: (escapeAll x ++ 34 :: s)) hd]; rfl⟩
      | false =>
        rw [scanBare_cons hne.1 hd]
        rcases ih with ih | ⟨x1,d,x2,rfl,ih⟩
        · exact .inl (by rw [ih]; rfl)
        · exact .inr ⟨c :: x1,d,x2,rfl,by rw [ih,escapeAll_cons hne.1 hne.2]⟩

/-- The value of the word that is read there. -/
theorem resolve_scanBare_escapeAll (x : Bytes) (hs : s.head?.all isDelim = true) :
    resolve (scanBare (escapeAll x ++ 34 :: s)).1 = x ++ [34] ∨
      (resolve (scanBare (escapeAll x ++ 34 :: s)).1).length < x.length := by
  rcases scanBare_escapeAll x hs with h | ⟨x1,d,x2,rfl,h⟩
  · exact .inl (by rw [h,resolve_escapeAll]; rfl)
  · have hres : resolve (escapeAll x1) = x1 := by simpa [resolve] using resolve_escapeAll x1 []
    right
    rw [h,hres,List.length_append,List.length_cons]
    omega

theorem escape_ne_backslash {c f : UInt8} (hc : c ≠ 92) (h : escape c = some f) : f ≠ 92 := by
  rintro rfl
  unfold escape at h
  split at h
  · exact hc (Option.some.inj h)
  · repeat' split at h
    all_goals cases h

/-- From the second of two backslashes on, every backslash is taken for the wrong one. -/
theorem resolve_scanBare_shifted (x : Bytes) (hs : s.head?.all isDelim = true) :
    resolve (scanBare (92 :: (escapeAll x ++ 34 :: s))).1 = 92 :: (x ++ [34]) ∨
      (resolve (scanBare (92 :: (escapeAll x ++ 34 :: s))).1).length ≤ x.length + 1 ∧
        resolve (scanBare (92 :: (escapeAll x ++ 34 :: s))).1 ≠ 92 :: x := by
  induction x with
  | nil =>
    right
    have h : scanBare (92 :: (escapeAll [] ++ 34 :: s)) = (92 :: 34 :: (scanBare s).1,(scanBare s).2) := scanBare_pair 34 s
    rw [h,scanBare_nil hs]
    change (resolve [92,34]).length ≤ _ ∧ resolve [92,34] ≠ [92]
    decide
  | cons e x ih =>
    by_cases he : e = 92
    · subst he
      rw [escapeAll_special (.inl rfl),List.cons_append,List.cons_append,scanBare_pair,resolve_escape escape_backslash]
      rcases ih with ih | ⟨hl,hn⟩
      · exact .inl (by rw [ih]; rfl)
      · refine .inr ⟨?_,fun h => hn (List.cons.inj h).2⟩
        rw [List.length_cons,List.length_cons]
        omega
    · have hval := resolve_scanBare_escapeAll x hs
      by_cases hq : e = 34
      · subst hq
        rw [escapeAll_special (.inr rfl),List.cons_append,List.cons_append,scanBare_pair,resolve_escape escape_backslash,
          scanBare_cons (by decide) rfl,resolve_cons (by decide)]
        rcases hval with hv | hv
        · exact .inl (by rw [hv]; rfl)
        · refine .inr ⟨?_,fun h => ?_⟩
          · simp only [List.length_cons]
            omega
          · rw [(List.cons.inj (List.cons.inj h).2).2] at hv
            exact Nat.lt_irrefl _ hv
      · rw [escapeAll_cons he hq,List.cons_append,scanBare_pair]
        cases hesc : escape e with
        | none =>
          rw [resolve_kept hesc,resolve_cons he]
          rcases hval with hv | hv
          · exact .inl (by rw [hv]; rfl)
          · refine .inr ⟨?_,fun h => ?_⟩
            · simp only [List.length_cons]
              omega
            · rw [(List.cons.inj (List.cons.inj h).2).2] at hv
              exact Nat.lt_irrefl _ hv
        | some f =>
          rw [resolve_escape hesc]
          refine .inr ⟨?_,fun h => escape_ne_backslash he hesc (List.cons.inj h).1⟩
          rcases hval with hv | hv
          · rw [hv]
            simp
          · simp only [List.length_cons]
            omega

/-- In single quotes an escaped word is read up to a single quote in it, or past it. -/
theorem scanQuoted_single {x raw rest : Bytes} (h : scanQuoted 39 (escapeAll x ++ 34 :: s) = some (raw,rest)) :
    (∃ x1 x2, x = x1 ++ 39 :: x2 ∧ raw = escapeAll x1) ∨ ∃ raw', raw = escapeAll x ++ 34 :: raw' := by
  induction x generalizing raw with
  | nil =>
    rw [escapeAll,List.flatMap_nil,List.nil_append,scanQuoted_other (by decide) (by decide)] at h
    obtain ⟨⟨a,b⟩,-,he⟩ := Option.map_eq_some_iff.mp h
    cases he
    exact .inr ⟨a,rfl⟩
  | cons c x ih =>
    by_cases hc : c = 92 ∨ c = 34
    · rw [escapeAll_special hc,List.cons_append,List.cons_append,scanQuoted_special] at h
      obtain ⟨⟨a,b⟩,hs,he⟩ := Option.map_eq_some_iff.mp h
      cases he
      rcases ih hs with ⟨x1,x2,rfl,rfl⟩ | ⟨r,rfl⟩
      · exact .inl ⟨c :: x1,x2,rfl,by rw [escapeAll_special hc]⟩
      · exact .inr ⟨r,by rw [escapeAll_special hc]; rfl⟩
    · have hne := not_or.mp hc
      rw [escapeAll_cons hne.1 hne.2,List.cons_append] at h
      by_cases hq : c = 39
      · subst hq
        rw [scanQuoted_close (by decide)] at h
        cases h
        exact .inl ⟨[],x,rfl,rfl⟩
      · rw [scanQuoted_other hne.1 hq] at h
        obtain ⟨⟨a,b⟩,hs,he⟩ := Option.map_eq_some_iff.mp h
        cases he
        rcases ih hs with ⟨x1,x2,rfl,rfl⟩ | ⟨r,rfl⟩
        · exact .inl ⟨c :: x1,x2,rfl,by rw [escapeAll_cons hne.1 hne.2]⟩
        · exact .inr ⟨r,by rw [escapeAll_cons hne.1 hne.2]; rfl⟩

/-- A backslash stands before a delimiter that a word ends with. -/
theorem scanBare_last {a : Bytes} {d : UInt8} (h : (scanBare s).1 = a ++ [d]) (hd : isDelim d = true) :
    ∃ b, a = b ++ [92] := by
  induction s using scanBare.induct generalizing a with
  | case1 => exact absurd h (by simp [scanBare])
  | case2 c hc =>
    rw [scanBare,if_pos hc] at h
    exact absurd h (by simp)
  | case3 c hc =>
    rw [scanBare,if_neg hc] at h
    rcases cons_eq_concat h with ⟨-,-,rfl⟩ | ⟨a',-,ha⟩
    · exact absurd hd hc
    · exact absurd ha (by simp)
  | case4 c e r hc ih =>
    rw [scanBare,if_pos hc,beq_iff_eq.mp hc] at h
    rcases cons_eq_concat h with ⟨-,hr,-⟩ | ⟨a',rfl,ha⟩
    · cases hr
    · rcases cons_eq_concat ha with ⟨rfl,-,-⟩ | ⟨a'',rfl,ha⟩
      · exact ⟨[],rfl⟩
      · rename_i ha'
        obtain ⟨b,rfl⟩ := ih ha'
        exact ⟨92 :: e :: b,rfl⟩
  | case5 c e r hc hb =>
    rw [scanBare,if_neg hc,if_pos hb] at h
    exact absurd h (by simp)
  | case6 c e r hc hb ih =>
    rw [scanBare,if_neg hc,if_neg hb] at h
    rcases cons_eq_concat h with ⟨-,-,rfl⟩ | ⟨a',rfl,ha⟩
    · exact absurd hd hb
    · obtain ⟨b,rfl⟩ := ih ha
      exact ⟨c :: b,rfl⟩

theorem resolve_concat {c : UInt8} (hc : escape c = none) (s : Bytes) : resolve (s ++ [c]) = resolve s ++ [c] := by
  induction s using resolve.induct with
  | case1 => rfl
  | case2 d =>
    by_cases hd : d = 92
    · rw [hd,List.singleton_append,resolve_kept hc]
      rfl
    · rw [List.singleton_append,resolve_cons hd]
      rfl
  | case3 d e r f hf ih =>
    have hd : d = 92 := by
      by_contra hd
      rw [if_neg (by simpa using hd)] at hf
      cases hf
    rw [hd,if_pos (beq_self_eq_true _)] at hf
    rw [hd,List.cons_append,List.cons_append,resolve_escape hf,resolve_escape hf,ih]
    rfl
  | case4 d e r hf ih =>
    by_cases hd : d = 92
    · rw [hd,if_pos (beq_self_eq_true _)] at hf
      rw [hd,List.cons_append,List.cons_append,resolve_kept hf,resolve_kept hf,← List.cons_append,ih]
      rfl
    · rw [List.cons_append,resolve_cons hd,resolve_cons hd,ih]
      rfl

end Scanning

section Texts
variable {s w rest : Bytes}

theorem utf8Valid_skipTrivia (h : utf8Valid s = true) : utf8Valid (skipTrivia false s) = true := by
  refine utf8Valid_induction (P := fun s => ∀ b, utf8Valid (skipTrivia b s) = true) ?_ ?_ ?_ s h false
  · exact fun _ => rfl
  · intro c s hc hs ih b
    unfold skipTrivia
    split
    · exact ih false
    · split
      · exact ih true
      · split
        · exact ih false
        · split
          · exact ih true
          · exact (utf8Valid_cons_ascii hc).trans hs
  · intro c r t hc hr hcr ht ih b
    have hne {d : UInt8} (hd : d < 0x80) : (c == d) = false := beq_eq_false_iff_ne.mpr (fun e => hc (e ▸ hd))
    have hskip : ∀ r : Bytes, (∀ d ∈ r, isCont d = true) → skipTrivia true (r ++ t) = skipTrivia true t := by
      intro r hr
      induction r with
      | nil => rfl
      | cons d r ihr =>
        have hd : (d == 10) = false := by
          refine beq_eq_false_iff_ne.mpr ?_
          rintro rfl
          exact absurd (hr 10 List.mem_cons_self) (by decide)
        rw [List.cons_append,skipTrivia,hd]
        exact ihr (fun e he => hr e (List.mem_cons_of_mem _ he))
    cases b with
    | true =>
      rw [skipTrivia,hne (by decide)]
      exact (congrArg utf8Valid (hskip r hr)).trans (ih true)
    | false =>
      rw [skipTrivia,hne (by decide),hne (by decide),hne (by decide),hne (by decide),hne (by decide)]
      exact utf8Valid_append hcr ht

theorem utf8Valid_escapeAll (h : utf8Valid w = true) : utf8Valid (escapeAll w) = true := by
  refine utf8Valid_induction (P := fun w => utf8Valid (escapeAll w) = true) rfl ?_ ?_ w h
  · intro c s hc _ ih
    by_cases hs : c = 92 ∨ c = 34
    · rw [escapeAll_special hs,utf8Valid_cons_ascii (by decide),utf8Valid_cons_ascii hc]
      exact ih
    · rw [escapeAll_cons (not_or.mp hs).1 (not_or.mp hs).2,utf8Valid_cons_ascii hc]
      exact ih
  · intro c r t hc hr hcr _ ih
    have hkeep : ∀ r : Bytes, (∀ d ∈ r, ¬ d < 0x80) → escapeAll (r ++ t) = r ++ escapeAll t := by
      intro r hr
      induction r with
      | nil => rfl
      | cons d r ihr =>
        have hd := hr d List.mem_cons_self
        rw [List.cons_append,escapeAll_cons (by rintro rfl; exact hd (by decide)) (by rintro rfl; exact hd (by decide)),
          ihr (fun e he => hr e (List.mem_cons_of_mem _ he))]
        rfl
    have hwide : ∀ d ∈ c :: r, ¬ d < 0x80 := by
      intro d hd
      rcases List.mem_cons.mp hd with rfl | hd
      · exact hc
      · intro hlt
        have := hr d hd
        rw [not_isCont_of_ascii hlt] at this
        cases this
    rw [← List.cons_append,hkeep _ hwide]
    exact utf8Valid_append hcr ih

theorem ascii_of_isDelim {c : UInt8} (h : isDelim c = true) : c < 0x80 := by
  simp only [isDelim,Bool.or_eq_true,beq_iff_eq] at h
  rcases h with (((((rfl | rfl) | rfl) | rfl) | rfl) | rfl) | rfl
  all_goals decide

theorem ascii_of_isQuote {c : UInt8} (h : isQuote c = true) : c < 0x80 := by
  simp only [isQuote,Bool.or_eq_true,beq_iff_eq] at h
  rcases h with rfl | rfl
  all_goals decide

/-- A word that stands at the start of a text, in quotes or not. -/
inductive WordAt (s w rest : Bytes) : Prop
  | quoted (q : UInt8) (raw : Bytes) (hq : isQuote q = true) (hs : s = q :: (raw ++ q :: rest))
      (hscan : scanQuoted q (raw ++ q :: rest) = some (raw,rest)) (hw : w = resolve raw)
  | bare (c : UInt8) (r : Bytes) (hq : isQuote c = false) (hc : c ≠ 35) (hd : isDelim c = false)
      (hs : s = c :: r ++ rest) (hscan : scanBare (c :: r ++ rest) = (c :: r,rest)) (hw : w = resolve (c :: r))

theorem WordAt.suffix (h : WordAt s w rest) : rest <:+ s := by
  cases h with
  | quoted q raw hq hs hscan hw =>
    rw [hs]
    exact ⟨q :: (raw ++ [q]),by simp⟩
  | bare c r hq hc hd hs hscan hw =>
    rw [hs]
    exact List.suffix_append _ _

/-- What a text is read as, where it starts and what is left. -/
theorem wordAt_of_reads (hv : utf8Valid s = true) (h : Reads s (.word w) rest) :
    WordAt (skipTrivia false s) w rest ∧ utf8Valid w = true ∧ utf8Valid rest = true := by
  have hv := utf8Valid_skipTrivia hv
  cases h with
  | @quoted q r raw _ he hq hs hd =>
    have hsp := scanQuoted_split hs
    have ha := ascii_of_isQuote hq
    rw [he,utf8Valid_cons_ascii ha,hsp] at hv
    obtain ⟨h1,h2⟩ := utf8Valid_split ha hv
    have hun := unescape_of_valid h1
    exact ⟨.quoted q raw hq (by rw [he,hsp]) (hsp ▸ hs) hun,hun ▸ utf8Valid_resolve h1,h2⟩
  | @bare c r he hq hd =>
    obtain ⟨d,w,hw⟩ := List.exists_cons_of_ne_nil (Reads.scanBare_ne_nil (r := r) hd)
    have hsp := scanBare_split (c :: r)
    have hstop := scanBare_stops (c :: r)
    generalize hp : scanBare (c :: r) = p at *
    obtain ⟨raw,rest⟩ := p
    dsimp only at hw hsp hstop ⊢
    have hval : utf8Valid raw = true ∧ utf8Valid rest = true := by
      rw [he,← hsp] at hv
      cases rest with
      | nil =>
        rw [List.append_nil] at hv
        exact ⟨hv,rfl⟩
      | cons e rest =>
        have ha := ascii_of_isDelim hstop
        obtain ⟨h1,h2⟩ := utf8Valid_split ha hv
        exact ⟨h1,(utf8Valid_cons_ascii ha).trans h2⟩
    subst hw
    obtain ⟨rfl,hr⟩ := List.cons.inj hsp
    have hun := unescape_of_valid hval.1
    exact ⟨.bare d w hq (Reads.head_skipTrivia he).2 hd (by rw [he,← hr]; rfl) (by rw [← hp,← hr]; rfl) hun,
      hun ▸ utf8Valid_resolve hval.1,hval.2⟩

/-- Reading a text gives texts. -/
theorem reads_valid {t : Tok} (hv : utf8Valid s = true) (h : Reads s t rest) :
    utf8Valid rest = true ∧ ∀ w, t = .word w → utf8Valid w = true := by
  have hsymbol {c : UInt8} (hc : c < 0x80) (he : skipTrivia false s = c :: rest) : utf8Valid rest = true := by
    have hsk := utf8Valid_skipTrivia hv
    rwa [he,utf8Valid_cons_ascii hc] at hsk
  cases t with
  | word w =>
    obtain ⟨-,hw,hr⟩ := wordAt_of_reads hv h
    refine ⟨hr,fun v hv => ?_⟩
    cases hv
    exact hw
  | opens =>
    cases h with
    | opens he => exact ⟨hsymbol (by decide) he,(fun _ hw => nomatch hw)⟩
  | closes =>
    cases h with
    | closes he => exact ⟨hsymbol (by decide) he,(fun _ hw => nomatch hw)⟩
  | semi =>
    cases h with
    | semi he => exact ⟨hsymbol (by decide) he,(fun _ hw => nomatch hw)⟩

end Texts

end OxiServe.Config.Lexer
