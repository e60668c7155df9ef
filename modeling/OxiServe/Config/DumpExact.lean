import OxiServe.Config.Dump
import OxiServe.Config.WordAt

/-! # Which trees read back

A piece that does not read back makes the reader take something else for its token, or
run on into the piece behind it. A reader that has run on stays ahead of the pieces, as
no token can be read within less than what is printed for it, and has nothing left to
read for the last.
-/
namespace OxiServe.Config.Ast
open Lexer

section Ahead
variable {s w Y rest lead : Bytes}

theorem suffix_of_shorter {l m n : Bytes} (h : l <:+ n) (h' : m <:+ n) (hl : l.length < m.length) :
    l <:+ m ∧ l.length < m.length := ⟨List.suffix_of_suffix_length_le h h' (Nat.le_of_lt hl),hl⟩

/-- A word printed bare is read back from its start on, when it is plain, or past what
is behind it. -/
theorem length_past_bare (h : WordAt s w rest) (hs : s <:+ w ++ (lead ++ Y)) (hl : lead = [] ∨ lead = [32])
    (hX : (lead ++ Y).head?.any isDelim = true) (hp : s = w ++ (lead ++ Y) → isPlain w = false) :
    rest.length < Y.length := by
  by_contra hlt
  have hlen := hs.length_le
  have hle : lead.length ≤ 1 := by rcases hl with rfl | rfl <;> simp
  simp only [List.length_append] at hlen
  cases h with
  | quoted q raw hq he hscan hw =>
    have hr := length_resolve_le raw
    rw [← hw] at hr
    rw [he] at hlen
    simp only [List.length_cons,List.length_append] at hlen
    omega
  | bare c r hq hc hd he hscan hw =>
    have hr := length_resolve_le (c :: r)
    rw [← hw] at hr
    have hls := congrArg List.length he
    rw [List.length_append] at hls
    have hraw : (c :: r).length = w.length → c :: r = w := by
      intro hlw
      have := resolve_eq_of_length (hlw ▸ congrArg List.length hw.symm)
      exact this.symm.trans hw.symm
    by_cases hwhole : s.length = w.length + (lead.length + Y.length)
    · have heq : s = w ++ (lead ++ Y) := hs.eq_of_length (by simpa using hwhole)
      have hsame := he.symm.trans heq
      by_cases hlw : (c :: r).length = w.length
      · obtain ⟨-,hrest⟩ := List.append_inj hsame hlw
        have hcw := hraw hlw
        have hplain : isPlainRest w = true := by
          refine @isPlainRest_of_scan w rest (hcw ▸ hscan) (hrest ▸ hX) ?_
          rw [← hcw]
          exact hw.symm.trans hcw.symm
        have hall : isPlain w = true := by
          rw [isPlain,hplain,← hcw]
          simp [hq,hc]
        rw [hp heq] at hall
        cases hall
      · have hll : lead = [32] := by
          rcases hl with rfl | rfl
          · simp only [List.length_nil] at hwhole
            omega
          · rfl
        subst hll
        rw [← List.append_assoc] at hsame
        have hcr : c :: r = w ++ [32] := (List.append_inj hsame (by
          simp only [List.length_append,List.length_singleton] at hwhole ⊢
          omega)).1
        obtain ⟨b,hb⟩ := scanBare_last ((congrArg Prod.fst hscan).trans hcr) (by decide)
        rw [hcr,resolve_concat rfl] at hw
        have hlast := congrArg List.getLast? (hb.symm.trans hw)
        rw [List.getLast?_concat,List.getLast?_concat] at hlast
        exact absurd (Option.some.inj hlast) (by decide)
    · have hll : lead = [32] := by
        rcases hl with rfl | rfl
        · simp only [List.length_nil] at hwhole hlen
          omega
        · rfl
      subst hll
      simp only [List.length_singleton] at hwhole hlen
      have hlw : (c :: r).length = w.length := by omega
      obtain ⟨t,ht⟩ := hs
      have hlt' := congrArg List.length ht
      simp only [List.length_append,List.length_singleton] at hlt'
      obtain ⟨a,rfl⟩ := List.length_eq_one_iff.mp (show t.length = 1 by omega)
      rw [he,hraw hlw,← List.append_assoc,← List.append_assoc] at ht
      have hrot := (List.append_inj ht (by simp)).1
      have := eq_of_rotate hrot c (hraw hlw ▸ List.mem_cons_self)
      rw [this] at hd
      cases hd

theorem needsQuotes_of_quotes {a : Bytes} (h : ∀ c ∈ a, c = 34) (hn : a ≠ []) : needsQuotes a = false := by
  have hws : hasWhitespace a = false := by
    clear hn
    induction a with
    | nil => rfl
    | cons c a ih =>
      have ih := ih (fun d hd => h d (List.mem_cons_of_mem _ hd))
      have hc := h c List.mem_cons_self
      cases a with
      | nil =>
        rw [hc]
        rfl
      | cons d a =>
        have hd := h d (List.mem_cons_of_mem _ List.mem_cons_self)
        cases a with
        | nil =>
          rw [hc,hd]
          rfl
        | cons e a =>
          rw [hasWhitespace,ih,hc,hd]
          rfl
  have hany : a.any (fun c => c == 59 || c == 123 || c == 125) = false := by
    refine List.any_eq_false.mpr (fun c hc => ?_)
    rw [h c hc]
    decide
  rw [needsQuotes,hws,hany]
  simpa using hn

/-- So is a word printed in quotes, when reading starts behind the first. -/
theorem length_past_quoted (h : WordAt s w rest) (hs : s <:+ escapeAll w ++ 34 :: (lead ++ Y))
    (hl : lead = [] ∨ lead = [32]) (hX : (lead ++ Y).head?.any isDelim = true) (hn : needsQuotes w = true) :
    rest.length < Y.length := by
  have hall := all_of_any hX
  have hle : lead.length ≤ 1 := by rcases hl with rfl | rfl <;> simp
  have hres : ∀ x : Bytes, resolve (escapeAll x) = x := by
    intro x
    simpa [resolve] using resolve_escapeAll x []
  rcases suffix_escapeAll hs with hT | ⟨u,c,x,hw,rfl⟩ | ⟨u,c,x,hw,hc,rfl⟩
  · by_contra hlt
    rcases List.suffix_cons_iff.mp hT with rfl | hT
    · cases h with
      | quoted q raw hq he hscan hv =>
        obtain ⟨rfl,he⟩ := List.cons.inj he
        have hll := congrArg List.length he
        simp only [List.length_append,List.length_cons] at hll
        have hraw : raw = [] := List.length_eq_zero_iff.mp (by omega)
        rw [hraw] at he
        rw [he] at hX
        cases hX
      | bare c r hq hc hd he hscan hv =>
        obtain ⟨rfl,-⟩ := List.cons.inj he
        cases hq
    · have hlen := hT.length_le
      cases h with
      | quoted q raw hq he hscan hv =>
        rw [he] at hlen
        simp only [List.length_append,List.length_cons] at hlen
        omega
      | bare c r hq hc hd he hscan hv =>
        rw [he] at hlen
        simp only [List.length_append,List.length_cons] at hlen
        have heq : s = lead ++ Y := hT.eq_of_length (by
          rw [he]
          simp only [List.length_append,List.length_cons]
          omega)
        rw [← heq,he] at hX
        rw [show isDelim c = true from hX] at hd
        cases hd
  · have hlw := congrArg List.length hw
    simp only [List.length_append,List.length_cons] at hlw
    -- what is read here outside quotes is shorter, or all quotes
    have hbare : ∀ raw, (scanBare (escapeAll (c :: x) ++ 34 :: (lead ++ Y))).1 = raw → w ≠ resolve raw := by
      rintro raw rfl hv
      rcases resolve_scanBare_escapeAll (c :: x) hall with he | he
      · rw [he] at hv
        have hlv := congrArg List.length hv
        simp only [List.length_append,List.length_cons,List.length_nil] at hlv
        obtain ⟨b,rfl⟩ := List.length_eq_one_iff.mp (show u.length = 1 by omega)
        have hcx := eq_of_rotate (hw.symm.trans hv)
        rw [hv] at hn
        rw [needsQuotes_of_quotes (by
          intro d hd
          rcases List.mem_append.mp hd with hd | hd
          · exact hcx d hd
          · exact List.mem_singleton.mp hd) (by simp)] at hn
        cases hn
      · rw [← hv] at he
        simp only [List.length_cons] at he
        omega
    cases h with
    | quoted q raw hq he hscan hv =>
      have hc39 : c = 39 ∧ q = 39 := by
        by_cases hc : c = 92 ∨ c = 34
        · rw [escapeAll_special hc,List.cons_append] at he
          obtain ⟨rfl,-⟩ := List.cons.inj he
          cases hq
        · rw [escapeAll_cons (not_or.mp hc).1 (not_or.mp hc).2,List.cons_append] at he
          obtain ⟨rfl,-⟩ := List.cons.inj he
          simp only [isQuote,Bool.or_eq_true,beq_iff_eq] at hq
          rcases hq with rfl | rfl
          · exact absurd (.inr rfl) hc
          · exact ⟨rfl,rfl⟩
      obtain ⟨rfl,rfl⟩ := hc39
      rw [escapeAll_cons (by decide) (by decide),List.cons_append] at he
      have he := (List.cons.inj he).2
      rw [← he] at hscan
      rcases scanQuoted_single hscan with ⟨x1,x2,rfl,rfl⟩ | ⟨raw',rfl⟩
      · rw [hres] at hv
        have hlv := congrArg List.length hv
        simp only [List.length_append,List.length_cons] at hlw hlv
        omega
      · rw [List.append_assoc] at he
        have hX' : lead ++ Y = raw' ++ 39 :: rest := (List.cons.inj (List.append_cancel_left he)).2
        have hlX := congrArg List.length hX'
        rw [List.length_append,List.length_append] at hlX
        cases raw' with
        | nil =>
          rw [hX'] at hX
          cases hX
        | cons d raw' =>
          rw [List.length_cons,List.length_cons] at hlX
          omega
    | bare d r hq hd hdel he hscan hv => exact absurd hv (hbare _ (by rw [he,hscan]))
  · have hlw := congrArg List.length hw
    simp only [List.length_append,List.length_cons] at hlw
    rcases hc with rfl | rfl
    · cases h with
      | quoted q raw hq he hscan hv =>
        obtain ⟨rfl,-⟩ := List.cons.inj he
        cases hq
      | bare d r hq hd hdel he hscan hv =>
        have hfst : (scanBare (92 :: (escapeAll x ++ 34 :: (lead ++ Y)))).1 = d :: r := by rw [he,hscan]
        rw [← hfst] at hv
        rcases resolve_scanBare_shifted x hall with hr | ⟨hl,hne⟩
        · rw [hr] at hv
          have hlv := congrArg List.length hv
          simp only [List.length_append,List.length_cons,List.length_nil] at hlv
          obtain ⟨b,rfl⟩ := List.length_eq_one_iff.mp (show u.length = 1 by omega)
          have := eq_of_rotate (hw.symm.trans hv) 92 List.mem_cons_self
          exact absurd this (by decide)
        · rw [← hv] at hl hne
          have hu : u = [] := List.length_eq_zero_iff.mp (by omega)
          rw [hu] at hw
          exact absurd hw hne
    · cases h with
      | quoted q raw hq he hscan hv =>
        obtain ⟨rfl,he⟩ := List.cons.inj he
        rw [← he,scanQuoted_escapeAll] at hscan
        obtain ⟨rfl,-⟩ := Prod.mk.inj (Option.some.inj hscan)
        rw [hres] at hv
        have hlv := congrArg List.length hv
        omega
      | bare d r hq hd hdel he hscan hv =>
        obtain ⟨rfl,-⟩ := List.cons.inj he
        cases hq

namespace Piece

/-- Read past the start of the first piece. -/
def Ahead (s : Bytes) : List Piece → Prop
  | [] => False
  | p :: ps => s <:+ p.body ++ (p.trail ++ text ps) ∧ s.length < (p.body ++ (p.trail ++ text ps)).length

theorem lead_inner {p : Piece} (h : p.inner = true) : p.lead = [] ∨ p.lead = [32] := by
  cases p with
  | name n w => cases h
  | arg a => exact .inr rfl
  | semi => exact .inl rfl
  | opens => exact .inr rfl
  | closes n => cases h

theorem utf8Valid_text {ps : List Piece} (h : ∀ p ∈ ps, p.IsText) : utf8Valid (text ps) = true := by
  have hblank : ∀ ws, IsBlank ws → ∀ s, utf8Valid s = true → utf8Valid (ws ++ s) = true := by
    intro ws hws s hs
    induction ws with
    | nil => exact hs
    | cons c ws ih =>
      have hc : c < 0x80 := by rcases hws c List.mem_cons_self with rfl | rfl <;> decide
      exact (utf8Valid_cons_ascii hc).trans (ih (fun d hd => hws d (List.mem_cons_of_mem _ hd)))
  induction ps with
  | nil => rfl
  | cons p ps ih =>
    have ih := hblank _ p.isBlank_trail _ (ih (fun q hq => h q (List.mem_cons_of_mem _ hq)))
    have hp := h p List.mem_cons_self
    rw [text_cons]
    refine hblank _ p.isBlank_lead _ ?_
    cases p with
    | name n w => exact utf8Valid_append hp ih
    | arg a =>
      refine utf8Valid_append ?_ ih
      change utf8Valid (printArg a) = true
      cases hn : needsQuotes a with
      | false => exact (congrArg utf8Valid (printArg_bare hn)).trans hp
      | true =>
        rw [printArg_quoted hn,utf8Valid_cons_ascii (by decide)]
        exact utf8Valid_append (utf8Valid_escapeAll hp) rfl
    | semi => exact (utf8Valid_cons_ascii (by decide)).trans ih
    | opens => exact (utf8Valid_cons_ascii (by decide)).trans ih
    | closes n => exact (utf8Valid_cons_ascii (by decide)).trans ih

theorem past_blank {ws : Bytes} {c : UInt8} (hws : IsBlank ws) (hc : c ≠ 32 ∧ c ≠ 10) (h : c :: s <:+ ws ++ Y) :
    c :: s <:+ Y := by
  induction ws with
  | nil => exact h
  | cons d ws ih =>
    rcases List.suffix_cons_iff.mp h with h | h
    · obtain ⟨rfl,-⟩ := List.cons.inj h
      rcases hws c List.mem_cons_self with hd | hd
      · exact absurd hd hc.1
      · exact absurd hd hc.2
    · exact ih (fun e he => hws e (List.mem_cons_of_mem _ he)) h

/-- Behind a semicolon or a brace. -/
theorem Ahead.past_symbol {c : UInt8} {ps : List Piece} {trail : Bytes} (ht : IsBlank trail) (hc : c ≠ 32 ∧ c ≠ 10)
    (hs : s <:+ c :: (trail ++ text ps) ∧ s.length < (c :: (trail ++ text ps)).length)
    (h : skipTrivia false s = c :: rest) : Ahead rest ps := by
  have hsuf : c :: rest <:+ trail ++ text ps := by
    rcases List.suffix_cons_iff.mp hs.1 with he | he
    · exact absurd (congrArg List.length he) (Nat.ne_of_lt hs.2)
    · exact (h ▸ skipTrivia_suffix false s).trans he
  have hsuf := past_blank ht hc hsuf
  cases ps with
  | nil => exact absurd (List.suffix_nil.mp hsuf) (List.cons_ne_nil _ _)
  | cons p ps =>
    rw [text_cons] at hsuf
    have hsuf := past_blank p.isBlank_lead hc hsuf
    exact ⟨(List.suffix_cons c rest).trans hsuf,hsuf.length_le⟩

/-- Behind a word that was printed bare. -/
theorem Ahead.past_bare {p : Piece} {ps : List Piece} (hc : Chained (p :: ps)) (hp : p.isWord = true)
    (h : WordAt s w rest) (hs : s <:+ w ++ text ps) (hn : s = w ++ text ps → isPlain w = false) : Ahead rest ps := by
  have hX := hc.stops hp
  obtain ⟨q,qs,rfl,hq⟩ := hc.1 hp
  rw [text_cons] at hs hX hn
  have hlt := length_past_bare h hs (lead_inner hq) hX hn
  rw [← List.append_assoc] at hs
  exact suffix_of_shorter (h.suffix.trans hs) (List.suffix_append _ _) hlt

/-- Behind a word that was printed in quotes. -/
theorem Ahead.past_quoted {p : Piece} {ps : List Piece} (hc : Chained (p :: ps)) (hp : p.isWord = true)
    (h : WordAt s w rest) (hs : s <:+ escapeAll w ++ 34 :: text ps) (hn : needsQuotes w = true) : Ahead rest ps := by
  have hX := hc.stops hp
  obtain ⟨q,qs,rfl,hq⟩ := hc.1 hp
  rw [text_cons] at hs hX
  have hlt := length_past_quoted h hs (lead_inner hq) hX hn
  rw [← List.singleton_append,← List.append_assoc,← List.append_assoc] at hs
  exact suffix_of_shorter (h.suffix.trans hs) (List.suffix_append _ _) hlt

/-- One that is ahead stays ahead. -/
theorem Ahead.step {p : Piece} {ps : List Piece} (ha : Ahead s (p :: ps)) (hc : Chained (p :: ps))
    (hv : utf8Valid s = true) (h : Reads s p.tok rest) : Ahead rest ps ∧ utf8Valid rest = true := by
  have hvr := (reads_valid hv h).1
  have hsk := skipTrivia_suffix false s
  cases p with
  | semi =>
    cases h with
    | semi he => exact ⟨.past_symbol (isBlank_trail .semi) (by decide) ha he,hvr⟩
  | opens =>
    cases h with
    | opens he => exact ⟨.past_symbol (isBlank_trail .opens) (by decide) ha he,hvr⟩
  | closes n =>
    cases h with
    | closes he => exact ⟨.past_symbol (isBlank_trail (.closes n)) (by decide) ha he,hvr⟩
  | name n w =>
    have hw := (wordAt_of_reads hv h).1
    refine ⟨.past_bare hc rfl hw (hsk.trans ha.1) (fun he => ?_),hvr⟩
    have hlen := hsk.length_le
    rw [he] at hlen
    exact absurd ha.2 (Nat.not_lt.mpr hlen)
  | arg a =>
    have hw := (wordAt_of_reads hv h).1
    have hs : s <:+ printArg a ++ text ps ∧ s.length < (printArg a ++ text ps).length := ha
    cases hn : needsQuotes a with
    | false =>
      rw [printArg_bare hn] at hs
      refine ⟨.past_bare hc rfl hw (hsk.trans hs.1) (fun he => ?_),hvr⟩
      have hlen := hsk.length_le
      rw [he] at hlen
      exact absurd hs.2 (Nat.not_lt.mpr hlen)
    | true =>
      rw [printArg_quoted hn,List.cons_append,List.append_assoc,List.singleton_append] at hs
      rcases List.suffix_cons_iff.mp hs.1 with he | he
      · exact absurd (congrArg List.length he) (Nat.ne_of_lt hs.2)
      · exact ⟨.past_quoted hc rfl hw (hsk.trans he) hn,hvr⟩

theorem not_lexes_of_ahead {ps : List Piece} (ha : Ahead s ps) (hc : Chained ps) (hv : utf8Valid s = true) :
    ¬ Lexes s (ps.map tok) := by
  induction ps generalizing s with
  | nil => exact ha.elim
  | cons p ps ih =>
    intro h
    cases h with
    | cons hr hs =>
      obtain ⟨ha,hv⟩ := ha.step hc hv hr
      exact ih ha hc.2 hv hs

/-- A piece that is read from its start as its token reads back, or is left behind. -/
theorem Ahead.of_bad {p : Piece} {ps : List Piece} (hc : Chained (p :: ps)) (hv : ∀ q ∈ p :: ps, q.IsText)
    (hp : p.good = false) (h : Reads (text (p :: ps)) p.tok rest) : Ahead rest ps ∧ utf8Valid rest = true := by
  have hskip : skipTrivia false (text (p :: ps)) = skipTrivia false (p.body ++ (p.trail ++ text ps)) := by
    rw [text_cons]
    exact skipTrivia_blank p.isBlank_lead _
  have hvt := utf8Valid_text hv
  have hvr := (reads_valid hvt h).1
  cases p with
  | semi => cases hp
  | opens => cases hp
  | closes n => cases hp
  | name n w =>
    have hw := (wordAt_of_reads hvt h).1
    have hs : skipTrivia false (text (.name n w :: ps)) <:+ w ++ text ps := hskip ▸ skipTrivia_suffix false _
    exact ⟨.past_bare hc rfl hw hs (fun _ => hp),hvr⟩
  | arg a =>
    have hw := (wordAt_of_reads hvt h).1
    obtain ⟨hq,hplain⟩ := Bool.or_eq_false_iff.mp (show (needsQuotes a || isPlain a) = false from hp)
    have hs : skipTrivia false (text (.arg a :: ps)) <:+ printArg a ++ text ps := hskip ▸ skipTrivia_suffix false _
    rw [printArg_bare hq] at hs
    exact ⟨.past_bare hc rfl hw hs (fun _ => hplain),hvr⟩

/-- Pieces are read as their tokens only when each of them reads back. -/
theorem good_of_lexes {ps : List Piece} (hc : Chained ps) (hv : ∀ p ∈ ps, p.IsText) (h : Lexes (text ps) (ps.map tok)) :
    ∀ p ∈ ps, p.good = true := by
  induction ps with
  | nil => exact fun p hp => nomatch hp
  | cons p ps ih =>
    rw [List.map_cons] at h
    cases h with
    | cons hr hs =>
      cases hg : p.good with
      | false =>
        obtain ⟨ha,hvr⟩ := Ahead.of_bad hc hv hg hr
        exact absurd hs (not_lexes_of_ahead ha hc.2 hvr)
      | true =>
        have hback := reads_good hg (hv p List.mem_cons_self) (hc.stops_behind)
        rw [text_cons] at hr
        obtain ⟨-,rfl⟩ := (reads_congr (skipTrivia_blank p.isBlank_lead _) hr).det hback
        intro q hq
        rcases List.mem_cons.mp hq with rfl | hq
        · exact hg
        · exact ih hc.2 (fun q hq => hv q (List.mem_cons_of_mem _ hq))
            (lexes_congr (skipTrivia_blank p.isBlank_trail _) hs) q hq

end Piece

end Ahead

section Printable

mutual

/-- The names stand for themselves outside quotes, and so do the arguments that are not
put in quotes. -/
def Directive.printable : Directive → Bool
  | .mk name args b _ _ =>
    isPlain name && (args.all (fun a => needsQuotes a || isPlain a) && blockPrintable b)

def blockPrintable : Option (List Directive) → Bool
  | none => true
  | some ds => printable ds

def printable : List Directive → Bool
  | [] => true
  | d :: ds => d.printable && printable ds

end

mutual

theorem Directive.all_good (indent : ℕ) (d : Directive) : (d.pieces indent).all Piece.good = d.printable := by
  obtain ⟨name,args,b,l,f⟩ := d
  have hargs : (args.map Piece.arg).all Piece.good = args.all (fun a => needsQuotes a || isPlain a) := List.all_map
  cases b with
  | none =>
    rw [Directive.pieces,List.all_cons,List.all_append,hargs]
    rfl
  | some ds =>
    rw [Directive.pieces,List.all_cons,List.all_append,hargs,blockPieces,List.all_cons,List.all_append,
      all_good (indent + 1) ds,Directive.printable,blockPrintable]
    simp [Piece.good]

theorem all_good (indent : ℕ) (ds : List Directive) : (pieces indent ds).all Piece.good = printable ds := by
  cases ds with
  | nil => rfl
  | cons d ds => rw [pieces,printable,List.all_append,Directive.all_good indent d,all_good indent ds]

end

theorem words_valid {src : Bytes} {ts : List Tok} (hv : utf8Valid src = true) (h : Lexes src ts) :
    ∀ w, Tok.word w ∈ ts → utf8Valid w = true := by
  induction h with
  | nil he => exact fun w hw => nomatch hw
  | cons hr hs ih =>
    obtain ⟨hrest,hword⟩ := reads_valid hv hr
    intro w hw
    rcases List.mem_cons.mp hw with hw | hw
    · exact hword w hw.symm
    · exact ih hrest w hw

theorem isText_of_toks {ps : List Piece} (h : ∀ w, Tok.word w ∈ ps.map Piece.tok → utf8Valid w = true) :
    ∀ p ∈ ps, p.IsText := by
  intro p hp
  have hm : p.tok ∈ ps.map Piece.tok := List.mem_map_of_mem hp
  cases p with
  | name n w => exact h w hm
  | arg a => exact h a hm
  | semi => trivial
  | opens => trivial
  | closes n => trivial

/-- The printed text of a tree of texts has its tokens exactly when it is printable. -/
theorem lexes_dump_iff {ds : List Directive} (hv : ∀ w, Tok.word w ∈ toks ds → utf8Valid w = true) :
    Lexes (dump 0 ds) (toks ds) ↔ printable ds = true := by
  have hc : Piece.Chained (pieces 0 ds) := by simpa using @chained 0 ds [] trivial
  have ht : ∀ p ∈ pieces 0 ds, p.IsText := isText_of_toks (by rwa [tok_pieces])
  rw [← text_pieces 0 ds,← tok_pieces 0 ds,← all_good 0 ds,List.all_eq_true]
  exact ⟨Piece.good_of_lexes hc ht,fun hg => Piece.lexes_of_good hc hg ht⟩

/-- No `include` stands in the source text. -/
def IncludeFree (src file : Bytes) : Prop := ∀ ds, parseSource src file keep () = .ok (ds,()) → noIncludes ds = true

/-- A tree that was parsed without an `include` reads back from what is printed, in any
place and whatever an `include` would bring, exactly when it is printable. -/
theorem dump_roundtrips_iff {σ : Type} {e : Expand σ} {s s' : σ} {src file : Bytes} {ds : List Directive}
    (hv : utf8Valid src = true) (hf : IncludeFree src file) (h : parseSource src file e s = .ok (ds,s')) :
    (∀ (τ : Type) (e : Expand τ) (t : τ) (file : Bytes), ∃ ds', parseSource (dump 0 ds) file e t = .ok (ds',t) ∧
      shapes ds' = shapes ds) ↔ printable ds = true := by
  have hraw : parseSource src file keep () = .ok (ds,()) ∧ noIncludes ds = true := by
    have hfac := parseSource_factor src file e s
    cases hk : parseSource src file keep () with
    | error x =>
      rw [hk,h] at hfac
      obtain ⟨y,hy⟩ := hfac
      cases hy
    | ok o =>
      obtain ⟨raw,⟨⟩⟩ := o
      have hni := hf raw hk
      rw [hk,h] at hfac
      dsimp only at hfac
      rw [splice_noIncludes e raw s hni] at hfac
      cases hfac
      exact ⟨rfl,hni⟩
  obtain ⟨hk,hni⟩ := hraw
  have hwords := words_valid hv ((parseSource_keep_iff src file ds).mp ⟨ds,hk,rfl⟩)
  rw [← lexes_dump_iff hwords]
  constructor
  · intro hall
    exact (parseSource_keep_iff _ [] ds).mp (hall Unit keep () [])
  · intro hl τ e t file
    obtain ⟨ds',hk',hs⟩ := (parseSource_keep_iff _ file ds).mpr hl
    have hfac := parseSource_factor (dump 0 ds) file e t
    have hni' : noIncludes ds' = true := by rw [← noIncludes_shapes,hs,noIncludes_shapes,hni]
    rw [hk'] at hfac
    dsimp only at hfac
    rw [splice_noIncludes e ds' t hni'] at hfac
    exact ⟨ds',hfac,hs⟩

/-- `a "b c";` -/
theorem parseSource_quoted_arg :
    parseSource [97,32,34,98,32,99,34,59] [] keep () = .ok ([.mk [97] [[98,32,99]] none 1 []],()) := by
  have ht : tokenize [97,32,34,98,32,99,34,59] [] = .ok [⟨.word [97],1,false⟩,⟨.word [98,32,99],1,true⟩,⟨.semi,1,false⟩] := by
    have h1 : nextToken [] [97,32,34,98,32,99,34,59] 1 = .ok (some (⟨.word [97],1,false⟩,[32,34,98,32,99,34,59],1)) := rfl
    have h2 : nextToken [] [32,34,98,32,99,34,59] 1 = .ok (some (⟨.word [98,32,99],1,true⟩,[59],1)) := rfl
    have h3 : nextToken [] [59] 1 = .ok (some (⟨.semi,1,false⟩,[],1)) := rfl
    rw [tokenize,run_some h1,run_some h2,run_some h3,run_none rfl]
    rfl
  rw [parseSource,ht]
  rfl

theorem dump_roundtrips_quoted_arg :
    (∀ (τ : Type) (e : Expand τ) (t : τ) (file : Bytes), ∃ ds',
      parseSource (dump 0 [.mk [97] [[98,32,99]] none 1 []]) file e t = .ok (ds',t) ∧
        shapes ds' = shapes [.mk [97] [[98,32,99]] none 1 []]) ↔
      printable [.mk [97] [[98,32,99]] none 1 []] = true := by
  have hf : IncludeFree [97,32,34,98,32,99,34,59] [] := by
    intro ds h
    rw [parseSource_quoted_arg] at h
    cases h
    rfl
  exact dump_roundtrips_iff (by rfl) hf parseSource_quoted_arg

/-- The name of `"a b";` is read back as a name and an argument. -/
theorem dump_splits_name :
    ¬ ∀ (src file : Bytes) (ds : List Directive), utf8Valid src = true → IncludeFree src file →
      parseSource src file keep () = .ok (ds,()) →
        ∃ ds', parseSource (dump 0 ds) file keep () = .ok (ds',()) ∧ shapes ds' = shapes ds := by
  have ht : tokenize [34,97,32,98,34,59] [] = .ok [⟨.word [97,32,98],1,true⟩,⟨.semi,1,false⟩] := by
    have h1 : nextToken [] [34,97,32,98,34,59] 1 = .ok (some (⟨.word [97,32,98],1,true⟩,[59],1)) := rfl
    have h2 : nextToken [] [59] 1 = .ok (some (⟨.semi,1,false⟩,[],1)) := rfl
    rw [tokenize,run_some h1,run_some h2,run_none rfl]
    rfl
  have hp : parseSource [34,97,32,98,34,59] [] keep () = .ok ([.mk [97,32,98] [] none 1 []],()) := by
    rw [parseSource,ht]
    rfl
  intro hall
  obtain ⟨ds',hk,hs⟩ := hall [34,97,32,98,34,59] [] _ rfl (by
    intro ds h
    rw [hp] at h
    cases h
    rfl) hp
  have hl := (parseSource_keep_iff _ [] _).mp ⟨ds',hk,hs⟩
  cases hl with
  | cons hr _ =>
    obtain ⟨k,l,hn,hk⟩ := hr.nextToken [] 0
    rw [show nextToken [] (dump 0 [.mk [97,32,98] [] none 1 []]) 0 =
      .ok (some (⟨.word [97],0,false⟩,[32,98,59,10],0)) from rfl] at hn
    cases hn
    exact absurd hk (by decide)

end Printable

end OxiServe.Config.Ast
