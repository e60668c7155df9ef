import OxiServe.Config.Ast
import OxiServe.Config.Words

/-! # The tree printed

An argument is put in quotes when it is empty or has white space or one of `;{}`; a
name never is. The printed text is a run of pieces, one for each token. Where every
piece reads back as its token the text reads back as the tree.
-/
namespace OxiServe.Config.Ast
open Lexer

section Printing

/-- `char::is_whitespace` holds of a character of the text. -/
def hasWhitespace : Bytes → Bool
  | [] => false
  | a :: r =>
    isWs1 a || r.head?.any (isWs2 a) ||
      (match r with
        | c :: d :: _ => isWs3 a c d
        | _ => false) ||
      hasWhitespace r

def needsQuotes (a : Bytes) : Bool := a.isEmpty || hasWhitespace a || a.any (fun c => c == 59 || c == 123 || c == 125)

/-- `str::replace` of one byte. -/
def replaceByte (c : UInt8) (new s : Bytes) : Bytes := s.flatMap (fun d => if d == c then new else [d])

def printArg (a : Bytes) : Bytes :=
  if needsQuotes a then 34 :: (replaceByte 34 [92,34] (replaceByte 92 [92,92] a) ++ [34]) else a

def indentation (indent : ℕ) : Bytes := List.replicate (4 * indent) 32

mutual

def Directive.dump (indent : ℕ) : Directive → Bytes
  | .mk name args b _ _ =>
    indentation indent ++ (name ++ (args.flatMap (fun a => 32 :: printArg a) ++ blockDump indent b))

def blockDump (indent : ℕ) : Option (List Directive) → Bytes
  | none => [59,10]
  | some ds => [32,123,10] ++ (dump (indent + 1) ds ++ (indentation indent ++ [125,10]))

def dump (indent : ℕ) : List Directive → Bytes
  | [] => []
  | d :: ds => d.dump indent ++ dump indent ds

end

end Printing

/-- What is printed for one token. -/
inductive Piece
  | name (indent : ℕ) (w : Bytes)
  | arg (a : Bytes)
  | semi | opens
  | closes (indent : ℕ)

namespace Piece

def tok : Piece → Tok
  | name _ w => .word w
  | arg a => .word a
  | semi => .semi
  | opens => .opens
  | closes _ => .closes

def lead : Piece → Bytes
  | name n _ => indentation n
  | arg _ => [32]
  | semi => []
  | opens => [32]
  | closes n => indentation n

def body : Piece → Bytes
  | name _ w => w
  | arg a => printArg a
  | semi => [59]
  | opens => [123]
  | closes _ => [125]

def trail : Piece → Bytes
  | name _ _ => []
  | arg _ => []
  | semi => [10]
  | opens => [10]
  | closes _ => [10]

def text (ps : List Piece) : Bytes := ps.flatMap (fun p => p.lead ++ (p.body ++ p.trail))

@[simp] theorem text_nil : text [] = [] := rfl

@[simp] theorem text_cons (p : Piece) (ps : List Piece) : text (p :: ps) = p.lead ++ (p.body ++ (p.trail ++ text ps)) := by
  rw [text,text,List.flatMap_cons,List.append_assoc,List.append_assoc]

@[simp] theorem text_append (ps qs : List Piece) : text (ps ++ qs) = text ps ++ text qs := List.flatMap_append

/-- A name or an argument. -/
def isWord : Piece → Bool
  | name _ _ => true
  | arg _ => true
  | _ => false

/-- Stands behind a name on its line. -/
def inner : Piece → Bool
  | arg _ => true
  | semi => true
  | opens => true
  | _ => false

/-- Behind a word the line goes on. -/
def Chained : List Piece → Prop
  | [] => True
  | p :: ps => (p.isWord = true → ∃ q qs, ps = q :: qs ∧ q.inner = true) ∧ Chained ps

end Piece

section Pieces

mutual

def Directive.pieces (indent : ℕ) : Directive → List Piece
  | .mk name args b _ _ => .name indent name :: (args.map Piece.arg ++ blockPieces indent b)

def blockPieces (indent : ℕ) : Option (List Directive) → List Piece
  | none => [.semi]
  | some ds => .opens :: (pieces (indent + 1) ds ++ [.closes indent])

def pieces (indent : ℕ) : List Directive → List Piece
  | [] => []
  | d :: ds => d.pieces indent ++ pieces indent ds

end

theorem text_args (args : List Bytes) :
    Piece.text (args.map Piece.arg) = args.flatMap (fun a => 32 :: printArg a) := by
  induction args with
  | nil => rfl
  | cons a args ih =>
    rw [List.map_cons,Piece.text_cons,ih,List.flatMap_cons]
    rfl

mutual

theorem Directive.text_pieces (indent : ℕ) (d : Directive) : Piece.text (d.pieces indent) = d.dump indent := by
  obtain ⟨name,args,b,l,f⟩ := d
  cases b with
  | none =>
    rw [Directive.pieces,Directive.dump,Piece.text_cons,Piece.text_append,text_args]
    rfl
  | some ds =>
    rw [Directive.pieces,Directive.dump,Piece.text_cons,Piece.text_append,text_args,blockPieces,blockDump,
      Piece.text_cons,Piece.text_append,text_pieces (indent + 1) ds,Piece.text_cons,Piece.text_nil]
    rfl

/-- The printed tree is the text of its pieces. -/
theorem text_pieces (indent : ℕ) (ds : List Directive) : Piece.text (pieces indent ds) = dump indent ds := by
  cases ds with
  | nil => rfl
  | cons d ds => rw [pieces,dump,Piece.text_append,Directive.text_pieces indent d,text_pieces indent ds]

end

mutual

theorem Directive.tok_pieces (indent : ℕ) (d : Directive) : (d.pieces indent).map Piece.tok = d.toks := by
  obtain ⟨name,args,b,l,f⟩ := d
  have ha : (args.map Piece.arg).map Piece.tok = args.map Tok.word := List.map_map ..
  cases b with
  | none =>
    rw [Directive.pieces,Directive.toks,List.map_cons,List.map_append,ha]
    rfl
  | some ds =>
    rw [Directive.pieces,Directive.toks,List.map_cons,List.map_append,ha,blockPieces,blockToks,List.map_cons,
      List.map_append,tok_pieces (indent + 1) ds]
    rfl

/-- One piece for each token. -/
theorem tok_pieces (indent : ℕ) (ds : List Directive) : (pieces indent ds).map Piece.tok = toks ds := by
  cases ds with
  | nil => rfl
  | cons d ds => rw [pieces,toks,List.map_append,Directive.tok_pieces indent d,tok_pieces indent ds]

end

theorem chained_args {qs : List Piece} (hq : Piece.Chained qs) (hi : ∃ q rest, qs = q :: rest ∧ q.inner = true)
    (args : List Bytes) : Piece.Chained (args.map Piece.arg ++ qs) ∧
      ∃ q rest, args.map Piece.arg ++ qs = q :: rest ∧ q.inner = true := by
  induction args with
  | nil => exact ⟨hq,hi⟩
  | cons a args ih => exact ⟨⟨fun _ => ih.2,ih.1⟩,_,_,rfl,rfl⟩

mutual

theorem Directive.chained (indent : ℕ) (d : Directive) {qs : List Piece} (hq : Piece.Chained qs) :
    Piece.Chained (d.pieces indent ++ qs) := by
  obtain ⟨name,args,b,l,f⟩ := d
  have hb : Piece.Chained (blockPieces indent b ++ qs) ∧
      ∃ q rest, blockPieces indent b ++ qs = q :: rest ∧ q.inner = true := by
    cases b with
    | none => exact ⟨⟨(fun h => nomatch h),hq⟩,_,_,rfl,rfl⟩
    | some ds =>
      refine ⟨⟨(fun h => nomatch h),?_⟩,_,_,rfl,rfl⟩
      rw [List.append_eq,List.append_assoc]
      exact chained (indent + 1) ds ⟨(fun h => nomatch h),hq⟩
  rw [Directive.pieces,List.cons_append,List.append_assoc]
  obtain ⟨hc,hn⟩ := chained_args hb.1 hb.2 args
  exact ⟨fun _ => hn,hc⟩

theorem chained (indent : ℕ) (ds : List Directive) {qs : List Piece} (hq : Piece.Chained qs) :
    Piece.Chained (pieces indent ds ++ qs) := by
  cases ds with
  | nil => exact hq
  | cons d ds =>
    rw [pieces,List.append_assoc]
    exact Directive.chained indent d (chained indent ds hq)

end

end Pieces

section ReadBack

theorem replace_eq (a : Bytes) : replaceByte 34 [92,34] (replaceByte 92 [92,92] a) = escapeAll a := by
  induction a with
  | nil => rfl
  | cons c a ih =>
    have happ : replaceByte 34 [92,34] (replaceByte 92 [92,92] (c :: a)) =
        replaceByte 34 [92,34] (if c == 92 then [92,92] else [c]) ++
          replaceByte 34 [92,34] (replaceByte 92 [92,92] a) := List.flatMap_append
    rw [happ,ih]
    by_cases h : c = 92 ∨ c = 34
    · rw [escapeAll_special h]
      rcases h with rfl | rfl
      · rfl
      · rfl
    · rw [not_or] at h
      rw [escapeAll_cons h.1 h.2,if_neg (by simpa using h.1)]
      simp [replaceByte,h.2]

theorem printArg_quoted {a : Bytes} (h : needsQuotes a = true) : printArg a = 34 :: (escapeAll a ++ [34]) := by
  rw [printArg,if_pos h,replace_eq]

theorem printArg_bare {a : Bytes} (h : needsQuotes a = false) : printArg a = a :=
  if_neg (by rw [h]; exact Bool.false_ne_true)

/-- Spaces and newlines. -/
def IsBlank (ws : Bytes) : Prop := ∀ c ∈ ws, c = 32 ∨ c = 10

theorem skipTrivia_blank {ws : Bytes} (h : IsBlank ws) (s : Bytes) : skipTrivia false (ws ++ s) = skipTrivia false s := by
  induction ws with
  | nil => rfl
  | cons c ws ih =>
    have ih := ih (fun d hd => h d (List.mem_cons_of_mem _ hd))
    rw [List.cons_append,skipTrivia]
    rcases h c List.mem_cons_self with rfl | rfl
    · exact ih
    · exact ih

theorem skipTrivia_stop {c : UInt8} (h : c ∉ [32,9,13,10]) (h' : c ≠ 35) (s : Bytes) :
    skipTrivia false (c :: s) = c :: s := by
  simp only [List.mem_cons,List.not_mem_nil,or_false,not_or] at h
  rw [skipTrivia]
  simp [h,h']

/-- Only what is left without white space and comments counts. -/
theorem reads_congr {s s' rest : Bytes} {t : Tok} (h : skipTrivia false s = skipTrivia false s') (hr : Reads s t rest) :
    Reads s' t rest := by
  cases hr with
  | opens e => exact .opens (h ▸ e)
  | closes e => exact .closes (h ▸ e)
  | semi e => exact .semi (h ▸ e)
  | quoted e hq hs hd => exact .quoted (h ▸ e) hq hs hd
  | bare e hq hd => exact .bare (h ▸ e) hq hd

theorem lexes_congr {s s' : Bytes} {ts : List Tok} (h : skipTrivia false s = skipTrivia false s') (hl : Lexes s ts) :
    Lexes s' ts := by
  cases hl with
  | nil e => exact .nil (h ▸ e)
  | cons hr hs => exact .cons (reads_congr h hr) hs

namespace Piece

/-- The piece reads back as its token. -/
def good : Piece → Bool
  | name _ w => isPlain w
  | arg a => needsQuotes a || isPlain a
  | _ => true

/-- Its word is a text. -/
def IsText : Piece → Prop
  | name _ w => utf8Valid w = true
  | arg a => utf8Valid a = true
  | _ => True

theorem isBlank_lead (p : Piece) : IsBlank p.lead := by
  have hind (n : ℕ) : IsBlank (indentation n) := fun c hc => .inl (List.eq_of_mem_replicate hc)
  cases p with
  | name n w => exact hind n
  | arg a => exact fun c hc => .inl (List.mem_singleton.mp hc)
  | semi => exact fun c hc => nomatch hc
  | opens => exact fun c hc => .inl (List.mem_singleton.mp hc)
  | closes n => exact hind n

theorem isBlank_trail (p : Piece) : IsBlank p.trail := by
  cases p with
  | name n w => exact fun c hc => nomatch hc
  | arg a => exact fun c hc => nomatch hc
  | semi => exact fun c hc => .inr (List.mem_singleton.mp hc)
  | opens => exact fun c hc => .inr (List.mem_singleton.mp hc)
  | closes n => exact fun c hc => .inr (List.mem_singleton.mp hc)

/-- Behind a word comes a space or a semicolon. -/
theorem Chained.stops {p : Piece} {ps : List Piece} (h : Chained (p :: ps)) (hp : p.isWord = true) :
    (text ps).head?.any isDelim = true := by
  obtain ⟨q,qs,rfl,hq⟩ := h.1 hp
  cases q with
  | arg a => rfl
  | semi => rfl
  | opens => rfl
  | name n w => cases hq
  | closes n => cases hq

/-- The same with what is printed on the line behind the token. -/
theorem Chained.stops_behind {p : Piece} {ps : List Piece} (h : Chained (p :: ps)) (hp : p.isWord = true) :
    (p.trail ++ text ps).head?.any isDelim = true := by
  have hs := h.stops hp
  cases p with
  | name n w => exact hs
  | arg a => exact hs
  | semi => cases hp
  | opens => cases hp
  | closes n => cases hp

end Piece

theorem all_of_any {α : Type} {o : Option α} {f : α → Bool} (h : o.any f = true) : o.all f = true := by
  cases o with
  | none => rfl
  | some a => exact h

/-- A word that stands for itself is read as it is. -/
theorem reads_plain {w rest : Bytes} (h : isPlain w = true) (hv : utf8Valid w = true)
    (hr : rest.head?.any isDelim = true) : Reads (w ++ rest) (.word w) rest := by
  obtain ⟨hh,hp⟩ := Bool.and_eq_true_iff.mp h
  have hs := scanBare_plain hp (all_of_any hr)
  have hun := (unescape_of_valid hv).trans (resolve_plain hp)
  cases w with
  | nil => cases hh
  | cons c w =>
    have hc : isQuote c = false ∧ c ≠ 35 := by simpa using hh
    have hd : isDelim c = false := by
      cases w with
      | nil =>
        rw [isPlainRest] at hp
        exact (Bool.not_eq_true' _).mp (Bool.and_eq_true_iff.mp hp).2
      | cons d w =>
        rw [isPlainRest] at hp
        split at hp
        · rename_i hb
          rw [beq_iff_eq.mp hb]
          rfl
        · exact (Bool.not_eq_true' _).mp (Bool.and_eq_true_iff.mp hp).1
    have hw : c ∉ [32,9,13,10] := by
      intro hm
      have : isDelim c = true := by
        simp only [List.mem_cons,List.not_mem_nil,or_false] at hm
        rcases hm with rfl | rfl | rfl | rfl
        all_goals rfl
      rw [hd] at this
      cases this
    have hb := Reads.bare (s := c :: (w ++ rest)) (skipTrivia_stop hw hc.2 _) hc.1 hd
    rw [← List.cons_append,hs,hun] at hb
    exact hb

theorem reads_quoted {w rest : Bytes} (hv : utf8Valid w = true) (hr : rest.head?.any isDelim = true) :
    Reads (34 :: (escapeAll w ++ 34 :: rest)) (.word w) rest := by
  have hq := Reads.quoted (s := 34 :: (escapeAll w ++ 34 :: rest)) (skipTrivia_stop (by decide) (by decide) _) rfl
    (scanQuoted_escapeAll w rest) (all_of_any hr)
  have hres : resolve (escapeAll w) = w := by simpa [resolve] using resolve_escapeAll w []
  rwa [unescape_eq,hres,utf8Lossy_of_valid hv] at hq

namespace Piece

theorem reads_good {p : Piece} (hg : p.good = true) (hv : p.IsText) {rest : Bytes}
    (hr : p.isWord = true → rest.head?.any isDelim = true) : Reads (p.body ++ rest) p.tok rest := by
  cases p with
  | name n w => exact reads_plain hg hv (hr rfl)
  | arg a =>
    change Reads (printArg a ++ rest) (.word a) rest
    cases hn : needsQuotes a with
    | true =>
      rw [printArg_quoted hn,List.cons_append,List.append_assoc]
      exact reads_quoted hv (hr rfl)
    | false =>
      rw [printArg_bare hn]
      have hg : (needsQuotes a || isPlain a) = true := hg
      rw [hn,Bool.false_or] at hg
      exact reads_plain hg hv (hr rfl)
  | semi => exact .semi (skipTrivia_stop (by decide) (by decide) _)
  | opens => exact .opens (skipTrivia_stop (by decide) (by decide) _)
  | closes n => exact .closes (skipTrivia_stop (by decide) (by decide) _)

/-- Pieces that all read back are read as their tokens. -/
theorem lexes_of_good {ps : List Piece} (hc : Chained ps) (hg : ∀ p ∈ ps, p.good = true) (hv : ∀ p ∈ ps, p.IsText) :
    Lexes (text ps) (ps.map tok) := by
  induction ps with
  | nil => exact .nil rfl
  | cons p ps ih =>
    have ih := ih hc.2 (fun q hq => hg q (List.mem_cons_of_mem _ hq)) (fun q hq => hv q (List.mem_cons_of_mem _ hq))
    have hr := reads_good (hg p List.mem_cons_self) (hv p List.mem_cons_self) hc.stops_behind
    rw [text_cons,List.map_cons]
    exact .cons (reads_congr (skipTrivia_blank p.isBlank_lead _).symm hr)
      (lexes_congr (skipTrivia_blank p.isBlank_trail _).symm ih)

end Piece

end ReadBack

end OxiServe.Config.Ast
