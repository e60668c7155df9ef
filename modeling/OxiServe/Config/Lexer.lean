import OxiServe.Lib.Bytes

/-! # The tokenizer of configuration files

The position in the text is what is left of it. A word in quotes ends at the same
quote, any other at white space or one of `;{}`; a backslash hides the byte after it
from both. What the backslashes of a word stand for is settled after it is read.
-/
namespace OxiServe.Config

inductive Tok
  | word (w : Bytes)
  | opens | closes | semi
deriving DecidableEq, Repr

structure Token where
  tok : Tok
  line : ℕ
  quoted : Bool
deriving DecidableEq, Repr

structure LexError where
  msg : Bytes
  line : ℕ
  file : Bytes
deriving DecidableEq, Repr

namespace Lexer

def isDelim (c : UInt8) : Bool :=
  c == 32 || c == 9 || c == 13 || c == 10 || c == 59 || c == 123 || c == 125

def isQuote (c : UInt8) : Bool := c == 34 || c == 39

/-- What a backslash and this byte become, when the backslash goes. -/
def escape (c : UInt8) : Option UInt8 :=
  if c == 34 || c == 39 || c == 92 then some c
  else if c == 116 then some 9
  else if c == 114 then some 13
  else if c == 110 then some 10
  else none

/-- The bytes of a word with its escapes resolved. Any other backslash is kept. -/
def resolve : Bytes → Bytes
  | [] => []
  | [c] => [c]
  | c :: d :: r =>
    match if c == 92 then escape d else none with
    | some e => e :: resolve r
    | none => c :: resolve (d :: r)

def unescape (raw : Bytes) : Bytes :=
  if raw.contains 92 then utf8Lossy (resolve raw) else utf8Lossy raw

/-- Leaves out white space and comments, from within a comment or not. -/
def skipTrivia (comment : Bool) : Bytes → Bytes
  | [] => []
  | c :: r =>
    if c == 10 then skipTrivia false r
    else if comment then skipTrivia true r
    else if c == 32 || c == 9 || c == 13 then skipTrivia false r
    else if c == 35 then skipTrivia true r
    else c :: r

/-- The line after reading `s` up to `rest`, where newlines count. -/
def lineAfter (line : ℕ) (s rest : Bytes) : ℕ := line + (s.count 10 - rest.count 10)

/-- The bytes up to the closing quote and those behind it. -/
def scanQuoted (quote : UInt8) : Bytes → Option (Bytes × Bytes)
  | [] => none
  | [c] => if c == quote then some ([],[]) else none
  | c :: d :: r =>
    if c == 92 then (scanQuoted quote r).map (fun p => (c :: d :: p.1,p.2))
    else if c == quote then some ([],d :: r)
    else (scanQuoted quote (d :: r)).map (fun p => (c :: p.1,p.2))

/-- A word in quotes, from behind the first. A delimiter must follow the second. -/
def quotedWord (file : Bytes) (quote : UInt8) (s : Bytes) (line : ℕ) : Except LexError (Bytes × Bytes) :=
  match scanQuoted quote s with
  | none => .error ⟨lit "unterminated quoted string",line + s.count 10,file⟩
  | some (raw,rest) =>
    if rest.head?.any (fun c => !isDelim c) then
      .error ⟨lit "unexpected character after quoted string",lineAfter line s rest,file⟩
    else .ok (unescape raw,rest)

/-- The bytes up to a delimiter that no backslash hides. -/
def scanBare : Bytes → Bytes × Bytes
  | [] => ([],[])
  | [c] => if isDelim c then ([],[c]) else ([c],[])
  | c :: d :: r =>
    if c == 92 then (c :: d :: (scanBare r).1,(scanBare r).2)
    else if isDelim c then ([],c :: d :: r)
    else (c :: (scanBare (d :: r)).1,(scanBare (d :: r)).2)

def bareWord (file : Bytes) (s : Bytes) (line : ℕ) : Except LexError (Bytes × Bytes) :=
  let (raw,rest) := scanBare s
  if raw = [] then .error ⟨lit "unexpected character '" ++ rest.take 1 ++ lit "'",line,file⟩
  else .ok (unescape raw,rest)

/-- The next token, what is left behind it and the line there. -/
def nextToken (file : Bytes) (s : Bytes) (line : ℕ) : Except LexError (Option (Token × Bytes × ℕ)) :=
  let here := lineAfter line s (skipTrivia false s)
  match skipTrivia false s with
  | [] => .ok none
  | c :: r =>
    if c == 123 then .ok (some (⟨.opens,here,false⟩,r,here))
    else if c == 125 then .ok (some (⟨.closes,here,false⟩,r,here))
    else if c == 59 then .ok (some (⟨.semi,here,false⟩,r,here))
    else if isQuote c then
      match quotedWord file c r here with
      | .error e => .error e
      | .ok (w,rest) => .ok (some (⟨.word w,here,true⟩,rest,lineAfter here r rest))
    else
      match bareWord file (c :: r) here with
      | .error e => .error e
      | .ok (w,rest) => .ok (some (⟨.word w,here,false⟩,rest,here))

end Lexer

namespace Lexer

theorem resolve_cons {c : UInt8} {r : Bytes} (h : c ≠ 92) : resolve (c :: r) = c :: resolve r := by
  cases r with
  | nil => rfl
  | cons d r => rw [resolve,if_neg (fun e => h (beq_iff_eq.mp e))]

theorem resolve_escape {d e : UInt8} {r : Bytes} (h : escape d = some e) :
    resolve (92 :: d :: r) = e :: resolve r := by
  rw [resolve,if_pos (beq_self_eq_true _),h]

theorem resolve_kept {d : UInt8} {r : Bytes} (h : escape d = none) :
    resolve (92 :: d :: r) = 92 :: resolve (d :: r) := by
  rw [resolve,if_pos (beq_self_eq_true _),h]

theorem unescape_eq (raw : Bytes) : unescape raw = utf8Lossy (resolve raw) := by
  unfold unescape
  split
  · rfl
  · rename_i h
    have hr : ∀ s : Bytes, s.contains 92 = false → resolve s = s := by
      intro s
      induction s with
      | nil => exact fun _ => rfl
      | cons c r ih =>
        intro hs
        simp only [List.contains_cons,Bool.or_eq_false_iff] at hs
        rw [resolve_cons (fun e => by simp [e] at hs),ih hs.2]
    rw [hr raw (Bool.not_eq_true _ ▸ h)]

theorem skipTrivia_suffix (b : Bool) (s : Bytes) : skipTrivia b s <:+ s := by
  induction s generalizing b with
  | nil => exact List.suffix_refl _
  | cons c r ih =>
    have hs := fun b => (ih b).trans (List.suffix_cons c r)
    unfold skipTrivia
    split
    · exact hs false
    · split
      · exact hs true
      · split
        · exact hs false
        · split
          · exact hs true
          · exact List.suffix_refl _

theorem scanQuoted_split {q : UInt8} {s raw rest : Bytes} (h : scanQuoted q s = some (raw,rest)) :
    s = raw ++ q :: rest := by
  induction s using scanQuoted.induct q generalizing raw rest with
  | case1 => cases h
  | case2 c hc =>
    rw [scanQuoted,if_pos hc] at h
    cases h
    rw [beq_iff_eq.mp hc]
    rfl
  | case3 c hc =>
    rw [scanQuoted,if_neg hc] at h
    cases h
  | case4 c d r hc ih =>
    rw [scanQuoted,if_pos hc] at h
    obtain ⟨⟨a,b⟩,hs,he⟩ := Option.map_eq_some_iff.mp h
    cases he
    rw [ih hs]
    rfl
  | case5 c d r hc hq =>
    rw [scanQuoted,if_neg hc,if_pos hq] at h
    cases h
    rw [beq_iff_eq.mp hq]
    rfl
  | case6 c d r hc hq ih =>
    rw [scanQuoted,if_neg hc,if_neg hq] at h
    obtain ⟨⟨a,b⟩,hs,he⟩ := Option.map_eq_some_iff.mp h
    cases he
    rw [ih hs]
    rfl

theorem scanBare_split (s : Bytes) : (scanBare s).1 ++ (scanBare s).2 = s := by
  induction s using scanBare.induct with
  | case1 => rfl
  | case2 c hc => rw [scanBare,if_pos hc]; rfl
  | case3 c hc => rw [scanBare,if_neg hc]; rfl
  | case4 c d r hc ih =>
    rw [scanBare,if_pos hc]
    exact congrArg (fun t => c :: d :: t) ih
  | case5 c d r hc hd => rw [scanBare,if_neg hc,if_pos hd]; rfl
  | case6 c d r hc hd ih =>
    rw [scanBare,if_neg hc,if_neg hd]
    exact congrArg (c :: ·) ih

/-- A word ends at a delimiter or with the text. -/
theorem scanBare_stops (s : Bytes) : (scanBare s).2.head?.all isDelim = true := by
  induction s using scanBare.induct with
  | case1 => rfl
  | case2 c hc => rw [scanBare,if_pos hc]; exact hc
  | case3 c hc => rw [scanBare,if_neg hc]; rfl
  | case4 c d r hc ih => rw [scanBare,if_pos hc]; exact ih
  | case5 c d r hc hd => rw [scanBare,if_neg hc,if_pos hd]; exact hd
  | case6 c d r hc hd ih => rw [scanBare,if_neg hc,if_neg hd]; exact ih

end Lexer

/-- How one token is read, without the lines and the file. -/
inductive Reads (s : Bytes) : Tok → Bytes → Prop
  | opens {rest : Bytes} (h : Lexer.skipTrivia false s = 123 :: rest) : Reads s .opens rest
  | closes {rest : Bytes} (h : Lexer.skipTrivia false s = 125 :: rest) : Reads s .closes rest
  | semi {rest : Bytes} (h : Lexer.skipTrivia false s = 59 :: rest) : Reads s .semi rest
  | quoted {q : UInt8} {r raw rest : Bytes} (h : Lexer.skipTrivia false s = q :: r) (hq : Lexer.isQuote q = true)
      (hs : Lexer.scanQuoted q r = some (raw,rest)) (hd : rest.head?.all Lexer.isDelim = true) :
      Reads s (.word (Lexer.unescape raw)) rest
  | bare {c : UInt8} {r : Bytes} (h : Lexer.skipTrivia false s = c :: r) (hq : Lexer.isQuote c = false)
      (hd : Lexer.isDelim c = false) :
      Reads s (.word (Lexer.unescape (Lexer.scanBare (c :: r)).1)) (Lexer.scanBare (c :: r)).2

namespace Reads
variable {file s rest : Bytes} {line : ℕ}

theorem scanBare_ne_nil {c : UInt8} {r : Bytes} (h : Lexer.isDelim c = false) : (Lexer.scanBare (c :: r)).1 ≠ [] := by
  cases r with
  | nil =>
    rw [Lexer.scanBare,if_neg (by simp [h])]
    exact List.cons_ne_nil _ _
  | cons d r =>
    rw [Lexer.scanBare]
    split
    · exact List.cons_ne_nil _ _
    · rw [if_neg (by simp [h])]
      exact List.cons_ne_nil _ _

theorem isDelim_eq {c : UInt8} (h : c ∉ [32,9,13,10]) (ho : (c == 123) = false) (hc : (c == 125) = false)
    (hs : (c == 59) = false) : Lexer.isDelim c = false := by
  simp only [List.mem_cons,List.not_mem_nil,or_false,not_or] at h
  simp [Lexer.isDelim,h.1,h.2.1,h.2.2.1,h.2.2.2,beq_eq_false_iff_ne.mp ho,beq_eq_false_iff_ne.mp hc,
    beq_eq_false_iff_ne.mp hs]

/-- What is left after white space and comments starts with neither. -/
theorem head_skipTrivia {b : Bool} {c : UInt8} {r : Bytes} (h : Lexer.skipTrivia b s = c :: r) :
    c ∉ [32,9,13,10] ∧ c ≠ 35 := by
  induction s generalizing b with
  | nil => cases h
  | cons d s ih =>
    unfold Lexer.skipTrivia at h
    split at h
    · exact ih h
    · rename_i hn
      split at h
      · exact ih h
      · split at h
        · exact ih h
        · rename_i hw
          split at h
          · exact ih h
          · rename_i hh
            cases h
            simp only [beq_iff_eq,Bool.or_eq_true,not_or] at hn hw hh
            simp [hn,hw,hh]

theorem of_nextToken {t : Token} {l : ℕ} (h : Lexer.nextToken file s line = .ok (some (t,rest,l))) :
    Reads s t.tok rest := by
  unfold Lexer.nextToken at h
  dsimp only at h
  split at h
  · cases h
  · rename_i c r hs
    split at h
    · rename_i hc
      cases h
      exact .opens (by rw [hs,beq_iff_eq.mp hc])
    · rename_i ho
      split at h
      · rename_i hc
        cases h
        exact .closes (by rw [hs,beq_iff_eq.mp hc])
      · rename_i hcl
        split at h
        · rename_i hc
          cases h
          exact .semi (by rw [hs,beq_iff_eq.mp hc])
        · rename_i hse
          split at h
          · rename_i hq
            split at h
            · cases h
            · rename_i w rest' hw
              cases h
              unfold Lexer.quotedWord at hw
              split at hw
              · cases hw
              · rename_i raw rest'' hsc
                split at hw
                · cases hw
                · rename_i hd
                  cases hw
                  refine .quoted hs hq hsc ?_
                  cases rest with
                  | nil => rfl
                  | cons d r => simpa using hd
          · rename_i hq
            split at h
            · cases h
            · rename_i w rest' hw
              cases h
              unfold Lexer.bareWord at hw
              dsimp only at hw
              split at hw
              · cases hw
              · cases hw
                exact .bare hs (Bool.not_eq_true _ ▸ hq) (isDelim_eq (head_skipTrivia hs).1
                  (Bool.not_eq_true _ ▸ ho) (Bool.not_eq_true _ ▸ hcl) (Bool.not_eq_true _ ▸ hse))

theorem nextToken {t : Tok} (h : Reads s t rest) (file : Bytes) (line : ℕ) :
    ∃ k l, Lexer.nextToken file s line = .ok (some (k,rest,l)) ∧ k.tok = t := by
  unfold Lexer.nextToken
  cases h with
  | opens h => simp [h]
  | closes h => simp [h]
  | semi h => simp [h]
  | @quoted q r raw rest h hq hs hd =>
    have hn : rest.head?.any (fun c => !Lexer.isDelim c) = false := by
      cases rest with
      | nil => rfl
      | cons d r => simpa using hd
    have ho : (q == 123) = false ∧ (q == 125) = false ∧ (q == 59) = false := by
      unfold Lexer.isQuote at hq
      rcases Bool.or_eq_true_iff.mp hq with hq | hq
      all_goals
        rw [beq_iff_eq.mp hq]
        decide
    simp [h,ho.1,ho.2.1,ho.2.2,hq,Lexer.quotedWord,hs,hn]
  | @bare c r h hq hd =>
    have hne := scanBare_ne_nil (r := r) hd
    unfold Lexer.isDelim at hd
    simp only [Bool.or_eq_false_iff] at hd
    simp [h,hd,hq,Lexer.bareWord,hne]

theorem det {t u : Tok} {rest' : Bytes} (h : Reads s t rest) (h' : Reads s u rest') : t = u ∧ rest = rest' := by
  obtain ⟨k,l,hk,ht⟩ := h.nextToken [] 0
  obtain ⟨k',l',hk',ht'⟩ := h'.nextToken [] 0
  rw [hk] at hk'
  cases hk'
  exact ⟨ht.symm.trans ht',rfl⟩

theorem suffix {t : Tok} (h : Reads s t rest) : rest <:+ s ∧ rest.length < s.length := by
  have hl {c : UInt8} {r : Bytes} (hc : Lexer.skipTrivia false s = c :: r) (hr : rest <:+ r) :
      rest <:+ s ∧ rest.length < s.length := by
    have hs := Lexer.skipTrivia_suffix false s
    rw [hc] at hs
    have h1 := hs.length_le
    have h2 := hr.length_le
    rw [List.length_cons] at h1
    exact ⟨hr.trans ((List.suffix_cons c r).trans hs),by omega⟩
  cases h with
  | opens h => exact hl h (List.suffix_refl _)
  | closes h => exact hl h (List.suffix_refl _)
  | semi h => exact hl h (List.suffix_refl _)
  | quoted h hq hs hd =>
    refine hl h ?_
    rw [Lexer.scanQuoted_split hs]
    exact (List.suffix_cons _ _).trans (List.suffix_append _ _)
  | @bare c r h hq hd =>
    obtain ⟨d,w,hw⟩ := List.exists_cons_of_ne_nil (scanBare_ne_nil (r := r) hd)
    have hsp := Lexer.scanBare_split (c :: r)
    rw [hw] at hsp
    refine hl h ⟨w,?_⟩
    exact (List.cons.inj hsp).2

end Reads

namespace Lexer

theorem nextToken_shorter {file s rest : Bytes} {line l : ℕ} {t : Token}
    (h : nextToken file s line = .ok (some (t,rest,l))) : rest.length < s.length :=
  (Reads.of_nextToken h).suffix.2

def run (file s : Bytes) (line : ℕ) : Except LexError (List Token) :=
  match _h : nextToken file s line with
  | .error e => .error e
  | .ok none => .ok []
  | .ok (some (t,rest,l)) => (run file rest l).map (t :: ·)
termination_by s.length
decreasing_by exact nextToken_shorter _h

theorem run_some {file s rest : Bytes} {line l : ℕ} {t : Token} (h : nextToken file s line = .ok (some (t,rest,l))) :
    run file s line = (run file rest l).map (t :: ·) := by
  rw [run,h]

theorem run_none {file s : Bytes} {line : ℕ} (h : nextToken file s line = .ok none) : run file s line = .ok [] := by
  rw [run,h]

end Lexer

def tokenize (src file : Bytes) : Except LexError (List Token) := Lexer.run file src 1

/-- How a whole text is read. -/
inductive Lexes : Bytes → List Tok → Prop
  | nil {s : Bytes} (h : Lexer.skipTrivia false s = []) : Lexes s []
  | cons {s rest : Bytes} {t : Tok} {ts : List Tok} (h : Reads s t rest) (hs : Lexes rest ts) : Lexes s (t :: ts)

namespace Lexes
variable {s file : Bytes} {toks : List Tok}

theorem nextToken_none {line : ℕ} :
    Lexer.nextToken file s line = .ok none ↔ Lexer.skipTrivia false s = [] := by
  constructor
  · intro h
    unfold Lexer.nextToken at h
    dsimp only at h
    split at h
    · assumption
    · repeat' split at h
      all_goals cases h
  · intro h
    unfold Lexer.nextToken
    rw [h]

theorem of_run {line : ℕ} {ts : List Token} (h : Lexer.run file s line = .ok ts) :
    Lexes s (ts.map Token.tok) := by
  induction s, line using Lexer.run.induct file generalizing ts with
  | case1 s line e he =>
    rw [Lexer.run,he] at h
    cases h
  | case2 s line hn =>
    rw [Lexer.run_none hn] at h
    cases h
    exact .nil (nextToken_none.mp hn)
  | case3 s line t rest l ht ih =>
    rw [Lexer.run_some ht] at h
    cases hr : Lexer.run file rest l with
    | error e =>
      simp only [hr] at h
      cases h
    | ok us =>
      simp only [hr] at h
      cases h
      exact .cons (Reads.of_nextToken ht) (ih hr)

theorem run (h : Lexes s toks) (line : ℕ) : ∃ ts, Lexer.run file s line = .ok ts ∧ ts.map Token.tok = toks := by
  induction h generalizing line with
  | @nil s h =>
    refine ⟨[],?_,rfl⟩
    exact Lexer.run_none (nextToken_none.mpr h)
  | @cons s rest t ts h hs ih =>
    obtain ⟨k,l,hk,hkt⟩ := h.nextToken file line
    obtain ⟨us,hus,hm⟩ := ih l
    refine ⟨k :: us,?_,by rw [List.map_cons,hkt,hm]⟩
    rw [Lexer.run_some hk,hus]
    rfl

theorem of_tokenize {ts : List Token} (h : tokenize s file = .ok ts) : Lexes s (ts.map Token.tok) := of_run h

theorem tokenize (h : Lexes s toks) : ∃ ts, tokenize s file = .ok ts ∧ ts.map Token.tok = toks := h.run 1

end Lexes

end OxiServe.Config
