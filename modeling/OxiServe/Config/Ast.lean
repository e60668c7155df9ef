import OxiServe.Config.Lexer

/-! # The directive tree

The parser of a token stream. What an `include` brings is left to a parameter, which
passes on the state of the files open around it. Fuel bounds the calls: as many as
there are tokens, and one, are enough.
-/
namespace OxiServe.Config.Ast

inductive Directive
  | mk (name : Bytes) (args : List Bytes) (block : Option (List Directive)) (line : ℕ) (file : Bytes)

namespace Directive

def name : Directive → Bytes
  | .mk n _ _ _ _ => n

def args : Directive → List Bytes
  | .mk _ a _ _ _ => a

def block : Directive → Option (List Directive)
  | .mk _ _ b _ _ => b

def line : Directive → ℕ
  | .mk _ _ _ l _ => l

def file : Directive → Bytes
  | .mk _ _ _ _ f => f

/-- An `include` with a block is a directive like any other. -/
def isInclude (d : Directive) : Bool := d.name == lit "include" && d.block.isNone

end Directive

structure ParseError where
  msg : Bytes
  line : ℕ
  file : Bytes
deriving DecidableEq, Repr

/-- What is brought in place of an `include`. -/
abbrev Expand (σ : Type) := Directive → σ → Except ParseError (List Directive × σ)

/-- What the parser of one file goes by. `eofLine` is the line of its last token. -/
structure Parser (σ : Type) where
  file : Bytes
  eofLine : ℕ
  expand : Expand σ

namespace Parser
variable {σ : Type}

def line (p : Parser σ) (ts : List Token) : ℕ := (ts.head?.map Token.line).getD p.eofLine

def err {α : Type} (p : Parser σ) (ts : List Token) (msg : Bytes) : Except ParseError α :=
  .error ⟨msg,p.line ts,p.file⟩

mutual

/-- The directives up to `}`, or to the end at the top. -/
def block (p : Parser σ) (top : Bool) : ℕ → List Token → σ →
    Except ParseError (List Directive × List Token × σ)
  | 0, ts, _ => p.err ts []
  | _ + 1, [], s =>
    if top then .ok ([],[],s) else p.err [] (lit "unexpected end of file, expecting \"\x7d\"")
  | fuel + 1, t :: ts, s =>
    match t.tok with
    | .closes => if top then p.err (t :: ts) (lit "unexpected \"\x7d\"") else .ok ([],ts,s)
    | .semi => p.err (t :: ts) (lit "unexpected \";\"")
    | .opens => p.err (t :: ts) (lit "unexpected \"\x7b\"")
    | .word name =>
      match directive p fuel name t.line [] ts s with
      | .error e => .error e
      | .ok (d,ts,s) =>
        match if d.isInclude then p.expand d s else .ok ([d],s) with
        | .error e => .error e
        | .ok (front,s) =>
          match block p top fuel ts s with
          | .error e => .error e
          | .ok (more,ts,s) => .ok (front ++ more,ts,s)

/-- A directive, from its name on and with some of its arguments. -/
def directive (p : Parser σ) : ℕ → Bytes → ℕ → List Bytes → List Token → σ →
    Except ParseError (Directive × List Token × σ)
  | 0, _, _, _, ts, _ => p.err ts []
  | _ + 1, name, _, _, [], _ =>
    p.err [] (lit "unexpected end of file, expecting \";\" or \"\x7d\" after \"" ++ name ++ lit "\"")
  | fuel + 1, name, line, args, t :: ts, s =>
    match t.tok with
    | .word w => directive p fuel name line (args ++ [w]) ts s
    | .semi => .ok (.mk name args none line p.file,ts,s)
    | .opens =>
      match block p false fuel ts s with
      | .error e => .error e
      | .ok (b,ts,s) => .ok (.mk name args (some b) line p.file,ts,s)
    | .closes => p.err (t :: ts) (lit "directive \"" ++ name ++ lit "\" is not terminated by \";\"")

end

end Parser

section Parsing
variable {σ : Type}

/-- The tokens of a file as directives, and the state behind them. -/
def parseTokens (file : Bytes) (expand : Expand σ) (ts : List Token) (s : σ) :
    Except ParseError (List Directive × σ) :=
  match Parser.block ⟨file,(ts.getLast?.map Token.line).getD 0,expand⟩ true (ts.length + 1) ts s with
  | .error e => .error e
  | .ok (ds,_,s) => .ok (ds,s)

def parseSource (src file : Bytes) (expand : Expand σ) (s : σ) : Except ParseError (List Directive × σ) :=
  match tokenize src file with
  | .error e => .error ⟨e.msg,e.line,e.file⟩
  | .ok ts => parseTokens file expand ts s

end Parsing

section Tokens

mutual

/-- The tokens a directive is written with. -/
def Directive.toks : Directive → List Tok
  | .mk name args b _ _ => .word name :: (args.map Tok.word ++ blockToks b)

def blockToks : Option (List Directive) → List Tok
  | none => [.semi]
  | some ds => .opens :: (toks ds ++ [.closes])

def toks : List Directive → List Tok
  | [] => []
  | d :: ds => d.toks ++ toks ds

end

mutual

/-- The directive without its place. -/
def Directive.shape : Directive → Directive
  | .mk name args b _ _ => .mk name args (blockShape b) 0 []

def blockShape : Option (List Directive) → Option (List Directive)
  | none => none
  | some ds => some (shapes ds)

/-- Names, arguments and block structure. -/
def shapes : List Directive → List Directive
  | [] => []
  | d :: ds => d.shape :: shapes ds

end

mutual

/-- No `include` stands in the directive. -/
def Directive.noInclude : Directive → Bool
  | .mk name _ b _ _ => !(name == lit "include" && b.isNone) && blockNoInclude b

def blockNoInclude : Option (List Directive) → Bool
  | none => true
  | some ds => noIncludes ds

def noIncludes : List Directive → Bool
  | [] => true
  | d :: ds => d.noInclude && noIncludes ds

end

end Tokens

section Splice
variable {σ : Type}

mutual

/-- The directive with the includes in its block replaced. -/
def Directive.inner (e : Expand σ) : Directive → σ → Except ParseError (Directive × σ)
  | .mk name args none line file, s => .ok (.mk name args none line file,s)
  | .mk name args (some ds) line file, s =>
    match splice e ds s with
    | .error x => .error x
    | .ok (b,s) => .ok (.mk name args (some b) line file,s)

/-- The directives with every `include` replaced, in order. -/
def splice (e : Expand σ) : List Directive → σ → Except ParseError (List Directive × σ)
  | [], s => .ok ([],s)
  | d :: ds, s =>
    match d.inner e s with
    | .error x => .error x
    | .ok (d,s) =>
      match if d.isInclude then e d s else .ok ([d],s) with
      | .error x => .error x
      | .ok (front,s) =>
        match splice e ds s with
        | .error x => .error x
        | .ok (more,s) => .ok (front ++ more,s)

end

/-- Keeps every `include` as it stands. -/
def keep : Expand Unit := fun d s => .ok ([d],s)

theorem keep_eq (d : Directive) : (if d.isInclude then keep d () else .ok ([d],())) = .ok ([d],()) := by
  split
  · rfl
  · rfl

namespace Parser

/-- The same file, with its includes left in place. -/
def keeping (p : Parser σ) : Parser Unit := ⟨p.file,p.eofLine,keep⟩

variable {p : Parser σ} {top : Bool} {ts rest : List Token} {name : Bytes} {args : List Bytes} {l : ℕ}

theorem factor (p : Parser σ) (fuel : ℕ) :
    (∀ top ts s, match block p.keeping top fuel ts () with
      | .error _ => ∃ x, block p top fuel ts s = .error x
      | .ok (ds,rest,_) => block p top fuel ts s = (splice p.expand ds s).map (fun o => (o.1,rest,o.2))) ∧
    ∀ name l args ts s, match directive p.keeping fuel name l args ts () with
      | .error _ => ∃ x, directive p fuel name l args ts s = .error x
      | .ok (d,rest,_) => directive p fuel name l args ts s = (d.inner p.expand s).map (fun o => (o.1,rest,o.2)) := by
  induction fuel with
  | zero => exact ⟨fun _ _ _ => ⟨_,rfl⟩,fun _ _ _ _ _ => ⟨_,rfl⟩⟩
  | succ fuel ih =>
    obtain ⟨ihb,ihd⟩ := ih
    constructor
    · intro top ts s
      cases ts with
      | nil =>
        unfold block
        cases top with
        | true => rfl
        | false => exact ⟨_,rfl⟩
      | cons t ts =>
        unfold block
        cases t.tok with
        | closes =>
          cases top with
          | true => exact ⟨_,rfl⟩
          | false => rfl
        | semi => exact ⟨_,rfl⟩
        | opens => exact ⟨_,rfl⟩
        | word name =>
          dsimp only
          have hd := ihd name t.line [] ts s
          cases hk : directive p.keeping fuel name t.line [] ts () with
          | error x =>
            rw [hk] at hd
            obtain ⟨y,hy⟩ := hd
            exact ⟨y,by rw [hy]⟩
          | ok o =>
            obtain ⟨d,rest,u⟩ := o
            rw [hk] at hd
            dsimp only at hd ⊢
            rw [hd]
            have hke : p.keeping.expand = keep := rfl
            rw [hke,keep_eq d]
            dsimp only
            cases hb : block p.keeping top fuel rest () with
            | error x =>
              dsimp only
              cases hi : d.inner p.expand s with
              | error y => exact ⟨y,rfl⟩
              | ok o =>
                simp only [Except.map]
                cases hf : (if o.1.isInclude then p.expand o.1 o.2 else .ok ([o.1],o.2) : Except ParseError (List Directive × σ)) with
                | error y => exact ⟨y,rfl⟩
                | ok f =>
                  dsimp only
                  have hn := ihb top rest f.2
                  rw [hb] at hn
                  obtain ⟨y,hy⟩ := hn
                  exact ⟨y,by rw [hy]⟩
            | ok r =>
              obtain ⟨ds,rest',u'⟩ := r
              dsimp only
              rw [List.singleton_append,splice]
              cases hi : d.inner p.expand s with
              | error y => rfl
              | ok o =>
                simp only [Except.map]
                cases hf : (if o.1.isInclude then p.expand o.1 o.2 else .ok ([o.1],o.2) : Except ParseError (List Directive × σ)) with
                | error y => rfl
                | ok f =>
                  dsimp only
                  have hn := ihb top rest f.2
                  rw [hb] at hn
                  dsimp only at hn
                  rw [hn]
                  cases splice p.expand ds f.2 with
                  | error y => rfl
                  | ok o => rfl
    · intro name l args ts s
      cases ts with
      | nil =>
        unfold directive
        exact ⟨_,rfl⟩
      | cons t ts =>
        unfold directive
        cases t.tok with
        | word w => exact ihd name l (args ++ [w]) ts s
        | semi => rfl
        | closes => exact ⟨_,rfl⟩
        | opens =>
          dsimp only
          have hn := ihb false ts s
          cases hb : block p.keeping false fuel ts () with
          | error x =>
            rw [hb] at hn
            obtain ⟨y,hy⟩ := hn
            exact ⟨y,by rw [hy]⟩
          | ok r =>
            rw [hb] at hn
            dsimp only at hn ⊢
            rw [hn,Directive.inner]
            cases splice p.expand r.1 s with
            | error y => rfl
            | ok o => rfl

theorem toks_of_keeping (p : Parser σ) (fuel : ℕ) :
    (∀ top ts ds rest, block p.keeping top fuel ts () = .ok (ds,rest,()) → (top = true → rest = []) ∧
      ts.map Token.tok = toks ds ++ ((if top then [] else [.closes]) ++ rest.map Token.tok)) ∧
    ∀ name l args ts d rest, directive p.keeping fuel name l args ts () = .ok (d,rest,()) →
      ∃ as b, d = .mk name (args ++ as) b l p.file ∧
        ts.map Token.tok = as.map Tok.word ++ (blockToks b ++ rest.map Token.tok) := by
  induction fuel with
  | zero => exact ⟨(fun _ _ _ _ h => nomatch h),(fun _ _ _ _ _ _ h => nomatch h)⟩
  | succ fuel ih =>
    obtain ⟨ihb,ihd⟩ := ih
    constructor
    · intro top ts ds rest h
      unfold block at h
      cases ts with
      | nil =>
        cases top with
        | false => cases h
        | true =>
          cases h
          exact ⟨fun _ => rfl,rfl⟩
      | cons t ts =>
        dsimp only at h
        cases ht : t.tok with
        | semi =>
          rw [ht] at h
          cases h
        | opens =>
          rw [ht] at h
          cases h
        | closes =>
          rw [ht] at h
          cases top with
          | true => cases h
          | false =>
            cases h
            exact ⟨(fun h => nomatch h),by rw [List.map_cons,ht]; rfl⟩
        | word name =>
          simp only [ht] at h
          cases hd : directive p.keeping fuel name t.line [] ts () with
          | error x =>
            rw [hd] at h
            cases h
          | ok o =>
            obtain ⟨d,mid,u⟩ := o
            have hke : p.keeping.expand = keep := rfl
            rw [hd] at h
            simp only [hke,keep_eq d] at h
            cases hb : block p.keeping top fuel mid () with
            | error x =>
              rw [hb] at h
              cases h
            | ok r =>
              rw [hb] at h
              cases h
              obtain ⟨hrest,hmid⟩ := ihb _ _ _ _ hb
              obtain ⟨as,b,rfl,hts⟩ := ihd _ _ _ _ _ _ hd
              refine ⟨hrest,?_⟩
              rw [List.map_cons,ht,hts,hmid,List.singleton_append,toks,Directive.toks]
              simp
    · intro name l args ts d rest h
      unfold directive at h
      cases ts with
      | nil => cases h
      | cons t ts =>
        dsimp only at h
        cases ht : t.tok with
        | word w =>
          rw [ht] at h
          obtain ⟨as,b,rfl,hts⟩ := ihd _ _ _ _ _ _ h
          exact ⟨w :: as,b,by rw [List.append_assoc]; rfl,by rw [List.map_cons,ht,hts]; rfl⟩
        | semi =>
          rw [ht] at h
          cases h
          exact ⟨[],none,by rw [List.append_nil]; rfl,by rw [List.map_cons,ht]; rfl⟩
        | closes =>
          rw [ht] at h
          cases h
        | opens =>
          simp only [ht] at h
          cases hb : block p.keeping false fuel ts () with
          | error x =>
            rw [hb] at h
            cases h
          | ok r =>
            rw [hb] at h
            cases h
            obtain ⟨-,hts⟩ := ihb _ _ _ _ hb
            refine ⟨[],some r.1,by rw [List.append_nil]; rfl,?_⟩
            rw [List.map_cons,ht,hts,blockToks]
            simp

theorem keeping_of_toks (p : Parser σ) (fuel : ℕ) :
    (∀ top pre rest ds, (pre ++ rest).length < fuel → (top = true → rest = []) →
      pre.map Token.tok = toks ds ++ (if top then [] else [.closes]) →
      ∃ ds', block p.keeping top fuel (pre ++ rest) () = .ok (ds',rest,()) ∧ shapes ds' = shapes ds) ∧
    ∀ name l args pre rest as b, (pre ++ rest).length < fuel → pre.map Token.tok = as.map Tok.word ++ blockToks b →
      ∃ d, directive p.keeping fuel name l args (pre ++ rest) () = .ok (d,rest,()) ∧
        d.shape = .mk name (args ++ as) (blockShape b) 0 [] := by
  induction fuel with
  | zero => exact ⟨fun _ _ _ _ h => absurd h (Nat.not_lt_zero _),fun _ _ _ _ _ _ _ h => absurd h (Nat.not_lt_zero _)⟩
  | succ fuel ih =>
    obtain ⟨ihb,ihd⟩ := ih
    constructor
    · intro top pre rest ds hl hr hp
      cases ds with
      | nil =>
        cases top with
        | true =>
          rw [hr rfl,List.map_eq_nil_iff.mp hp]
          exact ⟨[],rfl,rfl⟩
        | false =>
          obtain ⟨t,rfl,ht⟩ := List.map_eq_singleton_iff.mp hp
          refine ⟨[],?_,rfl⟩
          rw [List.singleton_append,block]
          simp only [ht]
          rfl
      | cons d ds =>
        obtain ⟨name,as,b,l,file⟩ := d
        rw [toks,Directive.toks,List.cons_append,List.cons_append] at hp
        obtain ⟨t,pre,rfl,ht,hp⟩ := List.map_eq_cons_iff.mp hp
        rw [List.append_assoc] at hp
        obtain ⟨p1,p2,rfl,h1,h2⟩ := List.map_eq_append_iff.mp hp
        simp only [List.cons_append,List.length_cons,List.append_assoc] at hl ⊢
        obtain ⟨d,hd,hs⟩ := ihd name t.line [] p1 (p2 ++ rest) as b (by omega) h1
        obtain ⟨ds',hb,hss⟩ := ihb top p2 rest ds
          (by simp only [List.length_append] at hl ⊢; omega) hr h2
        refine ⟨d :: ds',?_,?_⟩
        · have hke : p.keeping.expand = keep := rfl
          rw [block]
          simp only [ht,hd,hke,keep_eq d,hb]
          rfl
        · rw [shapes,shapes,hs,hss,Directive.shape]
          rfl
    · intro name l args pre rest as b hl hp
      cases as with
      | cons w as =>
        rw [List.map_cons,List.cons_append] at hp
        obtain ⟨t,pre,rfl,ht,hp⟩ := List.map_eq_cons_iff.mp hp
        obtain ⟨d,hd,hs⟩ := ihd name l (args ++ [w]) pre rest as b
          (by rw [List.cons_append,List.length_cons] at hl; omega) hp
        refine ⟨d,?_,by rw [hs,List.append_assoc]; rfl⟩
        rw [List.cons_append,directive]
        simp only [ht]
        exact hd
      | nil =>
        cases b with
        | none =>
          obtain ⟨t,rfl,ht⟩ := List.map_eq_singleton_iff.mp hp
          refine ⟨.mk name args none l p.file,?_,by rw [List.append_nil]; rfl⟩
          rw [List.singleton_append,directive]
          simp only [ht]
          rfl
        | some ds =>
          rw [List.map_nil,List.nil_append,blockToks] at hp
          obtain ⟨t,pre,rfl,ht,hp⟩ := List.map_eq_cons_iff.mp hp
          obtain ⟨ds',hb,hs⟩ := ihb false pre rest ds
            (by rw [List.cons_append,List.length_cons] at hl; omega) (fun h => nomatch h) hp
          refine ⟨.mk name args (some ds') l p.file,?_,?_⟩
          · rw [List.cons_append,directive]
            simp only [ht,hb]
            rfl
          · rw [Directive.shape,blockShape,hs,List.append_nil,blockShape]

end Parser
end Splice

section Parse
variable {σ : Type} {src file : Bytes} {ds : List Directive} {toks' : List Tok}

mutual

theorem Directive.inner_noInclude (e : Expand σ) (d : Directive) (s : σ) (h : d.noInclude = true) :
    d.inner e s = .ok (d,s) := by
  obtain ⟨name,args,b,l,f⟩ := d
  cases b with
  | none => rfl
  | some ds =>
    have hb : noIncludes ds = true := (Bool.and_eq_true_iff.mp h).2
    rw [Directive.inner,splice_noIncludes e ds s hb]

/-- Nothing is replaced where there is no `include`. -/
theorem splice_noIncludes (e : Expand σ) (ds : List Directive) (s : σ) (h : noIncludes ds = true) :
    splice e ds s = .ok (ds,s) := by
  cases ds with
  | nil => rfl
  | cons d ds =>
    obtain ⟨hd,hds⟩ := Bool.and_eq_true_iff.mp h
    have hi : d.isInclude = false := by
      obtain ⟨name,args,b,l,f⟩ := d
      exact (Bool.not_eq_true' _).mp (Bool.and_eq_true_iff.mp hd).1
    rw [splice,Directive.inner_noInclude e d s hd]
    simp only [hi,Bool.false_eq_true,if_false,splice_noIncludes e ds s hds]
    rfl

end

mutual

theorem Directive.toks_shape (d : Directive) : d.shape.toks = d.toks := by
  obtain ⟨name,args,b,l,f⟩ := d
  rw [Directive.shape,Directive.toks,Directive.toks]
  cases b with
  | none => rfl
  | some ds => rw [blockShape,blockToks,blockToks,toks_shapes ds]

/-- The tokens of a tree are those of its shape. -/
theorem toks_shapes (ds : List Directive) : toks (shapes ds) = toks ds := by
  cases ds with
  | nil => rfl
  | cons d ds => rw [shapes,toks,toks,Directive.toks_shape d,toks_shapes ds]

end

mutual

theorem Directive.noInclude_shape (d : Directive) : d.shape.noInclude = d.noInclude := by
  obtain ⟨name,args,b,l,f⟩ := d
  rw [Directive.shape,Directive.noInclude,Directive.noInclude]
  cases b with
  | none => rfl
  | some ds => rw [blockShape,blockNoInclude,blockNoInclude,noIncludes_shapes ds]; rfl

theorem noIncludes_shapes (ds : List Directive) : noIncludes (shapes ds) = noIncludes ds := by
  cases ds with
  | nil => rfl
  | cons d ds => rw [shapes,noIncludes,noIncludes,Directive.noInclude_shape d,noIncludes_shapes ds]

end

theorem parseTokens_factor (file : Bytes) (e : Expand σ) (ts : List Token) (s : σ) :
    match parseTokens file keep ts () with
      | .error _ => ∃ x, parseTokens file e ts s = .error x
      | .ok (ds,_) => parseTokens file e ts s = splice e ds s := by
  have h := (Parser.factor ⟨file,(ts.getLast?.map Token.line).getD 0,e⟩ (ts.length + 1)).1 true ts s
  unfold Parser.keeping at h
  unfold parseTokens
  dsimp only at h
  cases hk : Parser.block ⟨file,(ts.getLast?.map Token.line).getD 0,keep⟩ true (ts.length + 1) ts () with
  | error x =>
    rw [hk] at h
    obtain ⟨y,hy⟩ := h
    exact ⟨y,by rw [hy]⟩
  | ok o =>
    rw [hk] at h
    dsimp only at h ⊢
    rw [h]
    cases splice e o.1 s with
    | error y => rfl
    | ok r => rfl

/-- A source text is read with its includes left in place, or not at all; the includes
are then replaced in order. -/
theorem parseSource_factor (src file : Bytes) (e : Expand σ) (s : σ) :
    match parseSource src file keep () with
      | .error _ => ∃ x, parseSource src file e s = .error x
      | .ok (ds,_) => parseSource src file e s = splice e ds s := by
  unfold parseSource
  cases tokenize src file with
  | error x => exact ⟨_,rfl⟩
  | ok ts => exact parseTokens_factor file e ts s

theorem parseTokens_keep {ts : List Token} (h : parseTokens file keep ts () = .ok (ds,())) :
    ts.map Token.tok = toks ds := by
  unfold parseTokens at h
  cases hb : Parser.block ⟨file,(ts.getLast?.map Token.line).getD 0,keep⟩ true (ts.length + 1) ts () with
  | error x =>
    rw [hb] at h
    cases h
  | ok o =>
    rw [hb] at h
    cases h
    obtain ⟨hr,ht⟩ := (Parser.toks_of_keeping (⟨file,(ts.getLast?.map Token.line).getD 0,keep⟩ : Parser Unit) _).1 _ _ _ _ hb
    rw [ht,hr rfl]
    simp

theorem parseTokens_of_toks {ts : List Token} (file : Bytes) (h : ts.map Token.tok = toks ds) :
    ∃ ds', parseTokens file keep ts () = .ok (ds',()) ∧ shapes ds' = shapes ds := by
  have hk := (Parser.keeping_of_toks (⟨file,(ts.getLast?.map Token.line).getD 0,keep⟩ : Parser Unit) (ts.length + 1)).1
    true ts [] ds (by rw [List.append_nil]; exact Nat.lt_succ_self _) (fun _ => rfl) (by rw [h]; simp)
  obtain ⟨ds',hb,hs⟩ := hk
  rw [List.append_nil] at hb
  refine ⟨ds',?_,hs⟩
  unfold Parser.keeping at hb
  unfold parseTokens
  rw [hb]

/-- A text has the shape of a tree exactly when it has its tokens. -/
theorem parseSource_keep_iff (src file : Bytes) (ds : List Directive) :
    (∃ ds', parseSource src file keep () = .ok (ds',()) ∧ shapes ds' = shapes ds) ↔ Lexes src (toks ds) := by
  constructor
  · rintro ⟨ds',h,hs⟩
    unfold parseSource at h
    cases ht : tokenize src file with
    | error x =>
      rw [ht] at h
      cases h
    | ok ts =>
      rw [ht] at h
      rw [← toks_shapes ds,← hs,toks_shapes,← parseTokens_keep h]
      exact Lexes.of_tokenize ht
  · intro h
    obtain ⟨ts,ht,hm⟩ := @Lexes.tokenize src file _ h
    obtain ⟨ds',hk,hs⟩ := parseTokens_of_toks file hm
    refine ⟨ds',?_,hs⟩
    unfold parseSource
    rw [ht]
    exact hk

end Parse

end OxiServe.Config.Ast
