import OxiServe.Config.Include
import Mathlib.Logic.Relation

/-! # What a file with its includes comes to

Each `include` stands for the directives of its files, in order, at every depth and each
time anew. A chain of includes that comes back to a file on it, or that is too deep, is
an error, and there is no other in files that can be read.
-/
namespace OxiServe.Config.Ast

section Spec

mutual

/-- The includes of a directive, at any depth below it. -/
def Directive.includes : Directive → List Directive
  | .mk _ _ b _ _ => blockIncludes b

def blockIncludes : Option (List Directive) → List Directive
  | none => []
  | some ds => includes ds

def includes : List Directive → List Directive
  | [] => []
  | d :: ds => d.includes ++ ((if d.isInclude then [d] else []) ++ includes ds)

end

namespace World
variable (w : World)

/-- The directives of a file, its includes left in place. -/
def raw (path : Bytes) : Option (List Directive) :=
  match w.readToString path with
  | .error _ => none
  | .ok src =>
    match parseSource src path keep () with
    | .error _ => none
    | .ok (ds,_) => some ds

/-- One file includes another. -/
def Includes (p q : Bytes) : Prop :=
  ∃ ds, w.raw p = some ds ∧ ∃ d ∈ includes ds, ∃ ps, w.includePaths (base p) d = .ok ps ∧ q ∈ ps

/-- Every file that the root includes, directly or not, can be read and says what it
includes. -/
def WellFormed (root : Bytes) : Prop :=
  ∀ p, Relation.ReflTransGen w.Includes root p →
    ∃ ds, w.raw p = some ds ∧ ∀ d ∈ includes ds, ∃ ps, w.includePaths (base p) d = .ok ps

mutual

/-- What a file comes to. -/
inductive FileSplice : Bytes → List Directive → Prop
  | mk {p : Bytes} {ds out : List Directive} (h : w.raw p = some ds) (hs : Splice p ds out) : FileSplice p out

/-- Files one after the other. -/
inductive FileSplices : List Bytes → List Directive → Prop
  | nil : FileSplices [] []
  | cons {p : Bytes} {ps : List Bytes} {front out : List Directive} (h : FileSplice p front)
      (hs : FileSplices ps out) : FileSplices (p :: ps) (front ++ out)

/-- Directives of a file, with each `include` replaced. -/
inductive Splice : Bytes → List Directive → List Directive → Prop
  | nil {p : Bytes} : Splice p [] []
  | keep {p : Bytes} {d d' : Directive} {ds out : List Directive} (hi : d.isInclude = false)
      (hd : InnerSplice p d d') (hs : Splice p ds out) : Splice p (d :: ds) (d' :: out)
  | expand {p : Bytes} {d : Directive} {ps : List Bytes} {ds front out : List Directive} (hi : d.isInclude = true)
      (hp : w.includePaths (base p) d = .ok ps) (hf : FileSplices ps front) (hs : Splice p ds out) :
      Splice p (d :: ds) (front ++ out)

/-- A directive with the includes of its block replaced. -/
inductive InnerSplice : Bytes → Directive → Directive → Prop
  | leaf {p : Bytes} {name : Bytes} {args : List Bytes} {line : ℕ} {file : Bytes} :
      InnerSplice p (.mk name args none line file) (.mk name args none line file)
  | block {p : Bytes} {name : Bytes} {args : List Bytes} {b b' : List Directive} {line : ℕ} {file : Bytes}
      (hb : Splice p b b') : InnerSplice p (.mk name args (some b) line file) (.mk name args (some b') line file)

end

/-- A file cannot be opened below the files of `seen`, or includes one that cannot. -/
inductive Stuck : Seen → ℕ → Bytes → Prop
  | deep {seen : Seen} {depth : ℕ} {p : Bytes} (h : depth > maxIncludeDepth) : Stuck seen depth p
  | again {seen : Seen} {depth : ℕ} {p : Bytes} (h : w.canon p ∈ seen) : Stuck seen depth p
  | step {seen : Seen} {depth : ℕ} {p q : Bytes} (h : w.Includes p q)
      (hs : Stuck (insert (w.canon p) seen) (depth + 1) q) : Stuck seen depth p

/-- Some chain of includes comes back to a file on it or goes too deep. -/
def BadChain (root : Bytes) : Prop :=
  ∃ chain, (root :: chain).IsChain w.Includes ∧
    (maxIncludeDepth < chain.length ∨ ¬ ((root :: chain).map w.canon).Nodup)

end World

end Spec

namespace World
variable {w : World} {seen : Seen} {depth : ℕ} {p : Bytes}

theorem Stuck.chain (h : w.Stuck seen depth p) :
    ∃ chain, (p :: chain).IsChain w.Includes ∧ (maxIncludeDepth < depth + chain.length ∨
      (∃ q ∈ p :: chain, w.canon q ∈ seen) ∨ ¬ ((p :: chain).map w.canon).Nodup) := by
  induction h with
  | deep h => exact ⟨[],.singleton _,.inl h⟩
  | again h => exact ⟨[],.singleton _,.inr (.inl ⟨_,List.mem_cons_self,h⟩)⟩
  | @step seen depth p q h hs ih =>
    obtain ⟨chain,hc,hbad⟩ := ih
    refine ⟨q :: chain,.cons_cons h hc,?_⟩
    rcases hbad with hd | ⟨r,hr,hin⟩ | hn
    · refine .inl ?_
      rw [List.length_cons]
      omega
    · rcases Finset.mem_insert.mp hin with he | hin
      · refine .inr (.inr (fun hnd => ?_))
        rw [List.map_cons] at hnd
        exact (List.nodup_cons.mp hnd).1 (he ▸ List.mem_map_of_mem hr)
      · exact .inr (.inl ⟨r,List.mem_cons_of_mem _ hr,hin⟩)
    · refine .inr (.inr (fun hnd => hn ?_))
      rw [List.map_cons] at hnd
      exact (List.nodup_cons.mp hnd).2

theorem Stuck.of_chain {chain : List Bytes} (hc : (p :: chain).IsChain w.Includes)
    (h : maxIncludeDepth < depth + chain.length ∨ (∃ q ∈ p :: chain, w.canon q ∈ seen) ∨
      ¬ ((p :: chain).map w.canon).Nodup) : w.Stuck seen depth p := by
  induction chain generalizing p seen depth with
  | nil =>
    rcases h with hd | ⟨q,hq,hin⟩ | hn
    · exact .deep hd
    · rw [List.mem_singleton.mp hq] at hin
      exact .again hin
    · exact absurd (List.nodup_singleton _) hn
  | cons q chain ih =>
    obtain ⟨hpq,hc⟩ := List.isChain_cons_cons.mp hc
    by_cases hp : w.canon p ∈ seen
    · exact .again hp
    refine .step hpq (ih hc ?_)
    rcases h with hd | ⟨r,hr,hin⟩ | hn
    · refine .inl ?_
      rw [List.length_cons] at hd
      omega
    · rcases List.mem_cons.mp hr with rfl | hr
      · exact absurd hin hp
      · exact .inr (.inl ⟨r,hr,Finset.mem_insert_of_mem hin⟩)
    · by_cases hm : ∃ r ∈ q :: chain, w.canon r = w.canon p
      · obtain ⟨r,hr,he⟩ := hm
        exact .inr (.inl ⟨r,hr,Finset.mem_insert.mpr (.inl he)⟩)
      · refine .inr (.inr (fun hnd => hn (List.nodup_cons.mpr ⟨fun hin => ?_,hnd⟩)))
        exact hm (List.mem_map.mp hin)

/-- Nothing is open above the root. -/
theorem stuck_iff (root : Bytes) : w.Stuck ∅ 0 root ↔ w.BadChain root := by
  constructor
  · intro h
    obtain ⟨chain,hc,hbad⟩ := h.chain
    refine ⟨chain,hc,?_⟩
    rcases hbad with hd | ⟨q,-,hin⟩ | hn
    · exact .inl (by omega)
    · exact absurd hin (Finset.notMem_empty _)
    · exact .inr hn
  · rintro ⟨chain,hc,hbad⟩
    refine .of_chain hc ?_
    rcases hbad with hd | hn
    · exact .inl (by omega)
    · exact .inr (.inr hn)

/-- What parsing a file comes to when the files of `seen` are open around it. -/
def Comes (w : World) (seen : Seen) (depth : ℕ) (p : Bytes) : Except ParseError (List Directive × Seen) → Prop
  | .error _ => w.Stuck seen depth p
  | .ok (ds,seen') => seen' = seen ∧ ¬ w.Stuck seen depth p ∧ w.FileSplice p ds

section Files
variable {parse : Bytes → Seen → Except ParseError (List Directive × Seen)}

/-- Files one after the other, when each comes to what it should. -/
theorem parseAll_comes (d : Directive) {ps : List Bytes} (h : ∀ q ∈ ps, w.Comes seen depth q (parse q seen)) :
    match parseAll parse d ps seen with
      | .error _ => ∃ q ∈ ps, w.Stuck seen depth q
      | .ok (ds,seen') => seen' = seen ∧ (∀ q ∈ ps, ¬ w.Stuck seen depth q) ∧ w.FileSplices ps ds := by
  induction ps with
  | nil => exact ⟨rfl,(fun q hq => nomatch hq),.nil⟩
  | cons q ps ih =>
    have ih := ih (fun r hr => h r (List.mem_cons_of_mem _ hr))
    have hq := h q List.mem_cons_self
    rw [parseAll]
    cases hp : parse q seen with
    | error e =>
      rw [hp] at hq
      exact ⟨q,List.mem_cons_self,hq⟩
    | ok o =>
      obtain ⟨sub,seen'⟩ := o
      rw [hp] at hq
      obtain ⟨rfl,hn,hf⟩ := hq
      dsimp only
      cases ha : parseAll parse d ps seen' with
      | error e =>
        rw [ha] at ih
        obtain ⟨r,hr,hs⟩ := ih
        exact ⟨r,List.mem_cons_of_mem _ hr,hs⟩
      | ok o =>
        obtain ⟨more,seen''⟩ := o
        rw [ha] at ih
        obtain ⟨rfl,hns,hfs⟩ := ih
        refine ⟨rfl,fun r hr => ?_,.cons hf hfs⟩
        rcases List.mem_cons.mp hr with rfl | hr
        · exact hn
        · exact hns r hr

/-- The directives all say what they include, and that comes to what it should. -/
def Ready (w : World) (p : Bytes) (seen : Seen) (depth : ℕ)
    (parse : Bytes → Seen → Except ParseError (List Directive × Seen)) (ds : List Directive) : Prop :=
  ∀ d ∈ ds, ∃ ps, w.includePaths (base p) d = .ok ps ∧ ∀ q ∈ ps, w.Comes seen depth q (parse q seen)

/-- One of them includes a file that cannot be opened. -/
def SomeStuck (w : World) (p : Bytes) (seen : Seen) (depth : ℕ) (ds : List Directive) : Prop :=
  ∃ d ∈ ds, ∃ ps, w.includePaths (base p) d = .ok ps ∧ ∃ q ∈ ps, w.Stuck seen depth q

theorem someStuck_append {ds es : List Directive} :
    w.SomeStuck p seen depth (ds ++ es) ↔ w.SomeStuck p seen depth ds ∨ w.SomeStuck p seen depth es := by
  unfold SomeStuck
  simp only [List.mem_append,or_and_right,exists_or]

theorem not_someStuck_nil : ¬ w.SomeStuck p seen depth [] := fun ⟨_,hd,_⟩ => nomatch hd

theorem expandInclude_comes {d : Directive} (h : w.Ready p seen depth parse [d]) :
    match w.expandInclude parse (base p) d seen with
      | .error _ => w.SomeStuck p seen depth [d]
      | .ok (ds,seen') => seen' = seen ∧ ¬ w.SomeStuck p seen depth [d] ∧
          ∃ ps, w.includePaths (base p) d = .ok ps ∧ w.FileSplices ps ds := by
  obtain ⟨ps,hps,hq⟩ := h d List.mem_cons_self
  have ha := parseAll_comes d hq
  unfold expandInclude
  rw [hps]
  dsimp only
  cases hp : parseAll parse d ps seen with
  | error e =>
    rw [hp] at ha
    exact ⟨d,List.mem_cons_self,ps,hps,ha⟩
  | ok o =>
    rw [hp] at ha
    obtain ⟨hseen,hn,hf⟩ := ha
    refine ⟨hseen,?_,ps,rfl,hf⟩
    rintro ⟨d',hd',ps',hps',q,hqm,hs⟩
    rw [List.mem_singleton.mp hd',hps] at hps'
    cases hps'
    exact hn q hqm hs

mutual

theorem inner_comes (d : Directive) (h : w.Ready p seen depth parse d.includes) :
    match d.inner (w.expandInclude parse (base p)) seen with
      | .error _ => w.SomeStuck p seen depth d.includes
      | .ok (d',seen') => seen' = seen ∧ ¬ w.SomeStuck p seen depth d.includes ∧ w.InnerSplice p d d' ∧
          d'.isInclude = d.isInclude ∧ (d.isInclude = true → d' = d) := by
  obtain ⟨name,args,b,line,file⟩ := d
  cases b with
  | none => exact ⟨rfl,not_someStuck_nil,.leaf,rfl,fun _ => rfl⟩
  | some ds =>
    have hs := splice_comes ds h
    rw [Directive.inner]
    cases hp : splice (w.expandInclude parse (base p)) ds seen with
    | error e =>
      rw [hp] at hs
      exact hs
    | ok o =>
      rw [hp] at hs
      obtain ⟨hseen,hn,hb⟩ := hs
      refine ⟨hseen,hn,.block hb,?_,fun hi => ?_⟩
      · simp [Directive.isInclude,Directive.block]
      · simp [Directive.isInclude,Directive.block] at hi

/-- Directives whose includes come to what they should. -/
theorem splice_comes (ds : List Directive) (h : w.Ready p seen depth parse (includes ds)) :
    match splice (w.expandInclude parse (base p)) ds seen with
      | .error _ => w.SomeStuck p seen depth (includes ds)
      | .ok (out,seen') => seen' = seen ∧ ¬ w.SomeStuck p seen depth (includes ds) ∧ w.Splice p ds out := by
  cases ds with
  | nil => exact ⟨rfl,not_someStuck_nil,.nil⟩
  | cons d ds =>
    rw [includes] at h
    have hd := inner_comes d (fun e he => h e (List.mem_append_left _ he))
    have hds := splice_comes ds (fun e he => h e (List.mem_append_right _ (List.mem_append_right _ he)))
    rw [splice,includes,someStuck_append,someStuck_append]
    cases hp : d.inner (w.expandInclude parse (base p)) seen with
    | error e =>
      rw [hp] at hd
      exact .inl hd
    | ok o =>
      obtain ⟨d',seen'⟩ := o
      rw [hp] at hd
      obtain ⟨rfl,hn,hin,hi,hsame⟩ := hd
      dsimp only
      rw [hi]
      cases hinc : d.isInclude with
      | false =>
        simp only [Bool.false_eq_true,if_false]
        cases hm : splice (w.expandInclude parse (base p)) ds seen' with
        | error e =>
          rw [hm] at hds
          exact .inr (.inr hds)
        | ok o =>
          obtain ⟨out,seen''⟩ := o
          rw [hm] at hds
          obtain ⟨rfl,hn',hs⟩ := hds
          refine ⟨rfl,?_,.keep hinc hin hs⟩
          rintro (h1 | h1 | h1)
          · exact hn h1
          · exact not_someStuck_nil h1
          · exact hn' h1
      | true =>
        rw [hsame hinc]
        have he := expandInclude_comes (d := d) (fun e hem => h e (List.mem_append_right _ (List.mem_append_left _ (by
          rw [hinc]
          exact hem))))
        simp only [if_true]
        cases hx : w.expandInclude parse (base p) d seen' with
        | error e =>
          rw [hx] at he
          exact .inr (.inl he)
        | ok o =>
          obtain ⟨front,seen''⟩ := o
          rw [hx] at he
          obtain ⟨rfl,hne,ps,hps,hf⟩ := he
          dsimp only
          cases hm : splice (w.expandInclude parse (base p)) ds seen'' with
          | error e =>
            rw [hm] at hds
            exact .inr (.inr hds)
          | ok o =>
            obtain ⟨out,seen₃⟩ := o
            rw [hm] at hds
            obtain ⟨rfl,hn',hs⟩ := hds
            refine ⟨rfl,?_,.expand hinc hps hf hs⟩
            rintro (h1 | h1 | h1)
            · exact hn h1
            · exact hne h1
            · exact hn' h1

end

end Files

theorem raw_eq {ds : List Directive} (h : w.raw p = some ds) :
    ∃ src, w.readToString p = .ok src ∧ parseSource src p keep () = .ok (ds,()) := by
  unfold raw at h
  cases hr : w.readToString p with
  | error e =>
    rw [hr] at h
    cases h
  | ok src =>
    rw [hr] at h
    dsimp only at h
    cases hp : parseSource src p keep () with
    | error e =>
      rw [hp] at h
      cases h
    | ok o =>
      rw [hp] at h
      cases h
      exact ⟨src,rfl,hp⟩

/-- Parsing a file fails when it is stuck, and splices its includes otherwise. -/
theorem parseFileInner_comes (hw : w.WellFormed p) : w.Comes seen depth p (w.parseFileInner p seen depth) := by
  induction hn : maxIncludeDepth + 1 - depth generalizing p seen depth with
  | zero =>
    have hd : depth > maxIncludeDepth := by omega
    rw [parseFileInner,dif_pos hd]
    exact .deep hd
  | succ n ih =>
    have hd : ¬ depth > maxIncludeDepth := by omega
    rw [parseFileInner,dif_neg hd]
    by_cases hin : w.canon p ∈ seen
    · rw [if_pos hin]
      exact .again hin
    · rw [if_neg hin]
      obtain ⟨ds,hraw,hinc⟩ := hw p .refl
      have hready : w.Ready p (insert (w.canon p) seen) (depth + 1)
          (fun q seen => w.parseFileInner q seen (depth + 1)) (includes ds) := by
        intro d hdm
        obtain ⟨ps,hps⟩ := hinc d hdm
        refine ⟨ps,hps,fun q hq => ih (fun r hr => hw r (.head ⟨ds,hraw,d,hdm,ps,hps,hq⟩ hr)) (by omega)⟩
      have hs := splice_comes ds hready
      obtain ⟨src,hread,hk⟩ := raw_eq hraw
      have hfac := parseSource_factor src p (w.expandInclude (fun q seen => w.parseFileInner q seen (depth + 1)) (base p))
        (insert (w.canon p) seen)
      rw [hk] at hfac
      dsimp only at hfac
      rw [hread]
      dsimp only
      rw [hfac]
      cases hsp : splice (w.expandInclude (fun q seen => w.parseFileInner q seen (depth + 1)) (base p)) ds
          (insert (w.canon p) seen) with
      | error e =>
        rw [hsp] at hs
        obtain ⟨d,hdm,ps,hps,q,hq,hst⟩ := hs
        exact .step ⟨ds,hraw,d,hdm,ps,hps,hq⟩ hst
      | ok o =>
        obtain ⟨out,seen'⟩ := o
        rw [hsp] at hs
        obtain ⟨rfl,hno,hout⟩ := hs
        refine ⟨Finset.erase_insert hin,fun hst => ?_,.mk hraw hout⟩
        cases hst with
        | deep h => exact hd h
        | again h => exact hin h
        | step h hst =>
          obtain ⟨ds',hraw',d,hdm,ps,hps,hq⟩ := h
          rw [hraw] at hraw'
          cases hraw'
          exact hno ⟨d,hdm,ps,hps,_,hq,hst⟩

/-- A file comes to one thing. -/
theorem FileSplice.unique {p : Bytes} {out out' : List Directive} (h : w.FileSplice p out) (h' : w.FileSplice p out') :
    out = out' := by
  refine @FileSplice.rec w (fun p out _ => ∀ out', w.FileSplice p out' → out = out')
    (fun ps out _ => ∀ out', w.FileSplices ps out' → out = out')
    (fun p ds out _ => ∀ out', w.Splice p ds out' → out = out')
    (fun p d d' _ => ∀ d'', w.InnerSplice p d d'' → d' = d'') ?_ ?_ ?_ ?_ ?_ ?_ ?_ ?_ p out h out' h'
  · intro p ds out h _ ih out' h'
    cases h' with
    | mk h' hs' =>
      rw [h] at h'
      cases h'
      exact ih _ hs'
  · intro out' h'
    cases h' with
    | nil => rfl
  · intro p ps front out _ _ ih ihs out' h'
    cases h' with
    | cons h' hs' => rw [ih _ h',ihs _ hs']
  · intro p out' h'
    cases h' with
    | nil => rfl
  · intro p d d' ds out hi _ _ ihd ihs out' h'
    cases h' with
    | keep _ hd' hs' => rw [ihd _ hd',ihs _ hs']
    | expand hi' _ _ _ => exact absurd (hi.symm.trans hi') Bool.false_ne_true
  · intro p d ps ds front out hi hp _ _ ihf ihs out' h'
    cases h' with
    | keep hi' _ _ => exact absurd (hi'.symm.trans hi) Bool.false_ne_true
    | expand _ hp' hf' hs' =>
      rw [hp] at hp'
      cases hp'
      rw [ihf _ hf',ihs _ hs']
  · intro p name args line file d'' h'
    cases h' with
    | leaf => rfl
  · intro p name args b b' line file _ ihb d'' h'
    cases h' with
    | block hb' => rw [ihb _ hb']

/-- A configuration whose files can be read is refused exactly when some chain of its
includes is bad; otherwise it is what comes of replacing each `include` by its files. -/
theorem parseFile_splices {root : Bytes} (hw : w.WellFormed root) :
    ((∃ e, w.parseFile root = .error e) ↔ w.BadChain root) ∧
      (¬ w.BadChain root → ∀ ds, w.parseFile root = .ok ds ↔ w.FileSplice root ds) := by
  have h : w.Comes ∅ 0 root (w.parseFileInner root ∅ 0) := parseFileInner_comes hw
  rw [← stuck_iff]
  unfold parseFile
  cases hp : w.parseFileInner root ∅ 0 with
  | error e =>
    rw [hp] at h
    exact ⟨⟨fun _ => h,fun _ => ⟨e,rfl⟩⟩,fun hn => absurd h hn⟩
  | ok o =>
    rw [hp] at h
    obtain ⟨-,hn,hf⟩ := h
    refine ⟨⟨(fun ⟨e,he⟩ => nomatch he),fun hs => absurd hs hn⟩,fun _ ds => ⟨fun hds => ?_,fun hds => ?_⟩⟩
    · cases hds
      exact hf
    · rw [hds.unique hf]
      rfl

/-- One file includes another, which is empty. -/
def pair : World where
  canonicalize p := some p
  readToString p := if p = [97] then .ok [105,110,99,108,117,100,101,32,98,59] else .ok []
  glob _ := .ok []

theorem wellFormed_pair : pair.WellFormed [97] := by
  have hfirst : pair.raw [97] = some [.mk [105,110,99,108,117,100,101] [[98]] none 1 [97]] := by
    have h1 : Lexer.nextToken [97] [105,110,99,108,117,100,101,32,98,59] 1 =
      .ok (some (⟨.word [105,110,99,108,117,100,101],1,false⟩,[32,98,59],1)) := rfl
    have h2 : Lexer.nextToken [97] [32,98,59] 1 = .ok (some (⟨.word [98],1,false⟩,[59],1)) := rfl
    have h3 : Lexer.nextToken [97] [59] 1 = .ok (some (⟨.semi,1,false⟩,[],1)) := rfl
    have ht : tokenize [105,110,99,108,117,100,101,32,98,59] [97] =
        .ok [⟨.word [105,110,99,108,117,100,101],1,false⟩,⟨.word [98],1,false⟩,⟨.semi,1,false⟩] := by
      rw [tokenize,Lexer.run_some h1,Lexer.run_some h2,Lexer.run_some h3,Lexer.run_none rfl]
      rfl
    simp only [raw,pair,if_true,parseSource,ht]
    rfl
  intro p _
  by_cases hp : p = [97]
  · subst hp
    have hinc : includes [.mk [105,110,99,108,117,100,101] [[98]] none 1 [97]] =
      [.mk [105,110,99,108,117,100,101] [[98]] none 1 [97]] := rfl
    refine ⟨_,hfirst,fun d hd => ?_⟩
    rw [hinc] at hd
    rw [List.mem_singleton.mp hd]
    exact ⟨[[98]],rfl⟩
  · have ht : tokenize [] p = .ok [] := by rw [tokenize,Lexer.run_none rfl]
    refine ⟨[],?_,fun d hd => nomatch hd⟩
    simp only [raw,pair,if_neg hp,parseSource,ht]
    rfl

theorem parseFile_splices_pair :
    ((∃ e, pair.parseFile [97] = .error e) ↔ pair.BadChain [97]) ∧
      (¬ pair.BadChain [97] → ∀ ds, pair.parseFile [97] = .ok ds ↔ pair.FileSplice [97] ds) :=
  parseFile_splices wellFormed_pair

end World

end OxiServe.Config.Ast
