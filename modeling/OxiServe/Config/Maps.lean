import OxiServe.Config.HostChoice
import OxiServe.Config.ZoneRefs

/-! # What a `map` block is compiled to

The builder sorts the entries of a block into three tables, one line after the
other. What a block says is given beside it, entry by entry.
-/
namespace OxiServe.Config

section Build

/-- A text put in place of another, from left to right. -/
def replaceText (p r : Bytes) (s : Bytes) : Bytes :=
  go s.length s
where
  go : ℕ → Bytes → Bytes
    | 0, s => s
    | fuel + 1, s =>
      match splitOnceText p s with
      | none => s
      | some (front,rest) => front ++ r ++ go fuel rest

def containsText (p s : Bytes) : Bool := (splitOnceText p s).isSome

/-- What cannot be compiled is refused with a hint at what is missing. -/
def compileRegex (regexNew : Bytes → Except Bytes Regex) (pat : Bytes) (ci : Bool) (d : Directive) : Built Regex :=
  let translated := replaceText (lit "(?P P<") (lit "(?P<") (replaceText (lit "(?<") (lit "(?P<") pat)
  match regexNew (if ci then lit "(?i)" ++ translated else translated) with
  | .ok re => .ok re
  | .error e =>
    let hint :=
      if containsText (lit "(?=") pat || containsText (lit "(?!") pat || containsText (lit "(?<=") pat then
        lit "\n  note: lookahead/lookbehind is a PCRE feature OxiServe does not support"
      else if pat.contains 92 && pat.any isAsciiDigit then
        lit "\n  note: backreferences are a PCRE feature OxiServe does not support"
      else []
    bail d (lit "invalid regular expression " ++ quoted pat ++ lit ": " ++ e ++ hint)

/-- A key of the exact table; a later entry takes the place of an earlier one. -/
def insertExact (exact : List (Bytes × Template)) (k : Bytes) (t : Template) : List (Bytes × Template) :=
  (k,t) :: exact.filter (fun p => p.1 != k)

/-- One line of a `map`. -/
def mapEntry (regexNew : Bytes → Except Bytes Regex) (m : MapConf) (c : Directive) : Built MapConf :=
  if c.name = lit "hostnames" then .ok { m with hostnames := true }
  else if c.name = lit "volatile" then .ok m
  else if c.name = lit "include" then .ok m
  else if c.name = lit "default" then do
    wantArgs c 1
    .ok { m with default := some (.compile (c.args.headD [])) }
  else do
    wantArgs c 1
    let val := Template.compile (c.args.headD [])
    match stripPrefix (lit "~*") c.name with
    | some re => do
      let re ← compileRegex regexNew re true c
      .ok { m with regexes := m.regexes ++ [(re,val)] }
    | none =>
      match stripPrefix (lit "~") c.name with
      | some re => do
        let re ← compileRegex regexNew re false c
        .ok { m with regexes := m.regexes ++ [(re,val)] }
      | none =>
        match stripPrefix (lit "*.") c.name with
        | some suffix => .ok { m with wildcards := m.wildcards ++ [(suffix,val,true)] }
        | none =>
          match stripSuffix (lit ".*") c.name with
          | some pre => .ok { m with wildcards := m.wildcards ++ [(pre,val,false)] }
          | none => .ok { m with exact := insertExact m.exact (toAsciiLowercase c.name) val }

/-- `map $source $target { ... }` -/
def mapConf (regexNew : Bytes → Except Bytes Regex) (d : Directive) : Built MapConf := do
  wantArgs d 2
  match stripPrefix (lit "$") (d.args.headD []) with
  | none => bail d (lit "invalid map source " ++ quoted (d.args.headD []) ++ lit ", expected a variable")
  | some src =>
    match stripPrefix (lit "$") ((d.args[1]?).getD []) with
    | none => bail d (lit "invalid map target " ++ quoted ((d.args[1]?).getD []) ++ lit ", expected a variable")
    | some target =>
      d.children.foldlM (mapEntry regexNew) ⟨.parse src,target,[],[],[],none,false⟩

end Build

section Entries

/-- A line that is neither a switch nor the default. -/
def isEntry (c : Directive) : Bool :=
  !(c.name == lit "hostnames" || c.name == lit "volatile" || c.name == lit "include" || c.name == lit "default")

def entries (cs : List Directive) : List Directive := cs.filter isEntry

/-- The block says `hostnames`. -/
def hasHostnames (cs : List Directive) : Bool := cs.any (fun c => c.name == lit "hostnames")

def valueOf (c : Directive) : Template := .compile (c.args.headD [])

/-- The expression of a key that begins with a tilde. -/
def regexOf (regexNew : Bytes → Except Bytes Regex) (c : Directive) : Option (Built Regex) :=
  match stripPrefix (lit "~*") c.name with
  | some re => some (compileRegex regexNew re true c)
  | none => (stripPrefix (lit "~") c.name).map (fun re => compileRegex regexNew re false c)

/-- The pattern of a key `*.suffix`, or `prefix.*`, and whether its star leads. -/
def wildcardOf (key : Bytes) : Option (Bytes × Bool) :=
  if key.head? = some 126 then none
  else
    match stripPrefix (lit "*.") key with
    | some suffix => some (suffix,true)
    | none => (stripSuffix (lit ".*") key).map (fun pre => (pre,false))

/-- An expression matches the value as it is. -/
def Matches (regexNew : Bytes → Except Bytes Regex) (v : Bytes) (c : Directive) : Prop :=
  ∃ re, regexOf regexNew c = some (.ok re) ∧ re.isMatch v = true

/-- A text that stands for the star of a pattern, with the dot between. -/
def around (w : Bytes × Bool) (s : Bytes) : Bytes := if w.2 then s ++ 46 :: w.1 else w.1 ++ 46 :: s

def lowered (w : Bytes × Bool) : Bytes × Bool := (toAsciiLowercase w.1,w.2)

/-- The value is the pattern with some text for its star, in any case. -/
def Covers (w : Bytes × Bool) (v : Bytes) : Prop := ∃ s, toAsciiLowercase v = around (lowered w) s

/-- An entry that is the value, in any case. Without `hostnames` a star is a
character like any other. -/
structure IsExact (cs : List Directive) (v : Bytes) (c : Directive) : Prop where
  entry : c ∈ entries cs
  noTilde : c.name.head? ≠ some 126
  noStar : hasHostnames cs = true → wildcardOf c.name = none
  equal : eqIgnoreAsciiCase c.name v = true

structure IsWildcard (cs : List Directive) (v : Bytes) (c : Directive) (w : Bytes × Bool) : Prop where
  hostnames : hasHostnames cs = true
  entry : c ∈ entries cs
  pattern : wildcardOf c.name = some w
  covers : Covers w v

/-- What a block answers: an exact entry, else a longest wildcard, else the first
expression, else the default. -/
inductive Answer (regexNew : Bytes → Except Bytes Regex) (cs : List Directive) (v : Bytes) : Option Template → Prop
  | exact {c : Directive} (h : IsExact cs v c) : Answer regexNew cs v (some (valueOf c))
  | wildcard {c : Directive} {w : Bytes × Bool} (hno : ∀ e, ¬ IsExact cs v e) (h : IsWildcard cs v c w)
      (hlong : ∀ e x, IsWildcard cs v e x → x.1.length ≤ w.1.length) : Answer regexNew cs v (some (valueOf c))
  | regex {pre post : List Directive} {c : Directive} (hno : ∀ e, ¬ IsExact cs v e)
      (hstar : ∀ e x, ¬ IsWildcard cs v e x) (h : entries cs = pre ++ c :: post) (hm : Matches regexNew v c)
      (hfirst : ∀ e ∈ pre, ¬ Matches regexNew v e) : Answer regexNew cs v (some (valueOf c))
  | default {c : Directive} (hno : ∀ e, ¬ IsExact cs v e) (hstar : ∀ e x, ¬ IsWildcard cs v e x)
      (hre : ∀ e ∈ entries cs, ¬ Matches regexNew v e) (h : c ∈ cs) (hd : c.name = lit "default") :
      Answer regexNew cs v (some (valueOf c))
  | none (hno : ∀ e, ¬ IsExact cs v e) (hstar : ∀ e x, ¬ IsWildcard cs v e x)
      (hre : ∀ e ∈ entries cs, ¬ Matches regexNew v e) (hd : ∀ c ∈ cs, c.name ≠ lit "default") :
      Answer regexNew cs v none

end Entries

section Tables
variable {regexNew : Bytes → Except Bytes Regex} {cs : List Directive} {m m' : MapConf} {c : Directive}

/-- A key of the exact table. -/
def isExactKey (key : Bytes) : Bool := key.head? != some 126 && (wildcardOf key).isNone

/-- The tables after the lines `cs`. -/
structure Compiled (regexNew : Bytes → Except Bytes Regex) (cs : List Directive) (m : MapConf) : Prop where
  exact_some : ∀ k t, m.exact.lookup k = some t →
    ∃ e ∈ entries cs, isExactKey e.name = true ∧ toAsciiLowercase e.name = k ∧ t = valueOf e
  exact_none : ∀ k, m.exact.lookup k = none → ∀ e ∈ entries cs, isExactKey e.name = true → toAsciiLowercase e.name ≠ k
  wildcards : m.wildcards =
    (entries cs).filterMap (fun e => (wildcardOf e.name).map (fun w => (w.1,valueOf e,w.2)))
  regexes : m.regexes =
    (entries cs).filterMap (fun e => ((regexOf regexNew e).bind Except.toOption).map (fun re => (re,valueOf e)))
  default_some : ∀ t, m.default = some t → ∃ e ∈ cs, e.name = lit "default" ∧ t = valueOf e
  default_none : m.default = none → ∀ e ∈ cs, e.name ≠ lit "default"

theorem compiled_nil {v : Var} {target : Bytes} : Compiled regexNew [] ⟨v,target,[],[],[],none,false⟩ where
  exact_some := fun k t h => by cases h
  exact_none := fun k h e he => by cases he
  wildcards := rfl
  regexes := rfl
  default_some := fun t h => by cases h
  default_none := fun h e he => by cases he

theorem lookup_insertExact (exact : List (Bytes × Template)) (k k' : Bytes) (t : Template) :
    (insertExact exact k t).lookup k' = if k' = k then some t else exact.lookup k' := by
  unfold insertExact
  rw [List.lookup_cons]
  by_cases h : k' = k
  · rw [if_pos h,beq_iff_eq.mpr h]
  · rw [if_neg h,beq_eq_false_iff_ne.mpr h]
    dsimp only
    induction exact with
    | nil => rfl
    | cons p ps ih =>
      by_cases hp : p.1 = k
      · have hne : (k' == p.1) = false := beq_eq_false_iff_ne.mpr fun he => h (he.trans hp)
        rw [List.filter_cons_of_neg (by simp [hp]),List.lookup_cons,hne]
        exact ih
      · rw [List.filter_cons_of_pos (by simpa using hp),List.lookup_cons,List.lookup_cons,ih]

theorem entries_append (c : Directive) : entries (cs ++ [c]) = entries cs ++ if isEntry c then [c] else [] := by
  unfold entries
  rw [List.filter_append]
  cases h : isEntry c with
  | true => rw [List.filter_cons_of_pos h]; rfl
  | false => rw [List.filter_cons_of_neg (by simp [h])]; rfl

theorem head_tilde {key re : Bytes} (h : stripPrefix (lit "~") key = some re) : key.head? = some 126 := by
  rw [stripPrefix_eq_some.mp h]
  rfl

theorem strip_tilde {key : Bytes} (h : key.head? = some 126) : ∃ re, stripPrefix (lit "~") key = some re := by
  cases key with
  | nil => cases h
  | cons c r =>
    obtain rfl : c = 126 := Option.some.inj h
    exact ⟨r,rfl⟩

theorem head_star {key re : Bytes} (h : stripPrefix (lit "~*") key = some re) : key.head? = some 126 := by
  rw [stripPrefix_eq_some.mp h]
  rfl

theorem regexOf_none : regexOf regexNew c = none ↔ c.name.head? ≠ some 126 := by
  unfold regexOf
  constructor
  · intro h hh
    obtain ⟨re,hre⟩ := strip_tilde hh
    split at h
    · cases h
    · rw [hre] at h
      cases h
  · intro hh
    split
    · next re hre => exact absurd (head_star hre) hh
    · cases hs : stripPrefix (lit "~") c.name with
      | none => rfl
      | some re => exact absurd (head_tilde hs) hh

/-- What a line adds to the tables. -/
inductive Adds (regexNew : Bytes → Except Bytes Regex) (m : MapConf) (c : Directive) : MapConf → Prop
  | hostnames (h : c.name = lit "hostnames") : Adds regexNew m c { m with hostnames := true }
  | nothing (h : c.name = lit "volatile" ∨ c.name = lit "include") : Adds regexNew m c m
  | default (h : c.name = lit "default") (ha : c.args.length = 1) :
      Adds regexNew m c { m with default := some (valueOf c) }
  | regex {re : Regex} (h : isEntry c = true) (ha : c.args.length = 1) (hre : regexOf regexNew c = some (.ok re)) :
      Adds regexNew m c { m with regexes := m.regexes ++ [(re,valueOf c)] }
  | wildcard {w : Bytes × Bool} (h : isEntry c = true) (ha : c.args.length = 1) (hw : wildcardOf c.name = some w) :
      Adds regexNew m c { m with wildcards := m.wildcards ++ [(w.1,valueOf c,w.2)] }
  | exact (h : isEntry c = true) (ha : c.args.length = 1) (hp : isExactKey c.name = true) :
      Adds regexNew m c { m with exact := insertExact m.exact (toAsciiLowercase c.name) (valueOf c) }

theorem wantArgs_ok {n : ℕ} {u : Unit} : wantArgs c n = .ok u ↔ c.args.length = n := by
  unfold wantArgs bail
  split
  · next h => exact iff_of_false (by simp) h
  · next h => exact iff_of_true rfl (not_not.mp h)

theorem isEntry_iff : isEntry c = true ↔ c.name ≠ lit "hostnames" ∧ c.name ≠ lit "volatile" ∧
    c.name ≠ lit "include" ∧ c.name ≠ lit "default" := by
  unfold isEntry
  simp only [Bool.not_eq_true',Bool.or_eq_false_iff,beq_eq_false_iff_ne,and_assoc]

theorem mapEntry_entry (h : isEntry c = true) (ha : c.args.length = 1) : mapEntry regexNew m c =
    match regexOf regexNew c with
    | some r => r.map (fun re => { m with regexes := m.regexes ++ [(re,valueOf c)] })
    | none =>
      match wildcardOf c.name with
      | some w => .ok { m with wildcards := m.wildcards ++ [(w.1,valueOf c,w.2)] }
      | none => .ok { m with exact := insertExact m.exact (toAsciiLowercase c.name) (valueOf c) } := by
  obtain ⟨h1,h2,h3,h4⟩ := isEntry_iff.mp h
  have hargs : wantArgs c 1 = .ok () := wantArgs_ok.mpr ha
  unfold mapEntry
  rw [if_neg h1,if_neg h2,if_neg h3,if_neg h4,hargs]
  change (match stripPrefix (lit "~*") c.name with
    | some re => compileRegex regexNew re true c >>= fun re => .ok { m with regexes := m.regexes ++ [(re,valueOf c)] }
    | none => _) = _
  unfold regexOf
  cases hstar : stripPrefix (lit "~*") c.name with
  | some re =>
    dsimp only
    cases compileRegex regexNew re true c <;> rfl
  | none =>
    dsimp only
    cases htilde : stripPrefix (lit "~") c.name with
    | some re =>
      dsimp only [Option.map_some]
      cases compileRegex regexNew re false c <;> rfl
    | none =>
      have hhead : c.name.head? ≠ some 126 := by
        intro hh
        obtain ⟨re,hre⟩ := strip_tilde hh
        rw [htilde] at hre
        cases hre
      dsimp only [Option.map_none]
      unfold wildcardOf
      rw [if_neg hhead]
      cases stripPrefix (lit "*.") c.name with
      | some suffix => rfl
      | none =>
        dsimp only
        cases stripSuffix (lit ".*") c.name with
        | some pre => rfl
        | none => rfl

theorem plain_of_none (h : regexOf regexNew c = none) (hw : wildcardOf c.name = none) : isExactKey c.name = true := by
  have hh := regexOf_none.mp h
  simp [isExactKey,hw,hh]

theorem regexOf_of_wildcard {w : Bytes × Bool} (hw : wildcardOf c.name = some w) : regexOf regexNew c = none := by
  rw [regexOf_none]
  intro hh
  rw [wildcardOf,if_pos hh] at hw
  cases hw

theorem isExactKey_iff {key : Bytes} : isExactKey key = true ↔ key.head? ≠ some 126 ∧ wildcardOf key = none := by
  unfold isExactKey
  rw [Bool.and_eq_true,bne_iff_ne,Option.isNone_iff_eq_none]

/-- A line is accepted when it has its argument and its expression compiles. -/
theorem mapEntry_adds : mapEntry regexNew m c = .ok m' ↔ Adds regexNew m c m' := by
  constructor
  · intro h
    by_cases hentry : isEntry c = true
    · have ha : c.args.length = 1 := by
        obtain ⟨h1,h2,h3,h4⟩ := isEntry_iff.mp hentry
        unfold mapEntry at h
        rw [if_neg h1,if_neg h2,if_neg h3,if_neg h4] at h
        cases hw : wantArgs c 1 with
        | ok u => exact wantArgs_ok.mp hw
        | error e =>
          rw [hw] at h
          cases h
      rw [mapEntry_entry hentry ha] at h
      split at h
      · next r hr =>
        cases r with
        | error e => cases h
        | ok re =>
          cases h
          exact .regex hentry ha hr
      · next hr =>
        split at h
        · next w hw =>
          cases h
          exact .wildcard hentry ha hw
        · next hw =>
          cases h
          exact .exact hentry ha (plain_of_none hr hw)
    · unfold mapEntry at h
      split_ifs at h with h1 h2 h3 h4
      · cases h
        exact .hostnames h1
      · cases h
        exact .nothing (.inl h2)
      · cases h
        exact .nothing (.inr h3)
      · cases hw : wantArgs c 1 with
        | ok u =>
          rw [hw] at h
          cases h
          exact .default h4 (wantArgs_ok.mp hw)
        | error e =>
          rw [hw] at h
          cases h
      · exact absurd (isEntry_iff.mpr ⟨h1,h2,h3,h4⟩) hentry
  · intro h
    cases h with
    | hostnames h =>
      unfold mapEntry
      rw [if_pos h]
    | nothing h =>
      unfold mapEntry
      rcases h with h | h <;> rw [h] <;> rfl
    | default h ha =>
      unfold mapEntry
      have hargs : wantArgs c 1 = .ok () := wantArgs_ok.mpr ha
      rw [hargs,h]
      rfl
    | regex h ha hre =>
      rw [mapEntry_entry h ha,hre]
      rfl
    | wildcard h ha hw =>
      rw [mapEntry_entry h ha,regexOf_of_wildcard hw]
      dsimp only
      rw [hw]
    | exact h ha hp =>
      obtain ⟨hh,hw⟩ := isExactKey_iff.mp hp
      rw [mapEntry_entry h ha,regexOf_none.mpr hh]
      dsimp only
      rw [hw]

/-- A line that is no entry leaves the tables alone. -/
theorem Compiled.switch (h : Compiled regexNew cs m) (he : isEntry c = false) (hd : c.name ≠ lit "default")
    (b : Bool) : Compiled regexNew (cs ++ [c]) { m with hostnames := b } := by
  have hcs : entries (cs ++ [c]) = entries cs := by rw [entries_append,he]; exact List.append_nil _
  constructor
  · rw [hcs]
    exact h.exact_some
  · rw [hcs]
    exact h.exact_none
  · rw [hcs]
    exact h.wildcards
  · rw [hcs]
    exact h.regexes
  · intro t ht
    obtain ⟨e,hm,hn⟩ := h.default_some t ht
    exact ⟨e,List.mem_append_left _ hm,hn⟩
  · intro hnone e hm
    rcases List.mem_append.mp hm with hm | hm
    · exact h.default_none hnone e hm
    · rw [List.mem_singleton.mp hm]
      exact hd

/-- The default is that of the lines before an entry. -/
theorem Compiled.default_entry (h : Compiled regexNew cs m) (he : isEntry c = true) :
    (∀ t, m.default = some t → ∃ e ∈ cs ++ [c], e.name = lit "default" ∧ t = valueOf e) ∧
      (m.default = none → ∀ e ∈ cs ++ [c], e.name ≠ lit "default") := by
  constructor
  · intro t ht
    obtain ⟨e,hm,hn⟩ := h.default_some t ht
    exact ⟨e,List.mem_append_left _ hm,hn⟩
  · intro hnone e hm
    rcases List.mem_append.mp hm with hm | hm
    · exact h.default_none hnone e hm
    · rw [List.mem_singleton.mp hm]
      exact (isEntry_iff.mp he).2.2.2

/-- The exact table is that of the lines before an entry with a tilde or a star. -/
theorem Compiled.exact_entry (h : Compiled regexNew cs m) (hp : isExactKey c.name = false) :
    (∀ k t, m.exact.lookup k = some t →
      ∃ e ∈ entries cs ++ [c], isExactKey e.name = true ∧ toAsciiLowercase e.name = k ∧ t = valueOf e) ∧
    (∀ k, m.exact.lookup k = none → ∀ e ∈ entries cs ++ [c], isExactKey e.name = true → toAsciiLowercase e.name ≠ k) := by
  constructor
  · intro k t ht
    obtain ⟨e,hm,hn⟩ := h.exact_some k t ht
    exact ⟨e,List.mem_append_left _ hm,hn⟩
  · intro k hk e hm hplain
    rcases List.mem_append.mp hm with hm | hm
    · exact h.exact_none k hk e hm hplain
    · rw [List.mem_singleton.mp hm,hp] at hplain
      cases hplain

theorem Compiled.adds (h : Compiled regexNew cs m) (ha : Adds regexNew m c m') : Compiled regexNew (cs ++ [c]) m' := by
  have hentries : isEntry c = true → entries (cs ++ [c]) = entries cs ++ [c] := by
    intro he
    rw [entries_append,he]
    rfl
  cases ha with
  | hostnames hn =>
    refine h.switch (by simp [isEntry,hn]) ?_ true
    rw [hn]
    decide
  | nothing hn =>
    refine h.switch ?_ ?_ m.hostnames
    · rcases hn with hn | hn <;> simp [isEntry,hn]
    · rcases hn with hn | hn <;> rw [hn] <;> decide
  | default hn _ =>
    have hcs : entries (cs ++ [c]) = entries cs := by
      rw [entries_append,show isEntry c = false by simp [isEntry,hn]]
      exact List.append_nil _
    refine ⟨hcs ▸ h.exact_some,hcs ▸ h.exact_none,hcs ▸ h.wildcards,hcs ▸ h.regexes,?_,?_⟩
    · intro t ht
      cases ht
      exact ⟨c,by simp,hn,rfl⟩
    · intro hnone
      cases hnone
  | regex he _ hre =>
    have hhead : c.name.head? = some 126 := by
      by_contra hh
      rw [regexOf_none.mpr hh] at hre
      cases hre
    have hw : wildcardOf c.name = none := if_pos hhead
    obtain ⟨hd1,hd2⟩ := h.default_entry he
    obtain ⟨hx1,hx2⟩ := h.exact_entry (c := c) (by simp [isExactKey,hhead])
    refine ⟨hentries he ▸ hx1,hentries he ▸ hx2,?_,?_,hd1,hd2⟩
    · rw [hentries he,List.filterMap_append,← h.wildcards]
      simp [hw]
    · rw [hentries he,List.filterMap_append,← h.regexes]
      simp [hre,Except.toOption]
  | @wildcard w he _ hw =>
    have hre := @regexOf_of_wildcard regexNew c w hw
    obtain ⟨hd1,hd2⟩ := h.default_entry he
    obtain ⟨hx1,hx2⟩ := h.exact_entry (c := c) (by simp [isExactKey,hw])
    refine ⟨hentries he ▸ hx1,hentries he ▸ hx2,?_,?_,hd1,hd2⟩
    · rw [hentries he,List.filterMap_append,← h.wildcards]
      simp [hw]
    · rw [hentries he,List.filterMap_append,← h.regexes]
      simp [hre]
  | exact he _ hp =>
    obtain ⟨hhead,hw⟩ := isExactKey_iff.mp hp
    have hre := (@regexOf_none regexNew c).mpr hhead
    obtain ⟨hd1,hd2⟩ := h.default_entry he
    refine ⟨?_,?_,?_,?_,hd1,hd2⟩
    · intro k t ht
      rw [hentries he]
      rw [lookup_insertExact] at ht
      split at ht
      · next hk =>
        cases ht
        exact ⟨c,by simp,hp,hk.symm,rfl⟩
      · obtain ⟨e,hm,hn⟩ := h.exact_some k t ht
        exact ⟨e,List.mem_append_left _ hm,hn⟩
    · intro k hk e hm hplain
      rw [hentries he] at hm
      rw [lookup_insertExact] at hk
      split at hk
      · cases hk
      · next hne =>
        rcases List.mem_append.mp hm with hm | hm
        · exact h.exact_none k hk e hm hplain
        · rw [List.mem_singleton.mp hm]
          exact Ne.symm hne
    · rw [hentries he,List.filterMap_append,← h.wildcards]
      simp [hw]
    · rw [hentries he,List.filterMap_append,← h.regexes]
      simp [hre]

theorem compiled_lines {ds : List Directive} (h : Compiled regexNew cs m) (hb : ds.foldlM (mapEntry regexNew) m = .ok m') :
    Compiled regexNew (cs ++ ds) m' := by
  induction ds generalizing cs m with
  | nil =>
    cases hb
    rwa [List.append_nil]
  | cons d ds ih =>
    rw [List.foldlM_cons] at hb
    obtain ⟨m1,h1,h2⟩ := bind_ok.mp hb
    have hnext := ih (h.adds (mapEntry_adds.mp h1)) h2
    rwa [List.append_assoc,List.singleton_append] at hnext

/-- An accepted block has its two variables and its tables. -/
theorem mapConf_compiled {d : Directive} (h : mapConf regexNew d = .ok m) : Compiled regexNew d.children m := by
  unfold mapConf at h
  obtain ⟨u,-,h⟩ := bind_ok.mp h
  split at h
  · cases h
  · split at h
    · cases h
    · exact compiled_lines compiled_nil h

end Tables

end OxiServe.Config
