import OxiServe.Server.AliasPath
import OxiServe.Server.Handler
import OxiServe.Lib.Utf8

/-! # What `try_files` probes and what is served

A candidate is appended to the root or the alias as it is, and the file served
for the URI is found by `map_path`, which cuts the prefix of the location off
in front of an alias. The two paths are compared letter by letter, and as the
file system reads them, where repeated slashes are one.
-/
namespace OxiServe.Server
open Config

section Squeeze
variable {a b : Bytes}

/-- One slash for each run of slashes. -/
def squeeze : Bytes → Bytes
  | [] => []
  | c :: r => if c = 47 ∧ r.head? = some 47 then squeeze r else c :: squeeze r

/-- What follows the leading slashes. -/
def behindSlashes (b : Bytes) : Bytes := b.dropWhile (· == 47)

theorem squeeze_slash (b : Bytes) : squeeze (47 :: b) = 47 :: squeeze (behindSlashes b) := by
  induction b with
  | nil => rfl
  | cons c b ih =>
    rw [squeeze]
    by_cases hc : c = 47
    · subst hc
      rw [if_pos ⟨rfl,rfl⟩,ih]
      rfl
    · rw [if_neg (by simpa using hc)]
      have hcut : behindSlashes (c :: b) = c :: b := by simp [behindSlashes,hc]
      rw [hcut]

theorem squeeze_append_slash (a b : Bytes) :
    squeeze (a ++ 47 :: b) = squeeze (a ++ [47]) ++ squeeze (behindSlashes b) := by
  induction a with
  | nil =>
    rw [List.nil_append,List.nil_append,squeeze_slash]
    rfl
  | cons c a ih =>
    have hhead : (a ++ 47 :: b).head? = (a ++ [47]).head? := by cases a <;> rfl
    rw [List.cons_append,List.cons_append,squeeze,squeeze,hhead]
    split
    · exact ih
    · rw [ih]
      rfl

/-- Nothing is lost where no two slashes meet. -/
theorem squeeze_append (h : a.getLast? ≠ some 47 ∨ b.head? ≠ some 47) : squeeze (a ++ b) = squeeze a ++ squeeze b := by
  induction a with
  | nil => rfl
  | cons c a ih =>
    cases a with
    | nil =>
      have hc : ¬ (c = 47 ∧ b.head? = some 47) := by
        rintro ⟨rfl,hb⟩
        rcases h with h | h
        · exact h rfl
        · exact h hb
      have hone : squeeze [c] = [c] := by simp [squeeze]
      rw [List.singleton_append,squeeze,if_neg hc,hone,List.singleton_append]
    | cons d a =>
      have hrest := ih (by rwa [List.getLast?_cons_cons] at h)
      rw [List.cons_append,squeeze,List.cons_append,List.head?_cons,← List.cons_append,hrest,squeeze.eq_def (c :: d :: a)]
      dsimp only
      rw [List.head?_cons]
      split
      · rfl
      · rfl

/-- The bytes that are not slashes. -/
def letters (a : Bytes) : ℕ := a.countP (· != 47)

theorem letters_squeeze (a : Bytes) : letters (squeeze a) = letters a := by
  induction a with
  | nil => rfl
  | cons c a ih =>
    unfold letters at ih ⊢
    rw [squeeze]
    split
    · next h =>
      rw [ih,h.1]
      rfl
    · rw [List.countP_cons,List.countP_cons,ih]

theorem letters_append (a b : Bytes) : letters (a ++ b) = letters a + letters b := List.countP_append

theorem letters_behindSlashes (b : Bytes) : letters (behindSlashes b) = letters b := by
  induction b with
  | nil => rfl
  | cons c b ih =>
    by_cases hc : c = 47
    · subst hc
      exact ih
    · simp [behindSlashes,hc]

/-- Only slashes. -/
def Slashes (a : Bytes) : Prop := ∀ c ∈ a, c = 47

instance : Decidable (Slashes a) := inferInstanceAs (Decidable (∀ c ∈ a, c = 47))

theorem slashes_iff : Slashes a ↔ letters a = 0 := by
  unfold Slashes letters
  rw [List.countP_eq_zero]
  simp

theorem utf8Valid_slashes (h : Slashes a) : utf8Valid a = true := by
  induction a with
  | nil => rfl
  | cons c a ih =>
    obtain ⟨rfl,ha⟩ := List.forall_mem_cons.mp h
    rw [utf8Valid_cons_ascii (by decide)]
    exact ih ha

theorem behindSlashes_append (h : Slashes a) : behindSlashes (a ++ b) = behindSlashes b := by
  induction a with
  | nil => rfl
  | cons c a ih =>
    obtain ⟨rfl,ha⟩ := List.forall_mem_cons.mp h
    exact ih ha

theorem behindSlashes_of_slashes (h : Slashes b) : behindSlashes b = [] := by
  have hb := behindSlashes_append (b := []) h
  rwa [List.append_nil] at hb

end Squeeze

section Probes

/-- The path tested for a candidate. -/
def probePath (root candidate : Bytes) : Bytes :=
  root ++ (if candidate.head? = some 47 then [] else [47]) ++ candidate

/-- The candidates with their paths, in the order they are tested. -/
def probes (env : Env) (ctx : Ctx) (loc : Location) (tf : TryFiles) : List (Bytes × Bytes) :=
  ((tf.items.map (ctx.render env)).filter (· ≠ [])).map fun candidate =>
    (candidate,probePath (ctx.render env (loc.core.aliasTo.getD loc.core.root)) candidate)

/-- The test: a name ending in a slash is a directory, any other a file. -/
def found (env : Env) (ctx : Ctx) (probe : Bytes × Bytes) : Bool :=
  match env.fileMeta ctx.clock probe.2 with
  | some m => (probe.1.getLast? == some 47 && m.isDir) || (!(probe.1.getLast? == some 47) && m.isFile)
  | none => false

/-- The first candidate found is what `run_try_files` goes by. -/
theorem findCandidate_probes (env : Env) (ctx : Ctx) (loc : Location) (tf : TryFiles) :
    findCandidate env ctx (ctx.render env (loc.core.aliasTo.getD loc.core.root)) tf.items =
      ((probes env ctx loc tf).find? (found env ctx)).map Prod.fst := by
  unfold probes
  induction tf.items with
  | nil => rfl
  | cons t ts ih =>
    rw [findCandidate,List.map_cons]
    dsimp only
    by_cases hne : ctx.render env t = []
    · rw [if_pos hne,ih,List.filter_cons_of_neg (by simpa using hne)]
    · rw [if_neg hne,List.filter_cons_of_pos (by simpa using hne),List.map_cons,List.find?_cons,found]
      unfold probePath
      dsimp only
      cases env.fileMeta ctx.clock _ with
      | none => exact ih
      | some m =>
        dsimp only
        split
        · next h => rw [h]; rfl
        · next h => rw [Bool.eq_false_iff.mpr h]; exact ih

/-- Where the prefix of a location ends in the URI. -/
def cutAt (uri : Bytes) (matcher : LocMatch) : ℕ := (matcher.prefixOf.map List.length).getD uri.length

/-- The path tested for the current URI is the one it maps to, as `reading` reads them. -/
def Probed (reading : Bytes → Bytes) (env : Env) (ctx : Ctx) (loc : Location) : Prop :=
  ∀ tf, ∀ probe ∈ probes env ctx loc tf, probe.1 = ctx.uri →
    reading probe.2 = reading (mapPath env ctx loc.core (some loc.matcher))

/-- What `map_path` makes of an alias and the rest of the URI. -/
def joinAlias (base rest : Bytes) : Bytes :=
  if rest = [] then base
  else if base.getLast? = some 47 ∧ rest.head? = some 47 then base.dropLast ++ rest
  else if base.getLast? ≠ some 47 ∧ rest.head? ≠ some 47 then base ++ [47] ++ rest
  else base ++ rest

/-- Without an alias the URI is absolute. Before an alias that does not end in a
slash the location is `/`, or empty, and the URI goes on behind it. -/
def JoinedAlike (env : Env) (ctx : Ctx) (loc : Location) : Prop :=
  match loc.core.aliasTo with
  | none => ctx.uri.head? = some 47
  | some t => (ctx.render env t).getLast? ≠ some 47 ∧ cutAt ctx.uri loc.matcher < ctx.uri.length ∧
    (cutAt ctx.uri loc.matcher = 0 ∨
      cutAt ctx.uri loc.matcher = 1 ∧ ctx.uri.head? = some 47 ∧ ctx.uri[1]? ≠ some 47)

/-- Without an alias there is a slash between root and URI. With one the prefix
cut off is made of slashes, and the URI goes on behind it or the alias ends in
a slash. -/
def JoinedInPlace (env : Env) (ctx : Ctx) (loc : Location) : Prop :=
  match loc.core.aliasTo with
  | none => ctx.uri.head? = some 47 ∨ (ctx.render env loc.core.root).getLast? = some 47
  | some t => Slashes (ctx.uri.take (cutAt ctx.uri loc.matcher)) ∧
    (cutAt ctx.uri loc.matcher < ctx.uri.length ∨ (ctx.render env t).getLast? = some 47)

variable {env : Env} {ctx : Ctx} {loc : Location} {uri base rest : Bytes} {matcher : LocMatch}

theorem probed_iff_path (reading : Bytes → Bytes) : Probed reading env ctx loc ↔ ctx.uri = [] ∨
    reading (probePath (ctx.render env (loc.core.aliasTo.getD loc.core.root)) ctx.uri) =
      reading (mapPath env ctx loc.core (some loc.matcher)) := by
  constructor
  · intro h
    by_cases hne : ctx.uri = []
    · exact .inl hne
    · refine .inr (h ⟨[⟨[.var .uri]⟩],.status 404⟩ (ctx.uri,_) ?_ rfl)
      simp [probes,probePath,hne]
  · rintro h tf probe hmem huri
    obtain ⟨candidate,hc,rfl⟩ := List.mem_map.mp hmem
    obtain ⟨-,hne⟩ := List.mem_filter.mp hc
    dsimp only at huri ⊢
    subst huri
    exact h.resolve_left (by simpa using hne)

theorem mapPath_alias {t : Template} (ha : loc.core.aliasTo = some t) :
    mapPath env ctx loc.core (some loc.matcher) = joinAlias (ctx.render env t) (restOf ctx.uri (some loc.matcher)) := by
  unfold mapPath
  rw [ha]
  rfl

theorem mapPath_root (ha : loc.core.aliasTo = none) :
    mapPath env ctx loc.core (some loc.matcher) = ctx.render env loc.core.root ++ ctx.uri := by
  unfold mapPath
  rw [ha]

/-- The rest is what is behind the cut, if that is between two characters. -/
theorem restOf_cut (uri : Bytes) (matcher : LocMatch) : restOf uri (some matcher) = [] ∨
    cutAt uri matcher < uri.length ∧ restOf uri (some matcher) = uri.drop (cutAt uri matcher) := by
  by_cases hlt : cutAt uri matcher < uri.length
  · change (textFrom uri (cutAt uri matcher)).getD [] = [] ∨ _ ∧ (textFrom uri (cutAt uri matcher)).getD [] = _
    unfold textFrom
    split
    · exact .inr ⟨hlt,rfl⟩
    · exact .inl rfl
  · left
    change (textFrom uri (cutAt uri matcher)).getD [] = []
    unfold textFrom
    split
    · exact List.drop_eq_nil_of_le (Nat.le_of_not_lt hlt)
    · rfl

/-- Behind slashes a character begins. -/
theorem restOf_slashes (hu : utf8Valid uri = true) (hlt : cutAt uri matcher < uri.length)
    (hs : Slashes (uri.take (cutAt uri matcher))) : restOf uri (some matcher) = uri.drop (cutAt uri matcher) := by
  have hsplit := List.take_append_drop (cutAt uri matcher) uri
  have hvalid : utf8Valid (uri.drop (cutAt uri matcher)) = true := by
    rw [← hsplit] at hu
    exact utf8Valid_suffix (utf8Valid_slashes hs) _ hu
  have hbyte : uri[cutAt uri matcher]?.any isCont = false := by
    rw [← List.head?_drop]
    cases hd : uri.drop (cutAt uri matcher) with
    | nil => rfl
    | cons c r =>
      rw [hd] at hvalid
      exact not_isCont_head hvalid
  change (textFrom uri (cutAt uri matcher)).getD [] = _
  rw [textFrom,hbyte,decide_eq_true (Nat.le_of_lt hlt)]
  rfl

theorem length_probePath : (probePath base uri).length =
    base.length + (if uri.head? = some 47 then 0 else 1) + uri.length := by
  unfold probePath
  rw [List.length_append,List.length_append]
  split <;> rfl

theorem probePath_absolute (h : uri.head? = some 47) : probePath base uri = base ++ uri := by
  rw [probePath,if_pos h,List.append_nil]

theorem squeeze_closed (base : Bytes) : squeeze (base ++ [47] ++ [47]) = squeeze (base ++ [47]) := by
  rw [List.append_assoc,List.singleton_append,squeeze_append_slash]
  exact List.append_nil _

theorem squeeze_probePath : squeeze (probePath base uri) = squeeze (base ++ [47]) ++ squeeze (behindSlashes uri) := by
  by_cases h : uri.head? = some 47
  · obtain ⟨r,rfl⟩ : ∃ r, uri = 47 :: r := by
      cases uri with
      | nil => cases h
      | cons c r => exact ⟨r,congrArg (· :: r) (Option.some.inj h)⟩
    rw [probePath_absolute h,squeeze_append_slash]
    rfl
  · rw [probePath,if_neg h,List.append_assoc,List.singleton_append,squeeze_append_slash]

theorem squeeze_joinAlias (hr : rest ≠ []) :
    squeeze (joinAlias base rest) = squeeze (base ++ [47]) ++ squeeze (behindSlashes rest) := by
  obtain ⟨c,r,rfl⟩ := List.exists_cons_of_ne_nil hr
  unfold joinAlias
  rw [if_neg hr]
  split_ifs with h1 h2
  · obtain ⟨b,rfl⟩ := List.getLast?_eq_some_iff.mp h1.1
    obtain rfl : c = 47 := Option.some.inj h1.2
    rw [List.dropLast_concat,squeeze_append_slash,squeeze_closed]
    rfl
  · rw [List.append_assoc,List.singleton_append,squeeze_append_slash]
  · by_cases hb : base.getLast? = some 47
    · obtain ⟨b,rfl⟩ := List.getLast?_eq_some_iff.mp hb
      rw [squeeze_closed,List.append_assoc,List.singleton_append,squeeze_append_slash]
    · have hc : c = 47 := by
        by_contra hc
        exact h2 ⟨hb,by simpa using hc⟩
      subst hc
      rw [squeeze_append_slash]
      rfl

/-- A text without a slash at its end becomes longer by one. -/
theorem squeeze_open (h : base.getLast? ≠ some 47) : squeeze (base ++ [47]) = squeeze base ++ [47] :=
  squeeze_append (.inl h)

theorem slashes_of_squeeze_nil (h : squeeze (behindSlashes uri) = []) : Slashes uri := by
  rw [slashes_iff,← letters_behindSlashes,← letters_squeeze,h]
  rfl

theorem squeeze_alias_iff (hu : utf8Valid uri = true) :
    squeeze (probePath base uri) = squeeze (joinAlias base (restOf uri (some matcher))) ↔
      Slashes (uri.take (cutAt uri matcher)) ∧ (cutAt uri matcher < uri.length ∨ base.getLast? = some 47) := by
  rw [squeeze_probePath]
  constructor
  · intro h
    rcases restOf_cut uri matcher with hnil | ⟨hlt,hrest⟩
    · rw [hnil,joinAlias,if_pos rfl] at h
      by_cases hb : base.getLast? = some 47
      · obtain ⟨b,rfl⟩ := List.getLast?_eq_some_iff.mp hb
        rw [squeeze_closed] at h
        have hall := slashes_of_squeeze_nil (List.append_right_eq_self.mp h)
        exact ⟨fun c hc => hall c (List.mem_of_mem_take hc),.inr hb⟩
      · have hlen := congrArg List.length h
        rw [squeeze_open hb,List.length_append,List.length_append,List.length_singleton] at hlen
        omega
    · have hne : uri.drop (cutAt uri matcher) ≠ [] := by
        rw [Ne,List.drop_eq_nil_iff]
        omega
      rw [hrest,squeeze_joinAlias hne] at h
      have hl := congrArg letters (List.append_cancel_left h)
      rw [letters_squeeze,letters_squeeze,letters_behindSlashes,letters_behindSlashes] at hl
      have hsplit := letters_append (uri.take (cutAt uri matcher)) (uri.drop (cutAt uri matcher))
      rw [List.take_append_drop] at hsplit
      exact ⟨slashes_iff.mpr (by omega),.inl hlt⟩
  · rintro ⟨hs,hcut⟩
    by_cases hlt : cutAt uri matcher < uri.length
    · have hne : uri.drop (cutAt uri matcher) ≠ [] := by
        rw [Ne,List.drop_eq_nil_iff]
        omega
      have hbehind : behindSlashes uri = behindSlashes (uri.drop (cutAt uri matcher)) := by
        conv_lhs => rw [← List.take_append_drop (cutAt uri matcher) uri,behindSlashes_append hs]
      rw [restOf_slashes hu hlt hs,squeeze_joinAlias hne,hbehind]
    · have hnil := (restOf_cut uri matcher).resolve_right fun h => hlt h.1
      obtain ⟨b,rfl⟩ := List.getLast?_eq_some_iff.mp (hcut.resolve_left hlt)
      rw [List.take_of_length_le (Nat.le_of_not_lt hlt)] at hs
      rw [hnil,joinAlias,if_pos rfl,squeeze_closed,behindSlashes_of_slashes hs]
      exact List.append_nil _

theorem squeeze_root_iff : squeeze (probePath base uri) = squeeze (base ++ uri) ↔
    uri.head? = some 47 ∨ base.getLast? = some 47 := by
  constructor
  · intro h
    by_contra hno
    obtain ⟨hhead,hlast⟩ := not_or.mp hno
    rw [probePath,if_neg hhead,squeeze_append (.inr hhead),squeeze_append (.inr hhead),squeeze_open hlast] at h
    have hlen := congrArg List.length h
    simp at hlen
  · rintro (hhead | hlast)
    · rw [probePath_absolute hhead]
    · obtain ⟨b,rfl⟩ := List.getLast?_eq_some_iff.mp hlast
      rw [squeeze_probePath,squeeze_closed,List.append_assoc b,List.singleton_append,squeeze_append_slash b uri]

theorem probePath_root_iff : probePath base uri = base ++ uri ↔ uri.head? = some 47 := by
  constructor
  · intro h
    by_contra hhead
    have hlen := congrArg List.length h
    rw [length_probePath,if_neg hhead,List.length_append] at hlen
    omega
  · exact probePath_absolute

/-- The parts have to be joined with the same number of slashes. -/
theorem probePath_alias_iff (hu : utf8Valid uri = true) (hne : uri ≠ []) :
    probePath base uri = joinAlias base (restOf uri (some matcher)) ↔
      base.getLast? ≠ some 47 ∧ cutAt uri matcher < uri.length ∧
        (cutAt uri matcher = 0 ∨ cutAt uri matcher = 1 ∧ uri.head? = some 47 ∧ uri[1]? ≠ some 47) := by
  have hpos := List.length_pos_of_ne_nil hne
  constructor
  · intro h
    have hlen := congrArg List.length h
    rw [length_probePath] at hlen
    rcases restOf_cut uri matcher with hnil | ⟨hlt,hrest⟩
    · rw [hnil,joinAlias,if_pos rfl] at hlen
      omega
    · have hdrop : uri.drop (cutAt uri matcher) ≠ [] := by
        rw [Ne,List.drop_eq_nil_iff]
        omega
      have hlast : base.getLast? = some 47 → 0 < base.length := by
        intro hb
        obtain ⟨b,rfl⟩ := List.getLast?_eq_some_iff.mp hb
        simp
      have habs : uri.head? ≠ some 47 → (if uri.head? = some 47 then 0 else 1) = 1 := fun hh => if_neg hh
      have hrel : uri.head? = some 47 → (if uri.head? = some 47 then 0 else 1) = 0 := fun hh => if_pos hh
      rw [hrest,joinAlias,if_neg hdrop] at hlen
      by_cases h1 : base.getLast? = some 47 ∧ (uri.drop (cutAt uri matcher)).head? = some 47
      · have hb := hlast h1.1
        rw [if_pos h1,List.length_append,List.length_dropLast,List.length_drop] at hlen
        omega
      rw [if_neg h1] at hlen
      by_cases h2 : base.getLast? ≠ some 47 ∧ (uri.drop (cutAt uri matcher)).head? ≠ some 47
      · rw [if_pos h2,List.length_append,List.length_append,List.length_drop,List.length_singleton] at hlen
        refine ⟨h2.1,hlt,?_⟩
        by_cases hhead : uri.head? = some 47
        · have hzero := hrel hhead
          have hone : cutAt uri matcher = 1 := by omega
          have hsecond := h2.2
          rw [hone,List.head?_drop] at hsecond
          exact .inr ⟨hone,hhead,hsecond⟩
        · have hone := habs hhead
          exact .inl (by omega)
      · rw [if_neg h2,List.length_append,List.length_drop] at hlen
        have hzero : cutAt uri matcher = 0 := by omega
        have hhead : uri.head? = some 47 := by
          by_contra hhead
          have hone := habs hhead
          omega
        rw [hzero,List.drop_zero] at h1
        exact ⟨fun hb => h1 ⟨hb,hhead⟩,hlt,.inl hzero⟩
  · rintro ⟨hb,hlt,hcut⟩
    rcases hcut with hzero | ⟨hone,hhead,hsecond⟩
    · have hs : Slashes (uri.take (cutAt uri matcher)) := by
        rw [hzero]
        exact fun c hc => by cases hc
      rw [restOf_slashes hu hlt hs,hzero,List.drop_zero,joinAlias,if_neg hne,if_neg fun h => hb h.1,probePath]
      by_cases hhead : uri.head? = some 47
      · rw [if_pos hhead,if_neg fun h => h.2 hhead,List.append_nil]
      · rw [if_neg hhead,if_pos ⟨hb,hhead⟩]
    · obtain ⟨r,rfl⟩ : ∃ r, uri = 47 :: r := by
        cases uri with
        | nil => cases hhead
        | cons c r => exact ⟨r,congrArg (· :: r) (Option.some.inj hhead)⟩
      have hs : Slashes ((47 :: r : Bytes).take (cutAt (47 :: r) matcher)) := by
        rw [hone]
        exact fun c hc => List.mem_singleton.mp hc
      have hr : r ≠ [] := by
        rintro rfl
        rw [hone] at hlt
        exact absurd hlt (Nat.lt_irrefl 1)
      have hfirst : r.head? ≠ some 47 := by
        rw [List.head?_eq_getElem?]
        exact hsecond
      rw [restOf_slashes hu hlt hs,hone,List.drop_succ_cons,List.drop_zero,joinAlias,if_neg hr,if_neg fun h => hb h.1,
        if_pos ⟨hb,hfirst⟩,probePath_absolute hhead,List.append_assoc]
      rfl

/-- Among the probes, which decide, those for the current URI are of the path it
is served from, letter by letter and up to repeated slashes, exactly where the
parts are joined alike. -/
theorem probed_iff (env : Env) (ctx : Ctx) (loc : Location) (hu : utf8Valid ctx.uri = true) :
    (∀ tf, findCandidate env ctx (ctx.render env (loc.core.aliasTo.getD loc.core.root)) tf.items =
      ((probes env ctx loc tf).find? (found env ctx)).map Prod.fst) ∧
    (Probed id env ctx loc ↔ ctx.uri = [] ∨ JoinedAlike env ctx loc) ∧
      (Probed squeeze env ctx loc ↔ ctx.uri = [] ∨ JoinedInPlace env ctx loc) := by
  refine ⟨findCandidate_probes env ctx loc,?_⟩
  rw [probed_iff_path,probed_iff_path]
  by_cases hne : ctx.uri = []
  · exact ⟨iff_of_true (.inl hne) (.inl hne),iff_of_true (.inl hne) (.inl hne)⟩
  · simp only [hne,false_or,id_eq]
    unfold JoinedAlike JoinedInPlace
    cases ha : loc.core.aliasTo with
    | none =>
      rw [mapPath_root ha]
      exact ⟨probePath_root_iff,squeeze_root_iff⟩
    | some t =>
      rw [mapPath_alias ha]
      exact ⟨probePath_alias_iff hu hne,squeeze_alias_iff hu⟩

/-- `location / { root html; }`, for the URI `/x`. -/
theorem probed_iff_root : Probed id .idle (getCtx (lit "/x")) (.bare (.pfx (lit "/")) .static) ∧
    Probed squeeze .idle (getCtx (lit "/x")) (.bare (.pfx (lit "/")) .static) := by
  have h := probed_iff .idle (getCtx (lit "/x")) (.bare (.pfx (lit "/")) .static) (by decide +kernel)
  exact ⟨h.2.1.mpr (.inr rfl),h.2.2.mpr (.inr (.inl rfl))⟩

/-- `location /i/ { alias /data/; try_files $uri =404; }` -/
def imagesLocation : Location := { Location.bare (.pfx (lit "/i/")) .static with core := dataCore }

def uriOrNotFound : TryFiles := ⟨[⟨[.var .uri]⟩],.status 404⟩

/-- The one file is `/data/x`. -/
def dataOnly : Env := { Env.idle with
  fileMeta := fun _ path => if path = lit "/data/x" then some ⟨false,true,false⟩ else none }

/-- `/i/x` is served from `/data/x` and probed at `/data//i/x`, so a file that
exists is reported missing. -/
theorem alias_missed :
    (¬ ∀ (env : Env) (ctx : Ctx) (loc : Location), utf8Valid ctx.uri = true → Probed id env ctx loc) ∧
    (¬ ∀ (env : Env) (ctx : Ctx) (loc : Location), utf8Valid ctx.uri = true → Probed squeeze env ctx loc) ∧
    (dataOnly.fileMeta 0 (mapPath dataOnly (getCtx (lit "/i/x")) imagesLocation.core
      (some imagesLocation.matcher))).isSome = true ∧
    (runTryFiles dataOnly (getCtx (lit "/i/x")) imagesLocation uriOrNotFound).2 = some (.fail 404) := by
  have hprobe : probePath ((getCtx (lit "/i/x")).render .idle dataAlias) (lit "/i/x") = lit "/data//i/x" := by
    decide +kernel
  have hmap : mapPath .idle (getCtx (lit "/i/x")) imagesLocation.core (some imagesLocation.matcher) = lit "/data/x" := by
    decide +kernel
  have hutf : utf8Valid (lit "/i/x") = true := by decide +kernel
  refine ⟨fun h => ?_,fun h => ?_,by decide +kernel,?_⟩
  · rcases (probed_iff_path id).mp (h .idle (getCtx (lit "/i/x")) imagesLocation hutf) with hnil | heq
    · cases hnil
    · change probePath ((getCtx (lit "/i/x")).render .idle dataAlias) (lit "/i/x") = _ at heq
      rw [hprobe,id_eq,hmap] at heq
      exact absurd heq (by decide +kernel)
  · rcases (probed_iff_path squeeze).mp (h .idle (getCtx (lit "/i/x")) imagesLocation hutf) with hnil | heq
    · cases hnil
    · change squeeze (probePath ((getCtx (lit "/i/x")).render .idle dataAlias) (lit "/i/x")) = _ at heq
      rw [hprobe,hmap] at heq
      exact absurd heq (by decide +kernel)
  · have hcandidate : findCandidate dataOnly (getCtx (lit "/i/x"))
        ((getCtx (lit "/i/x")).render dataOnly (imagesLocation.core.aliasTo.getD imagesLocation.core.root))
        uriOrNotFound.items = none := by decide +kernel
    unfold runTryFiles
    rw [hcandidate]
    rfl

end Probes

end OxiServe.Server
