import OxiServe.Config.Ast
import Mathlib.Data.List.Lex
import Mathlib.Data.Finset.Basic

/-! # Files and what they include

The files of a machine are a parameter: what a path stands for, what is in a file and
what a pattern matches. A file is parsed with the set of the files open around it; what
it includes is parsed one level deeper.
-/
namespace OxiServe.Config.Ast

section Paths

/-- A part of a path. -/
inductive Component
  | rootDir | curDir | parentDir
  | normal (name : Bytes)
deriving DecidableEq, Repr

def components (p : Bytes) : List Component :=
  let body := (split 47 p).filterMap (fun s =>
    if s = [] || s == [46] then none else if s == [46,46] then some .parentDir else some (.normal s))
  if p.head? = some 47 then .rootDir :: body
  else if (split 47 p).head? = some [46] then .curDir :: body
  else body

/-- Parts compare by their kind first. -/
def Component.rank : Component → List ℕ
  | rootDir => [0]
  | curDir => [1]
  | parentDir => [2]
  | normal name => 3 :: name.map UInt8.toNat

/-- Paths compare part by part. -/
def pathLe (p q : Bytes) : Bool := decide ((components p).map Component.rank ≤ (components q).map Component.rank)

def isAbsolute (p : Bytes) : Bool := p.head? == some 47

def join (base p : Bytes) : Bytes :=
  if isAbsolute p then p
  else if base.getLast?.any (· != 47) then base ++ 47 :: p
  else base ++ p

/-- What is in front of the last separator, and what is behind it. -/
def popBack (body : Bytes) : Bytes × Bytes :=
  (((body.reverse.dropWhile (· != 47)).drop 1).reverse,(body.reverse.takeWhile (· != 47)).reverse)

/-- Leaves out empty parts and `.` at the end. -/
def trimRight : ℕ → Bytes → Bytes
  | 0, body => body
  | n + 1, body =>
    if body = [] then []
    else if (popBack body).2 = [] || (popBack body).2 == [46] then trimRight n (popBack body).1
    else body

/-- The path without its last part, when that is not the root. -/
def parent (p : Bytes) : Option Bytes :=
  let start := if p.head? = some 47 || (split 47 p).head? = some [46] then 1 else 0
  let body := trimRight p.length (p.drop start)
  if body = [] then (if p.take start = [46] then some [] else none)
  else some (p.take start ++ trimRight p.length (popBack body).1)

end Paths

/-- What the file system says. -/
structure World where
  canonicalize : Bytes → Option Bytes
  readToString : Bytes → Except Bytes Bytes
  glob : Bytes → Except Bytes (List Bytes)

def maxIncludeDepth : ℕ := 32

/-- The files open around a place. Paths are the same when their parts are. -/
abbrev Seen := Finset (List Component)

namespace World
variable (w : World)

/-- What a path is known by. -/
def canon (path : Bytes) : List Component := components ((w.canonicalize path).getD path)

/-- The paths that an `include` in a directory stands for, in order. -/
def includePaths (base : Bytes) (d : Directive) : Except ParseError (List Bytes) :=
  match d.args with
  | [pat] =>
    let abs := if isAbsolute pat then pat else join base pat
    let patStr := utf8Lossy abs
    if patStr.any (fun c => c == 42 || c == 63 || c == 91) then
      match w.glob patStr with
      | .error e => .error ⟨lit "bad include pattern: " ++ e,d.line,d.file⟩
      | .ok ms => .ok (ms.mergeSort pathLe)
    else .ok [abs]
  | _ => .error ⟨lit "invalid number of arguments in \"include\" directive",d.line,d.file⟩

variable {w}

/-- The matches of a pattern come in the order of paths, each as often as it is matched. -/
theorem includePaths_glob {base : Bytes} {d : Directive} {ps : List Bytes} (h : w.includePaths base d = .ok ps) :
    ps.Pairwise (fun p q => pathLe p q = true) ∧ ∃ pat, d.args = [pat] ∧
      (ps = [join base pat] ∨ ∃ ms, w.glob (utf8Lossy (join base pat)) = .ok ms ∧ ps.Perm ms) := by
  unfold includePaths at h
  cases ha : d.args with
  | nil =>
    rw [ha] at h
    cases h
  | cons pat rest =>
    cases rest with
    | cons _ _ =>
      rw [ha] at h
      cases h
    | nil =>
      have habs : (if isAbsolute pat then pat else join base pat) = join base pat := by
        unfold join
        split
        · rfl
        · rfl
      rw [ha] at h
      dsimp only at h
      rw [habs] at h
      cases hg : (utf8Lossy (join base pat)).any (fun c => c == 42 || c == 63 || c == 91) with
      | false =>
        rw [hg] at h
        cases h
        exact ⟨List.pairwise_singleton _ _,pat,rfl,.inl rfl⟩
      | true =>
        rw [hg,if_pos rfl] at h
        cases hm : w.glob (utf8Lossy (join base pat)) with
        | error e =>
          rw [hm] at h
          cases h
        | ok ms =>
          rw [hm] at h
          cases h
          refine ⟨List.pairwise_mergeSort ?_ ?_ ms,pat,rfl,.inr ⟨ms,hm,List.mergeSort_perm ms pathLe⟩⟩
          · intro a b c hab hbc
            exact decide_eq_true (le_trans (of_decide_eq_true hab) (of_decide_eq_true hbc))
          · intro a b
            unfold pathLe
            simpa using le_total ((components a).map Component.rank) ((components b).map Component.rank)

end World

/-- A missing file is reported at the `include`. -/
def atInclude (d : Directive) (e : ParseError) : ParseError :=
  if e.line == 0 && (lit "cannot read").isPrefixOf e.msg then ⟨e.msg ++ lit " (included here)",d.line,d.file⟩ else e

/-- The directives of some files in order. -/
def parseAll (parse : Bytes → Seen → Except ParseError (List Directive × Seen)) (d : Directive) :
    List Bytes → Seen → Except ParseError (List Directive × Seen)
  | [], seen => .ok ([],seen)
  | p :: ps, seen =>
    match parse p seen with
    | .error e => .error (atInclude d e)
    | .ok (sub,seen) =>
      match parseAll parse d ps seen with
      | .error e => .error e
      | .ok (more,seen) => .ok (sub ++ more,seen)

namespace World
variable (w : World)

def expandInclude (parse : Bytes → Seen → Except ParseError (List Directive × Seen)) (base : Bytes) : Expand Seen :=
  fun d seen =>
    match w.includePaths base d with
    | .error e => .error e
    | .ok ps => parseAll parse d ps seen

/-- The directory that the includes of a file go by. -/
def base (path : Bytes) : Bytes := (parent path).getD [46]

def parseFileInner (path : Bytes) (seen : Seen) (depth : ℕ) : Except ParseError (List Directive × Seen) :=
  if _h : depth > maxIncludeDepth then .error ⟨lit "include nesting too deep (cycle?)",0,path⟩
  else if w.canon path ∈ seen then .error ⟨lit "recursive include of " ++ utf8Lossy path,0,path⟩
  else
    match w.readToString path with
    | .error e => .error ⟨lit "cannot read config: " ++ e,0,path⟩
    | .ok src =>
      match parseSource src path (w.expandInclude (fun p seen => parseFileInner p seen (depth + 1)) (base path))
          (insert (w.canon path) seen) with
      | .error e => .error e
      | .ok (out,seen) => .ok (out,seen.erase (w.canon path))
termination_by maxIncludeDepth + 1 - depth

def parseFile (path : Bytes) : Except ParseError (List Directive) := (w.parseFileInner path ∅ 0).map Prod.fst

end World

end OxiServe.Config.Ast
