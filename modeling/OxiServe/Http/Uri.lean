import OxiServe.Lib.Bytes

/-! # URI decoding and path normalisation

`normalize` percent-decodes, collapses duplicate slashes and resolves `.` and
`..`. A path that climbs above the root is an error.
-/
namespace OxiServe.Uri

/-- Splits a request target at its first `?`. -/
def splitQuery (target : Bytes) : Bytes × Bytes :=
  match target.findIdx? (· == 63) with
  | some i => (target.take i,target.drop (i + 1))
  | none => (target,[])

inductive UriError
  | invalid
  | notAbsolute
deriving DecidableEq, Repr

def hex (c : UInt8) : Option UInt8 :=
  if 48 ≤ c && c ≤ 57 then some (c - 48)
  else if 97 ≤ c && c ≤ 102 then some (c - 97 + 10)
  else if 65 ≤ c && c ≤ 70 then some (c - 65 + 10)
  else none

/-- The scan of `is_already_normal`, carrying the preceding byte. -/
def alreadyNormalFrom : UInt8 → Bytes → Bool
  | _, [] => true
  | prev, c :: r =>
    if c == 37 then false
    else if c == 47 && prev == 47 then false
    else if c == 46 && prev == 47 then false
    else if c == 0 then false
    else alreadyNormalFrom c r

def isAlreadyNormal : Bytes → Bool
  | [] => true
  | c :: r => alreadyNormalFrom c r

/-- The output of the loop and the segment start offsets within it, last first. -/
structure NormState where
  starts : List ℕ
  out : Bytes
deriving DecidableEq, Repr

/-- One collected segment is dropped, pops, or is appended with its slash. -/
def closeSegment (seg : Bytes) (st : NormState) : Except UriError NormState :=
  if seg = [] ∨ seg = lit "." then .ok st
  else if seg = lit ".." then
    match st.starts with
    | [] => .error .invalid
    | last :: starts => .ok ⟨starts,st.out.take last⟩
  else .ok ⟨st.out.length :: st.starts,st.out ++ seg ++ [47]⟩

/-- The segment loop; `seg` is the decoded part of the segment being collected. -/
def normalizeLoop : Bytes → Bytes → NormState → Except UriError NormState
  | [], seg, st => closeSegment seg st
  | c :: r, seg, st =>
    if c = 47 then
      match closeSegment seg st with
      | .ok st => normalizeLoop r [] st
      | .error e => .error e
    else if c = 37 then
      match r with
      | h :: l :: r =>
        match hex h, hex l with
        | some h, some l =>
          if (h <<< 4) ||| l = 0 ∨ (h <<< 4) ||| l = 47 then .error .invalid
          else normalizeLoop r (seg ++ [(h <<< 4) ||| l]) st
        | _, _ => .error .invalid
      | _ => .error .invalid
    else if c = 0 then .error .invalid
    else normalizeLoop r (seg ++ [c]) st

/-- Percent-decodes and normalises an absolute request path. -/
def normalize (path : Bytes) : Except UriError Bytes :=
  if path.head? ≠ some 47 then .error .notAbsolute
  else if isAlreadyNormal path then .ok path
  else
    match normalizeLoop path.tail [] ⟨[],[47]⟩ with
    | .error e => .error e
    | .ok st =>
      let trailingSlash := decide (1 < path.length) && path.getLast? == some 47
      let out := if !trailingSlash && decide (1 < st.out.length) then st.out.dropLast else st.out
      if utf8Valid out then .ok out else .error .invalid

def hexDigits : Bytes := lit "0123456789ABCDEF"

/-- The bytes `encode_path` leaves as they are. -/
def isPathSafe (c : UInt8) : Bool :=
  isAsciiAlphanumeric c || (lit "-_.~/@:+$,;=").contains c

/-- Percent-encodes a path for a `Location` header or an autoindex link. -/
def encodePath (s : Bytes) : Bytes :=
  s.flatMap (fun c =>
    if isPathSafe c then [c]
    else [37,hexDigits.getD (c >>> 4).toNat 0,hexDigits.getD (c &&& 0xf).toNat 0])

/-- Escapes text for inclusion in HTML. -/
def escapeHtml (s : Bytes) : Bytes :=
  s.flatMap (fun c =>
    if c == 38 then lit "&amp;"
    else if c == 60 then lit "&lt;"
    else if c == 62 then lit "&gt;"
    else if c == 34 then lit "&quot;"
    else if c == 39 then lit "&#39;"
    else [c])

/-- Finds a named parameter in a query string. -/
def queryParam (query name : Bytes) : Option Bytes :=
  ((split 38 query).map (fun pair => (splitOnce 61 pair).getD (pair,[]))).find? (fun p => p.1 == name)
    |>.map Prod.snd

example : normalize (lit "/a/./b/../c%20d") = .ok (lit "/a/c d") := by decide +kernel

end OxiServe.Uri
