import OxiServe.Lib.Numerals

/-! # Reading a request head

A strict reader of HTTP/1 request heads: lines end in CRLF and hold neither
character otherwise, the request line has three parts separated by single
blanks, and a field is a name, a colon, a blank and a value. Serialising parts
that fit this grammar and reading them back is the identity, and nothing else
reads back.
-/
namespace OxiServe.Http1Head

section Split

theorem splitOnce_eq_some {c : UInt8} {s a b : Bytes} :
    splitOnce c s = some (a,b) ↔ s = a ++ c :: b ∧ c ∉ a := by
  constructor
  · intro h
    unfold splitOnce at h
    split at h
    · rename_i i hi
      obtain ⟨hl,hc,hn⟩ := List.findIdx?_eq_some_iff_getElem.mp hi
      cases h
      have he : s[i] = c := by simpa using hc
      refine ⟨?_,?_⟩
      · rw [← he,List.getElem_cons_drop,List.take_append_drop]
      · intro hm
        obtain ⟨j,hj,hjc⟩ := List.mem_iff_getElem.mp hm
        simp only [List.length_take] at hj
        have hne := hn j (by omega)
        rw [List.getElem_take] at hjc
        simp [hjc] at hne
    · cases h
  · rintro ⟨rfl,hn⟩
    have hi : (a ++ c :: b).findIdx? (· == c) = some a.length := by
      rw [List.findIdx?_append]
      have ha : a.findIdx? (· == c) = none := by
        rw [List.findIdx?_eq_none_iff]
        intro x hx
        have : x ≠ c := fun h => hn (h ▸ hx)
        simpa using this
      rw [ha]
      simp [List.findIdx?_cons]
    simp only [splitOnce,hi]
    simp

/-- The text up to the first CRLF; a lone CR or LF before it is an error. -/
def splitCrlf : Bytes → Option (Bytes × Bytes)
  | [] => none
  | c :: r =>
    if c = 13 then
      match r with
      | 10 :: r => some ([],r)
      | _ => none
    else if c = 10 then none
    else (splitCrlf r).map (fun p => (c :: p.1,p.2))

/-- No CR and no LF. -/
def isLine (s : Bytes) : Bool := s.all (fun c => c != 13 && c != 10)

theorem isLine_cons {c : UInt8} {s : Bytes} : isLine (c :: s) = true ↔ (c ≠ 13 ∧ c ≠ 10) ∧ isLine s = true := by
  simp [isLine]

theorem isLine_append {a b : Bytes} : isLine (a ++ b) = true ↔ isLine a = true ∧ isLine b = true := by
  simp only [isLine,List.all_append,Bool.and_eq_true]

theorem isLine_decimal (n : ℕ) : isLine (decimal n) = true := by
  have h := (decimal_denotes n).1
  simp only [isDecimal,Bool.and_eq_true,List.all_eq_true] at h
  apply List.all_eq_true.mpr
  intro c hc
  have hd := h.2 c hc
  simp only [isAsciiDigit,Bool.and_eq_true,decide_eq_true_eq,UInt8.le_iff_toNat_le] at hd
  have h13 : c ≠ 13 := by
    rintro rfl
    exact absurd hd.1 (by decide)
  have h10 : c ≠ 10 := by
    rintro rfl
    exact absurd hd.1 (by decide)
  simp [h13,h10]

theorem splitCrlf_eq_some {s l r : Bytes} :
    splitCrlf s = some (l,r) ↔ s = l ++ 13 :: 10 :: r ∧ isLine l = true := by
  constructor
  · intro h
    induction s generalizing l with
    | nil => cases h
    | cons c s ih =>
      simp only [splitCrlf] at h
      split at h
      · rename_i hc
        split at h
        · cases h
          subst hc
          exact ⟨rfl,rfl⟩
        · cases h
      · rename_i hc
        split at h
        · cases h
        · rename_i hd
          obtain ⟨p,hp,he⟩ := Option.map_eq_some_iff.mp h
          obtain ⟨p1,p2⟩ := p
          cases he
          obtain ⟨hs,hl⟩ := ih hp
          exact ⟨by rw [hs]; rfl,isLine_cons.mpr ⟨⟨hc,hd⟩,hl⟩⟩
  · rintro ⟨rfl,hl⟩
    induction l with
    | nil => rfl
    | cons c l ih =>
      obtain ⟨⟨hc,hd⟩,hl⟩ := isLine_cons.mp hl
      simp only [List.cons_append,splitCrlf,if_neg hc,if_neg hd,ih hl,Option.map_some]

end Split

section Line

def requestLine (m t v : Bytes) : Bytes := m ++ 32 :: (t ++ 32 :: v)

/-- Not empty and without blanks and line ends. -/
def isPart (s : Bytes) : Bool := s ≠ [] && !s.contains 32 && isLine s

theorem isPart_iff {s : Bytes} : isPart s = true ↔ s ≠ [] ∧ (32 : UInt8) ∉ s ∧ isLine s = true := by
  simp [isPart,and_assoc]

/-- Exactly three parts. -/
def parseLine (l : Bytes) : Option (Bytes × Bytes × Bytes) :=
  match splitOnce 32 l with
  | none => none
  | some (m,r) =>
    match splitOnce 32 r with
    | none => none
    | some (t,v) => if isPart m && isPart t && isPart v then some (m,t,v) else none

theorem parseLine_eq_some {l m t v : Bytes} :
    parseLine l = some (m,t,v) ↔
      l = requestLine m t v ∧ isPart m = true ∧ isPart t = true ∧ isPart v = true := by
  constructor
  · intro h
    unfold parseLine at h
    split at h
    · cases h
    · rename_i m' r hm
      split at h
      · cases h
      · rename_i t' v' ht
        split at h
        · rename_i hp
          cases h
          simp only [Bool.and_eq_true] at hp
          obtain ⟨rfl,-⟩ := splitOnce_eq_some.mp hm
          obtain ⟨rfl,-⟩ := splitOnce_eq_some.mp ht
          exact ⟨rfl,hp.1.1,hp.1.2,hp.2⟩
        · cases h
  · rintro ⟨rfl,hm,ht,hv⟩
    have h1 : splitOnce 32 (requestLine m t v) = some (m,t ++ 32 :: v) :=
      splitOnce_eq_some.mpr ⟨rfl,(isPart_iff.mp hm).2.1⟩
    have h2 : splitOnce 32 (t ++ 32 :: v) = some (t,v) :=
      splitOnce_eq_some.mpr ⟨rfl,(isPart_iff.mp ht).2.1⟩
    simp only [parseLine,h1,h2,hm,ht,hv,Bool.and_self,↓reduceIte]

end Line

section Fields

def fieldLine (f : Bytes × Bytes) : Bytes := f.1 ++ [58,32] ++ f.2 ++ [13,10]

/-- A name without colon, blanks and line ends, and a value on one line. -/
def isField (f : Bytes × Bytes) : Bool :=
  f.1 ≠ [] && !f.1.contains 58 && !f.1.contains 32 && isLine f.1 && isLine f.2

def parseField (l : Bytes) : Option (Bytes × Bytes) :=
  match splitOnce 58 l with
  | some (n,32 :: v) => if isField (n,v) then some (n,v) else none
  | _ => none

theorem isField_name {n v : Bytes} (h : isField (n,v) = true) : (58 : UInt8) ∉ n := by
  simp only [isField,Bool.and_eq_true] at h
  simpa using h.1.1.1.2

theorem parseField_eq_some {l n v : Bytes} :
    parseField l = some (n,v) ↔ l = n ++ 58 :: 32 :: v ∧ isField (n,v) = true := by
  constructor
  · intro h
    unfold parseField at h
    split at h
    · rename_i hs
      split at h
      · rename_i hf
        cases h
        exact ⟨(splitOnce_eq_some.mp hs).1,hf⟩
      · cases h
    · cases h
  · rintro ⟨rfl,hf⟩
    have hs : splitOnce 58 (n ++ 58 :: 32 :: v) = some (n,32 :: v) :=
      splitOnce_eq_some.mpr ⟨rfl,isField_name hf⟩
    simp only [parseField,hs,hf,↓reduceIte]

/-- Field lines up to the empty line, and what follows it. -/
def parseFields : ℕ → Bytes → Option (List (Bytes × Bytes) × Bytes)
  | 0, _ => none
  | fuel + 1, s =>
    match splitCrlf s with
    | none => none
    | some (l,r) =>
      if l = [] then some ([],r)
      else
        match parseField l with
        | none => none
        | some f => (parseFields fuel r).map (fun p => (f :: p.1,p.2))

theorem parseFields_sound {fuel : ℕ} {s r : Bytes} {fs : List (Bytes × Bytes)}
    (h : parseFields fuel s = some (fs,r)) :
    s = fs.flatMap fieldLine ++ 13 :: 10 :: r ∧ ∀ f ∈ fs, isField f = true := by
  induction fuel generalizing s fs with
  | zero => cases h
  | succ fuel ih =>
    simp only [parseFields] at h
    split at h
    · cases h
    · rename_i l r' hs
      obtain ⟨hl,-⟩ := splitCrlf_eq_some.mp hs
      split at h
      · rename_i hnil
        cases h
        rw [hl,hnil]
        exact ⟨rfl,by simp⟩
      · split at h
        · cases h
        · rename_i f hf
          obtain ⟨⟨gs,r''⟩,hp,he⟩ := Option.map_eq_some_iff.mp h
          cases he
          obtain ⟨hr,hg⟩ := ih hp
          obtain ⟨n,v⟩ := f
          obtain ⟨hn,hfield⟩ := parseField_eq_some.mp hf
          refine ⟨?_,?_⟩
          · rw [hl,hn,hr]
            simp [fieldLine]
          · intro f hm
            rcases List.mem_cons.mp hm with rfl | hm
            · exact hfield
            · exact hg f hm

theorem parseFields_complete {fuel : ℕ} {r : Bytes} {fs : List (Bytes × Bytes)} (hf : fs.length < fuel)
    (h : ∀ f ∈ fs, isField f = true) :
    parseFields fuel (fs.flatMap fieldLine ++ 13 :: 10 :: r) = some (fs,r) := by
  induction fs generalizing fuel with
  | nil =>
    cases fuel with
    | zero => simp at hf
    | succ fuel =>
      have hs : splitCrlf (13 :: 10 :: r) = some ([],r) := splitCrlf_eq_some.mpr ⟨rfl,rfl⟩
      simp only [List.flatMap_nil,List.nil_append,parseFields,hs,↓reduceIte]
  | cons f fs ih =>
    cases fuel with
    | zero => simp at hf
    | succ fuel =>
      obtain ⟨n,v⟩ := f
      have hfield := h (n,v) (by simp)
      have hparts := hfield
      simp only [isField,Bool.and_eq_true] at hparts
      have hline : isLine (n ++ 58 :: 32 :: v) = true := by
        rw [isLine_append]
        refine ⟨hparts.1.2,?_⟩
        rw [isLine_cons,isLine_cons]
        exact ⟨by decide,by decide,hparts.2⟩
      have hs : splitCrlf ((n ++ 58 :: 32 :: v) ++ 13 :: 10 :: (fs.flatMap fieldLine ++ 13 :: 10 :: r)) =
          some (n ++ 58 :: 32 :: v,fs.flatMap fieldLine ++ 13 :: 10 :: r) :=
        splitCrlf_eq_some.mpr ⟨rfl,hline⟩
      have he : ((n,v) :: fs).flatMap fieldLine ++ 13 :: 10 :: r =
          (n ++ 58 :: 32 :: v) ++ 13 :: 10 :: (fs.flatMap fieldLine ++ 13 :: 10 :: r) := by
        simp [fieldLine]
      have hp : parseField (n ++ 58 :: 32 :: v) = some (n,v) := parseField_eq_some.mpr ⟨rfl,hfield⟩
      have hi := @ih fuel (by simpa using hf) (fun f hm => h f (List.mem_cons_of_mem _ hm))
      have hne : n ++ 58 :: 32 :: v ≠ [] := by simp
      simp only [he,parseFields,hs,if_neg hne,hp,hi,Option.map_some]

end Fields

/-- The three parts of the request line, the fields, and what is left over. -/
def parse (s : Bytes) : Option ((Bytes × Bytes × Bytes) × List (Bytes × Bytes) × Bytes) :=
  match splitCrlf s with
  | none => none
  | some (l,r) =>
    match parseLine l, parseFields (r.length + 1) r with
    | some p, some q => some (p,q)
    | _, _ => none

/-- The head as it is written. -/
def serialise (m t v : Bytes) (fs : List (Bytes × Bytes)) : Bytes :=
  requestLine m t v ++ 13 :: 10 :: (fs.flatMap fieldLine ++ [13,10])

theorem length_le_flatMap_fieldLine (fs : List (Bytes × Bytes)) :
    fs.length ≤ (fs.flatMap fieldLine).length := by
  induction fs with
  | nil => exact Nat.zero_le _
  | cons f fs ih =>
    simp only [List.flatMap_cons,List.length_append,fieldLine,List.length_cons,List.length_nil]
    omega

theorem parse_sound {s r m t v : Bytes} {fs : List (Bytes × Bytes)} (h : parse s = some ((m,t,v),fs,r)) :
    s = requestLine m t v ++ 13 :: 10 :: (fs.flatMap fieldLine ++ 13 :: 10 :: r) ∧
      isPart m = true ∧ isPart t = true ∧ isPart v = true ∧ ∀ f ∈ fs, isField f = true := by
  unfold parse at h
  split at h
  · cases h
  · rename_i hs
    split at h
    · rename_i hl hf
      cases h
      obtain ⟨hline,hm,ht,hv⟩ := parseLine_eq_some.mp hl
      obtain ⟨hrest,hfs⟩ := parseFields_sound hf
      exact ⟨by rw [(splitCrlf_eq_some.mp hs).1,hline,hrest],hm,ht,hv,hfs⟩
    · cases h

theorem parse_serialise {m t v : Bytes} {fs : List (Bytes × Bytes)} (hm : isPart m = true)
    (ht : isPart t = true) (hv : isPart v = true) (hf : ∀ f ∈ fs, isField f = true) :
    parse (serialise m t v fs) = some ((m,t,v),fs,[]) := by
  have hl : isLine (requestLine m t v) = true := by
    simp only [requestLine,isLine_append,isLine_cons]
    exact ⟨(isPart_iff.mp hm).2.2,by decide,(isPart_iff.mp ht).2.2,by decide,(isPart_iff.mp hv).2.2⟩
  have hs : splitCrlf (serialise m t v fs) = some (requestLine m t v,fs.flatMap fieldLine ++ [13,10]) :=
    splitCrlf_eq_some.mpr ⟨rfl,hl⟩
  have hp := parseLine_eq_some.mpr ⟨rfl,hm,ht,hv⟩
  have hlen := length_le_flatMap_fieldLine fs
  have hfs : parseFields ((fs.flatMap fieldLine ++ [13,10]).length + 1) (fs.flatMap fieldLine ++ [13,10]) =
      some (fs,[]) :=
    parseFields_complete (by simp only [List.length_append,List.length_cons,List.length_nil]; omega) hf
  simp only [parse,hs,hp,hfs]

end OxiServe.Http1Head
