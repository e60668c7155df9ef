import OxiServe.Http.Canonical

/-! # Normalisation as a stack of segments

The segments of a path are decoded one by one and pushed on a stack, from which `..` takes
the last. The loop of `normalize` does that on offsets into its output, and the scan in front
of it lets through what the loop would leave as it is.
-/
namespace OxiServe.Uri

section Digits
variable {c h l x y : UInt8}

/-- The value of a hexadecimal digit. -/
def digitValue (c : UInt8) : Option ℕ :=
  (lit "0123456789abcdef").idxOf? c <|> (lit "0123456789ABCDEF").idxOf? c

theorem hex_eq (c : UInt8) : (hex c).map UInt8.toNat = digitValue c := by
  have hlower : lit "0123456789abcdef" = [48,49,50,51,52,53,54,55,56,57,97,98,99,100,101,102] := by decide +kernel
  have hupper : lit "0123456789ABCDEF" = [48,49,50,51,52,53,54,55,56,57,65,66,67,68,69,70] := by decide +kernel
  have hall := forall_byte (fun c => (hex c).map UInt8.toNat ==
    ([48,49,50,51,52,53,54,55,56,57,97,98,99,100,101,102].idxOf? c <|>
      [48,49,50,51,52,53,54,55,56,57,65,66,67,68,69,70].idxOf? c)) (by decide +kernel) c
  rw [digitValue,hlower,hupper]
  exact eq_of_beq hall

example : (hex 70).map UInt8.toNat = digitValue 70 := by decide +kernel

theorem hex_lt (h : hex c = some x) : x.toNat < 16 := by
  have hall := forall_byte (fun c => (hex c).all (fun x => x.toNat < 16)) (by decide +kernel) c
  rw [h] at hall
  exact of_decide_eq_true hall

/-- Two digits make one byte. -/
theorem hex_pair (hh : hex h = some x) (hl : hex l = some y) :
    (x <<< 4) ||| y = UInt8.ofNat (16 * x.toNat + y.toNat) := by
  have hall := forall_byte
    (fun x => (List.range 16).all (fun n => 16 ≤ x.toNat || ((x <<< 4) ||| n.toUInt8) == UInt8.ofNat (16 * x.toNat + n)))
    (by decide +kernel) x
  have hp := List.all_eq_true.mp hall y.toNat (List.mem_range.mpr (hex_lt hl))
  rw [Nat.toUInt8_eq,UInt8.ofNat_toNat,Bool.or_eq_true,decide_eq_true_eq,beq_iff_eq] at hp
  exact hp.resolve_left (Nat.not_le.mpr (hex_lt hh))

theorem ne_slash_of_hex (h : hex c = some x) : c ≠ 47 := by
  rintro rfl
  have hn : hex 47 = none := rfl
  rw [hn] at h
  cases h

end Digits

section Stack

/-- None when a `%` is not followed by two hexadecimal digits. -/
def unescaped : Bytes → Option Bytes
  | [] => some []
  | c :: r =>
    if c = 37 then
      match r with
      | h :: l :: r =>
        match digitValue h, digitValue l with
        | some h, some l => (unescaped r).map (UInt8.ofNat (16 * h + l) :: ·)
        | _, _ => none
      | _ => none
    else (unescaped r).map (c :: ·)

/-- What is between the slashes of an absolute path, and behind the last. -/
def rawSegments (path : Bytes) : List Bytes := (split 47 path).tail

/-- Pushes a decoded segment on a stack, the last one first. -/
def pushSegment (stack : List Bytes) (seg : Bytes) : Option (List Bytes) :=
  if seg = [] ∨ seg = lit "." then some stack
  else if seg = lit ".." then
    match stack with
    | [] => none
    | _ :: stack => some stack
  else some (seg :: stack)

/-- The path of some segments. -/
def joinPath (segs : List Bytes) (slash : Bool) : Bytes :=
  if segs = [] then [47] else segs.flatMap (fun s => 47 :: s) ++ if slash then [47] else []

def endsInSlash (path : Bytes) : Bool := path.getLast? == some 47

/-- The path `out` is what the segments of `path` come to. -/
def Resolves (path out : Bytes) : Prop :=
  ∃ segs stack, (rawSegments path).mapM unescaped = some segs ∧ (∀ s ∈ segs, 0 ∉ s ∧ 47 ∉ s) ∧
    segs.foldlM pushSegment [] = some stack ∧ out = joinPath stack.reverse (endsInSlash path) ∧ utf8Valid out = true

/-- A `..` comes when everything before it has been popped. -/
def Climbs (segs : List Bytes) : Prop :=
  ∃ before rest, segs = before ++ lit ".." :: rest ∧ before.foldlM pushSegment [] = some []

/-- What is wrong with a path that is not accepted. -/
inductive Faulty (path : Bytes) : Prop
  | escape {seg : Bytes} (h : seg ∈ rawSegments path) (hd : unescaped seg = none)
  | nul {seg s : Bytes} (h : seg ∈ rawSegments path) (hd : unescaped seg = some s) (h0 : 0 ∈ s)
  | slash {seg s : Bytes} (h : seg ∈ rawSegments path) (hd : unescaped seg = some s) (hs : 47 ∈ s)
  | climbs {segs : List Bytes} (h : (rawSegments path).mapM unescaped = some segs) (hc : Climbs segs)
  | utf8 {segs stack : List Bytes} (h : (rawSegments path).mapM unescaped = some segs)
    (hp : segs.foldlM pushSegment [] = some stack)
    (hu : utf8Valid (joinPath stack.reverse (endsInSlash path)) = false)

/-- The segments of a path as it is, without the empty text behind a last slash. -/
def ownSegments (path : Bytes) : List Bytes :=
  if (rawSegments path).getLast? = some [] then (rawSegments path).dropLast else rawSegments path

/-- `normalize` without the scan in front of the loop. -/
def normalizeSlowly (path : Bytes) : Except UriError Bytes :=
  match normalizeLoop path.tail [] ⟨[],[47]⟩ with
  | .error e => .error e
  | .ok st =>
    let trailingSlash := decide (1 < path.length) && path.getLast? == some 47
    let out := if !trailingSlash && decide (1 < st.out.length) then st.out.dropLast else st.out
    if utf8Valid out then .ok out else .error .invalid

end Stack

section Escapes
variable {c h l x y : UInt8} {r s : Bytes}

theorem digitValue_of_hex (h : hex c = some x) : digitValue c = some x.toNat := by rw [← hex_eq,h,Option.map_some]

theorem digitValue_of_none (h : hex c = none) : digitValue c = none := by rw [← hex_eq,h,Option.map_none]

theorem unescaped_plain (hc : c ≠ 37) : unescaped (c :: s) = (unescaped s).map (c :: ·) := by
  rw [unescaped.eq_def]
  exact if_neg hc

theorem unescaped_escape : unescaped (37 :: h :: l :: s) = match digitValue h, digitValue l with
    | some h, some l => (unescaped s).map (UInt8.ofNat (16 * h + l) :: ·)
    | _, _ => none := by
  rw [unescaped.eq_def]
  exact if_pos rfl

/-- A text without slashes and NUL bytes when its escapes are resolved. -/
def decodeSegment (seg : Bytes) : Option Bytes := (unescaped seg).filter (fun s => decide (0 ∉ s ∧ 47 ∉ s))

theorem decodeSegment_nil : decodeSegment [] = some [] := rfl

theorem filter_cons {o : Option Bytes} (h0 : c ≠ 0) (hs : c ≠ 47) :
    (o.map (c :: ·)).filter (fun s => decide (0 ∉ s ∧ 47 ∉ s)) =
      (o.filter (fun s => decide (0 ∉ s ∧ 47 ∉ s))).map (c :: ·) := by
  cases o with
  | none => rfl
  | some t => simp [Option.filter,h0.symm,hs.symm]

theorem filter_cons_none {o : Option Bytes} (h : c = 0 ∨ c = 47) :
    (o.map (c :: ·)).filter (fun s => decide (0 ∉ s ∧ 47 ∉ s)) = none := by
  cases o with
  | none => rfl
  | some t =>
    rcases h with rfl | rfl
    · simp [Option.filter]
    · simp [Option.filter]

theorem decodeSegment_plain (hc : c ≠ 37) (h0 : c ≠ 0) (hs : c ≠ 47) :
    decodeSegment (c :: s) = (decodeSegment s).map (c :: ·) := by
  unfold decodeSegment
  rw [unescaped_plain hc,filter_cons h0 hs]

theorem decodeSegment_nul : decodeSegment (0 :: s) = none := by
  unfold decodeSegment
  rw [unescaped_plain (by decide),filter_cons_none (.inl rfl)]

theorem decodeSegment_escape (hh : hex h = some x) (hl : hex l = some y) (h0 : (x <<< 4) ||| y ≠ 0)
    (hs : (x <<< 4) ||| y ≠ 47) :
    decodeSegment (37 :: h :: l :: s) = (decodeSegment s).map (((x <<< 4) ||| y) :: ·) := by
  unfold decodeSegment
  rw [unescaped_escape,digitValue_of_hex hh,digitValue_of_hex hl]
  dsimp only
  rw [← hex_pair hh hl,filter_cons h0 hs]

theorem decodeSegment_smuggled (hh : hex h = some x) (hl : hex l = some y)
    (hb : (x <<< 4) ||| y = 0 ∨ (x <<< 4) ||| y = 47) : decodeSegment (37 :: h :: l :: s) = none := by
  unfold decodeSegment
  rw [unescaped_escape,digitValue_of_hex hh,digitValue_of_hex hl]
  dsimp only
  rw [← hex_pair hh hl,filter_cons_none hb]

theorem decodeSegment_malformed (hb : ∀ x y, hex h = some x → hex l = some y → False) :
    decodeSegment (37 :: h :: l :: s) = none := by
  unfold decodeSegment
  rw [unescaped_escape]
  cases hh : hex h with
  | none =>
    rw [digitValue_of_none hh]
    rfl
  | some x =>
    cases hl : hex l with
    | none =>
      rw [digitValue_of_hex hh,digitValue_of_none hl]
      rfl
    | some y => exact (hb x y hh hl).elim

theorem decodeSegment_cut (hr : r.length < 2) : decodeSegment (37 :: r) = none := by
  match r,hr with
  | [],_ => rfl
  | [_],_ => rfl

end Escapes

section Pieces
variable {c : UInt8} {r x : Bytes} {xs : List Bytes}

theorem split_slash : split 47 (47 :: r) = [] :: split 47 r := by
  rw [split,List.splitOn_cons_eq_if_modifyHead]
  rfl

theorem split_cons (hc : c ≠ 47) : split 47 (c :: r) = (split 47 r).modifyHead (c :: ·) := by
  rw [split,List.splitOn_cons_eq_if_modifyHead,if_neg (by simpa using hc)]
  rfl

theorem split_cons' (r : Bytes) : ∃ x xs, split 47 r = x :: xs := List.exists_cons_of_ne_nil (List.splitOn_ne_nil 47 r)

/-- A text begins with its first piece. -/
theorem prefix_of_split (h : split 47 r = x :: xs) : x <+: r := by
  induction r generalizing x xs with
  | nil =>
    cases h
    exact List.nil_prefix
  | cons c r ih =>
    by_cases hc : c = 47
    · subst hc
      rw [split_slash] at h
      cases h
      exact List.nil_prefix
    · obtain ⟨y,ys,hy⟩ := split_cons' r
      rw [split_cons hc,hy] at h
      cases h
      exact (List.prefix_cons_inj c).mpr (ih hy)

theorem mapM_modifyHead {l : List Bytes} {f g : Bytes → Bytes}
    (h : ∀ x, decodeSegment (f x) = (decodeSegment x).map g) :
    (l.modifyHead f).mapM decodeSegment = (l.mapM decodeSegment).map (List.modifyHead g) := by
  cases l with
  | nil => rfl
  | cons x xs =>
    simp only [List.modifyHead_cons,List.mapM_cons,h]
    cases decodeSegment x with
    | none => rfl
    | some y =>
      cases hys : xs.mapM decodeSegment with
      | none => rfl
      | some ys => rfl

theorem mapM_none (h : decodeSegment x = none) : (x :: xs).mapM decodeSegment = none := by
  rw [List.mapM_cons,h]
  rfl

/-- Nothing in front of the next slash is an escape when the next two bytes are not. -/
theorem mapM_malformed (hr : ∀ h l t, r = h :: l :: t → ∀ x y, hex h = some x → hex l = some y → False) :
    (split 47 (37 :: r)).mapM decodeSegment = none := by
  obtain ⟨x,xs,hx⟩ := split_cons' r
  obtain ⟨t,ht⟩ := prefix_of_split hx
  rw [split_cons (by decide),hx]
  refine mapM_none ?_
  match x,ht with
  | [],_ => exact decodeSegment_cut (by decide)
  | [a],_ => exact decodeSegment_cut (by simp)
  | a :: b :: x,ht => exact decodeSegment_malformed (hr a b (x ++ t) ht.symm)

end Pieces

section Loop
variable {seg : Bytes} {stack : List Bytes}

/-- The output of the loop for a stack of segments. -/
def outOf : List Bytes → Bytes
  | [] => [47]
  | s :: rest => outOf rest ++ s ++ [47]

def startsOf : List Bytes → List ℕ
  | [] => []
  | _ :: rest => (outOf rest).length :: startsOf rest

def stateOf (stack : List Bytes) : NormState := ⟨startsOf stack,outOf stack⟩

def settle (stack : Option (List Bytes)) : Except UriError NormState :=
  match stack with
  | some stack => .ok (stateOf stack)
  | none => .error .invalid

theorem closeSegment_stateOf (seg : Bytes) (stack : List Bytes) :
    closeSegment seg (stateOf stack) = settle (pushSegment stack seg) := by
  unfold closeSegment pushSegment
  split_ifs with h1 h2
  · rfl
  · cases stack with
    | nil => rfl
    | cons s rest =>
      simp [stateOf,startsOf,outOf,settle]
  · rfl

/-- The rest of a path with what has been collected of its first segment. -/
def pushRest (r seg : Bytes) (stack : List Bytes) : Option (List Bytes) :=
  ((split 47 r).mapM decodeSegment).bind (fun segs => (segs.modifyHead (seg ++ ·)).foldlM pushSegment stack)

theorem pushRest_nil : pushRest [] seg stack = pushSegment stack seg := by
  unfold pushRest
  rw [split,List.splitOn_nil,List.mapM_cons,decodeSegment_nil]
  simp [List.mapM_nil]

theorem pushRest_slash (r : Bytes) :
    pushRest (47 :: r) seg stack = (pushSegment stack seg).bind (fun stack => pushRest r [] stack) := by
  unfold pushRest
  rw [split_slash,List.mapM_cons,decodeSegment_nil]
  obtain ⟨x,xs,hx⟩ := split_cons' r
  rw [hx]
  cases h : (x :: xs).mapM decodeSegment with
  | none =>
    cases pushSegment stack seg <;> rfl
  | some ys =>
    cases ys with
    | nil => simp
    | cons y ys => simp

theorem modifyHead_append (seg : Bytes) (c : UInt8) (l : List Bytes) :
    (l.modifyHead (c :: ·)).modifyHead (seg ++ ·) = l.modifyHead ((seg ++ [c]) ++ ·) := by
  cases l with
  | nil => rfl
  | cons x xs => simp

theorem pushRest_byte {r t : Bytes} {c : UInt8} {f : Bytes → Bytes} (hs : split 47 t = (split 47 r).modifyHead f)
    (hf : ∀ x, decodeSegment (f x) = (decodeSegment x).map (c :: ·)) :
    pushRest t seg stack = pushRest r (seg ++ [c]) stack := by
  unfold pushRest
  rw [hs,mapM_modifyHead hf]
  cases (split 47 r).mapM decodeSegment with
  | none => rfl
  | some l => exact congrArg (List.foldlM pushSegment stack) (modifyHead_append seg c l)

theorem pushRest_none {t : Bytes} (h : (split 47 t).mapM decodeSegment = none) : pushRest t seg stack = none := by
  rw [pushRest,h]
  rfl

theorem split_escape {h l : UInt8} (r : Bytes) (hh : h ≠ 47) (hl : l ≠ 47) :
    split 47 (37 :: h :: l :: r) = (split 47 r).modifyHead (fun x => 37 :: h :: l :: x) := by
  obtain ⟨x,xs,hx⟩ := split_cons' r
  rw [split_cons (by decide),split_cons hh,split_cons hl,hx]
  rfl

/-- The loop keeps the stack in its output. -/
theorem normalizeLoop_stateOf (r seg : Bytes) (stack : List Bytes) :
    normalizeLoop r seg (stateOf stack) = settle (pushRest r seg stack) := by
  generalize hst : stateOf stack = st
  fun_induction normalizeLoop r seg st generalizing stack with
  | case1 seg st =>
    subst hst
    rw [pushRest_nil,closeSegment_stateOf]
  | case2 r seg st st₁ hc ih =>
    subst hst
    rw [closeSegment_stateOf] at hc
    rw [pushRest_slash]
    cases hp : pushSegment stack seg with
    | none =>
      rw [hp] at hc
      cases hc
    | some stack' =>
      rw [hp] at hc
      cases hc
      exact ih stack' rfl
  | case3 r seg st e hc =>
    subst hst
    rw [closeSegment_stateOf] at hc
    rw [pushRest_slash]
    cases hp : pushSegment stack seg with
    | none =>
      rw [hp] at hc
      cases hc
      rfl
    | some stack' =>
      rw [hp] at hc
      cases hc
  | case4 seg st h l r x y hl hh hb =>
    obtain ⟨p,ps,hp⟩ := split_cons' r
    have hn : (split 47 (37 :: h :: l :: r)).mapM decodeSegment = none := by
      rw [split_escape r (ne_slash_of_hex hh) (ne_slash_of_hex hl),hp]
      exact mapM_none (decodeSegment_smuggled hh hl hb)
    rw [pushRest_none hn]
    rfl
  | case5 seg st h l r x y hl hh hb _ ih =>
    rw [not_or] at hb
    rw [pushRest_byte (split_escape r (ne_slash_of_hex hh) (ne_slash_of_hex hl))
      (fun s => decodeSegment_escape hh hl hb.1 hb.2)]
    exact ih stack hst
  | case6 seg st h l r hb =>
    have hn : (split 47 (37 :: h :: l :: r)).mapM decodeSegment = none := by
      refine mapM_malformed (fun h' l' t ht => ?_)
      cases ht
      exact hb
    rw [pushRest_none hn]
    rfl
  | case7 r seg st hr =>
    rw [pushRest_none (mapM_malformed (fun h l t ht => (hr h l t ht).elim))]
    rfl
  | case8 r seg st =>
    obtain ⟨p,ps,hp⟩ := split_cons' r
    have hn : (split 47 (0 :: r)).mapM decodeSegment = none := by
      rw [split_cons (by decide),hp]
      exact mapM_none decodeSegment_nul
    rw [pushRest_none hn]
    rfl
  | case9 c r seg st hs hp h0 ih =>
    rw [pushRest_byte (split_cons hs) (fun s => decodeSegment_plain hp h0 hs)]
    exact ih stack hst

end Loop

section Output
variable {segs stack : List Bytes} {slash : Bool}

theorem outOf_eq (stack : List Bytes) : outOf stack = stack.reverse.flatMap (fun s => 47 :: s) ++ [47] := by
  induction stack with
  | nil => rfl
  | cons s rest ih => simp [outOf,ih]

theorem length_outOf (s : Bytes) (rest : List Bytes) : 1 < (outOf (s :: rest)).length := by
  simp only [outOf,outOf_eq,List.length_append,List.length_singleton]
  omega

/-- Without the slash at the end when the path had none. -/
theorem joinPath_outOf (stack : List Bytes) (trailing : Bool) :
    (if !trailing && decide (1 < (outOf stack).length) then (outOf stack).dropLast else outOf stack) =
      joinPath stack.reverse trailing := by
  cases stack with
  | nil => cases trailing <;> rfl
  | cons s rest =>
    have hlen := length_outOf s rest
    have hne : (s :: rest).reverse ≠ [] := by simp
    unfold joinPath
    rw [if_neg hne,decide_eq_true hlen]
    cases trailing with
    | true =>
      rw [outOf_eq]
      rfl
    | false =>
      rw [outOf_eq,Bool.not_false,Bool.and_self,if_pos rfl,List.dropLast_concat,if_neg Bool.false_ne_true,
        List.append_nil]

/-- The slow way on the stack. -/
theorem normalizeSlowly_eq (r : Bytes) : normalizeSlowly (47 :: r) =
    match pushRest r [] [] with
    | none => .error .invalid
    | some stack =>
      if utf8Valid (joinPath stack.reverse (endsInSlash (47 :: r))) then
        .ok (joinPath stack.reverse (endsInSlash (47 :: r)))
      else .error .invalid := by
  have hloop : normalizeLoop (47 :: r).tail [] ⟨[],[47]⟩ = settle (pushRest r [] []) := normalizeLoop_stateOf r [] []
  unfold normalizeSlowly
  rw [hloop]
  cases hp : pushRest r [] [] with
  | none => rfl
  | some stack =>
    have htrail : joinPath stack.reverse (decide (1 < (47 :: r : Bytes).length) && (47 :: r).getLast? == some 47) =
        joinPath stack.reverse (endsInSlash (47 :: r)) := by
      cases r with
      | nil =>
        rw [pushRest_nil] at hp
        cases hp
        rfl
      | cons c r => rfl
    simp only [settle,stateOf,joinPath_outOf,htrail]

theorem decodeSegment_some {seg t : Bytes} :
    decodeSegment seg = some t ↔ unescaped seg = some t ∧ 0 ∉ t ∧ 47 ∉ t := by
  rw [decodeSegment,Option.filter_eq_some_iff,decide_eq_true_iff]

theorem mapM_decodeSegment_some {l : List Bytes} : l.mapM decodeSegment = some segs ↔
    l.mapM unescaped = some segs ∧ ∀ s ∈ segs, 0 ∉ s ∧ 47 ∉ s := by
  induction l generalizing segs with
  | nil =>
    simp only [List.mapM_nil,Option.pure_def,Option.some.injEq]
    constructor
    · rintro rfl
      exact ⟨rfl,nofun⟩
    · exact And.left
  | cons x xs ih =>
    simp only [List.mapM_cons,Option.pure_def,Option.bind_eq_bind,Option.bind_eq_some_iff,Option.some.injEq,
      decodeSegment_some,ih]
    constructor
    · rintro ⟨y,⟨hy,hclean⟩,ys,⟨hys,hall⟩,rfl⟩
      exact ⟨⟨y,hy,ys,hys,rfl⟩,List.forall_mem_cons.mpr ⟨hclean,hall⟩⟩
    · rintro ⟨⟨y,hy,ys,hys,rfl⟩,hall⟩
      obtain ⟨hclean,hall⟩ := List.forall_mem_cons.mp hall
      exact ⟨y,⟨hy,hclean⟩,ys,⟨hys,hall⟩,rfl⟩

theorem mem_mapM {l : List Bytes} (h : l.mapM unescaped = some segs) {seg : Bytes} (hm : seg ∈ l) :
    ∃ t ∈ segs, unescaped seg = some t := by
  induction l generalizing segs with
  | nil => cases hm
  | cons x xs ih =>
    simp only [List.mapM_cons,Option.pure_def,Option.bind_eq_bind,Option.bind_eq_some_iff,Option.some.injEq] at h
    obtain ⟨y,hy,ys,hys,rfl⟩ := h
    rcases List.mem_cons.mp hm with rfl | hm
    · exact ⟨y,List.mem_cons_self,hy⟩
    · obtain ⟨t,ht,hd⟩ := ih hys hm
      exact ⟨t,List.mem_cons_of_mem _ ht,hd⟩

theorem mapM_decodeSegment_none {l : List Bytes} (h : l.mapM decodeSegment = none) :
    ∃ seg ∈ l, decodeSegment seg = none := by
  induction l with
  | nil => cases h
  | cons x xs ih =>
    cases hx : decodeSegment x with
    | none => exact ⟨x,List.mem_cons_self,hx⟩
    | some y =>
      cases hxs : xs.mapM decodeSegment with
      | none =>
        obtain ⟨seg,hm,hn⟩ := ih hxs
        exact ⟨seg,List.mem_cons_of_mem _ hm,hn⟩
      | some ys =>
        rw [List.mapM_cons,hx,hxs] at h
        cases h

theorem pushSegment_none {seg : Bytes} (h : pushSegment stack seg = none) : seg = lit ".." ∧ stack = [] := by
  unfold pushSegment at h
  split_ifs at h with h1 h2
  cases stack with
  | nil => exact ⟨h2,rfl⟩
  | cons s rest => cases h

/-- Nothing is left to pop exactly when a `..` comes at the bottom of the stack. -/
theorem foldlM_none {l : List Bytes} : l.foldlM pushSegment stack = none ↔
    ∃ before rest, l = before ++ lit ".." :: rest ∧ before.foldlM pushSegment stack = some [] := by
  constructor
  · intro h
    induction l generalizing stack with
    | nil => cases h
    | cons x xs ih =>
      rw [List.foldlM_cons] at h
      cases hx : pushSegment stack x with
      | none =>
        obtain ⟨rfl,rfl⟩ := pushSegment_none hx
        exact ⟨[],xs,rfl,rfl⟩
      | some stack' =>
        rw [hx] at h
        obtain ⟨before,rest,rfl,hb⟩ := ih h
        refine ⟨x :: before,rest,rfl,?_⟩
        rw [List.foldlM_cons,hx]
        exact hb
  · rintro ⟨before,rest,rfl,hb⟩
    rw [List.foldlM_append,hb]
    rfl

/-- What is on the stack was pushed, and is no dot segment. -/
theorem foldlM_mem {l : List Bytes} (h : l.foldlM pushSegment stack = some segs) :
    ∀ s ∈ segs, s ∈ stack ∨ (s ∈ l ∧ s ≠ [] ∧ Proper s) := by
  induction l generalizing stack with
  | nil =>
    cases h
    exact fun s hs => .inl hs
  | cons x xs ih =>
    intro s hs
    rw [List.foldlM_cons] at h
    obtain ⟨stack',hx,h⟩ := Option.bind_eq_some_iff.mp h
    rcases ih h s hs with hs' | ⟨hm,hp⟩
    · unfold pushSegment at hx
      split_ifs at hx with h1 h2
      · cases hx
        exact .inl hs'
      · cases stack with
        | nil => cases hx
        | cons t rest =>
          cases hx
          exact .inl (List.mem_cons_of_mem _ hs')
      · cases hx
        rcases List.mem_cons.mp hs' with rfl | hs'
        · rw [not_or] at h1
          exact .inr ⟨List.mem_cons_self,h1.1,h1.2,h2⟩
        · exact .inl hs'
    · exact .inr ⟨List.mem_cons_of_mem _ hm,hp⟩

end Output

section Joined
variable {segs : List Bytes} {slash : Bool}

/-- A segment that a path can keep. -/
structure Solid (seg : Bytes) : Prop where
  ne_nil : seg ≠ []
  proper : Proper seg
  noNul : 0 ∉ seg
  noSlash : 47 ∉ seg

theorem split_joined (slash : Bool) (s : Bytes) (hs : 47 ∉ s) (h : ∀ t ∈ segs, Solid t) :
    split 47 (s ++ (segs.flatMap (fun t => 47 :: t) ++ if slash then [47] else [])) =
      s :: (segs ++ if slash then [[]] else []) := by
  induction segs generalizing s with
  | nil =>
    cases slash with
    | true =>
      have he : s ++ [47] = s ++ 47 :: [] := rfl
      simp only [List.flatMap_nil,List.nil_append,if_true]
      rw [he,split_append_slash,split,List.splitOn_eq_singleton hs]
      rfl
    | false =>
      simp only [List.flatMap_nil,Bool.false_eq_true,if_false,List.append_nil]
      exact List.splitOn_eq_singleton hs
  | cons t segs ih =>
    obtain ⟨ht,hsegs⟩ := List.forall_mem_cons.mp h
    have hone : split 47 s = [s] := List.splitOn_eq_singleton hs
    rw [List.flatMap_cons,List.cons_append,List.cons_append,split_append_slash,hone,List.append_assoc,
      ih t ht.noSlash hsegs]
    rfl

theorem rawSegments_joined (hne : segs ≠ []) (h : ∀ t ∈ segs, Solid t) :
    rawSegments (joinPath segs slash) = segs ++ if slash then [[]] else [] := by
  rw [rawSegments,joinPath,if_neg hne]
  have hsplit := split_joined slash [] (by simp) h
  rw [List.nil_append] at hsplit
  rw [hsplit]
  rfl

/-- The segments of what was joined are those that were joined. -/
theorem ownSegments_joined (h : ∀ t ∈ segs, Solid t) : ownSegments (joinPath segs slash) = segs := by
  by_cases hne : segs = []
  · subst hne
    rfl
  · unfold ownSegments
    rw [rawSegments_joined hne h]
    cases slash with
    | true => simp
    | false =>
      have hlast : segs.getLast? ≠ some [] := fun hl => (h [] (List.mem_of_getLast? hl)).ne_nil rfl
      simp [hlast]

theorem head_joined : (joinPath segs slash).head? = some 47 := by
  cases segs with
  | nil => rfl
  | cons s segs => rfl

theorem noNul_joined (h : ∀ t ∈ segs, Solid t) : 0 ∉ joinPath segs slash := by
  unfold joinPath
  split
  · decide
  · rw [List.mem_append,not_or,List.mem_flatMap]
    constructor
    · rintro ⟨t,ht,hm⟩
      rcases List.mem_cons.mp hm with h0 | hm
      · exact absurd h0 (by decide)
      · exact (h t ht).noNul hm
    · cases slash <;> decide

theorem last_joined (hne : joinPath segs slash ≠ [47]) (h : ∀ t ∈ segs, Solid t) :
    (joinPath segs slash).getLast? = some 47 ↔ slash = true := by
  have hs : segs ≠ [] := by
    rintro rfl
    exact hne rfl
  rw [joinPath,if_neg hs]
  cases slash with
  | true => simp
  | false =>
    obtain ⟨rest,t,rfl⟩ := List.eq_nil_or_concat' segs |>.resolve_left hs
    have ht := h t (List.mem_append_right _ (List.mem_singleton_self t))
    obtain ⟨u,c,rfl⟩ := List.eq_nil_or_concat' t |>.resolve_left ht.ne_nil
    have hc : c ≠ 47 := fun hc => ht.noSlash (by simp [hc])
    have he : (rest ++ [u ++ [c]]).flatMap (fun s => 47 :: s) ++ [] =
        (rest.flatMap (fun s => 47 :: s) ++ 47 :: u) ++ [c] := by
      simp
    rw [if_neg Bool.false_ne_true,he,List.getLast?_concat]
    simpa using hc

end Joined

section Scan
variable {r seg : Bytes} {prev : UInt8}

/-- Closes a text with a slash. -/
def closed (t : Bytes) : Bytes := if t = [] ∨ t.getLast? = some 47 then t else t ++ [47]

theorem closed_slash (a : Bytes) (r : Bytes) : closed (a ++ 47 :: r) = a ++ 47 :: closed r := by
  cases r with
  | nil => simp [closed]
  | cons c r =>
    unfold closed
    have hl : (a ++ [47] ++ c :: r).getLast? = (c :: r).getLast? :=
      List.getLast?_append_of_ne_nil _ (List.cons_ne_nil c r)
    rw [List.append_assoc,List.singleton_append] at hl
    rw [hl]
    split
    · rename_i h
      rw [if_pos (.inr (h.resolve_left (by simp)))]
    · rename_i h
      rw [if_neg (fun h' => h (.inr (h'.resolve_left (by simp))))]
      simp

/-- What the scan lets through comes out of the loop as it is. -/
theorem scan_loop (starts : List ℕ) (out : Bytes) (h : alreadyNormalFrom prev r = true) (hp : prev = 47 ↔ seg = [])
    (hd : seg.head? ≠ some 46) (hs : 47 ∉ seg) :
    ∃ starts', normalizeLoop r seg ⟨starts,out⟩ = .ok ⟨starts',out ++ closed (seg ++ r)⟩ := by
  have hclose : seg ≠ [] → ∀ st, closeSegment seg st = .ok ⟨st.out.length :: st.starts,st.out ++ seg ++ [47]⟩ := by
    intro hne st
    have hproper := proper_of_head hd
    rw [closeSegment,if_neg (by rw [not_or]; exact ⟨hne,hproper.1⟩),if_neg hproper.2]
  induction r generalizing prev seg starts out with
  | nil =>
    by_cases hne : seg = []
    · subst hne
      exact ⟨starts,by simp [normalizeLoop,closeSegment,closed]⟩
    · have hlast : seg.getLast? ≠ some 47 := fun hl => hs (List.mem_of_getLast? hl)
      refine ⟨out.length :: starts,?_⟩
      rw [normalizeLoop,hclose hne,List.append_nil,closed,if_neg (not_or.mpr ⟨hne,hlast⟩),List.append_assoc]
  | cons c r ih =>
    simp only [alreadyNormalFrom] at h
    split_ifs at h with h1 h2 h3 h4
    rw [beq_iff_eq] at h1 h4
    rw [Bool.and_eq_true,beq_iff_eq,beq_iff_eq] at h2 h3
    by_cases hc : c = 47
    · subst hc
      have hne : seg ≠ [] := fun he => h2 ⟨rfl,hp.mpr he⟩
      obtain ⟨starts',hl⟩ := ih (out.length :: starts) (out ++ seg ++ [47]) h (iff_of_true rfl rfl)
        (by simp) (by simp) (fun hne => absurd rfl hne)
      refine ⟨starts',?_⟩
      rw [normalizeLoop.eq_def]
      dsimp only
      rw [if_pos rfl,hclose hne]
      dsimp only
      rw [hl,closed_slash]
      simp
    · have hhead : (seg ++ [c]).head? ≠ some 46 := by
        cases seg with
        | nil =>
          intro he
          obtain rfl : c = 46 := Option.some.inj he
          exact h3 ⟨rfl,hp.mpr rfl⟩
        | cons a seg => exact hd
      obtain ⟨starts',hl⟩ := ih starts out h (iff_of_false hc (by simp)) hhead
        (notMem_snoc hs (Ne.symm hc)) (fun hne st => by
          have hproper := proper_of_head hhead
          rw [closeSegment,if_neg (by rw [not_or]; exact ⟨hne,hproper.1⟩),if_neg hproper.2])
      refine ⟨starts',?_⟩
      rw [normalizeLoop.eq_def]
      dsimp only
      rw [if_neg hc,if_neg h1,if_neg h4,hl]
      simp

end Scan

section Whole
variable {path r out : Bytes}

/-- The scan lets through only what the loop would leave as it is. -/
theorem normalizeSlowly_of_scan (hp : path.head? = some 47) (hu : utf8Valid path = true)
    (hn : isAlreadyNormal path = true) : normalizeSlowly path = .ok path := by
  cases path with
  | nil => cases hp
  | cons c r =>
    obtain rfl : c = 47 := Option.some.inj hp
    obtain ⟨starts',hl⟩ := scan_loop [] [47] hn (iff_of_true rfl rfl) (by simp) (by simp)
    have hout : (if !(decide (1 < (47 :: r : Bytes).length) && (47 :: r : Bytes).getLast? == some 47) &&
        decide (1 < ([47] ++ closed r).length) then ([47] ++ closed r).dropLast else [47] ++ closed r) = 47 :: r := by
      cases r with
      | nil => rfl
      | cons c r =>
        by_cases hlast : (c :: r).getLast? = some 47
        · simp [closed,hlast]
        · have hclosed : [47] ++ closed (c :: r) = (47 :: c :: r) ++ [47] := by simp [closed,hlast]
          have hcut : (!(decide (1 < (47 :: c :: r : Bytes).length) && (47 :: c :: r : Bytes).getLast? == some 47) &&
              decide (1 < (47 :: c :: r ++ [47] : Bytes).length)) = true := by simp [hlast]
          rw [hclosed,hcut,if_pos rfl,List.dropLast_concat]
    unfold normalizeSlowly
    rw [List.tail_cons,hl]
    dsimp only
    rw [List.nil_append,hout,hu,if_pos rfl]

theorem normalize_eq_slowly (hp : path.head? = some 47) (hu : utf8Valid path = true) :
    normalize path = normalizeSlowly path := by
  rw [normalize,if_neg (not_not.mpr hp)]
  split
  · rename_i hn
    exact (normalizeSlowly_of_scan hp hu hn).symm
  · rfl

theorem pushRest_root (r : Bytes) :
    pushRest r [] [] = ((rawSegments (47 :: r)).mapM decodeSegment).bind (fun segs => segs.foldlM pushSegment []) := by
  have hid : ∀ l : List Bytes, l.modifyHead ([] ++ ·) = l := by
    intro l
    cases l with
    | nil => rfl
    | cons x xs => rfl
  rw [pushRest,rawSegments,split_slash,List.tail_cons]
  simp only [hid]

theorem normalizeSlowly_ok : normalizeSlowly (47 :: r) = .ok out ↔ Resolves (47 :: r) out := by
  rw [normalizeSlowly_eq]
  constructor
  · intro h
    cases hp : pushRest r [] [] with
    | none =>
      rw [hp] at h
      cases h
    | some stack =>
      rw [hp] at h
      dsimp only at h
      split_ifs at h with hu
      cases h
      rw [pushRest_root] at hp
      obtain ⟨segs,hsegs,hstack⟩ := Option.bind_eq_some_iff.mp hp
      obtain ⟨hdec,hclean⟩ := mapM_decodeSegment_some.mp hsegs
      exact ⟨segs,stack,hdec,hclean,hstack,rfl,hu⟩
  · rintro ⟨segs,stack,hdec,hclean,hstack,rfl,hu⟩
    have hp : pushRest r [] [] = some stack := by
      rw [pushRest_root,mapM_decodeSegment_some.mpr ⟨hdec,hclean⟩]
      exact hstack
    rw [hp]
    exact if_pos hu

theorem faulty_of_error {e : UriError} (h : normalizeSlowly (47 :: r) = .error e) : Faulty (47 :: r) := by
  rw [normalizeSlowly_eq] at h
  cases hp : pushRest r [] [] with
  | some stack =>
    rw [hp] at h
    dsimp only at h
    split_ifs at h with hu
    rw [pushRest_root] at hp
    obtain ⟨segs,hsegs,hstack⟩ := Option.bind_eq_some_iff.mp hp
    exact .utf8 (mapM_decodeSegment_some.mp hsegs).1 hstack (Bool.eq_false_iff.mpr hu)
  | none =>
    rw [pushRest_root] at hp
    cases hsegs : (rawSegments (47 :: r)).mapM decodeSegment with
    | none =>
      obtain ⟨seg,hm,hn⟩ := mapM_decodeSegment_none hsegs
      cases hd : unescaped seg with
      | none => exact .escape hm hd
      | some t =>
        by_cases h0 : 0 ∈ t
        · exact .nul hm hd h0
        · refine .slash hm hd ?_
          by_contra hs
          rw [decodeSegment_some.mpr ⟨hd,h0,hs⟩] at hn
          cases hn
    | some segs =>
      rw [hsegs] at hp
      exact .climbs (mapM_decodeSegment_some.mp hsegs).1 (foldlM_none.mp hp)

/-- A path with a fault does not come to anything. -/
theorem not_resolves_of_faulty (h : Faulty path) : ¬ Resolves path out := by
  rintro ⟨segs,stack,hdec,hclean,hstack,rfl,hu⟩
  have hall : ∀ seg ∈ rawSegments path, ∃ t ∈ segs, unescaped seg = some t := by
    exact fun seg hm => mem_mapM hdec hm
  cases h with
  | escape hm hd =>
    obtain ⟨t,-,ht⟩ := hall _ hm
    rw [hd] at ht
    cases ht
  | nul hm hd h0 =>
    obtain ⟨t,htm,ht⟩ := hall _ hm
    rw [hd] at ht
    cases ht
    exact (hclean _ htm).1 h0
  | slash hm hd hs =>
    obtain ⟨t,htm,ht⟩ := hall _ hm
    rw [hd] at ht
    cases ht
    exact (hclean _ htm).2 hs
  | climbs hs hc =>
    rw [hdec] at hs
    cases hs
    rw [foldlM_none.mpr hc] at hstack
    cases hstack
  | utf8 hs hp hn =>
    rw [hdec] at hs
    cases hs
    rw [hstack] at hp
    cases hp
    rw [hu] at hn
    cases hn

/-- What a path comes to is made of solid segments. -/
theorem Resolves.solid (h : Resolves path out) :
    ∃ segs, (∀ s ∈ segs, Solid s) ∧ out = joinPath segs (endsInSlash path) := by
  obtain ⟨segs,stack,-,hclean,hstack,rfl,-⟩ := h
  refine ⟨stack.reverse,fun s hs => ?_,rfl⟩
  rcases foldlM_mem hstack s (List.mem_reverse.mp hs) with hs | ⟨hs,hne,hp⟩
  · cases hs
  · exact ⟨hne,hp,(hclean s hs).1,(hclean s hs).2⟩

/-- Normalisation is what its segments come to. -/
theorem normalize_segments (hp : path.head? = some 47) (hu : utf8Valid path = true) :
    (∀ out, normalize path = .ok out ↔ Resolves path out) ∧
      ((∃ e, normalize path = .error e) ↔ Faulty path) ∧
      (∀ out, normalize path = .ok out → out.head? = some 47 ∧ (∀ seg ∈ ownSegments out, seg ≠ [] ∧ Proper seg) ∧
        0 ∉ out ∧ (out ≠ [47] → (out.getLast? = some 47 ↔ path.getLast? = some 47))) ∧
      (isAlreadyNormal path = true → normalizeSlowly path = .ok path) := by
  obtain ⟨r,rfl⟩ : ∃ r, path = 47 :: r := by
    cases path with
    | nil => cases hp
    | cons c r => exact ⟨r,congrArg (· :: r) (Option.some.inj hp)⟩
  rw [normalize_eq_slowly hp hu]
  refine ⟨fun out => normalizeSlowly_ok,⟨fun ⟨e,he⟩ => faulty_of_error he,fun hf => ?_⟩,fun out ho => ?_,
    normalizeSlowly_of_scan hp hu⟩
  · cases hn : normalizeSlowly (47 :: r) with
    | error e => exact ⟨e,rfl⟩
    | ok out => exact absurd (normalizeSlowly_ok.mp hn) (not_resolves_of_faulty hf)
  · obtain ⟨segs,hsolid,rfl⟩ := (normalizeSlowly_ok.mp ho).solid
    refine ⟨head_joined,?_,noNul_joined hsolid,fun hne => ?_⟩
    · rw [ownSegments_joined hsolid]
      exact fun seg hseg => ⟨(hsolid seg hseg).ne_nil,(hsolid seg hseg).proper⟩
    · rw [last_joined hne hsolid,endsInSlash,beq_iff_eq]

theorem normalize_segments_dots :
    Resolves (lit "/a/%2e%2e/b//c/") (lit "/b/c/") ∧ Faulty (lit "/a/../%2e%2E") := by
  refine ⟨((normalize_segments (by decide +kernel) (by decide +kernel)).1 _).mp ?_,
    (normalize_segments (by decide +kernel) (by decide +kernel)).2.1.mp ⟨.invalid,?_⟩⟩
  · decide +kernel
  · decide +kernel

end Whole

end OxiServe.Uri
