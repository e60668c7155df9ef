import OxiServe.Http.Request
import OxiServe.Http2.Conn

/-! # From a decoded header list to a request

The validation `parse_headers` makes of a header list, which HTTP/2 and HTTP/3
share, and the request both build from what it accepts. The task of a stream
goes no further than this when the list or its path is refused.
-/
namespace OxiServe.Http2
open Hpack (Header)

section Parse

/-- The pseudo-headers plus the ordinary ones, validated. -/
structure Parsed where
  method : Bytes
  path : Bytes
  authority : Bytes
  ordinary : List (Bytes × Bytes)
deriving DecidableEq, Repr

/-- `:authority` is handed on as a `Host` field. -/
def Parsed.headers (self : Parsed) : List (Bytes × Bytes) := (lit "host",self.authority) :: self.ordinary

/-- What the loop of `parse_headers` holds. -/
structure Scan where
  method : Option Bytes
  path : Option Bytes
  authority : Option Bytes
  scheme : Option Bytes
  ordinary : List (Bytes × Bytes)
  seenOrdinary : Bool
deriving DecidableEq, Repr

def Scan.new : Scan := ⟨none,none,none,none,[],false⟩

def connectionSpecific : List Bytes :=
  [lit "connection",lit "keep-alive",lit "proxy-connection",lit "transfer-encoding",lit "upgrade"]

/-- A pseudo-header given twice is malformed. -/
def fillSlot (slot : Option Bytes) (value : Bytes) : Except Code (Option Bytes) :=
  if slot.isSome then .error .protocol else .ok (some value)

def Scan.pseudo (self : Scan) (name value : Bytes) : Except Code Scan :=
  if self.seenOrdinary then .error .protocol
  else if name = lit "method" then (fillSlot self.method value).map (fun s => { self with method := s })
  else if name = lit "path" then (fillSlot self.path value).map (fun s => { self with path := s })
  else if name = lit "authority" then (fillSlot self.authority value).map (fun s => { self with authority := s })
  else if name = lit "scheme" then (fillSlot self.scheme value).map (fun s => { self with scheme := s })
  else .error .protocol

def Scan.field (self : Scan) (name value : Bytes) : Except Code Scan :=
  if name.any isAsciiUppercase || name.isEmpty then .error .protocol
  else if connectionSpecific.contains name then .error .protocol
  else if name == lit "te" && value != lit "trailers" then .error .protocol
  else .ok { self with ordinary := self.ordinary ++ [(name,value)], seenOrdinary := true }

def Scan.header (self : Scan) (h : Header) : Except Code Scan :=
  match h.name with
  | 58 :: name => self.pseudo name h.value
  | name => self.field name h.value

def Scan.finish (self : Scan) : Except Code Parsed :=
  match self.method, self.path with
  | some method, some path =>
    if method = lit "CONNECT" then .error .protocol
    else if self.scheme.isNone then .error .protocol
    else if path = [] then .error .protocol
    else .ok ⟨method,path,self.authority.getD [],self.ordinary⟩
  | _, _ => .error .protocol

/-- Validates a decoded header list against RFC 9113 section 8.3. -/
def parseHeaders (headers : List Header) : Except Code Parsed :=
  match headers.foldlM Scan.header Scan.new with
  | .error e => .error e
  | .ok s => s.finish

end Parse

section Handing

/-- What reaches the handler: the request with its buffer, the normalised path
and the body. -/
structure Handed where
  buf : Bytes
  req : Request.Req
  uri : Bytes
  body : Bytes

def Parsed.handOver (self : Parsed) (body : Bytes) : Option Handed :=
  let (buf,req) := Request.Req.fromParts self.method self.path self.headers
  let req := if body ≠ [] then { req with body := .length body.length } else req
  match Uri.normalize (req.pathStr buf) with
  | .ok uri => some ⟨buf,req,uri,body⟩
  | .error _ => none

/-- The start of a stream task: a request for the handler, or a reset. -/
def StreamTask.request (self : StreamTask) : Except Code Handed :=
  match parseHeaders self.headers with
  | .error code => .error code
  | .ok parsed =>
    match parsed.handOver self.body with
    | none => .error .protocol
    | some h => .ok h

end Handing

section Accepted

def isOrdinary (h : Header) : Bool := h.name.head? != some 58

/-- The ordinary fields of a header list. -/
def ordinaryOf (hs : List Header) : List (Bytes × Bytes) := (hs.filter isOrdinary).map (fun h => (h.name,h.value))

/-- The values of one pseudo-header of a list. -/
def pseudoValues (name : Bytes) (hs : List Header) : List Bytes :=
  (hs.filter (fun h => h.name == 58 :: name)).map Header.value

/-- What a scan holds after the list `hs`. -/
structure Scanned (hs : List Header) (s : Scan) : Prop where
  method : pseudoValues (lit "method") hs = s.method.toList
  path : pseudoValues (lit "path") hs = s.path.toList
  authority : pseudoValues (lit "authority") hs = s.authority.toList
  ordinary : s.ordinary = ordinaryOf hs
  named : ∀ f ∈ s.ordinary, f.1 ≠ []

theorem scanned_new : Scanned [] Scan.new := ⟨rfl,rfl,rfl,rfl,fun _ hf => nomatch hf⟩

theorem pseudoValues_snoc (name : Bytes) (hs : List Header) (h : Header) :
    pseudoValues name (hs ++ [h]) = pseudoValues name hs ++ if h.name = 58 :: name then [h.value] else [] := by
  unfold pseudoValues
  rw [List.filter_append,List.map_append]
  by_cases hn : h.name = 58 :: name
  · simp [hn]
  · simp [hn]

theorem ordinaryOf_snoc (hs : List Header) (h : Header) :
    ordinaryOf (hs ++ [h]) = ordinaryOf hs ++ if isOrdinary h then [(h.name,h.value)] else [] := by
  unfold ordinaryOf
  rw [List.filter_append,List.map_append]
  by_cases ho : isOrdinary h = true
  · simp [ho]
  · simp [ho]

theorem fillSlot_map {slot : Option Bytes} {value : Bytes} {g : Option Bytes → Scan} {s : Scan}
    (h : (fillSlot slot value).map g = .ok s) : slot = none ∧ s = g (some value) := by
  unfold fillSlot at h
  cases slot with
  | none =>
    cases h
    exact ⟨rfl,rfl⟩
  | some v => cases h

theorem pseudoValues_other {name b : Bytes} (hn : name ≠ b) (hs : List Header) (value : Bytes) :
    pseudoValues b (hs ++ [⟨58 :: name,value⟩]) = pseudoValues b hs := by
  rw [pseudoValues_snoc,if_neg,List.append_nil]
  intro he
  exact hn (List.cons.inj he).2

theorem pseudoValues_own {name : Bytes} {hs : List Header} (hv : pseudoValues name hs = []) (value : Bytes) :
    pseudoValues name (hs ++ [⟨58 :: name,value⟩]) = [value] := by
  rw [pseudoValues_snoc,hv,if_pos rfl]
  rfl

theorem Scanned.pseudo {hs : List Header} {s s' : Scan} {name value : Bytes} (h : Scanned hs s)
    (hp : s.pseudo name value = .ok s') : Scanned (hs ++ [⟨58 :: name,value⟩]) s' := by
  have hord : ordinaryOf (hs ++ [⟨58 :: name,value⟩]) = ordinaryOf hs := by
    rw [ordinaryOf_snoc]
    simp [isOrdinary]
  have hother {b : Bytes} (hn : name ≠ b) := pseudoValues_other hn hs value
  unfold Scan.pseudo at hp
  split at hp
  · cases hp
  split at hp
  · rename_i hn
    obtain ⟨hnone,rfl⟩ := fillSlot_map hp
    have hm := h.method
    rw [hnone] at hm
    subst hn
    exact ⟨pseudoValues_own hm value,(hother (by decide)).trans h.path,(hother (by decide)).trans h.authority,
      h.ordinary.trans hord.symm,h.named⟩
  split at hp
  · rename_i hn
    obtain ⟨hnone,rfl⟩ := fillSlot_map hp
    have hm := h.path
    rw [hnone] at hm
    subst hn
    exact ⟨(hother (by decide)).trans h.method,pseudoValues_own hm value,(hother (by decide)).trans h.authority,
      h.ordinary.trans hord.symm,h.named⟩
  split at hp
  · rename_i hn
    obtain ⟨hnone,rfl⟩ := fillSlot_map hp
    have hm := h.authority
    rw [hnone] at hm
    subst hn
    exact ⟨(hother (by decide)).trans h.method,(hother (by decide)).trans h.path,pseudoValues_own hm value,
      h.ordinary.trans hord.symm,h.named⟩
  split at hp
  · rename_i hn
    obtain ⟨-,rfl⟩ := fillSlot_map hp
    subst hn
    exact ⟨(hother (by decide)).trans h.method,(hother (by decide)).trans h.path,
      (hother (by decide)).trans h.authority,h.ordinary.trans hord.symm,h.named⟩
  · cases hp

theorem Scanned.field {hs : List Header} {s s' : Scan} {name value : Bytes} (h : Scanned hs s)
    (ho : name.head? ≠ some 58) (hf : s.field name value = .ok s') : Scanned (hs ++ [⟨name,value⟩]) s' := by
  have hother (b : Bytes) : pseudoValues b (hs ++ [⟨name,value⟩]) = pseudoValues b hs := by
    rw [pseudoValues_snoc,if_neg,List.append_nil]
    intro he
    apply ho
    rw [show name = 58 :: b from he]
    rfl
  have hord : ordinaryOf (hs ++ [⟨name,value⟩]) = ordinaryOf hs ++ [(name,value)] := by
    rw [ordinaryOf_snoc]
    simp [isOrdinary,ho]
  unfold Scan.field at hf
  split at hf
  · cases hf
  rename_i hname
  simp only [Bool.or_eq_true,not_or,List.isEmpty_iff] at hname
  split at hf
  · cases hf
  split at hf
  · cases hf
  · cases hf
    refine ⟨(hother _).trans h.method,(hother _).trans h.path,(hother _).trans h.authority,?_,?_⟩
    · rw [hord,← h.ordinary]
    · intro f hf
      rcases List.mem_append.mp hf with hf | hf
      · exact h.named f hf
      · rw [List.mem_singleton.mp hf]
        exact hname.2

theorem Scanned.header {hs : List Header} {s s' : Scan} {h : Header} (hs' : Scanned hs s)
    (hh : s.header h = .ok s') : Scanned (hs ++ [h]) s' := by
  obtain ⟨name,value⟩ := h
  unfold Scan.header at hh
  split at hh
  · rename_i rest hn
    obtain rfl : name = 58 :: rest := hn
    exact hs'.pseudo hh
  · rename_i hn
    refine hs'.field ?_ hh
    intro hhead
    cases name with
    | nil => cases hhead
    | cons b rest =>
      cases hhead
      exact hn rest rfl

theorem Scanned.foldlM {hs ks : List Header} {s s' : Scan} (h : Scanned hs s)
    (hf : ks.foldlM Scan.header s = .ok s') : Scanned (hs ++ ks) s' := by
  induction ks generalizing hs s with
  | nil =>
    cases hf
    simpa using h
  | cons k ks ih =>
    rw [List.foldlM_cons] at hf
    cases hk : s.header k with
    | error e => simp [hk,bind,Except.bind] at hf
    | ok t =>
      simp only [hk,bind,Except.bind] at hf
      have hr := ih (h.header hk) hf
      simpa using hr

/-- An accepted list names its method and path once, its authority at most once,
and keeps its ordinary fields in order. -/
structure Accepts (hs : List Header) (p : Parsed) : Prop where
  method : pseudoValues (lit "method") hs = [p.method]
  path : pseudoValues (lit "path") hs = [p.path]
  authority : pseudoValues (lit "authority") hs = [p.authority] ∨
    (pseudoValues (lit "authority") hs = [] ∧ p.authority = [])
  ordinary : p.ordinary = ordinaryOf hs
  named : ∀ f ∈ p.ordinary, f.1 ≠ []

theorem parseHeaders_accepts {hs : List Header} {p : Parsed} (h : parseHeaders hs = .ok p) : Accepts hs p := by
  unfold parseHeaders at h
  cases hf : hs.foldlM Scan.header Scan.new with
  | error e => simp [hf] at h
  | ok s =>
    simp only [hf] at h
    have hs := scanned_new.foldlM hf
    rw [List.nil_append] at hs
    unfold Scan.finish at h
    split at h
    · rename_i m q hm hq
      split at h
      · cases h
      split at h
      · cases h
      split at h
      · cases h
      cases h
      refine ⟨?_,?_,?_,hs.ordinary,hs.named⟩
      · rw [hs.method,hm]
        rfl
      · rw [hs.path,hq]
        rfl
      · rw [hs.authority]
        cases s.authority with
        | none => exact Or.inr ⟨rfl,rfl⟩
        | some v => exact Or.inl rfl
    · cases h

end Accepted

end OxiServe.Http2
