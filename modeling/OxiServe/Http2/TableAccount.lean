import OxiServe.Http2.TableLimit

/-! # The table's account over a decoder's life

Every sequence of header blocks, refused ones included, and of new limits comes
down to insertions and changes of size. Each keeps the counted size exact and
within both limits, drops the oldest entries only and no more than it must, and
leaves the addresses of the entries those of RFC 7541.
-/
namespace OxiServe.Hpack
open BoundedFifo

section Calls

/-- The two calls that change a decoder. -/
inductive Call
  | decode (buf : Bytes) (maxList : ℕ)
  | setMaxSize (n : ℕ)

/-- What a call does to the table, one step at a time. -/
inductive Effect
  | insert (h : Header)
  | resize (n : ℕ)
  | setMaxSize (n : ℕ)

namespace Effect

def apply (d : Decoder) : Effect → Decoder
  | insert h => d.insert h
  | resize n => { d with maxSize := n }.evict
  | setMaxSize n => d.setMaxSize n

/-- The new entry, if there is one. -/
def offered : Effect → List Header
  | insert h => [h]
  | _ => []

/-- The decoder as `evict` finds it, where the step evicts. -/
def evicting (d : Decoder) : Effect → Option Decoder
  | insert h =>
    if d.maxSize < entrySize h then none
    else some { d with size := d.size + entrySize h, dynamic := h :: d.dynamic }
  | resize n => some { d with maxSize := n }
  | setMaxSize n => if n < d.maxSize then some { d with settingsMax := n, maxSize := n } else none

/-- A size update stays within what was advertised. -/
def Within (d : Decoder) : Effect → Prop
  | resize n => n ≤ d.settingsMax
  | _ => True

end Effect

/-- The step a field of a block takes: what it adds is the header it puts out. -/
def fieldEffects (maxList : ℕ) (p : Progress) (first : UInt8) : List Effect :=
  match Decoder.field maxList p first with
  | .error _ => []
  | .ok q =>
    if first &&& 0x80 ≠ 0 then []
    else if first &&& 0x40 ≠ 0 then (q.out.drop p.out.length).map .insert
    else if first &&& 0x20 ≠ 0 then [.resize q.dec.maxSize]
    else []

def loopEffects (maxList : ℕ) : ℕ → Progress → List Effect
  | 0, _ => []
  | fuel + 1, p =>
    match p.buf with
    | [] => []
    | first :: _ =>
      match Decoder.field maxList p first with
      | .error _ => []
      | .ok q => fieldEffects maxList p first ++ loopEffects maxList fuel q

namespace Call

def run (d : Decoder) : Call → Decoder
  | decode buf maxList => (d.decode buf maxList).1
  | setMaxSize n => d.setMaxSize n

def effects (d : Decoder) : Call → List Effect
  | decode buf maxList => loopEffects maxList buf.length ⟨d,buf,0,false,[]⟩
  | setMaxSize n => [.setMaxSize n]

end Call

/-- The steps of a sequence of calls, one call after the other. -/
def callEffects : Decoder → List Call → List Effect
  | _, [] => []
  | d, c :: cs => c.effects d ++ callEffects (c.run d) cs

/-- The headers added, newest first. -/
def inserted (es : List Effect) : List Header := (es.flatMap Effect.offered).reverse

/-- The entry RFC 7541 gives an index: the static table, then the dynamic one. -/
def address (dynamic : List Header) (i : ℕ) : Option Header :=
  if i = 0 then none else (staticTable.map (fun e => Header.mk e.1 e.2) ++ dynamic)[i - 1]?

/-- A step keeps the longest run of newest entries that fits, and takes no entry
off the size that is not in it. -/
structure Effect.Exact (d : Decoder) (e : Effect) : Prop where
  newest : (e.apply d).dynamic <+: e.offered ++ d.dynamic
  longest : ∀ m, m <+: e.offered ++ d.dynamic → total entrySize m ≤ (e.apply d).maxSize → m <+: (e.apply d).dynamic
  noUnderflow : ∀ q, e.evicting d = some q →
    ∀ p ∈ pops entrySize q.maxSize q.dynamic.reverse q.size, p.2 ≤ p.1

/-- The account of a decoder after the steps `es`. -/
structure Accounted (es : List Effect) (d : Decoder) : Prop extends d.Bounded where
  recent : d.dynamic <+: inserted es
  addressed : ∀ i, d.lookup i = (address d.dynamic i).elim (.error .compression) .ok

end Calls

section Steps
variable {d : Decoder}

theorem bounded_apply (hb : d.Bounded) {e : Effect} (hw : e.Within d) : (e.apply d).Bounded := by
  cases e with
  | insert h => exact (Decoder.Follows.insert d h).bounded hb
  | resize n => exact (Decoder.Follows.resize d hw).bounded hb
  | setMaxSize n =>
    unfold Effect.apply Decoder.setMaxSize
    dsimp only
    split
    · exact Decoder.evict_bounded hb.size (Nat.le_refl n)
    · exact ⟨hb.size,hb.fits,by dsimp only; omega⟩

/-- The entries after a step are what fits of the ones before it. -/
theorem apply_dynamic (hb : d.Bounded) (e : Effect) :
    (e.apply d).dynamic = fit entrySize (e.apply d).maxSize (e.offered ++ d.dynamic) := by
  cases e with
  | insert h =>
    change (d.insert h).dynamic = fit entrySize (d.insert h).maxSize (h :: d.dynamic)
    unfold Decoder.insert
    split
    · next hlarge => exact (if_neg (Nat.not_le_of_lt hlarge)).symm
    · exact (evict_dynamic (d := { d with size := d.size + entrySize h, dynamic := h :: d.dynamic })
        (by simp [hb.size,Nat.add_comm])).1
  | resize n => exact (evict_dynamic (d := { d with maxSize := n }) hb.size).1
  | setMaxSize n =>
    change (d.setMaxSize n).dynamic = fit entrySize (d.setMaxSize n).maxSize d.dynamic
    unfold Decoder.setMaxSize
    dsimp only
    split
    · exact (evict_dynamic (d := { d with settingsMax := n, maxSize := n }) hb.size).1
    · exact (fit_of_total_le entrySize hb.fits).symm

theorem evicting_size (hb : d.Bounded) {e : Effect} {q : Decoder} (h : e.evicting d = some q) :
    q.size = total entrySize q.dynamic := by
  cases e with
  | insert f =>
    simp only [Effect.evicting] at h
    split at h
    · cases h
    · cases h
      simp [hb.size,Nat.add_comm]
  | resize n =>
    cases h
    exact hb.size
  | setMaxSize n =>
    simp only [Effect.evicting] at h
    split at h
    · cases h
      exact hb.size
    · cases h

theorem effect_exact (hb : d.Bounded) (e : Effect) : e.Exact d where
  newest := by
    rw [apply_dynamic hb]
    exact fit_prefix entrySize _ _
  longest := by
    intro m hm hle
    rw [apply_dynamic hb]
    exact prefix_fit entrySize hm hle
  noUnderflow := by
    intro q hq
    exact pops_le entrySize ((evicting_size hb hq).trans (total_reverse entrySize _).symm)

theorem lookup_address (d : Decoder) (i : ℕ) :
    d.lookup i = (address d.dynamic i).elim (.error .compression) .ok := by
  unfold Decoder.lookup address
  by_cases h0 : i = 0
  · rw [if_pos h0,if_pos h0]
    rfl
  rw [if_neg h0,if_neg h0]
  split
  · next hs =>
    rw [List.getElem?_append_left (by simpa using by omega),List.getElem?_map]
    cases staticTable[i - 1]? with
    | none => rfl
    | some e => rfl
  · next hs =>
    rw [List.getElem?_append_right (by simpa using by omega),List.length_map,
      show i - 1 - staticTable.length = i - staticTable.length - 1 by omega]
    cases d.dynamic[i - staticTable.length - 1]? with
    | none => rfl
    | some h => rfl

theorem accounted_new (n : ℕ) : Accounted [] (Decoder.new n) :=
  ⟨Decoder.bounded_new n,List.nil_prefix,lookup_address _⟩

theorem Accounted.step {es : List Effect} (h : Accounted es d) {e : Effect} (hw : e.Within d) :
    Accounted (es ++ [e]) (e.apply d) := by
  refine ⟨bounded_apply h.toBounded hw,?_,lookup_address _⟩
  have hnew := (effect_exact h.toBounded e).newest
  have hkept : e.offered ++ d.dynamic <+: inserted (es ++ [e]) := by
    obtain ⟨rest,hrest⟩ := h.recent
    refine ⟨rest,?_⟩
    rw [List.append_assoc,hrest]
    cases e with
    | insert f => simp [inserted,Effect.offered]
    | resize n => simp [inserted,Effect.offered]
    | setMaxSize n => simp [inserted,Effect.offered]
  exact hnew.trans hkept

end Steps

section Runs
variable {d : Decoder}

/-- Every size update among the steps is within what was advertised then. -/
def Admissible : Decoder → List Effect → Prop
  | _, [] => True
  | d, e :: es => e.Within d ∧ Admissible (e.apply d) es

theorem admissible_append {es fs : List Effect} (h : Admissible d es) (h' : Admissible (es.foldl Effect.apply d) fs) :
    Admissible d (es ++ fs) := by
  induction es generalizing d with
  | nil => exact h'
  | cons e es ih => exact ⟨h.1,ih h.2 h'⟩

/-- Steps that lead from one decoder to another. -/
structure Leads (d : Decoder) (es : List Effect) (d' : Decoder) : Prop where
  admissible : Admissible d es
  result : es.foldl Effect.apply d = d'

theorem Leads.refl (d : Decoder) : Leads d [] d := ⟨trivial,rfl⟩

theorem Leads.trans {d' d'' : Decoder} {es fs : List Effect} (h : Leads d es d') (h' : Leads d' fs d'') :
    Leads d (es ++ fs) d'' := by
  obtain ⟨ha,rfl⟩ := h
  exact ⟨admissible_append ha h'.admissible,by rw [List.foldl_append]; exact h'.result⟩

theorem field_leads {maxList : ℕ} {p q : Progress} {first : UInt8} (h : Decoder.field maxList p first = .ok q) :
    Leads p.dec (fieldEffects maxList p first) q.dec := by
  unfold fieldEffects
  rw [h]
  dsimp only
  unfold Decoder.field at h
  split at h
  · next h80 =>
    rw [if_pos h80]
    obtain ⟨r,-,h⟩ := Decoder.bind_eq_ok.mp h
    obtain ⟨f,-,h⟩ := Decoder.bind_eq_ok.mp h
    obtain ⟨n,-,h⟩ := Decoder.bind_eq_ok.mp h
    cases h
    exact .refl _
  next h80 =>
  rw [if_neg h80]
  split at h
  · next h40 =>
    rw [if_pos h40]
    obtain ⟨r,-,h⟩ := Decoder.bind_eq_ok.mp h
    obtain ⟨f,-,h⟩ := Decoder.bind_eq_ok.mp h
    obtain ⟨n,-,h⟩ := Decoder.bind_eq_ok.mp h
    cases h
    rw [List.drop_left]
    exact ⟨⟨trivial,trivial⟩,rfl⟩
  next h40 =>
  rw [if_neg h40]
  split at h
  · next h20 =>
    rw [if_pos h20]
    split at h
    · cases h
    obtain ⟨r,-,h⟩ := Decoder.bind_eq_ok.mp h
    dsimp only at h
    split at h
    · cases h
    next hn =>
    cases h
    exact ⟨⟨Nat.not_lt.mp hn,trivial⟩,rfl⟩
  · next h20 =>
    rw [if_neg h20]
    obtain ⟨r,-,h⟩ := Decoder.bind_eq_ok.mp h
    obtain ⟨f,-,h⟩ := Decoder.bind_eq_ok.mp h
    obtain ⟨n,-,h⟩ := Decoder.bind_eq_ok.mp h
    cases h
    exact .refl _

theorem loop_leads (maxList fuel : ℕ) (p : Progress) :
    Leads p.dec (loopEffects maxList fuel p) (Decoder.decodeLoop maxList fuel p).1.dec := by
  induction fuel generalizing p with
  | zero => exact .refl _
  | succ fuel ih =>
    unfold loopEffects Decoder.decodeLoop
    cases p.buf with
    | nil => exact .refl _
    | cons first rest =>
      dsimp only
      cases hf : Decoder.field maxList p first with
      | error e => exact .refl _
      | ok q => exact (field_leads hf).trans (ih q)

theorem call_leads (d : Decoder) (c : Call) : Leads d (c.effects d) (c.run d) := by
  cases c with
  | decode buf maxList => exact loop_leads maxList buf.length ⟨d,buf,0,false,[]⟩
  | setMaxSize n => exact ⟨⟨trivial,trivial⟩,rfl⟩

theorem calls_lead (d : Decoder) (cs : List Call) : Leads d (callEffects d cs) (cs.foldl Call.run d) := by
  induction cs generalizing d with
  | nil => exact .refl d
  | cons c cs ih => exact (call_leads d c).trans (ih (c.run d))

theorem Accounted.steps {es fs : List Effect} (h : Accounted es d) (ha : Admissible d fs) :
    Accounted (es ++ fs) (fs.foldl Effect.apply d) := by
  induction fs generalizing d es with
  | nil => rwa [List.append_nil]
  | cons f fs ih =>
    have hnext := ih (h.step ha.1) ha.2
    rwa [List.append_assoc,List.singleton_append] at hnext

theorem admissible_take {es fs : List Effect} (h : Admissible d (es ++ fs)) : Admissible d es := by
  induction es generalizing d with
  | nil => trivial
  | cons e es ih => exact ⟨h.1,ih h.2⟩

/-- The account holds through every sequence of calls: each call is the steps
listed for it, and before each step, inside a call that fails midway too, the
size is exact and within the limits, the entries are the newest ones inserted,
the indices are those of RFC 7541 and the step drops only the oldest. -/
theorem table_accounted (n : ℕ) (cs : List Call) :
    (callEffects (.new n) cs).foldl Effect.apply (.new n) = cs.foldl Call.run (.new n) ∧
    ∀ es fs, callEffects (.new n) cs = es ++ fs →
      Accounted es (es.foldl Effect.apply (.new n)) ∧ ∀ e ∈ fs.head?, e.Exact (es.foldl Effect.apply (.new n)) := by
  obtain ⟨ha,hresult⟩ := calls_lead (.new n) cs
  refine ⟨hresult,?_⟩
  intro es fs hsplit
  rw [hsplit] at ha
  have hacc := (accounted_new n).steps (admissible_take ha)
  exact ⟨hacc,fun e _ => effect_exact hacc.toBounded e⟩

end Runs

end OxiServe.Hpack
