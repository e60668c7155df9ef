import OxiServe.Http2.Hpack

/-! # The table RFC 7541 prescribes

Section 4 of the RFC as a table that always fits its maximum size, sections 5
and 6 as a grammar of representations, and the meaning of a header block over
both. The decoder of the connection follows it field by field as long as the
block is legal and its header list is within the limit.
-/
namespace OxiServe.Hpack
open BoundedFifo

section Prescribed

structure Table where
  entries : List Header
  maxSize : ℕ
  fits : total entrySize entries ≤ maxSize

namespace Table

@[ext] theorem ext {t u : Table} (he : t.entries = u.entries) (hm : t.maxSize = u.maxSize) : t = u := by
  cases t
  cases u
  cases he
  cases hm
  rfl

def empty (n : ℕ) : Table := ⟨[],n,Nat.zero_le n⟩

/-- The oldest entries leave until the new one fits; one that is too large
leaves the table empty. -/
def insert (t : Table) (h : Header) : Table :=
  ⟨fit entrySize t.maxSize (h :: t.entries),t.maxSize,total_fit_le entrySize _ _⟩

def resize (t : Table) (n : ℕ) : Table := ⟨fit entrySize n t.entries,n,total_fit_le entrySize _ _⟩

/-- The address space: the static table, then the dynamic one, from index 1. -/
def index (t : Table) (i : ℕ) : Option Header :=
  if i = 0 then none else (staticTable.map (fun e => Header.mk e.1 e.2) ++ t.entries)[i - 1]?

end Table

inductive FieldName
  | indexed (i : ℕ)
  | new (name : Bytes)
deriving DecidableEq, Repr

/-- The four binary representations; a field without indexing and one that is
never indexed leave the table alone alike. -/
inductive Representation
  | indexed (i : ℕ)
  | incremental (name : FieldName) (value : Bytes)
  | resize (n : ℕ)
  | plain (name : FieldName) (value : Bytes)
deriving DecidableEq, Repr

def parseName (buf : Bytes) (prefixBits : ℕ) : Option (FieldName × Bytes) :=
  match int buf prefixBits with
  | .error _ => none
  | .ok (i,rest) =>
    if i = 0 then
      match string rest with
      | .error _ => none
      | .ok (name,rest) => some (.new name,rest)
    else some (.indexed i,rest)

def parseLiteral (buf : Bytes) (prefixBits : ℕ) : Option (FieldName × Bytes × Bytes) :=
  match parseName buf prefixBits with
  | none => none
  | some (name,rest) =>
    match string rest with
    | .error _ => none
    | .ok (value,rest) => some (name,value,rest)

def parseRepresentation (buf : Bytes) : Option (Representation × Bytes) :=
  match buf with
  | [] => none
  | first :: _ =>
    if first &&& 0x80 ≠ 0 then
      match int buf 7 with
      | .error _ => none
      | .ok (i,rest) => some (.indexed i,rest)
    else if first &&& 0x40 ≠ 0 then
      (parseLiteral buf 6).map (fun l => (.incremental l.1 l.2.1,l.2.2))
    else if first &&& 0x20 ≠ 0 then
      match int buf 5 with
      | .error _ => none
      | .ok (n,rest) => some (.resize n,rest)
    else (parseLiteral buf 4).map (fun l => (.plain l.1 l.2.1,l.2.2))

def Table.fieldName (t : Table) : FieldName → Option Bytes
  | .indexed i => (t.index i).map Header.name
  | .new name => some name

/-- What one representation does to the table and adds to the header list. -/
def Table.apply (limit : ℕ) (t : Table) : Representation → Option (Table × List Header)
  | .indexed i => (t.index i).map (fun h => (t,[h]))
  | .incremental name value => (t.fieldName name).map (fun n => (t.insert ⟨n,value⟩,[⟨n,value⟩]))
  | .resize n => if n ≤ limit then some (t.resize n,[]) else none
  | .plain name value => (t.fieldName name).map (fun n => (t,[⟨n,value⟩]))

/-- `Block limit t b hs u`: the header block `b` spells the list `hs` and takes
the table `t` to `u`. -/
inductive Block (limit : ℕ) : Table → Bytes → List Header → Table → Prop
  | nil (t : Table) : Block limit t [] [] t
  | cons {t u v : Table} {b rest : Bytes} {r : Representation} {hs ks : List Header} :
    parseRepresentation b = some (r,rest) → t.apply limit r = some (u,hs) → Block limit u rest ks v →
      Block limit t b (hs ++ ks) v

/-- The table after a sequence of blocks. -/
inductive Blocks (limit : ℕ) (t : Table) : List Bytes → Table → Prop
  | nil : Blocks limit t [] t
  | snoc {bs : List Bytes} {b : Bytes} {hs : List Header} {u v : Table} :
    Blocks limit t bs u → Block limit u b hs v → Blocks limit t (bs ++ [b]) v

theorem Block.deterministic {limit : ℕ} {t u u' : Table} {b : Bytes} {hs hs' : List Header}
    (h : Block limit t b hs u) (h' : Block limit t b hs' u') : hs = hs' ∧ u = u' := by
  induction h generalizing hs' u' with
  | nil t =>
    cases h' with
    | nil => exact ⟨rfl,rfl⟩
    | cons hp _ _ => cases hp
  | cons hp ha _ ih =>
    cases h' with
    | nil => cases hp
    | cons hp' ha' hb' =>
      rw [hp] at hp'
      cases hp'
      rw [ha] at ha'
      cases ha'
      obtain ⟨rfl,rfl⟩ := ih hb'
      exact ⟨rfl,rfl⟩

theorem Blocks.deterministic {limit : ℕ} {t u u' : Table} {bs : List Bytes}
    (h : Blocks limit t bs u) (h' : Blocks limit t bs u') : u = u' := by
  induction h generalizing u' with
  | nil =>
    generalize hn : ([] : List Bytes) = ns at h'
    cases h' with
    | nil => rfl
    | snoc _ _ => simp at hn
  | @snoc bs b hs u v _ hb ih =>
    generalize hn : bs ++ [b] = ns at h'
    cases h' with
    | nil => simp at hn
    | snoc h1 h2 =>
      obtain ⟨rfl,hb'⟩ := List.append_inj' hn rfl
      cases hb'
      obtain rfl := ih h1
      exact (hb.deterministic h2).2

end Prescribed

section Agreement

/-- The decoder holds a prescribed table, with its size counted exactly. -/
structure Agrees (d : Decoder) (t : Table) : Prop where
  dynamic : d.dynamic = t.entries
  maxSize : d.maxSize = t.maxSize
  size : d.size = total entrySize t.entries

theorem agrees_new (n : ℕ) : Agrees (Decoder.new n) (Table.empty n) := ⟨rfl,rfl,rfl⟩

theorem evict_dynamic {d : Decoder} (hs : d.size = total entrySize d.dynamic) :
    d.evict.dynamic = fit entrySize d.maxSize d.dynamic ∧
      d.evict.size = total entrySize (fit entrySize d.maxSize d.dynamic) := by
  simp only [Decoder.evict,hs,popWhile_eq_fit,List.reverse_reverse,and_self]

theorem Agrees.insert {d : Decoder} {t : Table} (h : Agrees d t) (f : Header) :
    Agrees (d.insert f) (t.insert f) := by
  rcases d with ⟨dyn,size,mx,smx⟩
  obtain ⟨rfl,rfl,rfl⟩ := h
  unfold Decoder.insert
  by_cases hc : t.maxSize < entrySize f
  · have hfit : fit entrySize t.maxSize (f :: t.entries) = [] := by
      rw [fit,if_neg (by omega)]
    rw [if_pos hc]
    exact ⟨by simp [Table.insert,hfit],rfl,by simp [Table.insert,hfit]⟩
  · rw [if_neg hc]
    have he := evict_dynamic
      (d := ⟨f :: t.entries,total entrySize t.entries + entrySize f,t.maxSize,smx⟩)
      (by simp [Nat.add_comm])
    exact ⟨he.1,rfl,he.2⟩

theorem Agrees.resize {d : Decoder} {t : Table} (h : Agrees d t) (n : ℕ) :
    Agrees { d with maxSize := n }.evict (t.resize n) := by
  rcases d with ⟨dyn,size,mx,smx⟩
  obtain ⟨rfl,rfl,rfl⟩ := h
  have he := evict_dynamic (d := ⟨t.entries,total entrySize t.entries,n,smx⟩) rfl
  exact ⟨he.1,rfl,he.2⟩

/-- A new limit not below the current size of the table changes nothing in it. -/
theorem Agrees.setMaxSize {d : Decoder} {t : Table} (h : Agrees d t) {n : ℕ} (hn : d.maxSize ≤ n) :
    Agrees (d.setMaxSize n) t := by
  simp only [Decoder.setMaxSize]
  rw [if_neg (by omega)]
  exact ⟨h.dynamic,h.maxSize,h.size⟩

theorem Agrees.lookup {d : Decoder} {t : Table} (h : Agrees d t) {i : ℕ} {f : Header}
    (hi : t.index i = some f) : d.lookup i = .ok f := by
  unfold Table.index at hi
  unfold Decoder.lookup
  by_cases h0 : i = 0
  · rw [if_pos h0] at hi
    cases hi
  rw [if_neg h0] at hi ⊢
  by_cases hs : i ≤ staticTable.length
  · rw [List.getElem?_append_left (by simpa using by omega),List.getElem?_map] at hi
    obtain ⟨e,he,rfl⟩ := Option.map_eq_some_iff.mp hi
    simp [hs,he]
  · rw [List.getElem?_append_right (by simpa using by omega),List.length_map] at hi
    have hk : i - 1 - staticTable.length = i - staticTable.length - 1 := by omega
    rw [hk] at hi
    simp [hs,h.dynamic,hi]

theorem Agrees.literal {d : Decoder} {t : Table} (h : Agrees d t) {buf rest value n : Bytes} {bits : ℕ}
    {name : FieldName} (hl : parseLiteral buf bits = some (name,value,rest)) (hn : t.fieldName name = some n) :
    ∃ i mid, int buf bits = .ok (i,mid) ∧ d.literal i mid = .ok (⟨n,value⟩,rest) := by
  unfold parseLiteral parseName at hl
  cases hi : int buf bits with
  | error e => simp [hi] at hl
  | ok im =>
    obtain ⟨i,mid⟩ := im
    refine ⟨i,mid,rfl,?_⟩
    simp only [hi] at hl
    by_cases h0 : i = 0
    · simp only [h0,if_true] at hl
      cases hs : string mid with
      | error e => simp [hs] at hl
      | ok sm =>
        obtain ⟨s,mid'⟩ := sm
        simp only [hs] at hl
        cases hv : string mid' with
        | error e => simp [hv] at hl
        | ok vm =>
          simp only [hv,Option.some.injEq,Prod.mk.injEq] at hl
          obtain ⟨rfl,rfl,rfl⟩ := hl
          cases hn
          simp only [Decoder.literal,h0,if_true,hs,hv,bind,Except.bind,pure,Except.pure]
    · simp only [h0,if_false] at hl
      cases hv : string mid with
      | error e => simp [hv] at hl
      | ok vm =>
        simp only [hv,Option.some.injEq,Prod.mk.injEq] at hl
        obtain ⟨rfl,rfl,rfl⟩ := hl
        obtain ⟨f,hf,rfl⟩ := Option.map_eq_some_iff.mp hn
        simp only [Decoder.literal,h0,if_false,h.lookup hf,hv,bind,Except.bind,pure,Except.pure]

/-- One turn of the loop on a legal representation within the limit: the
decoder refuses it or does to its table what the RFC prescribes. -/
theorem Agrees.field {limit maxList : ℕ} {p : Progress} {t u : Table} {r : Representation} {first : UInt8}
    {tail rest : Bytes} {hs : List Header} (h : Agrees p.dec t) (hb : p.buf = first :: tail)
    (hp : parseRepresentation p.buf = some (r,rest)) (ha : t.apply limit r = some (u,hs))
    (hl : p.listed + total entrySize hs ≤ maxList) :
    Decoder.field maxList p first = .error .compression ∨
      ∃ q, Decoder.field maxList p first = .ok q ∧ q.buf = rest ∧ Agrees q.dec u ∧ q.out = p.out ++ hs ∧
        q.listed = p.listed + total entrySize hs := by
  have hcharge (f : Header) (hf : hs = [f]) : charge p.listed f maxList = .ok (p.listed + entrySize f) := by
    subst hf
    simp only [total_cons,total_nil,Nat.add_zero] at hl
    rw [charge,if_neg (by omega)]
  simp only [parseRepresentation,hb] at hp
  rw [← hb] at hp
  unfold Decoder.field
  by_cases h80 : first &&& 0x80 ≠ 0
  · rw [if_pos h80] at hp ⊢
    right
    cases hi : int p.buf 7 with
    | error e => simp [hi] at hp
    | ok im =>
      obtain ⟨i,mid⟩ := im
      simp only [hi,Option.some.injEq,Prod.mk.injEq] at hp
      obtain ⟨rfl,rfl⟩ := hp
      obtain ⟨f,hf,he⟩ := Option.map_eq_some_iff.mp ha
      cases he
      simp only [h.lookup hf,hcharge f rfl,bind,Except.bind,pure,Except.pure]
      exact ⟨_,rfl,rfl,h,rfl,by simp⟩
  · rw [if_neg h80] at hp ⊢
    by_cases h40 : first &&& 0x40 ≠ 0
    · rw [if_pos h40] at hp ⊢
      right
      obtain ⟨⟨name,value,mid⟩,hlit,he⟩ := Option.map_eq_some_iff.mp hp
      cases he
      obtain ⟨n,hn,he⟩ := Option.map_eq_some_iff.mp ha
      cases he
      obtain ⟨i,mid,hi,hd⟩ := h.literal hlit hn
      simp only [hi,hd,hcharge _ rfl,bind,Except.bind,pure,Except.pure]
      exact ⟨_,rfl,rfl,h.insert _,rfl,by simp⟩
    · rw [if_neg h40] at hp ⊢
      by_cases h20 : first &&& 0x20 ≠ 0
      · rw [if_pos h20] at hp ⊢
        cases hi : int p.buf 5 with
        | error e => simp [hi] at hp
        | ok im =>
          obtain ⟨n,mid⟩ := im
          simp only [hi,Option.some.injEq,Prod.mk.injEq] at hp
          obtain ⟨rfl,rfl⟩ := hp
          simp only [Table.apply] at ha
          split at ha
          · cases ha
            by_cases hseen : p.seenField = true
            · left
              simp [hseen,bind,Except.bind,throw,throwThe,MonadExceptOf.throw]
            · by_cases hmax : p.dec.settingsMax < n
              · left
                simp [hseen,hmax,bind,Except.bind,throw,throwThe,MonadExceptOf.throw]
              · right
                simp only [hseen,hmax,if_false,bind,Except.bind,pure,Except.pure]
                exact ⟨_,rfl,rfl,h.resize n,by simp,by simp⟩
          · cases ha
      · rw [if_neg h20] at hp ⊢
        right
        obtain ⟨⟨name,value,mid⟩,hlit,he⟩ := Option.map_eq_some_iff.mp hp
        cases he
        obtain ⟨n,hn,he⟩ := Option.map_eq_some_iff.mp ha
        cases he
        obtain ⟨i,mid,hi,hd⟩ := h.literal hlit hn
        simp only [hi,hd,hcharge _ rfl,bind,Except.bind,pure,Except.pure]
        exact ⟨_,rfl,rfl,h,rfl,by simp⟩

end Agreement

section Blocks

theorem intLoop_length {buf rest : Bytes} {v s n : ℕ} (h : intLoop buf v s = .ok (n,rest)) :
    rest.length < buf.length := by
  induction buf generalizing v s with
  | nil => cases h
  | cons b buf ih =>
    unfold intLoop at h
    split at h
    · cases h
    · split at h
      · cases h
      · split at h
        · cases h
          simp
        · have := ih h
          simp only [List.length_cons]
          omega

theorem int_length {buf rest : Bytes} {bits n : ℕ} (h : int buf bits = .ok (n,rest)) :
    rest.length < buf.length := by
  unfold int at h
  split at h
  · cases h
  · split at h
    · cases h
      simp
    · have := intLoop_length h
      simp only [List.length_cons]
      omega

theorem string_length {buf s rest : Bytes} (h : string buf = .ok (s,rest)) : rest.length < buf.length := by
  unfold string at h
  split at h
  · cases h
  · split at h
    · cases h
    · rename_i hi
      have := int_length hi
      split at h
      · cases h
      · simp only at h
        split at h
        · cases h
        · split at h
          · cases h
            simp only [List.length_drop]
            omega
          · cases h

theorem parseLiteral_length {buf rest value : Bytes} {bits : ℕ} {name : FieldName}
    (h : parseLiteral buf bits = some (name,value,rest)) : rest.length < buf.length := by
  unfold parseLiteral parseName at h
  cases hi : int buf bits with
  | error e => simp [hi] at h
  | ok im =>
    obtain ⟨i,mid⟩ := im
    have h1 := int_length hi
    simp only [hi] at h
    by_cases h0 : i = 0
    · simp only [h0,if_true] at h
      cases hs : string mid with
      | error e => simp [hs] at h
      | ok sm =>
        obtain ⟨s,mid'⟩ := sm
        have h2 := string_length hs
        simp only [hs] at h
        cases hv : string mid' with
        | error e => simp [hv] at h
        | ok vm =>
          have h3 := string_length hv
          simp only [hv,Option.some.injEq,Prod.mk.injEq] at h
          obtain ⟨-,-,rfl⟩ := h
          omega
    · simp only [h0,if_false] at h
      cases hv : string mid with
      | error e => simp [hv] at h
      | ok vm =>
        have h3 := string_length hv
        simp only [hv,Option.some.injEq,Prod.mk.injEq] at h
        obtain ⟨-,-,rfl⟩ := h
        omega

theorem parseRepresentation_length {buf rest : Bytes} {r : Representation}
    (h : parseRepresentation buf = some (r,rest)) : rest.length < buf.length := by
  unfold parseRepresentation at h
  split at h
  · cases h
  · split at h
    · split at h
      · cases h
      · rename_i hi
        cases h
        exact int_length hi
    · split at h
      · obtain ⟨⟨name,value,mid⟩,hl,he⟩ := Option.map_eq_some_iff.mp h
        cases he
        exact parseLiteral_length hl
      · split at h
        · split at h
          · cases h
          · rename_i hi
            cases h
            exact int_length hi
        · obtain ⟨⟨name,value,mid⟩,hl,he⟩ := Option.map_eq_some_iff.mp h
          cases he
          exact parseLiteral_length hl

theorem Block.decodeLoop {limit maxList fuel : ℕ} {t u : Table} {b : Bytes} {hs : List Header} {p : Progress}
    (hb : Block limit t b hs u) (ha : Agrees p.dec t) (hp : p.buf = b) (hf : b.length ≤ fuel)
    (hl : p.listed + total entrySize hs ≤ maxList) :
    (Decoder.decodeLoop maxList fuel p).2 = .error .compression ∨
      ((Decoder.decodeLoop maxList fuel p).2 = .ok () ∧ Agrees (Decoder.decodeLoop maxList fuel p).1.dec u ∧
        (Decoder.decodeLoop maxList fuel p).1.out = p.out ++ hs) := by
  induction hb generalizing p fuel with
  | nil t =>
    right
    have he : Decoder.decodeLoop maxList fuel p = (p,.ok ()) := by
      cases fuel with
      | zero => rfl
      | succ fuel => simp only [Decoder.decodeLoop,hp]
    rw [he]
    exact ⟨rfl,ha,by simp⟩
  | @cons t u v b rest r hs ks hr hap _ ih =>
    have hlen := parseRepresentation_length hr
    cases b with
    | nil => cases hr
    | cons first tail =>
      cases fuel with
      | zero => simp at hf
      | succ fuel =>
        rw [total_append] at hl
        simp only [Decoder.decodeLoop,hp]
        rcases ha.field hp (hp ▸ hr) hap (by omega : _ ≤ maxList) with he | ⟨q,hq,hbuf,hag,hout,hlist⟩
        · left
          rw [he]
        · rw [hq]
          simp only [List.length_cons] at hf hlen
          have hfuel : rest.length ≤ fuel := by omega
          rcases ih hag hbuf hfuel (by rw [hlist]; omega) with he | ⟨hok,hag',hout'⟩
          · exact Or.inl he
          · exact Or.inr ⟨hok,hag',by rw [hout',hout,List.append_assoc]⟩

/-- A legal block within the limit is refused as a connection error or decoded
whole, with the table the RFC prescribes. -/
theorem Block.decode {limit maxList : ℕ} {d : Decoder} {t u : Table} {b : Bytes} {hs : List Header}
    (hb : Block limit t b hs u) (ha : Agrees d t) (hl : total entrySize hs ≤ maxList) :
    (d.decode b maxList).2.2 = .error .compression ∨
      ((d.decode b maxList).2.2 = .ok () ∧ Agrees (d.decode b maxList).1 u ∧ (d.decode b maxList).2.1 = hs) := by
  have h := hb.decodeLoop (p := ⟨d,b,0,false,[]⟩) ha rfl (Nat.le_refl _) (by simpa using hl)
  simpa [Decoder.decode] using h

end Blocks

end OxiServe.Hpack
