import OxiServe.Http2.Conn
import OxiServe.Http2.RoundTrip
import OxiServe.Http3.Request

/-! # Encoded field sections

The encoder of field sections and what the decoder makes of its output. The two
agree but for the cap on a decoded Huffman string, which is below the limit on a
list and does not hold for a raw string.
-/
namespace OxiServe.Qpack
open Hpack (Header HpackError int writeInt writeInt_head int_writeInt Textual Sized)
open BoundedFifo

section Encode

/-- The section prefix: no insert is required and the base is zero. -/
def beginSection : Bytes := [0x00,0x00]

/-- A string literal: the `H` bit right above a length of `bits` bits. -/
def writeString (s : Bytes) (bits : ℕ) (flags : UInt8) : Bytes :=
  if Huffman.encodedLen s < s.length then
    writeInt (Huffman.encodedLen s) bits (flags ||| (2 ^ bits).toUInt8) ++ Huffman.encode s
  else writeInt s.length bits flags ++ s

/-- Appends one field line. -/
def encode (name value : Bytes) : Bytes :=
  match staticTable.findIdx? (fun e => e.1 == name && e.2 == value) with
  | some i => writeInt i 6 0xc0
  | none =>
    (match staticTable.findIdx? (fun e => e.1 == name) with
      | some i => writeInt i 4 0x50
      | none => writeString name 3 0x20) ++ writeString value 7 0x00

def encodeSection (hs : List Header) : Bytes := beginSection ++ hs.flatMap fun h => encode h.name h.value

/-- The strings a field line spells; the others are in the table. -/
def literals (h : Header) : List Bytes :=
  match staticTable.findIdx? (fun e => e.1 == h.name && e.2 == h.value) with
  | some _ => []
  | none =>
    match staticTable.findIdx? (fun e => e.1 == h.name) with
    | some _ => [h.value]
    | none => [h.name,h.value]

/-- A string is sent raw, or it is no longer than what the decoder takes. -/
def Fits (s : Bytes) : Prop := Huffman.encodedLen s < s.length → s.length ≤ maxString

instance : DecidablePred Fits := fun s =>
  inferInstanceAs (Decidable (Huffman.encodedLen s < s.length → s.length ≤ maxString))

/-- Every string that the list spells is. -/
def Spelled (hs : List Header) : Prop := ∀ h ∈ hs, ∀ s ∈ literals h, Fits s

end Encode

section Strings

/-- The place of a string literal in its first byte. -/
structure Coding (bits : ℕ) (flags : UInt8) : Prop where
  pos : 0 < bits
  le : bits ≤ 8
  low : flags.toNat % 2 ^ bits = 0
  huffLow : (flags ||| (2 ^ bits).toUInt8).toNat % 2 ^ bits = 0
  raw : ∀ m < 2 ^ bits, (flags ||| m.toUInt8).toNat / 2 ^ bits % 2 = 0
  huff : ∀ m < 2 ^ bits, ((flags ||| (2 ^ bits).toUInt8) ||| m.toUInt8).toNat / 2 ^ bits % 2 = 1

theorem nameCoding : Coding 3 0x20 where
  pos := by decide
  le := by decide
  low := by decide
  huffLow := by decide
  raw := by decide +kernel
  huff := by decide +kernel

theorem valueCoding : Coding 7 0x00 where
  pos := by decide
  le := by decide
  low := by decide
  huffLow := by decide
  raw := by decide +kernel
  huff := by decide +kernel

variable {bits : ℕ} {flags : UInt8} {s rest : Bytes}

theorem readString_of_some {b : UInt8} {tail body : Bytes}
    (hint : int (b :: tail) bits = .ok (body.length,body ++ rest))
    (hd : (if b.toNat / 2 ^ bits % 2 = 1 then Huffman.decode body maxString else some body) = some s)
    (hs : utf8Valid s = true) : readString (b :: tail) bits = .ok (s,rest) := by
  have hlen : ¬ (body ++ rest).length < body.length := by simp
  simp only [readString,hint,ofHpack,bind,Except.bind,if_neg hlen,List.take_left,List.drop_left,hd,if_pos hs]
  rfl

theorem readString_of_none {b : UInt8} {tail body : Bytes}
    (hint : int (b :: tail) bits = .ok (body.length,body ++ rest))
    (hd : (if b.toNat / 2 ^ bits % 2 = 1 then Huffman.decode body maxString else some body) = none) :
    readString (b :: tail) bits = .error .decompressionFailed := by
  have hlen : ¬ (body ++ rest).length < body.length := by simp
  simp only [readString,hint,ofHpack,bind,Except.bind,if_neg hlen,List.take_left,hd]
  rfl

/-- A string is read back, unless it was coded and is too long. -/
theorem readString_writeString (hc : Coding bits flags) (rest : Bytes) (hs : utf8Valid s = true)
    (hlen : s.length < 2 ^ 63) : readString (writeString s bits flags ++ rest) bits =
      if Fits s then .ok (s,rest) else .error .decompressionFailed := by
  unfold writeString
  by_cases hshort : Huffman.encodedLen s < s.length
  · rw [if_pos hshort]
    obtain ⟨m,tail,hm,hhead⟩ := writeInt_head (Huffman.encodedLen s) bits (flags ||| (2 ^ bits).toUInt8)
    have hint := int_writeInt (Huffman.encode s ++ rest) hc.le hc.pos hc.huffLow
      (by omega : Huffman.encodedLen s < 2 ^ 63)
    rw [hhead,List.cons_append,← Huffman.length_encode] at hint
    have hpos := Nat.two_pow_pos bits
    have hbit := hc.huff m (by omega)
    rw [hhead,List.append_assoc,List.cons_append]
    by_cases hfit : s.length ≤ maxString
    · have hf : Fits s := fun _ => hfit
      rw [if_pos hf]
      exact readString_of_some hint (by rw [if_pos hbit,Huffman.decode_encode hfit]) hs
    · have hf : ¬ Fits s := fun hf => hfit (hf hshort)
      rw [if_neg hf]
      exact readString_of_none hint (by rw [if_pos hbit,Huffman.decode_encode_none (Nat.not_le.mp hfit)])
  · rw [if_neg hshort]
    obtain ⟨m,tail,hm,hhead⟩ := writeInt_head s.length bits flags
    have hint := int_writeInt (s ++ rest) hc.le hc.pos hc.low hlen
    rw [hhead,List.cons_append] at hint
    have hpos := Nat.two_pow_pos bits
    have hbit := hc.raw m (by omega)
    have hraw : ¬ (flags ||| m.toUInt8).toNat / 2 ^ bits % 2 = 1 := by omega
    have hf : Fits s := fun h => absurd h hshort
    rw [hhead,List.append_assoc,List.cons_append,if_pos hf]
    exact readString_of_some hint (if_neg hraw) hs

end Strings

section Fields
variable {h : Header} {rest : Bytes} {i : ℕ}

theorem find_static {p : Bytes × Bytes → Bool} (h : staticTable.findIdx? p = some i) :
    ∃ e, staticAt i = .ok e ∧ p e = true ∧ i < 99 := by
  obtain ⟨hi,hp,-⟩ := List.findIdx?_eq_some_iff_getElem.mp h
  refine ⟨staticTable[i],?_,hp,hi⟩
  rw [staticAt,List.getElem?_eq_getElem hi]

theorem indexed_bits : ∀ m < 64, ((0xc0 : UInt8) ||| m.toUInt8) &&& 0x80 ≠ 0 ∧
    ((0xc0 : UInt8) ||| m.toUInt8) &&& 0x40 ≠ 0 := by decide +kernel

theorem named_bits : ∀ m < 16, ((0x50 : UInt8) ||| m.toUInt8) &&& 0x80 = 0 ∧
    ((0x50 : UInt8) ||| m.toUInt8) &&& 0x40 ≠ 0 ∧ ((0x50 : UInt8) ||| m.toUInt8) &&& 0x10 ≠ 0 := by decide +kernel

theorem literal_bits : ∀ m < 16, ((0x20 : UInt8) ||| m.toUInt8) &&& 0x80 = 0 ∧
    ((0x20 : UInt8) ||| m.toUInt8) &&& 0x40 = 0 ∧ ((0x20 : UInt8) ||| m.toUInt8) &&& 0x20 ≠ 0 := by decide +kernel

/-- The first byte of a literal name. -/
theorem writeString_name_head (s : Bytes) : ∃ m tail, m < 16 ∧ writeString s 3 0x20 = ((0x20 : UInt8) ||| m.toUInt8) :: tail := by
  have hor : ∀ m < 8, ((0x20 : UInt8) ||| (2 ^ 3).toUInt8) ||| m.toUInt8 = (0x20 : UInt8) ||| (m + 8).toUInt8 := by
    decide +kernel
  unfold writeString
  split
  · obtain ⟨m,tail,hm,hhead⟩ := writeInt_head (Huffman.encodedLen s) 3 (0x20 ||| (2 ^ 3).toUInt8)
    refine ⟨m + 8,tail ++ Huffman.encode s,by omega,?_⟩
    rw [hhead,List.cons_append,hor m (by omega)]
  · obtain ⟨m,tail,hm,hhead⟩ := writeInt_head s.length 3 0x20
    refine ⟨m,tail ++ s,by omega,?_⟩
    rw [hhead,List.cons_append]

/-- The decoder's answer to one encoded field line. -/
theorem fieldLine_encode (ht : Textual h) (hz : Sized h) (rest : Bytes) :
    ∃ first tail, encode h.name h.value ++ rest = first :: tail ∧ fieldLine (first :: tail) first =
      if ∀ s ∈ literals h, Fits s then .ok (h,rest) else .error .decompressionFailed := by
  unfold encode literals
  cases hfull : staticTable.findIdx? (fun e => e.1 == h.name && e.2 == h.value) with
  | some i =>
    obtain ⟨⟨n,v⟩,hat,heq,hi⟩ := find_static hfull
    simp only [Bool.and_eq_true,beq_iff_eq] at heq
    obtain ⟨rfl,rfl⟩ := heq
    obtain ⟨m,tail,hm,hhead⟩ := writeInt_head i 6 0xc0
    have hint := int_writeInt rest (by decide : 6 ≤ 8) (by decide) (by decide : (0xc0 : UInt8).toNat % 2 ^ 6 = 0)
      (by omega : i < 2 ^ 63)
    obtain ⟨h80,h40⟩ := indexed_bits m (by omega)
    have hbytes : writeInt i 6 0xc0 ++ rest = ((0xc0 : UInt8) ||| m.toUInt8) :: (tail ++ rest) := by
      rw [hhead,List.cons_append]
    refine ⟨0xc0 ||| m.toUInt8,tail ++ rest,hbytes,?_⟩
    rw [hbytes] at hint
    rw [fieldLine,if_pos h80,if_neg h40,hint,if_pos (by simp)]
    simp only [ofHpack,bind,Except.bind,hat]
    rfl
  | none =>
    cases hname : staticTable.findIdx? (fun e => e.1 == h.name) with
    | some i =>
      obtain ⟨⟨n,v⟩,hat,heq,hi⟩ := find_static hname
      simp only [beq_iff_eq] at heq
      subst heq
      obtain ⟨m,tail,hm,hhead⟩ := writeInt_head i 4 0x50
      have hint := int_writeInt (writeString h.value 7 0x00 ++ rest) (by decide : 4 ≤ 8) (by decide)
        (by decide : (0x50 : UInt8).toNat % 2 ^ 4 = 0) (by omega : i < 2 ^ 63)
      have hval := readString_writeString valueCoding rest ht.2 hz.2
      obtain ⟨h80,h40,h10⟩ := named_bits m (by omega)
      have hbytes : writeInt i 4 0x50 ++ writeString h.value 7 0x00 ++ rest =
          ((0x50 : UInt8) ||| m.toUInt8) :: (tail ++ (writeString h.value 7 0x00 ++ rest)) := by
        rw [hhead,List.append_assoc,List.cons_append]
      refine ⟨0x50 ||| m.toUInt8,tail ++ (writeString h.value 7 0x00 ++ rest),hbytes,?_⟩
      rw [← List.append_assoc,hbytes] at hint
      rw [fieldLine,if_neg (not_not.mpr h80),if_pos h40,if_neg h10,hint]
      simp only [ofHpack,bind,Except.bind,hat,hval,List.forall_mem_singleton]
      by_cases hfv : Fits h.value
      · rw [if_pos hfv,if_pos hfv]
        rfl
      · rw [if_neg hfv,if_neg hfv]
    | none =>
      have hread := readString_writeString nameCoding (writeString h.value 7 0x00 ++ rest) ht.1 hz.1
      have hval := readString_writeString valueCoding rest ht.2 hz.2
      obtain ⟨m,tail,hm,hhead⟩ := writeString_name_head h.name
      obtain ⟨h80,h40,h20⟩ := literal_bits m (by omega)
      have hbytes : writeString h.name 3 0x20 ++ writeString h.value 7 0x00 ++ rest =
          ((0x20 : UInt8) ||| m.toUInt8) :: (tail ++ (writeString h.value 7 0x00 ++ rest)) := by
        rw [hhead,List.append_assoc,List.cons_append]
      refine ⟨0x20 ||| m.toUInt8,tail ++ (writeString h.value 7 0x00 ++ rest),hbytes,?_⟩
      rw [← List.append_assoc,hbytes] at hread
      rw [fieldLine,if_neg (not_not.mpr h80),if_neg (not_not.mpr h40),if_pos h20,hread]
      by_cases hfn : Fits h.name
      · simp only [if_pos hfn,bind,Except.bind,hval]
        by_cases hfv : Fits h.value
        · rw [if_pos hfv,if_pos (by simp [hfn,hfv])]
          rfl
        · rw [if_neg hfv,if_neg (by simp [hfv])]
      · simp only [if_neg hfn,bind,Except.bind]
        rw [if_neg (by simp [hfn])]

end Fields

section Lists
variable {max : ℕ} {hs : List Header}

theorem encode_pos {h : Header} (ht : Textual h) (hz : Sized h) : 0 < (encode h.name h.value).length := by
  obtain ⟨first,tail,hb,-⟩ := fieldLine_encode ht hz []
  rw [List.append_nil] at hb
  rw [hb]
  exact Nat.succ_pos _

theorem length_writeString_le (s : Bytes) (bits : ℕ) (flags : UInt8) :
    (writeString s bits flags).length ≤ s.length + 11 := by
  unfold writeString
  split
  · have hi := Hpack.length_writeInt_le (Huffman.encodedLen s) bits (flags ||| (2 ^ bits).toUInt8)
    rw [List.length_append,Huffman.length_encode]
    omega
  · have hi := Hpack.length_writeInt_le s.length bits flags
    rw [List.length_append]
    omega

theorem length_encode_le (h : Header) : (encode h.name h.value).length + 10 ≤ fieldSize h := by
  have hn := length_writeString_le h.name 3 0x20
  have hv := length_writeString_le h.value 7 0x00
  unfold encode fieldSize fieldOverhead
  split
  · have hi := Hpack.length_writeInt_le
    exact (Nat.add_le_add_right (hi _ _ _) 10).trans (by omega)
  · rw [List.length_append]
    split
    · have hi := Hpack.length_writeInt_le
      exact (Nat.add_le_add_right (Nat.add_le_add (hi _ _ _) hv) 10).trans (by omega)
    · omega

theorem length_fields_le (hs : List Header) :
    (hs.flatMap fun h => encode h.name h.value).length + 10 * hs.length ≤ total fieldSize hs := by
  induction hs with
  | nil => exact Nat.zero_le _
  | cons h hs ih =>
    have hh := length_encode_le h
    rw [List.flatMap_cons,List.length_append,total_cons,List.length_cons]
    omega

/-- A section is no longer than the charged size of its list. -/
theorem length_encodeSection_le (hs : List Header) : (encodeSection hs).length ≤ Nat.max 2 (total fieldSize hs) := by
  have hl := length_fields_le hs
  have htwo : beginSection.length = 2 := rfl
  rw [encodeSection,List.length_append,htwo]
  cases hs with
  | nil => exact Nat.le_max_left _ _
  | cons h hs =>
    rw [List.length_cons] at hl
    exact le_trans (by omega) (Nat.le_max_right _ _)

theorem readPrefix_encodeSection (hs : List Header) :
    readPrefix (encodeSection hs) = .ok (hs.flatMap fun h => encode h.name h.value) := rfl

theorem decodeLoop_fields (ht : ∀ h ∈ hs, Textual h) (hz : ∀ h ∈ hs, Sized h) {fuel size : ℕ} {out : List Header}
    (hfuel : hs.length ≤ fuel) (hsp : Spelled hs) (hfit : size + total fieldSize hs ≤ max) :
    decodeLoop max fuel (hs.flatMap fun h => encode h.name h.value) size out = .ok (out ++ hs) := by
  induction hs generalizing fuel size out with
  | nil =>
    rw [List.append_nil]
    cases fuel with
    | zero => rfl
    | succ fuel => rfl
  | cons h hs ih =>
    simp only [total_cons] at hfit
    obtain ⟨fuel,rfl⟩ := Nat.exists_eq_succ_of_ne_zero (by simp at hfuel; omega : fuel ≠ 0)
    obtain ⟨first,tail,hb,hline⟩ := fieldLine_encode (ht h List.mem_cons_self) (hz h List.mem_cons_self)
      (hs.flatMap fun h => encode h.name h.value)
    rw [if_pos (hsp h List.mem_cons_self)] at hline
    rw [List.flatMap_cons,hb,decodeLoop]
    simp only [hline]
    rw [if_neg (by omega),ih (fun g hg => ht g (List.mem_cons_of_mem _ hg))
      (fun g hg => hz g (List.mem_cons_of_mem _ hg)) (by simpa using hfuel)
      (fun g hg => hsp g (List.mem_cons_of_mem _ hg)) (by omega),List.append_assoc]
    rfl

theorem decodeLoop_refuses (ht : ∀ h ∈ hs, Textual h) (hz : ∀ h ∈ hs, Sized h) {fuel size : ℕ} {out : List Header}
    (hfuel : hs.length ≤ fuel) (hin : size ≤ max) (hbad : ¬ (Spelled hs ∧ size + total fieldSize hs ≤ max)) :
    ∃ e, decodeLoop max fuel (hs.flatMap fun h => encode h.name h.value) size out = .error e := by
  induction hs generalizing fuel size out with
  | nil =>
    have hnil : Spelled [] := fun _ hm => nomatch hm
    exact absurd ⟨hnil,by simpa using hin⟩ hbad
  | cons h hs ih =>
    simp only [total_cons] at hbad
    obtain ⟨fuel,rfl⟩ := Nat.exists_eq_succ_of_ne_zero (by simp at hfuel; omega : fuel ≠ 0)
    obtain ⟨first,tail,hb,hline⟩ := fieldLine_encode (ht h List.mem_cons_self) (hz h List.mem_cons_self)
      (hs.flatMap fun h => encode h.name h.value)
    rw [List.flatMap_cons,hb,decodeLoop]
    by_cases hsp : ∀ s ∈ literals h, Fits s
    · rw [if_pos hsp] at hline
      simp only [hline]
      by_cases hbig : max < size + fieldSize h
      · rw [if_pos hbig]
        exact ⟨_,rfl⟩
      · rw [if_neg hbig]
        refine ih (fun g hg => ht g (List.mem_cons_of_mem _ hg)) (fun g hg => hz g (List.mem_cons_of_mem _ hg))
          (by simpa using hfuel) (Nat.not_lt.mp hbig) ?_
        rintro ⟨hrest,hfit⟩
        exact hbad ⟨List.forall_mem_cons.mpr ⟨hsp,hrest⟩,by omega⟩
    · rw [if_neg hsp] at hline
      simp only [hline]
      exact ⟨_,rfl⟩

theorem length_le_fields (ht : ∀ h ∈ hs, Textual h) (hz : ∀ h ∈ hs, Sized h) :
    hs.length ≤ (hs.flatMap fun h => encode h.name h.value).length := by
  induction hs with
  | nil => exact Nat.le_refl _
  | cons h hs ih =>
    have hpos := encode_pos (ht h List.mem_cons_self) (hz h List.mem_cons_self)
    have hi := ih (fun g hg => ht g (List.mem_cons_of_mem _ hg)) (fun g hg => hz g (List.mem_cons_of_mem _ hg))
    rw [List.flatMap_cons,List.length_append,List.length_cons]
    omega

/-- A header list as its callers hold it. -/
structure FieldList where
  fields : List Header
  textual : ∀ h ∈ fields, Textual h
  sized : ∀ h ∈ fields, Sized h

/-- The charged size of a list. -/
def FieldList.charged (l : FieldList) : ℕ := total fieldSize l.fields

theorem decode_encodeSection (l : FieldList) (hsp : Spelled l.fields) (hfit : l.charged ≤ max) :
    decode (encodeSection l.fields) max = .ok l.fields := by
  rw [decode,readPrefix_encodeSection]
  dsimp only
  rw [decodeLoop_fields l.textual l.sized (length_le_fields l.textual l.sized) hsp (by rw [Nat.zero_add]; exact hfit)]
  rfl

theorem decode_encodeSection_refused (l : FieldList) (hbad : ¬ (Spelled l.fields ∧ l.charged ≤ max)) :
    ∃ e, decode (encodeSection l.fields) max = .error e := by
  rw [decode,readPrefix_encodeSection]
  dsimp only
  refine decodeLoop_refuses l.textual l.sized (length_le_fields l.textual l.sized) (Nat.zero_le _) ?_
  rw [Nat.zero_add]
  exact hbad

end Lists

section Transports
open Http2 (maxHeaderList)
open Http3 (maxFieldSection)

/-- The list comes back under every limit up to the advertised one that it fits. -/
def RoundTrips (l : FieldList) : Prop :=
  ∀ max ≤ maxFieldSection, l.charged ≤ max → decode (encodeSection l.fields) max = .ok l.fields

/-- HTTP/3 refuses the list: for the length of its section, or when decoding it. -/
def RefusedByHttp3 (l : FieldList) : Prop :=
  maxFieldSection < (encodeSection l.fields).length ∨ ∃ e, decode (encodeSection l.fields) maxFieldSection = .error e

/-- HTTP/2 refuses the list: for the length of its block, or when decoding it. -/
def RefusedByHttp2 (d : Hpack.Decoder) (peerMax : ℕ) (l : FieldList) : Prop :=
  maxHeaderList * 2 < (Hpack.encodeList peerMax l.fields).length ∨
    ∃ e, (d.decode (Hpack.encodeList peerMax l.fields) maxHeaderList).2.2 = .error e

theorem refusedByHttp3_iff (l : FieldList) :
    RefusedByHttp3 l ↔ ¬ (Spelled l.fields ∧ l.charged ≤ maxFieldSection) := by
  constructor
  · rintro (hlen | ⟨e,he⟩) ⟨hsp,hfit⟩
    · have hl := length_encodeSection_le l.fields
      have hmax : maxFieldSection = 65536 := rfl
      have hm : Nat.max 2 (total fieldSize l.fields) ≤ 65536 := Nat.max_le.mpr ⟨by omega,hmax ▸ hfit⟩
      omega
    · rw [decode_encodeSection l hsp hfit] at he
      cases he
  · intro hbad
    exact .inr (decode_encodeSection_refused l hbad)

/-- HTTP/2 refuses a list exactly for its size. -/
theorem refusedByHttp2_iff (d : Hpack.Decoder) (peerMax : ℕ) (l : FieldList) :
    RefusedByHttp2 d peerMax l ↔ maxHeaderList < l.charged := by
  constructor
  · intro h
    by_contra hfit
    have hfit : total Hpack.entrySize l.fields ≤ maxHeaderList := Nat.not_lt.mp hfit
    rcases h with hlen | ⟨e,he⟩
    · have hl := Hpack.length_encodeList_le peerMax l.fields
      have hmax : maxHeaderList = 65536 := rfl
      omega
    · rw [Hpack.decode_encodeList d peerMax (by decide) ⟨l.fields,l.textual,hfit⟩] at he
      cases he
  · intro hbig
    exact .inr (Hpack.decode_encodeList_refused d peerMax (by decide) l.textual l.sized hbig)

/-- A list survives the round trip and is treated alike by the two protocols exactly if
it is over the limit or every string it spells fits the decoder's cap. -/
theorem roundTrips_iff (d : Hpack.Decoder) (peerMax : ℕ) (l : FieldList) :
    RoundTrips l ∧ (RefusedByHttp3 l ↔ RefusedByHttp2 d peerMax l) ↔
      (l.charged ≤ maxFieldSection → Spelled l.fields) := by
  have hmax : maxHeaderList = maxFieldSection := rfl
  rw [refusedByHttp3_iff,refusedByHttp2_iff,hmax]
  constructor
  · rintro ⟨-,hiff⟩ hfit
    by_contra hsp
    have hbig := hiff.mp (fun h => hsp h.1)
    omega
  · intro h
    refine ⟨?_,?_⟩
    · intro max hm hfit
      exact decode_encodeSection l (h (hfit.trans hm)) hfit
    · constructor
      · intro hbad
        by_contra hfit
        exact hbad ⟨h (Nat.not_lt.mp hfit),Nat.not_lt.mp hfit⟩
      · rintro hbig ⟨-,hfit⟩
        omega

theorem utf8Valid_replicate (n : ℕ) : utf8Valid (List.replicate n 48) = true := by
  induction n with
  | zero => rfl
  | succ n ih =>
    have h : utf8Valid ([48] ++ List.replicate n 48) = true := utf8Valid_append (by decide) ih
    exact h

theorem encodedLen_replicate (n : ℕ) : Huffman.encodedLen (List.replicate n 48) = (n * 5 + 7) / 8 := by
  have h5 : (Huffman.table.getD (48 : UInt8).toNat (0,0)).2 = 5 := by decide +kernel
  rw [Huffman.encodedLen,List.map_replicate,List.sum_replicate_nat,h5]

/-- A field with a value of 32769 times the digit zero, which takes five bits. -/
def longValue : FieldList where
  fields := [⟨lit "x-a",List.replicate (maxString + 1) 48⟩]
  textual := by
    intro h hm
    rw [List.mem_singleton.mp hm]
    exact ⟨by decide +kernel,utf8Valid_replicate _⟩
  sized := by
    intro h hm
    rw [List.mem_singleton.mp hm]
    refine ⟨by decide +kernel,?_⟩
    rw [List.length_replicate]
    decide

theorem literals_longName (v : Bytes) : literals ⟨lit "x-a",v⟩ = [lit "x-a",v] := by
  have hnew : ∀ e ∈ staticTable, (e.1 == lit "x-a") = false := by decide +kernel
  have hfull : staticTable.findIdx? (fun e => e.1 == lit "x-a" && e.2 == v) = none := by
    rw [List.findIdx?_eq_none_iff]
    intro e he
    rw [hnew e he,Bool.false_and]
  have hname : staticTable.findIdx? (fun e => e.1 == lit "x-a") = none := List.findIdx?_eq_none_iff.mpr hnew
  simp only [literals,hfull,hname]

theorem longValue_not_spelled : ¬ Spelled longValue.fields := by
  intro h
  have hf := h _ (List.mem_singleton.mpr rfl) (List.replicate (maxString + 1) 48)
    (by rw [literals_longName]; exact List.mem_cons_of_mem _ (List.mem_singleton.mpr rfl))
  unfold Fits at hf
  rw [encodedLen_replicate,List.length_replicate] at hf
  have hmax : maxString = 32768 := rfl
  omega

theorem longValue_charged : longValue.charged ≤ maxFieldSection := by
  have hname : (lit "x-a").length = 3 := by decide
  have hsize : longValue.charged = 3 + (maxString + 1) + fieldOverhead := by
    simp only [FieldList.charged,longValue,total,List.map_cons,List.map_nil,List.sum_cons,List.sum_nil,fieldSize,hname,
      List.length_replicate,Nat.add_zero]
  rw [hsize]
  decide

example : fieldSize ⟨lit "x-a",lit "0"⟩ = 36 := by decide +kernel

/-- A long value that compresses well does not come back. -/
theorem longValue_lost : ¬ ∀ (d : Hpack.Decoder) (peerMax : ℕ) (l : FieldList),
    RoundTrips l ∧ (RefusedByHttp3 l ↔ RefusedByHttp2 d peerMax l) := by
  intro hall
  have hr := (hall (.new 4096) 4096 longValue).1 maxFieldSection (Nat.le_refl _) longValue_charged
  obtain ⟨e,he⟩ := @decode_encodeSection_refused maxFieldSection longValue (fun h => longValue_not_spelled h.1)
  rw [hr] at he
  cases he

end Transports

end OxiServe.Qpack
