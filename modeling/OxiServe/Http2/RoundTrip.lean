import OxiServe.Http2.Hpack
import OxiServe.Http2.HuffmanRound
import Mathlib.Tactic.Ring

/-! # Encoded header blocks decode to their lists

Every piece the encoder writes (prefixed integers, strings in either coding,
static references, the size update that opens a block) is read back by the
decoder, whatever its table holds. A connection's blocks, each from a fresh
encoder, therefore give back their header lists in order.
-/
namespace OxiServe.Hpack
open BoundedFifo

section Integers

theorem intLoop_writeIntLoop (fuel v acc shift : ℕ) (rest : Bytes) (hv : v < 128 ^ fuel) (hf : fuel ≠ 0)
    (hs : shift < 63) (hfit : v * 2 ^ shift < 2 ^ 63) (hacc : acc + v * 2 ^ shift < 2 ^ 64) :
    intLoop (writeIntLoop fuel v ++ rest) acc shift = .ok (acc + v * 2 ^ shift,rest) := by
  induction fuel generalizing v acc shift with
  | zero => exact absurd rfl hf
  | succ fuel ih =>
    rw [writeIntLoop]
    by_cases hlarge : 0x80 ≤ v
    · rw [if_pos hlarge,List.cons_append,intLoop]
      have hbyte : (v % 128 + 128).toUInt8.toNat = v % 128 + 128 := by
        simp only [Nat.toUInt8,UInt8.toNat_ofNat']
        omega
      have hlow : (v % 128 + 128) % 128 = v % 128 := by omega
      have hsplit : v * 2 ^ shift = v % 128 * 2 ^ shift + v / 128 * 2 ^ (shift + 7) := by
        rw [Nat.pow_add,show 2 ^ 7 = 128 from rfl]
        have hdiv := Nat.mod_add_div v 128
        calc v * 2 ^ shift = (v % 128 + 128 * (v / 128)) * 2 ^ shift := by rw [hdiv]
          _ = v % 128 * 2 ^ shift + v / 128 * (2 ^ shift * 128) := by ring
      have hnext : shift + 7 < 63 := by
        by_contra hge
        have hpow : 2 ^ 56 ≤ 2 ^ shift := Nat.pow_le_pow_right (by omega) (by omega)
        have hmul : 128 * 2 ^ 56 ≤ v * 2 ^ shift := Nat.mul_le_mul hlarge hpow
        omega
      have hq : v / 128 < 128 ^ fuel := by
        rw [Nat.pow_succ] at hv
        exact Nat.div_lt_of_lt_mul (by rwa [Nat.mul_comm] at hv)
      have hq0 : fuel ≠ 0 := by
        rintro rfl
        simp only [Nat.zero_add,Nat.pow_one] at hv
        omega
      rw [hbyte,hlow,if_neg (by omega),if_neg (by omega),if_neg (by omega),
        ih (v / 128) (acc + v % 128 * 2 ^ shift) (shift + 7) hq hq0 hnext (by omega) (by omega),hsplit,Nat.add_assoc]
    · have hbyte : v.toUInt8.toNat = v := by
        simp only [Nat.toUInt8,UInt8.toNat_ofNat']
        omega
      rw [if_neg hlarge,List.singleton_append,intLoop,hbyte,Nat.mod_eq_of_lt (by omega : v < 128),
        if_neg (by omega),if_neg (by omega),if_pos (by omega)]

/-- The value a prefix of `bits` bits leaves in the first byte. -/
theorem writeInt_head (v bits : ℕ) (flags : UInt8) : ∃ m tail, m ≤ 2 ^ bits - 1 ∧
    writeInt v bits flags = (flags ||| m.toUInt8) :: tail := by
  unfold writeInt
  split
  · next h => exact ⟨v,[],by omega,rfl⟩
  · exact ⟨2 ^ bits - 1,_,Nat.le_refl _,rfl⟩

theorem toNat_or_mod {m bits : ℕ} {flags : UInt8} (hbits : bits ≤ 8) (hm : m < 2 ^ bits)
    (hflags : flags.toNat % 2 ^ bits = 0) : (flags ||| m.toUInt8).toNat % 2 ^ bits = m := by
  have hlt : m < 256 := Nat.lt_of_lt_of_le hm (Nat.pow_le_pow_right (by omega) hbits)
  have hm8 : m.toUInt8.toNat = m := by
    simp only [Nat.toUInt8,UInt8.toNat_ofNat']
    omega
  rw [UInt8.toNat_or,Nat.or_mod_two_pow,hflags,hm8,Nat.zero_or,Nat.mod_eq_of_lt hm]

/-- The continuation carries what the prefix leaves, up to 63 bits. -/
theorem int_writeInt_continued {v bits : ℕ} {flags : UInt8} (rest : Bytes) (hbits : bits ≤ 8) (hpos : 0 < bits)
    (hflags : flags.toNat % 2 ^ bits = 0) (hv : v - (2 ^ bits - 1) < 2 ^ 63) :
    int (writeInt v bits flags ++ rest) bits = .ok (v,rest) := by
  have hpow : 1 < 2 ^ bits := Nat.one_lt_two_pow (by omega)
  have hmask : 2 ^ bits ≤ 2 ^ 8 := Nat.pow_le_pow_right (by decide) hbits
  unfold writeInt
  split
  · next hsmall =>
    have hmod := toNat_or_mod hbits (by omega : v < 2 ^ bits) hflags
    rw [List.singleton_append,int,hmod,if_pos hsmall]
  · next hlarge =>
    have hmod := toNat_or_mod hbits (by omega : 2 ^ bits - 1 < 2 ^ bits) hflags
    have hfuel : v - (2 ^ bits - 1) < 128 ^ 10 := by
      have h70 : 2 ^ 63 ≤ 128 ^ 10 := by decide
      omega
    rw [List.cons_append,int,hmod,if_neg (Nat.lt_irrefl _),
      intLoop_writeIntLoop 10 _ _ 0 rest hfuel (by omega) (by omega) (by omega) (by omega)]
    congr 2
    omega

theorem int_writeInt {v bits : ℕ} {flags : UInt8} (rest : Bytes) (hbits : bits ≤ 8) (hpos : 0 < bits)
    (hflags : flags.toNat % 2 ^ bits = 0) (hv : v < 2 ^ 63) : int (writeInt v bits flags ++ rest) bits = .ok (v,rest) :=
  int_writeInt_continued rest hbits hpos hflags (by omega)

end Integers

section Strings

theorem string_of_int {b : UInt8} {tail body rest s : Bytes} (hint : int (b :: tail) 7 = .ok (body.length,body ++ rest))
    (hdec : (if 128 ≤ b.toNat then Huffman.decode body maxString else some body) = some s)
    (hs : utf8Valid s = true) : string (b :: tail) = .ok (s,rest) := by
  simp only [string,hint]
  rw [if_neg (by simp),List.take_left,hdec]
  simp [hs]

theorem string_writeString {s : Bytes} (rest : Bytes) (hs : utf8Valid s = true) (hlen : s.length ≤ maxString) :
    string (writeString s ++ rest) = .ok (s,rest) := by
  have hmax : maxString < 2 ^ 63 := by decide
  unfold writeString
  split
  · next hshort =>
    obtain ⟨m,tail,hm,hhead⟩ := writeInt_head (Huffman.encodedLen s) 7 0x80
    have hint := int_writeInt (Huffman.encode s ++ rest) (by omega : 7 ≤ 8) (by omega) (by decide : (0x80 : UInt8).toNat % 2 ^ 7 = 0)
      (by omega : Huffman.encodedLen s < 2 ^ 63)
    have hbit : 128 ≤ ((0x80 : UInt8) ||| m.toUInt8).toNat := by
      rw [UInt8.toNat_or]
      exact Nat.left_le_or
    rw [hhead] at hint
    rw [hhead,List.append_assoc,List.cons_append]
    rw [List.cons_append,← Huffman.length_encode] at hint
    exact string_of_int hint (by rw [if_pos hbit,Huffman.decode_encode hlen]) hs
  · obtain ⟨m,tail,hm,hhead⟩ := writeInt_head s.length 7 0x00
    have hint := int_writeInt (s ++ rest) (by omega : 7 ≤ 8) (by omega) (by decide : (0x00 : UInt8).toNat % 2 ^ 7 = 0)
      (by omega : s.length < 2 ^ 63)
    have hbit : ¬ 128 ≤ ((0x00 : UInt8) ||| m.toUInt8).toNat := by
      simp only [UInt8.toNat_or,Nat.toUInt8,UInt8.toNat_ofNat']
      rw [show (0x00 : UInt8).toNat = 0 from rfl,Nat.zero_or]
      omega
    rw [hhead] at hint
    rw [hhead,List.append_assoc,List.cons_append]
    rw [List.cons_append] at hint
    exact string_of_int hint (if_neg hbit) hs

end Strings

section Fields
variable {maxList listed i : ℕ} {seen : Bool} {out : List Header}

theorem charge_fits {h : Header} (hfit : listed + entrySize h ≤ maxList) :
    charge listed h maxList = .ok (listed + entrySize h) :=
  if_neg (by omega)

theorem find_static {p : Bytes × Bytes → Bool} (h : staticTable.findIdx? p = some i) :
    ∃ e, staticTable[i]? = some e ∧ p e = true ∧ i < 61 := by
  obtain ⟨hi,hp,_⟩ := List.findIdx?_eq_some_iff_getElem.mp h
  exact ⟨staticTable[i],List.getElem?_eq_getElem hi,hp,hi⟩

theorem lookup_static (d : Decoder) {n v : Bytes} (h : staticTable[i]? = some (n,v)) (hi : i < 61) :
    d.lookup (i + 1) = .ok ⟨n,v⟩ := by
  unfold Decoder.lookup
  rw [if_neg (by omega),if_pos (by exact hi : i + 1 ≤ staticTable.length)]
  simp only [Nat.add_sub_cancel,h]

theorem indexed_bits : ∀ m < 128, ((0x80 : UInt8) ||| m.toUInt8) &&& 0x80 ≠ 0 := by decide +kernel

theorem literal_bits : ∀ m < 16, ((0x00 : UInt8) ||| m.toUInt8) &&& 0x80 = 0 ∧
    ((0x00 : UInt8) ||| m.toUInt8) &&& 0x40 = 0 ∧ ((0x00 : UInt8) ||| m.toUInt8) &&& 0x20 = 0 := by decide +kernel

/-- An indexed field adds the entry it names. -/
theorem field_indexed (d : Decoder) {h : Header} (rest : Bytes) (hi : i < 61) (hl : d.lookup (i + 1) = .ok h)
    (hfit : listed + entrySize h ≤ maxList) : ∃ first tail, writeInt (i + 1) 7 0x80 ++ rest = first :: tail ∧
      Decoder.field maxList ⟨d,first :: tail,listed,seen,out⟩ first =
        .ok ⟨d,rest,listed + entrySize h,true,out ++ [h]⟩ := by
  obtain ⟨m,tail,hm,hhead⟩ := writeInt_head (i + 1) 7 0x80
  have hint := int_writeInt rest (by omega : 7 ≤ 8) (by omega) (by decide : (0x80 : UInt8).toNat % 2 ^ 7 = 0)
    (by omega : i + 1 < 2 ^ 63)
  have hbit := indexed_bits m (by omega)
  refine ⟨0x80 ||| m.toUInt8,tail ++ rest,by rw [hhead,List.cons_append],?_⟩
  rw [hhead,List.cons_append] at hint
  unfold Decoder.field
  rw [if_pos hbit,hint]
  simp only [bind,Except.bind,hl,charge_fits hfit]
  rfl

/-- A literal field without indexing adds the header it spells. -/
theorem field_literal (d : Decoder) {h : Header} {v : ℕ} (body rest : Bytes) (hv : v < 63)
    (hl : d.literal v (body ++ rest) = .ok (h,rest)) (hfit : listed + entrySize h ≤ maxList) :
    ∃ first tail, writeInt v 4 0x00 ++ body ++ rest = first :: tail ∧
      Decoder.field maxList ⟨d,first :: tail,listed,seen,out⟩ first =
        .ok ⟨d,rest,listed + entrySize h,true,out ++ [h]⟩ := by
  obtain ⟨m,tail,hm,hhead⟩ := writeInt_head v 4 0x00
  have hint := int_writeInt (body ++ rest) (by omega : 4 ≤ 8) (by omega)
    (by decide : (0x00 : UInt8).toNat % 2 ^ 4 = 0) (by omega : v < 2 ^ 63)
  obtain ⟨h80,h40,h20⟩ := literal_bits m (by omega)
  refine ⟨0x00 ||| m.toUInt8,tail ++ (body ++ rest),by rw [hhead,List.append_assoc,List.cons_append],?_⟩
  rw [hhead,List.cons_append] at hint
  unfold Decoder.field
  rw [if_neg (not_not.mpr h80),if_neg (not_not.mpr h40),if_neg (not_not.mpr h20),hint]
  simp only [bind,Except.bind,hl,charge_fits hfit]
  rfl

/-- The names and values of a list as its callers hold them: strings. -/
def Textual (h : Header) : Prop := utf8Valid h.name = true ∧ utf8Valid h.value = true

theorem field_encode (d : Decoder) (seen : Bool) (out : List Header) {h : Header} (rest : Bytes) (ht : Textual h) (hmax : maxList ≤ maxString)
    (hfit : listed + entrySize h ≤ maxList) :
    ∃ first tail, Encoder.encode h.name h.value ++ rest = first :: tail ∧
      Decoder.field maxList ⟨d,first :: tail,listed,seen,out⟩ first =
        .ok ⟨d,rest,listed + entrySize h,true,out ++ [h]⟩ := by
  have hsize : h.name.length ≤ maxString ∧ h.value.length ≤ maxString := by
    unfold entrySize at hfit
    omega
  unfold Encoder.encode
  cases hfull : staticTable.findIdx? (fun e => e.1 == h.name && e.2 == h.value) with
  | some i =>
    obtain ⟨⟨n,v⟩,hget,heq,hi⟩ := find_static hfull
    simp only [Bool.and_eq_true,beq_iff_eq] at heq
    obtain ⟨rfl,rfl⟩ := heq
    exact field_indexed d rest hi (lookup_static d hget hi) hfit
  | none =>
    cases hname : staticTable.findIdx? (fun e => e.1 == h.name) with
    | some i =>
      obtain ⟨⟨n,v⟩,hget,heq,hi⟩ := find_static hname
      simp only [beq_iff_eq] at heq
      subst heq
      refine field_literal d (writeString h.value) rest (by omega : i + 1 < 63) ?_ hfit
      unfold Decoder.literal
      rw [if_neg (Nat.succ_ne_zero i),lookup_static d hget hi]
      simp only [bind,Except.bind,pure,Except.pure,string_writeString rest ht.2 hsize.2]
    | none =>
      have hlit : d.literal 0 (writeString h.name ++ writeString h.value ++ rest) = .ok (h,rest) := by
        unfold Decoder.literal
        rw [if_pos rfl,List.append_assoc,string_writeString _ ht.1 hsize.1]
        simp only [bind,Except.bind,pure,Except.pure,string_writeString rest ht.2 hsize.2]
      change ∃ first tail, writeInt 0 4 0x00 ++ (writeString h.name ++ writeString h.value) ++ rest = first :: tail ∧ _
      exact field_literal d _ rest (by omega) hlit hfit

end Fields

section Blocks
variable {maxList : ℕ}

/-- One block: what a fresh encoder opens it with, and its fields. -/
def encodeList (peerMax : ℕ) (hs : List Header) : Bytes :=
  (Encoder.new peerMax).beginBlock.2 ++ hs.flatMap fun h => Encoder.encode h.name h.value

/-- The blocks of a connection decoded in order by one decoder. -/
def Decoder.decodeAll (maxList : ℕ) : Decoder → List Bytes → List (List Header × Except HpackError Unit)
  | _, [] => []
  | d, block :: blocks => (d.decode block maxList).2 :: (d.decode block maxList).1.decodeAll maxList blocks

/-- A header list as the callers hold it: strings within the charged size. -/
structure HeaderList (maxList : ℕ) where
  fields : List Header
  textual : ∀ h ∈ fields, Textual h
  fits : total entrySize fields ≤ maxList

theorem decodeLoop_fields (d : Decoder) (hmax : maxList ≤ maxString) (hs : List Header) (fuel listed : ℕ) (seen : Bool)
    (out : List Header) (ht : ∀ h ∈ hs, Textual h) (hfit : listed + total entrySize hs ≤ maxList)
    (hfuel : hs.length ≤ fuel) :
    ∃ p, p.out = out ++ hs ∧ Decoder.decodeLoop maxList fuel
      ⟨d,hs.flatMap fun h => Encoder.encode h.name h.value,listed,seen,out⟩ = (p,.ok ()) := by
  induction hs generalizing fuel listed seen out with
  | nil => cases fuel <;> exact ⟨⟨d,[],listed,seen,out⟩,(List.append_nil out).symm,rfl⟩
  | cons h hs ih =>
    simp only [total_cons] at hfit
    obtain ⟨fuel,rfl⟩ := Nat.exists_eq_succ_of_ne_zero (by simp at hfuel; omega : fuel ≠ 0)
    obtain ⟨first,tail,hbuf,hfield⟩ := field_encode d seen out
      (hs.flatMap fun h => Encoder.encode h.name h.value) (ht h List.mem_cons_self) hmax
      (by omega : listed + entrySize h ≤ maxList)
    obtain ⟨p,hp,hloop⟩ := ih fuel (listed + entrySize h) true (out ++ [h]) (fun g hg => ht g (List.mem_cons_of_mem _ hg))
      (by omega) (by simpa using hfuel)
    refine ⟨p,by rw [hp]; simp,?_⟩
    rw [List.flatMap_cons,hbuf,Decoder.decodeLoop]
    simp only [hfield]
    exact hloop

theorem encode_pos (n v : Bytes) : 0 < (Encoder.encode n v).length := by
  have hpos (a bits : ℕ) (flags : UInt8) : 0 < (writeInt a bits flags).length := by
    obtain ⟨m,tail,_,hhead⟩ := writeInt_head a bits flags
    rw [hhead]
    exact Nat.succ_pos _
  unfold Encoder.encode
  split
  · exact hpos _ _ _
  · split
    · rw [List.length_append]
      exact Nat.add_pos_left (hpos _ _ _) _
    · exact Nat.succ_pos _

theorem length_fields_le (hs : List Header) :
    hs.length ≤ (hs.flatMap fun h => Encoder.encode h.name h.value).length := by
  induction hs with
  | nil => exact Nat.le_refl _
  | cons h hs ih =>
    have hpos := encode_pos h.name h.value
    rw [List.flatMap_cons,List.length_append,List.length_cons]
    omega

/-- The size update that opens a block empties the table and is never refused. -/
theorem field_update (d : Decoder) (rest : Bytes) :
    Decoder.field maxList ⟨d,0x20 :: rest,0,false,[]⟩ 0x20 = .ok ⟨{ d with maxSize := 0 }.evict,rest,0,false,[]⟩ := by
  rfl

theorem decode_encodeList (d : Decoder) (peerMax : ℕ) (hmax : maxList ≤ maxString) (l : HeaderList maxList) :
    (d.decode (encodeList peerMax l.fields) maxList).2 = (l.fields,.ok ()) := by
  have hlen := length_fields_le l.fields
  have hopen : encodeList peerMax l.fields = 0x20 :: l.fields.flatMap fun h => Encoder.encode h.name h.value := rfl
  obtain ⟨p,hp,hloop⟩ := decodeLoop_fields { d with maxSize := 0 }.evict hmax l.fields _ 0 false [] l.textual
    (by simpa using l.fits) hlen
  unfold Decoder.decode
  rw [hopen,List.length_cons,Decoder.decodeLoop]
  simp only [field_update,hloop,hp]
  rfl

/-- Blocks from fresh encoders give back their lists in order, from any decoder. -/
theorem decodeAll_encodeList (hmax : maxList ≤ maxString) (d : Decoder) (lists : List (ℕ × HeaderList maxList)) :
    d.decodeAll maxList (lists.map fun l => encodeList l.1 l.2.fields) = lists.map fun l => (l.2.fields,.ok ()) := by
  induction lists generalizing d with
  | nil => rfl
  | cons l lists ih =>
    simp only [List.map_cons,Decoder.decodeAll]
    rw [decode_encodeList d l.1 hmax l.2,ih]

/-- A static match, a static name and a new name. -/
def sampleList : HeaderList 200 where
  fields := [⟨lit ":status",lit "200"⟩,⟨lit "server",lit "www"⟩,⟨lit "x-a",lit "b"⟩]
  textual := by
    unfold Textual
    decide +kernel
  fits := by decide +kernel

theorem decodeAll_sampleList : 200 ≤ maxString ∧
    ((Decoder.new 4096).insert ⟨lit "a",lit "b"⟩).decodeAll 200
        ([(4096,sampleList),(0,sampleList)].map fun l => encodeList l.1 l.2.fields) =
      [(4096,sampleList),(0,sampleList)].map fun l => (l.2.fields,.ok ()) :=
  ⟨by decide,decodeAll_encodeList (by decide) _ _⟩

end Blocks

section Refused
variable {maxList listed i : ℕ} {seen : Bool} {out : List Header} {h : Header}

/-- A string is at most so long; the sizes of its encodings then fit an integer. -/
def Sized (h : Header) : Prop := h.name.length < 2 ^ 63 ∧ h.value.length < 2 ^ 63

theorem charge_refused (hbig : maxList < listed + entrySize h) : charge listed h maxList = .error .tooLarge :=
  if_pos hbig

/-- A string of any length is read back, or it is an error. -/
theorem string_writeString_or {s : Bytes} (rest : Bytes) (hs : utf8Valid s = true) (hlen : s.length < 2 ^ 63) :
    string (writeString s ++ rest) = .ok (s,rest) ∨ ∃ e, string (writeString s ++ rest) = .error e := by
  by_cases hshort : s.length ≤ maxString
  · exact .inl (string_writeString rest hs hshort)
  · unfold writeString
    split
    · next hcoded =>
      obtain ⟨m,tail,hm,hhead⟩ := writeInt_head (Huffman.encodedLen s) 7 0x80
      have hint := int_writeInt (Huffman.encode s ++ rest) (by omega : 7 ≤ 8) (by omega)
        (by decide : (0x80 : UInt8).toNat % 2 ^ 7 = 0) (by omega : Huffman.encodedLen s < 2 ^ 63)
      have hbit : 128 ≤ ((0x80 : UInt8) ||| m.toUInt8).toNat := by
        rw [UInt8.toNat_or]
        exact Nat.left_le_or
      rw [hhead,List.cons_append,← Huffman.length_encode] at hint
      have hnone : Huffman.decode (Huffman.encode s) maxString = none :=
        Huffman.decode_encode_none (Nat.not_le.mp hshort)
      refine .inr ⟨.compression,?_⟩
      rw [hhead,List.append_assoc,List.cons_append]
      simp only [string,hint,if_pos hbit]
      rw [if_neg (by simp),List.take_left,hnone]
    · obtain ⟨m,tail,hm,hhead⟩ := writeInt_head s.length 7 0x00
      have hint := int_writeInt (s ++ rest) (by omega : 7 ≤ 8) (by omega) (by decide : (0x00 : UInt8).toNat % 2 ^ 7 = 0)
        hlen
      have hbit : ¬ 128 ≤ ((0x00 : UInt8) ||| m.toUInt8).toNat := by
        simp only [UInt8.toNat_or,Nat.toUInt8,UInt8.toNat_ofNat']
        rw [show (0x00 : UInt8).toNat = 0 from rfl,Nat.zero_or]
        omega
      rw [hhead,List.cons_append] at hint
      refine .inl ?_
      rw [hhead,List.append_assoc,List.cons_append]
      exact string_of_int hint (if_neg hbit) hs

/-- A literal field that does not fit the list is refused. -/
theorem field_literal_refused (d : Decoder) {v : ℕ} (body rest : Bytes) (hv : v < 63)
    (hl : d.literal v (body ++ rest) = .ok (h,rest) ∨ ∃ e, d.literal v (body ++ rest) = .error e)
    (hbig : maxList < listed + entrySize h) :
    ∃ first tail e, writeInt v 4 0x00 ++ body ++ rest = first :: tail ∧
      Decoder.field maxList ⟨d,first :: tail,listed,seen,out⟩ first = .error e := by
  obtain ⟨m,tail,hm,hhead⟩ := writeInt_head v 4 0x00
  have hint := int_writeInt (body ++ rest) (by omega : 4 ≤ 8) (by omega)
    (by decide : (0x00 : UInt8).toNat % 2 ^ 4 = 0) (by omega : v < 2 ^ 63)
  obtain ⟨h80,h40,h20⟩ := literal_bits m (by omega)
  rw [hhead,List.cons_append] at hint
  have hfield : ∃ e, Decoder.field maxList ⟨d,(0x00 ||| m.toUInt8) :: (tail ++ (body ++ rest)),listed,seen,out⟩
      (0x00 ||| m.toUInt8) = .error e := by
    unfold Decoder.field
    rw [if_neg (not_not.mpr h80),if_neg (not_not.mpr h40),if_neg (not_not.mpr h20),hint]
    rcases hl with hl | ⟨e,hl⟩
    · exact ⟨.tooLarge,by simp only [bind,Except.bind,hl,charge_refused hbig]⟩
    · exact ⟨e,by simp only [bind,Except.bind,hl]⟩
  obtain ⟨e,he⟩ := hfield
  exact ⟨0x00 ||| m.toUInt8,tail ++ (body ++ rest),e,by rw [hhead,List.append_assoc,List.cons_append],he⟩

/-- An encoded field that does not fit the list is refused. -/
theorem field_encode_refused (d : Decoder) (seen : Bool) (out : List Header) (rest : Bytes) (ht : Textual h)
    (hs : Sized h) (hbig : maxList < listed + entrySize h) :
    ∃ first tail e, Encoder.encode h.name h.value ++ rest = first :: tail ∧
      Decoder.field maxList ⟨d,first :: tail,listed,seen,out⟩ first = .error e := by
  have hval := string_writeString_or rest ht.2 hs.2
  unfold Encoder.encode
  cases hfull : staticTable.findIdx? (fun e => e.1 == h.name && e.2 == h.value) with
  | some i =>
    obtain ⟨⟨n,v⟩,hget,heq,hi⟩ := find_static hfull
    simp only [Bool.and_eq_true,beq_iff_eq] at heq
    obtain ⟨rfl,rfl⟩ := heq
    obtain ⟨m,tail,hm,hhead⟩ := writeInt_head (i + 1) 7 0x80
    have hint := int_writeInt rest (by omega : 7 ≤ 8) (by omega) (by decide : (0x80 : UInt8).toNat % 2 ^ 7 = 0)
      (by omega : i + 1 < 2 ^ 63)
    have hbit := indexed_bits m (by omega)
    have hbytes : writeInt (i + 1) 7 0x80 ++ rest = (0x80 ||| m.toUInt8) :: (tail ++ rest) := by
      rw [hhead,List.cons_append]
    refine ⟨0x80 ||| m.toUInt8,tail ++ rest,.tooLarge,hbytes,?_⟩
    rw [hbytes] at hint
    unfold Decoder.field
    rw [if_pos hbit,hint]
    simp only [bind,Except.bind,lookup_static d hget hi,charge_refused hbig]
  | none =>
    cases hname : staticTable.findIdx? (fun e => e.1 == h.name) with
    | some i =>
      obtain ⟨⟨n,v⟩,hget,heq,hi⟩ := find_static hname
      simp only [beq_iff_eq] at heq
      subst heq
      refine field_literal_refused d (writeString h.value) rest (by omega : i + 1 < 63) ?_ hbig
      unfold Decoder.literal
      rw [if_neg (Nat.succ_ne_zero i),lookup_static d hget hi]
      rcases hval with hval | ⟨e,hval⟩
      · exact .inl (by simp only [bind,Except.bind,pure,Except.pure,hval])
      · exact .inr ⟨e,by simp only [bind,Except.bind,pure,Except.pure,hval]⟩
    | none =>
      change ∃ first tail e, writeInt 0 4 0x00 ++ (writeString h.name ++ writeString h.value) ++ rest = first :: tail ∧ _
      refine field_literal_refused d _ rest (by omega) ?_ hbig
      unfold Decoder.literal
      rw [if_pos rfl,List.append_assoc]
      rcases string_writeString_or (writeString h.value ++ rest) ht.1 hs.1 with hname | ⟨e,hname⟩
      · rcases hval with hval | ⟨e,hval⟩
        · exact .inl (by simp only [bind,Except.bind,pure,Except.pure,hname,hval])
        · exact .inr ⟨e,by simp only [bind,Except.bind,hname,hval]⟩
      · exact .inr ⟨e,by simp only [bind,Except.bind,hname]⟩

theorem decodeLoop_refuses (d : Decoder) (hmax : maxList ≤ maxString) (hs : List Header) (fuel listed : ℕ) (seen : Bool)
    (out : List Header) (ht : ∀ h ∈ hs, Textual h) (hz : ∀ h ∈ hs, Sized h) (hin : listed ≤ maxList)
    (hbig : maxList < listed + total entrySize hs) (hfuel : hs.length ≤ fuel) :
    ∃ p e, Decoder.decodeLoop maxList fuel ⟨d,hs.flatMap fun h => Encoder.encode h.name h.value,listed,seen,out⟩ =
      (p,.error e) := by
  induction hs generalizing fuel listed seen out with
  | nil =>
    simp only [total_nil] at hbig
    omega
  | cons h hs ih =>
    simp only [total_cons] at hbig
    obtain ⟨fuel,rfl⟩ := Nat.exists_eq_succ_of_ne_zero (by simp at hfuel; omega : fuel ≠ 0)
    rw [List.flatMap_cons]
    by_cases hfit : listed + entrySize h ≤ maxList
    · obtain ⟨first,tail,hbuf,hfield⟩ := field_encode d seen out
        (hs.flatMap fun h => Encoder.encode h.name h.value) (ht h List.mem_cons_self) hmax hfit
      rw [hbuf,Decoder.decodeLoop]
      simp only [hfield]
      exact ih fuel (listed + entrySize h) true (out ++ [h]) (fun g hg => ht g (List.mem_cons_of_mem _ hg))
        (fun g hg => hz g (List.mem_cons_of_mem _ hg)) hfit (by omega) (by simpa using hfuel)
    · obtain ⟨first,tail,e,hbuf,hfield⟩ := field_encode_refused d seen out
        (hs.flatMap fun h => Encoder.encode h.name h.value) (ht h List.mem_cons_self) (hz h List.mem_cons_self)
        (Nat.not_le.mp hfit)
      refine ⟨⟨d,first :: tail,listed,seen,out⟩,e,?_⟩
      rw [hbuf,Decoder.decodeLoop]
      simp only [hfield]

theorem length_writeIntLoop_le (fuel v : ℕ) : (writeIntLoop fuel v).length ≤ fuel := by
  induction fuel generalizing v with
  | zero => exact Nat.le_refl _
  | succ fuel ih =>
    rw [writeIntLoop]
    split
    · exact Nat.succ_le_succ (ih _)
    · exact Nat.succ_le_succ (Nat.zero_le _)

theorem length_writeInt_le (v bits : ℕ) (flags : UInt8) : (writeInt v bits flags).length ≤ 11 := by
  unfold writeInt
  split
  · exact Nat.le_add_left 1 10
  · exact Nat.succ_le_succ (length_writeIntLoop_le 10 _)

theorem length_writeString_le (s : Bytes) : (writeString s).length ≤ s.length + 11 := by
  unfold writeString
  split
  · have hi := length_writeInt_le (Huffman.encodedLen s) 7 0x80
    rw [List.length_append,Huffman.length_encode]
    omega
  · have hi := length_writeInt_le s.length 7 0x00
    rw [List.length_append]
    omega

theorem length_encode_le (h : Header) : (Encoder.encode h.name h.value).length ≤ entrySize h := by
  have hn := length_writeString_le h.name
  have hv := length_writeString_le h.value
  unfold Encoder.encode entrySize entryOverhead
  split
  · have hi := length_writeInt_le
    exact (hi _ _ _).trans (by omega)
  · rw [List.length_append]
    split
    · have hi := length_writeInt_le
      exact (Nat.add_le_add (hi _ _ _) hv).trans (by omega)
    · rw [List.length_cons]
      omega

/-- A block is longer than the charged size of its list by at most the byte that opens it. -/
theorem length_encodeList_le (peerMax : ℕ) (hs : List Header) :
    (encodeList peerMax hs).length ≤ total entrySize hs + 1 := by
  have hopen : encodeList peerMax hs = 0x20 :: hs.flatMap fun h => Encoder.encode h.name h.value := rfl
  rw [hopen,List.length_cons]
  apply Nat.succ_le_succ
  induction hs with
  | nil => exact Nat.zero_le _
  | cons h hs ih =>
    have hh := length_encode_le h
    rw [List.flatMap_cons,List.length_append,total_cons]
    have hi := ih rfl
    omega

/-- A list over the limit is refused by every decoder. -/
theorem decode_encodeList_refused (d : Decoder) (peerMax : ℕ) (hmax : maxList ≤ maxString) {hs : List Header}
    (ht : ∀ h ∈ hs, Textual h) (hz : ∀ h ∈ hs, Sized h) (hbig : maxList < total entrySize hs) :
    ∃ e, (d.decode (encodeList peerMax hs) maxList).2.2 = .error e := by
  have hlen := length_fields_le hs
  have hopen : encodeList peerMax hs = 0x20 :: hs.flatMap fun h => Encoder.encode h.name h.value := rfl
  obtain ⟨p,e,hloop⟩ := decodeLoop_refuses { d with maxSize := 0 }.evict hmax hs _ 0 false [] ht hz (Nat.zero_le _)
    (by simpa using hbig) hlen
  refine ⟨e,?_⟩
  unfold Decoder.decode
  rw [hopen,List.length_cons,Decoder.decodeLoop]
  simp only [field_update,hloop]

end Refused

end OxiServe.Hpack
