import OxiServe.Http2.HuffmanRound

/-! # One Huffman coding for each string

The encoder's 64-bit accumulator is never masked, and what falls out of its top
has already been written. Conversely the walk of the decoder accepts only the
words of its output followed by fewer than eight ones, so every string has one
coding that the decoder accepts, the one the encoder writes.
-/
namespace OxiServe.Huffman
open PrefixCode

section Accumulator

/-- The bits not yet written are the low `n` bits of `acc`. -/
structure Accumulator where
  acc : UInt64
  n : ℕ
  out : Bytes

namespace Accumulator

/-- Writes the whole bytes the accumulator holds; `fuel` bounds their number. -/
def drain : ℕ → Accumulator → Accumulator
  | 0, s => s
  | fuel + 1, s =>
    if 8 ≤ s.n then
      drain fuel { s with n := s.n - 8, out := s.out ++ [(s.acc >>> (s.n - 8).toUInt64).toUInt8] }
    else s

def push (s : Accumulator) (b : UInt8) : Accumulator :=
  let (code,len) := table.getD b.toNat (0,0)
  drain (s.n + len) { s with acc := (s.acc <<< len.toUInt64) ||| code.toUInt64, n := s.n + len }

/-- Pads with the EOS prefix, which is all ones. -/
def finish (s : Accumulator) : Bytes :=
  if 0 < s.n then
    let pad := 8 - s.n
    s.out ++ [(((s.acc <<< pad.toUInt64) ||| ((1 <<< pad.toUInt64) - 1)) &&& 0xff).toUInt8]
  else s.out

/-- `encode`, with the accumulator it keeps. -/
def encode (input : Bytes) : Bytes := (input.foldl push ⟨0,0,[]⟩).finish

/-- The bits written and those still held. -/
def bits (s : Accumulator) : List Bool := s.out.flatMap bitsOfByte ++ codeBits s.acc.toNat s.n

end Accumulator

theorem codeBits_append (m k n : ℕ) : codeBits m (k + n) = codeBits (m >>> n) k ++ codeBits m n := by
  unfold codeBits
  rw [Nat.add_comm,List.range_add,List.reverse_append,List.map_append]
  congr 1
  simp [List.map_reverse,Function.comp_def,Nat.testBit_shiftRight]

theorem codeBits_congr {m m' k : ℕ} (h : ∀ i < k, m.testBit i = m'.testBit i) : codeBits m k = codeBits m' k := by
  unfold codeBits
  apply List.map_congr_left
  intro i hi
  exact h i (by simpa using hi)

theorem codeBits_ones (k : ℕ) : codeBits (2 ^ k - 1) k = List.replicate k true := by
  apply List.eq_replicate_iff.mpr
  constructor
  · simp [codeBits]
  · intro b hb
    simp only [codeBits,List.mem_map,List.mem_reverse,List.mem_range] at hb
    obtain ⟨i,hi,rfl⟩ := hb
    simp [Nat.testBit_two_pow_sub_one,hi]

theorem length_bitsOfByte (b : UInt8) : (bitsOfByte b).length = 8 := by
  simp [bitsOfByte,codeBits]

theorem byteOfBits_bitsOfByte (b : UInt8) : byteOfBits (bitsOfByte b) = b := by
  have hall : ∀ m < 256, byteOfBits (codeBits m 8) = m.toUInt8 := by decide +kernel
  have hb := hall b.toNat b.toNat_lt
  rwa [Nat.toUInt8,UInt8.ofNat_toNat] at hb

theorem flatMap_bits_inj {x y : Bytes} (h : x.flatMap bitsOfByte = y.flatMap bitsOfByte) : x = y := by
  induction x generalizing y with
  | nil =>
    cases y with
    | nil => rfl
    | cons b y =>
      have hlen := congrArg List.length h
      simp only [List.flatMap_nil,List.flatMap_cons,List.length_append,List.length_nil,length_bitsOfByte] at hlen
      omega
  | cons a x ih =>
    cases y with
    | nil =>
      have hlen := congrArg List.length h
      simp only [List.flatMap_nil,List.flatMap_cons,List.length_append,List.length_nil,length_bitsOfByte] at hlen
      omega
    | cons b y =>
      rw [List.flatMap_cons,List.flatMap_cons] at h
      obtain ⟨hab,hxy⟩ := List.append_inj h ((length_bitsOfByte a).trans (length_bitsOfByte b).symm)
      have hbyte : byteOfBits (bitsOfByte a) = byteOfBits (bitsOfByte b) := congrArg byteOfBits hab
      rw [byteOfBits_bitsOfByte,byteOfBits_bitsOfByte] at hbyte
      rw [hbyte,ih hxy]

namespace Accumulator

/-- Eight bits at a position, as the byte the encoder writes. -/
theorem bitsOfByte_shift (acc : UInt64) {n : ℕ} (h : n < 64) :
    bitsOfByte (acc >>> n.toUInt64).toUInt8 = codeBits (acc.toNat >>> n) 8 := by
  rw [bitsOfByte,UInt64.toNat_toUInt8,UInt64.toNat_shiftRight,Nat.toUInt64,UInt64.toNat_ofNat',
    Nat.mod_eq_of_lt (by omega : n < 2 ^ 64),Nat.mod_eq_of_lt h]
  apply codeBits_congr
  intro i hi
  simp only [Nat.testBit_mod_two_pow,hi,decide_true,Bool.true_and]

theorem drain_bits {fuel : ℕ} {s : Accumulator} (hn : s.n < 64) (hf : s.n ≤ fuel) :
    (drain fuel s).bits = s.bits ∧ (drain fuel s).n < 8 := by
  induction fuel generalizing s with
  | zero => exact ⟨rfl,by rw [drain]; omega⟩
  | succ fuel ih =>
    rw [drain]
    split
    · next h8 =>
      obtain ⟨hbits,hlt⟩ := ih (s := { s with
        n := s.n - 8
        out := s.out ++ [(s.acc >>> (s.n - 8).toUInt64).toUInt8] }) (by dsimp only; omega) (by dsimp only; omega)
      refine ⟨?_,hlt⟩
      rw [hbits]
      simp only [bits,List.flatMap_append,List.flatMap_singleton,List.append_assoc]
      rw [bitsOfByte_shift s.acc (by omega),← codeBits_append,show 8 + (s.n - 8) = s.n by omega]
    · exact ⟨rfl,by omega⟩

theorem table_lengths : ∀ e ∈ table, e.2 ≤ 30 ∧ e.1 < 2 ^ e.2 := by decide +kernel

theorem entry_fits (b : UInt8) : (table.getD b.toNat (0,0)).2 ≤ 30 ∧
    (table.getD b.toNat (0,0)).1 < 2 ^ (table.getD b.toNat (0,0)).2 := by
  have hlt : b.toNat < table.length := Nat.lt_of_lt_of_le b.toNat_lt (by decide +kernel : 2 ^ 8 ≤ table.length)
  rw [List.getD_eq_getElem?_getD,List.getElem?_eq_getElem hlt]
  exact table_lengths _ (List.getElem_mem hlt)

/-- What was held and the next code, in the low bits of the shifted word. -/
theorem codeBits_push (acc : UInt64) {n len code : ℕ} (hn : n + len ≤ 64) (hlen : len < 64) (hc : code < 2 ^ len) :
    codeBits ((acc <<< len.toUInt64) ||| code.toUInt64).toNat (n + len) =
      codeBits acc.toNat n ++ codeBits code len := by
  have hword : ((acc <<< len.toUInt64) ||| code.toUInt64).toNat = (acc.toNat <<< len) % 2 ^ 64 ||| code := by
    have hcode : code < 2 ^ 64 := Nat.lt_of_lt_of_le hc (Nat.pow_le_pow_right (by decide) (by omega))
    simp only [UInt64.toNat_or,UInt64.toNat_shiftLeft,Nat.toUInt64,UInt64.toNat_ofNat']
    rw [Nat.mod_eq_of_lt hcode,Nat.mod_eq_of_lt (by omega : len < 2 ^ 64),Nat.mod_eq_of_lt hlen]
  rw [hword,codeBits_append]
  congr 1
  · apply codeBits_congr
    intro i hi
    have hhigh : code.testBit (len + i) = false :=
      Nat.testBit_lt_two_pow (Nat.lt_of_lt_of_le hc (Nat.pow_le_pow_right (by decide) (by omega)))
    simp only [Nat.testBit_shiftRight,Nat.testBit_or,hhigh,Nat.testBit_mod_two_pow,Nat.testBit_shiftLeft]
    simp
    omega
  · apply codeBits_congr
    intro i hi
    simp only [Nat.testBit_or,Nat.testBit_mod_two_pow,Nat.testBit_shiftLeft]
    simp
    omega

theorem push_bits {s : Accumulator} (hn : s.n < 8) (b : UInt8) :
    (s.push b).bits = s.bits ++ wordOf b ∧ (s.push b).n < 8 := by
  obtain ⟨hlen,hcode⟩ := entry_fits b
  unfold push
  obtain ⟨hbits,hlt⟩ := @drain_bits (s.n + (table.getD b.toNat (0,0)).2)
    { s with
      acc := (s.acc <<< (table.getD b.toNat (0,0)).2.toUInt64) ||| (table.getD b.toNat (0,0)).1.toUInt64
      n := s.n + (table.getD b.toNat (0,0)).2 } (by dsimp only; omega) (Nat.le_refl _)
  refine ⟨?_,hlt⟩
  rw [hbits]
  simp only [bits,List.append_assoc,wordOf]
  rw [codeBits_push s.acc (by omega) (by omega) hcode]

theorem fold_bits (input : Bytes) {s : Accumulator} (hn : s.n < 8) :
    (input.foldl push s).bits = s.bits ++ input.flatMap wordOf ∧ (input.foldl push s).n < 8 := by
  induction input generalizing s with
  | nil => exact ⟨by simp,hn⟩
  | cons b input ih =>
    obtain ⟨hbits,hlt⟩ := push_bits hn b
    obtain ⟨hrest,hend⟩ := ih hlt
    refine ⟨?_,hend⟩
    rw [List.foldl_cons,hrest,hbits,List.flatMap_cons,List.append_assoc]

/-- The mask below the padding. -/
theorem ones_word : ∀ pad < 8, ((1 : UInt64) <<< pad.toUInt64) - 1 = (2 ^ pad - 1).toUInt64 := by decide +kernel

theorem bitsOfByte_masked (w : UInt64) : bitsOfByte (w &&& 0xff).toUInt8 = codeBits w.toNat 8 := by
  rw [bitsOfByte,UInt64.toNat_toUInt8,UInt64.toNat_and,show (0xff : UInt64).toNat = 2 ^ 8 - 1 from rfl,
    Nat.and_two_pow_sub_one_eq_mod,Nat.mod_mod]
  apply codeBits_congr
  intro i hi
  simp only [Nat.testBit_mod_two_pow,hi,decide_true,Bool.true_and]

theorem finish_bits {s : Accumulator} (hn : s.n < 8) :
    s.finish.flatMap bitsOfByte = s.bits ++ List.replicate ((8 - s.n) % 8) true := by
  unfold finish
  split
  · next hpos =>
    have hmod : (8 - s.n) % 8 = 8 - s.n := Nat.mod_eq_of_lt (by omega)
    simp only [bits,List.flatMap_append,List.flatMap_singleton,List.append_assoc,hmod]
    have hones : 2 ^ (8 - s.n) - 1 < 2 ^ (8 - s.n) := Nat.sub_lt (Nat.two_pow_pos _) (by decide)
    have hpush := codeBits_push s.acc (by omega : s.n + (8 - s.n) ≤ 64) (by omega) hones
    rw [show s.n + (8 - s.n) = 8 by omega,codeBits_ones] at hpush
    rw [bitsOfByte_masked,ones_word _ (by omega),hpush]
  · next hzero =>
    have h0 : s.n = 0 := by omega
    simp [bits,h0,codeBits]

/-- The accumulator loses nothing: it writes the padded words of the input. -/
theorem encode_eq (input : Bytes) : encode input = Huffman.encode input := by
  obtain ⟨hbits,hlt⟩ := fold_bits input (s := ⟨0,0,[]⟩) (by decide)
  have hstart : (⟨0,0,[]⟩ : Accumulator).bits = [] := rfl
  rw [hstart,List.nil_append] at hbits
  have hlen := congrArg List.length hbits
  rw [bits,List.length_append,codeBits,List.length_map,List.length_reverse,List.length_range] at hlen
  have height : ((input.foldl push ⟨0,0,[]⟩).out.flatMap bitsOfByte).length % 8 = 0 := by
    simp [List.length_flatMap,length_bitsOfByte]
  apply flatMap_bits_inj
  rw [encode,finish_bits hlt,hbits,encode_bits,padding]
  congr 3
  omega

end Accumulator

end Accumulator

section Accepted
variable {nodes : List Node} {limit : ℕ}

theorem eq_wordOf {p : List Bool} {s : ℕ} (h : (p,s) ∈ code) (heos : s ≠ eos) : p = wordOf s.toUInt8 := by
  obtain ⟨e,he,hps⟩ := List.mem_map.mp h
  obtain ⟨hp,hs⟩ := Prod.mk.inj hps
  subst hs
  have hget := List.mk_mem_zipIdx_iff_getElem?.mp he
  have hlt := (List.getElem?_eq_some_iff.mp hget).1
  have hlen : table.length = eos + 1 := by decide +kernel
  have hbyte : e.2.toUInt8.toNat = e.2 := by
    rw [Nat.toUInt8,UInt8.toNat_ofNat']
    unfold eos at heos hlen
    omega
  rw [wordOf,hbyte,List.getD_eq_getElem?_getD,hget]
  exact hp.symm

/-- What a walk has read: the words of its output, and the path to its node. -/
structure Read (nodes : List Node) (bs : List Bool) (w : Walk) : Prop where
  path : ∃ q, bs = w.out.flatMap wordOf ++ q ∧ reach (childOf nodes) 0 q = some w.node ∧ q.length = w.consumed

theorem read_start : Read nodes [] ⟨0,0,[]⟩ := ⟨[],rfl,rfl,rfl⟩

theorem stepIn_read (ht : Spells code nodes) {bs : List Bool} {w w' : Walk} {bit : Bool} (hr : Read nodes bs w)
    (h : stepIn nodes limit w bit = some w') : Read nodes (bs ++ [bit]) w' := by
  obtain ⟨q,hbs,hq,hlen⟩ := hr.path
  unfold stepIn at h
  split at h
  · cases h
  · next next hnext =>
    have hreach : reach (childOf nodes) 0 (q ++ [bit]) = some next := by
      rw [reach_append,hq,Option.bind_some,reach_cons]
      change ((nodes.getD w.node .leaf).child bit).bind _ = _
      rw [hnext]
      rfl
    split at h
    · next sym hsym =>
      split at h
      · cases h
      · next heos =>
        split at h
        · cases h
        · cases h
          have hword := eq_wordOf (ht.marked hreach hsym) heos
          exact ⟨[],by rw [hbs,List.append_assoc,hword]; simp,rfl,rfl⟩
    · cases h
      exact ⟨q ++ [bit],by rw [hbs,List.append_assoc],hreach,by rw [List.length_append,hlen]; rfl⟩

theorem walk_read (ht : Spells code nodes) {bs rest : List Bool} {w w' : Walk} (hr : Read nodes bs w)
    (h : rest.foldlM (stepIn nodes limit) w = some w') : Read nodes (bs ++ rest) w' := by
  induction rest generalizing bs w with
  | nil =>
    cases h
    rwa [List.append_nil]
  | cons bit rest ih =>
    rw [List.foldlM_cons] at h
    obtain ⟨v,hv,hrest⟩ := Option.bind_eq_some_iff.mp h
    have hnext := ih (stepIn_read ht hr hv) hrest
    rwa [List.append_assoc,List.singleton_append] at hnext

theorem reach_of_onesFrom {node fuel cur : ℕ} (h : onesFrom nodes node fuel cur = true) :
    ∃ k, reach (childOf nodes) cur (List.replicate k true) = some node := by
  induction fuel generalizing cur with
  | zero => cases h
  | succ fuel ih =>
    rw [onesFrom] at h
    split at h
    · next heq => exact ⟨0,by rw [heq]; rfl⟩
    · split at h
      · cases h
      · next next hnext =>
        obtain ⟨k,hk⟩ := ih h
        refine ⟨k + 1,?_⟩
        rw [List.replicate_succ,reach_cons]
        change ((nodes.getD cur .leaf).one).bind _ = _
        rw [hnext]
        exact hk

/-- An accepted string leaves the walk behind at most seven ones. -/
theorem decode_walk {x s : Bytes} (h : decode x limit = some s) : ∃ n, ∃ k ≤ 7,
    (x.flatMap bitsOfByte).foldlM (stepIn tree limit) ⟨0,0,[]⟩ = some ⟨n,k,s⟩ ∧
    reach (childOf tree) 0 (List.replicate k true) = some n := by
  unfold decode at h
  rw [stepBit_eq,isAllOnesPrefix_eq] at h
  split at h
  · cases h
  · next w hw =>
    obtain ⟨q,-,hq,hlen⟩ := (walk_read tree_spells read_start hw).path
    split at h
    · cases h
    · next hseven =>
      split at h
      · cases h
      · next hpad =>
        cases h
        refine ⟨w.node,w.consumed,by omega,hw,?_⟩
        by_cases hzero : w.consumed = 0
        · rw [List.eq_nil_of_length_eq_zero (hlen.trans hzero)] at hq
          rw [hzero]
          exact hq
        · have hones : onesFrom tree w.node tree.length 0 = true := by
            simpa [Nat.pos_of_ne_zero hzero] using hpad
          obtain ⟨k,hk⟩ := reach_of_onesFrom hones
          rw [tree_spells.sound.reach_inj hq hk,List.length_replicate] at hlen
          rwa [← hlen]

/-- It is the words of its output and these ones. -/
theorem decode_bits {x s : Bytes} (h : decode x limit = some s) :
    ∃ k ≤ 7, x.flatMap bitsOfByte = s.flatMap wordOf ++ List.replicate k true := by
  obtain ⟨n,k,hk,hwalk,hn⟩ := decode_walk h
  obtain ⟨q,hbits,hq,-⟩ := (walk_read tree_spells read_start hwalk).path
  rw [List.nil_append] at hbits
  exact ⟨k,hk,by rw [hbits,tree_spells.sound.reach_inj hq hn]⟩

theorem encode_decode {x s : Bytes} (h : decode x limit = some s) : encode s = x := by
  obtain ⟨k,hk,hbits⟩ := decode_bits h
  apply flatMap_bits_inj
  rw [encode_bits,hbits]
  have hlen := congrArg List.length hbits
  have height : (x.flatMap bitsOfByte).length % 8 = 0 := by simp [List.length_flatMap,length_bitsOfByte]
  rw [List.length_append,List.length_replicate] at hlen
  congr 2
  unfold padding
  omega

end Accepted

section Rejected
variable {nodes : List Node} {limit : ℕ}

/-- The word of the end-of-string symbol. -/
def eosWord : List Bool := codeBits (table.getD eos (0,0)).1 (table.getD eos (0,0)).2

theorem eosWord_eq : eosWord = List.replicate 30 true := by decide +kernel

/-- Bits that no word ends in and that the encoder does not pad with. -/
structure BadPadding (pad : List Bool) : Prop where
  unfinished : ∃ e ∈ code, ∃ r, r ≠ [] ∧ e.1 = pad ++ r
  bad : 7 < pad.length ∨ false ∈ pad

theorem walk_eos (ht : Spells code nodes) (out : Bytes) : eosWord.foldlM (stepIn nodes limit) ⟨0,0,out⟩ = none := by
  have hsplit : List.replicate 30 true = List.replicate 29 true ++ true :: [] := rfl
  obtain ⟨n,hn,hwalk⟩ := walk_ones ht limit 29 (by decide) out
  obtain ⟨next,hnext,-,hsym⟩ := inside_word ht eos_mem hn hsplit
  rw [if_pos rfl] at hsym
  rw [eosWord_eq,hsplit,List.foldlM_append,hwalk]
  change (stepIn nodes limit ⟨n,29,out⟩ true).bind _ = _
  simp only [childOf] at hnext
  simp only [symbolOf] at hsym
  simp only [stepIn,hnext,hsym,if_true]
  rfl

/-- The walk over whole words ends at the root, unless the output overflows. -/
theorem walk_words (ht : Spells code nodes) (limit : ℕ) (s : Bytes) :
    (s.flatMap wordOf).foldlM (stepIn nodes limit) ⟨0,0,[]⟩ = none ∨
      (s.flatMap wordOf).foldlM (stepIn nodes limit) ⟨0,0,[]⟩ = some ⟨0,0,s⟩ := by
  by_cases h : s.length ≤ limit
  · right
    exact walk_input ht s [] (by simpa using h)
  · left
    exact walk_input_none ht (Nat.lt_of_not_le h)

theorem decode_eos {x s : Bytes} {r : List Bool} (h : x.flatMap bitsOfByte = s.flatMap wordOf ++ (eosWord ++ r)) :
    decode x limit = none := by
  cases hd : decode x limit with
  | none => rfl
  | some t =>
    obtain ⟨n,k,-,hwalk,-⟩ := decode_walk hd
    rw [h,List.foldlM_append] at hwalk
    rcases walk_words tree_spells limit s with hs | hs
    · rw [hs] at hwalk
      cases hwalk
    · rw [hs,Option.bind_eq_bind,Option.bind_some,List.foldlM_append,walk_eos tree_spells] at hwalk
      cases hwalk

theorem decode_badPadding {x s : Bytes} {pad : List Bool} (h : x.flatMap bitsOfByte = s.flatMap wordOf ++ pad)
    (hb : BadPadding pad) : decode x limit = none := by
  cases hd : decode x limit with
  | none => rfl
  | some t =>
    obtain ⟨n,k,hk,hwalk,hn⟩ := decode_walk hd
    obtain ⟨e,he,r,hr,hsplit⟩ := hb.unfinished
    obtain ⟨m,hm,hpad⟩ := walk_prefix tree_spells limit he hsplit hr s
    rw [h,List.foldlM_append] at hwalk
    rcases walk_words tree_spells limit s with hs | hs
    · rw [hs] at hwalk
      cases hwalk
    · rw [hs,Option.bind_eq_bind,Option.bind_some,hpad] at hwalk
      cases hwalk
      have hones := tree_spells.sound.reach_inj hm hn
      rcases hb.bad with hlong | hfalse
      · omega
      · rw [hones] at hfalse
        simp at hfalse

end Rejected

/-- Huffman coding is a bijection onto what the decoder accepts. -/
theorem accepted_unique :
    (∀ (s : Bytes) (limit : ℕ), s.length ≤ limit → decode (Accumulator.encode s) limit = some s ∧
      (Accumulator.encode s).length = encodedLen s) ∧
    (∀ (x s : Bytes) (limit : ℕ), decode x limit = some s → Accumulator.encode s = x) ∧
    (∀ (x y s : Bytes) (l m : ℕ), decode x l = some s → decode y m = some s → x = y) ∧
    (∀ (x s : Bytes) (r : List Bool) (limit : ℕ),
      x.flatMap bitsOfByte = s.flatMap wordOf ++ (eosWord ++ r) → decode x limit = none) ∧
    ∀ (x s : Bytes) (pad : List Bool) (limit : ℕ),
      x.flatMap bitsOfByte = s.flatMap wordOf ++ pad → BadPadding pad → decode x limit = none := by
  simp only [Accumulator.encode_eq]
  refine ⟨fun s limit h => ⟨decode_encode h,length_encode s⟩,fun x s limit => encode_decode,?_,
    fun x s r limit => decode_eos,fun x s pad limit => decode_badPadding⟩
  intro x y s l m hx hy
  exact (encode_decode hx).symm.trans (encode_decode hy)

end OxiServe.Huffman
