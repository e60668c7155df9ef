import OxiServe.Http2.HuffmanTree

/-! # Huffman coded strings decode to themselves

The encoder's bytes spell the words of the input and then fewer than eight
ones. Each word walks the tree from the root to its symbol and back; the ones
start the end-of-string word, so the walk they leave open is legal padding.
-/
namespace OxiServe.Huffman
open PrefixCode

section Bytes

/-- The number of ones after `n` bits. -/
def padding (n : ℕ) : ℕ := (8 - n % 8) % 8

theorem bitsOfByte_byteOfBits (bs : List Bool) (h : bs.length = 8) : bitsOfByte (byteOfBits bs) = bs := by
  have hall : ∀ a b c d e f g i : Bool, bitsOfByte (byteOfBits [a,b,c,d,e,f,g,i]) = [a,b,c,d,e,f,g,i] := by
    decide +kernel
  obtain ⟨a,b,c,d,e,f,g,i,rfl⟩ : ∃ a b c d e f g i, bs = [a,b,c,d,e,f,g,i] := by
    match bs,h with
    | [a,b,c,d,e,f,g,i],_ => exact ⟨a,b,c,d,e,f,g,i,rfl⟩
  exact hall a b c d e f g i

example : bitsOfByte 0xa6 = [true,false,true,false,false,true,true,false] := by decide +kernel

theorem flushBits_bits {n : ℕ} {bs : List Bool} (h : bs.length < n) :
    (flushBits n bs).flatMap bitsOfByte = bs ++ List.replicate (padding bs.length) true := by
  induction n,bs using flushBits.induct with
  | case1 bs => exact absurd h (Nat.not_lt_zero _)
  | case2 n => simp [flushBits,padding]
  | case3 n bs hne hlt =>
    have hpos := List.length_pos_of_ne_nil hne
    have hpad : padding bs.length = 8 - bs.length := by unfold padding; omega
    rw [flushBits,if_neg hne,if_pos hlt,List.flatMap_singleton,bitsOfByte_byteOfBits,hpad]
    simp only [List.length_append,List.length_replicate]
    omega
  | case4 n bs hne hge ih =>
    have hpad : padding (bs.drop 8).length = padding bs.length := by
      unfold padding
      rw [List.length_drop]
      omega
    have hrest := ih (by rw [List.length_drop]; omega)
    rw [flushBits,if_neg hne,if_neg hge,List.flatMap_cons,hrest,hpad,bitsOfByte_byteOfBits,← List.append_assoc,
      List.take_append_drop]
    rw [List.length_take]
    omega

theorem length_flushBits {n : ℕ} {bs : List Bool} (h : bs.length < n) :
    (flushBits n bs).length = (bs.length + 7) / 8 := by
  induction n,bs using flushBits.induct with
  | case1 bs => exact absurd h (Nat.not_lt_zero _)
  | case2 n => simp [flushBits]
  | case3 n bs hne hlt =>
    have hpos := List.length_pos_of_ne_nil hne
    rw [flushBits,if_neg hne,if_pos hlt,List.length_singleton]
    omega
  | case4 n bs hne hge ih =>
    have hrest := ih (by rw [List.length_drop]; omega)
    rw [flushBits,if_neg hne,if_neg hge,List.length_cons,hrest,List.length_drop]
    omega

end Bytes

section Words

def wordOf (b : UInt8) : List Bool := codeBits (table.getD b.toNat (0,0)).1 (table.getD b.toNat (0,0)).2

theorem wordOf_mem (b : UInt8) : (wordOf b,b.toNat) ∈ code := by
  have hlt : b.toNat < table.length := Nat.lt_of_lt_of_le b.toNat_lt (by decide +kernel : 2 ^ 8 ≤ table.length)
  have hmem : (table.getD b.toNat (0,0),b.toNat) ∈ table.zipIdx := by
    rw [List.mk_mem_zipIdx_iff_getElem?,List.getD_eq_getElem?_getD,List.getElem?_eq_getElem hlt]
    rfl
  exact List.mem_map.mpr ⟨_,hmem,rfl⟩

theorem eos_mem : (List.replicate 30 true,eos) ∈ code := by
  have hmem : ((0x3fffffff,30),eos) ∈ table.zipIdx := by
    rw [List.mk_mem_zipIdx_iff_getElem?]
    rfl
  exact List.mem_map.mpr ⟨_,hmem,rfl⟩

theorem word_ne_nil {p : List Bool} {s : ℕ} (h : (p,s) ∈ code) : p ≠ [] := by
  rintro rfl
  have heq := code_prefixFree _ h _ eos_mem List.nil_prefix
  simp at heq

theorem bits_eq (input : Bytes) :
    (input.flatMap fun b => let (code,len) := table.getD b.toNat (0,0); codeBits code len) = input.flatMap wordOf :=
  rfl

theorem length_wordOf (b : UInt8) : (wordOf b).length = (table.getD b.toNat (0,0)).2 := by
  simp [wordOf,codeBits]

theorem length_encode (input : Bytes) : (encode input).length = encodedLen input := by
  rw [encode,bits_eq,length_flushBits (Nat.lt_succ_self _),List.length_flatMap,encodedLen]
  simp only [length_wordOf]

theorem encode_bits (input : Bytes) : (encode input).flatMap bitsOfByte =
    input.flatMap wordOf ++ List.replicate (padding (input.flatMap wordOf).length) true := by
  rw [encode,bits_eq,flushBits_bits (Nat.lt_succ_self _)]

end Words

section Walking
variable {nodes : List Node} {limit : ℕ}

theorem stepIn_mark {n next s k : ℕ} {bit : Bool} {out : Bytes} (hc : childOf nodes n bit = some next)
    (hs : symbolOf nodes next = some s) (heos : s ≠ eos) (hroom : out.length < limit) :
    stepIn nodes limit ⟨n,k,out⟩ bit = some ⟨0,0,out ++ [s.toUInt8]⟩ := by
  simp only [childOf] at hc
  simp only [symbolOf] at hs
  simp only [stepIn,hc,hs]
  rw [if_neg heos,if_neg (Nat.not_le_of_lt hroom)]

theorem stepIn_through {n next k : ℕ} {bit : Bool} {out : Bytes} (hc : childOf nodes n bit = some next)
    (hs : symbolOf nodes next = none) : stepIn nodes limit ⟨n,k,out⟩ bit = some ⟨next,k + 1,out⟩ := by
  simp only [childOf] at hc
  simp only [symbolOf] at hs
  simp only [stepIn,hc,hs]

/-- Inside a word the tree goes on and carries no symbol. -/
theorem inside_word (ht : Spells code nodes) {p q r : List Bool} {s n : ℕ} {bit : Bool} (hp : (p,s) ∈ code)
    (hq : reach (childOf nodes) 0 q = some n) (hsplit : p = q ++ bit :: r) :
    ∃ next, childOf nodes n bit = some next ∧ reach (childOf nodes) 0 (q ++ [bit]) = some next ∧
      symbolOf nodes next = if r = [] then some s else none := by
  obtain ⟨m,hm,hms⟩ := ht.coded hp
  rw [hsplit,reach_append,hq,Option.bind_some,reach_cons] at hm
  obtain ⟨next,hnext,hrest⟩ := Option.bind_eq_some_iff.mp hm
  have hreach : reach (childOf nodes) 0 (q ++ [bit]) = some next := by
    rw [reach_append,hq,Option.bind_some,reach_cons,hnext]
    rfl
  refine ⟨next,hnext,hreach,?_⟩
  split
  · next hr =>
    rw [hr] at hrest
    cases hrest
    exact hms
  · next hr =>
    cases hsym : symbolOf nodes next with
    | none => rfl
    | some t =>
      have hpre : q ++ [bit] <+: p := ⟨r,by rw [hsplit]; simp⟩
      have heq := congrArg Prod.fst (code_prefixFree _ (ht.marked hreach hsym) _ hp hpre)
      simp only [hsplit] at heq
      exact absurd (List.append_cancel_left heq).symm (by simp [hr])

theorem walk_word (ht : Spells code nodes) {p : List Bool} {s : ℕ} {out : Bytes} (hp : (p,s) ∈ code)
    (heos : s ≠ eos) (hroom : out.length < limit) (q r : List Bool) (n k : ℕ) (hr : r ≠ []) (hsplit : p = q ++ r)
    (hq : reach (childOf nodes) 0 q = some n) :
    r.foldlM (stepIn nodes limit) ⟨n,k,out⟩ = some ⟨0,0,out ++ [s.toUInt8]⟩ := by
  induction r generalizing q n k with
  | nil => exact absurd rfl hr
  | cons bit r ih =>
    obtain ⟨next,hnext,hreach,hsym⟩ := inside_word ht hp hq hsplit
    rw [List.foldlM_cons]
    split at hsym
    · next hnil =>
      subst hnil
      rw [stepIn_mark hnext hsym heos hroom]
      rfl
    · next hne =>
      rw [stepIn_through hnext hsym]
      exact ih (q ++ [bit]) next (k + 1) hne (by rw [hsplit]; simp) hreach

theorem walk_input (ht : Spells code nodes) (input out : Bytes) (hroom : out.length + input.length ≤ limit) :
    (input.flatMap wordOf).foldlM (stepIn nodes limit) ⟨0,0,out⟩ = some ⟨0,0,out ++ input⟩ := by
  induction input generalizing out with
  | nil => simp
  | cons b input ih =>
    simp only [List.length_cons] at hroom
    have hb := b.toNat_lt
    have hout : out.length < limit := by omega
    have hword := walk_word ht (wordOf_mem b) (by unfold eos; omega : b.toNat ≠ eos) hout [] (wordOf b) 0 0
      (word_ne_nil (wordOf_mem b)) rfl (reach_nil 0)
    rw [List.flatMap_cons,List.foldlM_append,hword]
    change (input.flatMap wordOf).foldlM (stepIn nodes limit) ⟨0,0,out ++ [b.toNat.toUInt8]⟩ = _
    rw [ih _ (by simp only [List.length_append,List.length_singleton]; omega)]
    simp

/-- Short of its end a word only moves the walk on. -/
theorem walk_prefix (ht : Spells code nodes) (limit : ℕ) {p q r : List Bool} {s : ℕ} (hp : (p,s) ∈ code)
    (hsplit : p = q ++ r) (hr : r ≠ []) (out : Bytes) :
    ∃ n, reach (childOf nodes) 0 q = some n ∧
      q.foldlM (stepIn nodes limit) ⟨0,0,out⟩ = some ⟨n,q.length,out⟩ := by
  induction q using List.reverseRecOn generalizing r with
  | nil => exact ⟨0,rfl,rfl⟩
  | append_singleton q bit ih =>
    rw [List.append_assoc,List.singleton_append] at hsplit
    obtain ⟨n,hn,hwalk⟩ := ih hsplit (by simp)
    obtain ⟨next,hnext,hreach,hsym⟩ := inside_word ht hp hn hsplit
    rw [if_neg hr] at hsym
    refine ⟨next,hreach,?_⟩
    rw [List.foldlM_append,hwalk,List.length_append,List.length_singleton]
    change (stepIn nodes limit ⟨n,q.length,out⟩ bit).bind _ = _
    rw [stepIn_through hnext hsym]
    rfl

/-- A run of ones shorter than the end-of-string word stays inside that word. -/
theorem walk_ones (ht : Spells code nodes) (limit k : ℕ) (hk : k < 30) (out : Bytes) :
    ∃ n, reach (childOf nodes) 0 (List.replicate k true) = some n ∧
      (List.replicate k true).foldlM (stepIn nodes limit) ⟨0,0,out⟩ = some ⟨n,k,out⟩ := by
  have hsplit : List.replicate 30 true = List.replicate k true ++ List.replicate (30 - k) true := by
    rw [List.replicate_append_replicate]
    congr 1
    omega
  have hne : List.replicate (30 - k) true ≠ [] := by
    rw [Ne,List.replicate_eq_nil_iff]
    omega
  have hwalk := walk_prefix ht limit eos_mem hsplit hne out
  rwa [List.length_replicate] at hwalk

theorem onesFrom_of_reach {nodes : List Node} {node : ℕ} (k fuel cur : ℕ) (hk : k < fuel)
    (h : reach (childOf nodes) cur (List.replicate k true) = some node) : onesFrom nodes node fuel cur = true := by
  induction k generalizing fuel cur with
  | zero =>
    obtain ⟨fuel,rfl⟩ := Nat.exists_eq_succ_of_ne_zero (by omega : fuel ≠ 0)
    cases h
    rw [onesFrom,if_pos rfl]
  | succ k ih =>
    obtain ⟨fuel,rfl⟩ := Nat.exists_eq_succ_of_ne_zero (by omega : fuel ≠ 0)
    rw [List.replicate_succ,reach_cons] at h
    obtain ⟨next,hnext,hrest⟩ := Option.bind_eq_some_iff.mp h
    have hone : (nodes.getD cur .leaf).one = some next := hnext
    rw [onesFrom]
    split
    · rfl
    · rw [hone]
      exact ih fuel next (by omega) hrest

end Walking

theorem decode_encode {s : Bytes} {limit : ℕ} (h : s.length ≤ limit) : decode (encode s) limit = some s := by
  have hpad : padding (s.flatMap wordOf).length < 8 := Nat.mod_lt _ (by omega)
  generalize hk : padding (s.flatMap wordOf).length = k at hpad
  obtain ⟨n,hn,hones⟩ := walk_ones tree_spells limit k (Nat.lt_of_lt_of_le hpad (by decide)) s
  have hfold : ((encode s).flatMap bitsOfByte).foldlM (stepBit limit) ⟨0,0,[]⟩ = some ⟨n,k,s⟩ := by
    rw [stepBit_eq,encode_bits,hk,List.foldlM_append,walk_input tree_spells s [] (by simpa using h)]
    exact hones
  have hlen : k < tree.length := by
    have hle := tree_spells.sound.length_le hn
    rw [Nat.zero_add,List.length_replicate] at hle
    exact Nat.lt_of_le_of_lt hle (tree_spells.reach_lt hn)
  have hones : isAllOnesPrefix n tree.length 0 = true := by
    rw [isAllOnesPrefix_eq]
    exact onesFrom_of_reach k tree.length 0 hlen hn
  simp only [decode,hfold,hones]
  rw [if_neg (Nat.not_lt_of_ge (Nat.le_of_lt_succ hpad))]
  simp

section Limit
variable {nodes : List Node} {limit : ℕ}

theorem stepIn_full {n next s k : ℕ} {bit : Bool} {out : Bytes} (hc : childOf nodes n bit = some next)
    (hs : symbolOf nodes next = some s) (hfull : limit ≤ out.length) : stepIn nodes limit ⟨n,k,out⟩ bit = none := by
  simp only [childOf] at hc
  simp only [symbolOf] at hs
  simp only [stepIn,hc,hs,if_pos hfull]
  split
  · rfl
  · rfl

/-- No word is taken once the output is full. -/
theorem walk_word_full (ht : Spells code nodes) {p : List Bool} {s : ℕ} {out : Bytes} (hp : (p,s) ∈ code)
    (hfull : limit ≤ out.length) (q r : List Bool) (n k : ℕ) (hr : r ≠ []) (hsplit : p = q ++ r)
    (hq : reach (childOf nodes) 0 q = some n) : r.foldlM (stepIn nodes limit) ⟨n,k,out⟩ = none := by
  induction r generalizing q n k with
  | nil => exact absurd rfl hr
  | cons bit r ih =>
    obtain ⟨next,hnext,hreach,hsym⟩ := inside_word ht hp hq hsplit
    rw [List.foldlM_cons]
    split at hsym
    · rw [stepIn_full hnext hsym hfull]
      rfl
    · next hne =>
      rw [stepIn_through hnext hsym]
      exact ih (q ++ [bit]) next (k + 1) hne (by rw [hsplit]; simp) hreach

theorem walk_input_none (ht : Spells code nodes) {s : Bytes} (h : limit < s.length) :
    (s.flatMap wordOf).foldlM (stepIn nodes limit) ⟨0,0,[]⟩ = none := by
  obtain ⟨b,rest,hb⟩ := List.exists_cons_of_ne_nil (List.ne_nil_of_length_pos (by
    rw [List.length_drop]
    omega) : s.drop limit ≠ [])
  have hs : s = s.take limit ++ b :: rest := by rw [← hb,List.take_append_drop]
  have hlen : (s.take limit).length = limit := by
    rw [List.length_take]
    omega
  have hfull := walk_word_full ht (wordOf_mem b) (Nat.le_of_eq hlen.symm) [] (wordOf b) 0 0
    (word_ne_nil (wordOf_mem b)) rfl (reach_nil 0)
  have hw : s.flatMap wordOf = (s.take limit).flatMap wordOf ++ (wordOf b ++ rest.flatMap wordOf) := by
    rw [← List.flatMap_cons,← List.flatMap_append,← hs]
  rw [hw,List.foldlM_append,walk_input ht (s.take limit) [] (by rw [List.length_nil,hlen]; omega)]
  simp only [List.nil_append,List.foldlM_append,Option.bind_eq_bind,Option.bind_some,hfull,Option.bind_none]

end Limit

/-- A coded string is refused when it is longer than the limit. -/
theorem decode_encode_none {s : Bytes} {limit : ℕ} (h : limit < s.length) : decode (encode s) limit = none := by
  have hfold : ((encode s).flatMap bitsOfByte).foldlM (stepBit limit) ⟨0,0,[]⟩ = none := by
    rw [stepBit_eq,encode_bits,List.foldlM_append,walk_input_none tree_spells h]
    rfl
  simp only [decode,hfold]

end OxiServe.Huffman
