import OxiServe.Server.ClientHello

/-! # Records of a handshake

A message cut into records is put together again from the records that reach its
declared length, wherever it is cut. Until then the answer is to ask again, and an
answer that has been given stands whatever arrives behind.
-/
namespace OxiServe.Server.Preread
open Cursor

section Fragments

/-- A record of the handshake: its minor version and its payload, within the limit. -/
structure Fragment where
  minor : UInt8
  payload : Bytes
  nonempty : payload ≠ []
  length_le : payload.length ≤ maxRecord

def Fragment.bytes (f : Fragment) : Bytes := recHandshake :: 3 :: f.minor :: vector 2 f.payload

/-- The records one behind the other. -/
def encode (fs : List Fragment) : Bytes := fs.flatMap Fragment.bytes

/-- What the records carry. -/
def payloads (fs : List Fragment) : List Bytes := fs.map Fragment.payload

def carried (fs : List Fragment) : Bytes := (payloads fs).flatten

theorem encode_cons (f : Fragment) (fs : List Fragment) : encode (f :: fs) = f.bytes ++ encode fs := rfl

theorem Fragment.length_pos (f : Fragment) : 0 < f.payload.length := List.length_pos_of_ne_nil f.nonempty

theorem length_le_encode (fs : List Fragment) : fs.length ≤ (encode fs).length :=
  length_le_flatMap (fun f => by rw [Fragment.bytes,List.length_cons]; omega) fs

end Fragments

section Whole

/-- A message of the type `k`: its header, the body it announces, and what stands behind. -/
structure IsMessage (k : UInt8) (m body tail : Bytes) : Prop where
  layout : ∃ len, m = k :: (len ++ (body ++ tail)) ∧ len.length = 3 ∧ body.length = ofBe len

/-- The header is there, and as much as it announces. -/
def Whole (m : Bytes) : Prop := ∃ k body tail, IsMessage k m body tail

theorem isWhole_iff {parts : List Bytes} : isWhole parts = true ↔ Whole parts.flatten := by
  have hsum : (parts.map List.length).sum = parts.flatten.length := List.length_flatten.symm
  unfold isWhole declaredLen
  rw [hsum]
  generalize parts.flatten = m
  constructor
  · intro h
    split at h
    · rename_i need hn
      split at hn
      · rename_i k a b c r
        cases hn
        simp only [decide_eq_true_eq,List.length_cons] at h
        refine ⟨k,r.take (ofBe [a,b,c]),r.drop (ofBe [a,b,c]),[a,b,c],?_,rfl,?_⟩
        · rw [List.take_append_drop]
          rfl
        · rw [List.length_take]
          omega
      · cases hn
    · cases h
  · rintro ⟨k,body,tail,len,rfl,hl,hb⟩
    obtain ⟨a,b,c,rfl⟩ := List.length_eq_three.mp hl
    simp only [List.cons_append,List.nil_append,decide_eq_true_eq,List.length_cons,List.length_append]
    omega

theorem IsMessage.append {k : UInt8} {m body tail : Bytes} (h : IsMessage k m body tail) (s : Bytes) :
    IsMessage k (m ++ s) body (tail ++ s) := by
  obtain ⟨len,rfl,hl,hb⟩ := h.layout
  exact ⟨len,by simp only [List.cons_append,List.append_assoc],hl,hb⟩

theorem Whole.append {m : Bytes} (h : Whole m) (s : Bytes) : Whole (m ++ s) := by
  obtain ⟨k,body,tail,hm⟩ := h
  exact ⟨k,body,tail ++ s,hm.append s⟩

/-- The header of a message leads to its body. -/
theorem handshake_isMessage {k : UInt8} {m body tail : Bytes} (h : IsMessage k m body tail) :
    handshake m = if k ≠ msgClientHello then some .notTls else clientHello body := by
  obtain ⟨len,rfl,hl,hb⟩ := h.layout
  have hu : u24 (len ++ (body ++ tail)) = some (body.length,body ++ tail) := u24_eq_some.mpr ⟨len,rfl,hl,hb.symm⟩
  rw [handshake]
  simp only [u8_cons,hu,Option.bind_eq_bind,Option.bind_some,take_append]

/-- What stands behind a whole message does not matter. -/
theorem handshake_append {m : Bytes} (h : Whole m) (s : Bytes) : handshake (m ++ s) = handshake m := by
  obtain ⟨k,body,tail,hm⟩ := h
  rw [handshake_isMessage (hm.append s),handshake_isMessage hm]

end Whole

section Reading
variable {fuel : ℕ} {c r s : Bytes} {parts : List Bytes}

theorem record_fragment (f : Fragment) (r : Bytes) : record (f.bytes ++ r) = .ok (f.payload,r) := by
  have hl := f.length_le
  have hp := f.length_pos
  have hm : maxRecord < 2 ^ 16 := by decide
  have hlen : ¬ (f.payload.length = 0 ∨ maxRecord < f.payload.length) := by omega
  have hu := take_u16_vector (x := f.payload) (by omega) r
  unfold record
  simp only [Fragment.bytes,List.cons_append,u8_cons,ne_eq,not_true_eq_false,if_false,hu,if_neg hlen,take_append]

/-- An answer about a record is not changed by what arrives behind. -/
theorem record_more {x : Except Preread (Bytes × Bytes)} (h : record c = x) (hx : x ≠ .error .incomplete) (s : Bytes) :
    record (c ++ s) = x.map (fun p => (p.1,p.2 ++ s)) := by
  subst h
  unfold record at hx ⊢
  rcases h1 : u8 c with _ | ⟨kind,c1⟩
  · rw [h1] at hx
    exact absurd rfl hx
  rw [h1] at hx
  rw [u8_more h1 s]
  dsimp only at hx ⊢
  split
  · rfl
  rename_i hk
  rw [if_neg hk] at hx
  rcases h2 : u8 c1 with _ | ⟨major,c2⟩
  · rw [h2] at hx
    exact absurd rfl hx
  rw [h2] at hx
  rw [u8_more h2 s]
  dsimp only at hx ⊢
  rcases h3 : u8 c2 with _ | ⟨minor,c3⟩
  · rw [h3] at hx
    exact absurd rfl hx
  rw [h3] at hx
  rw [u8_more h3 s]
  dsimp only at hx ⊢
  split
  · rfl
  rename_i hmaj
  rw [if_neg hmaj] at hx
  rcases h4 : u16 c3 with _ | ⟨len,c4⟩
  · rw [h4] at hx
    exact absurd rfl hx
  rw [h4] at hx
  rw [u16_more h4 s]
  dsimp only at hx ⊢
  split
  · rfl
  rename_i hlen
  rw [if_neg hlen] at hx
  rcases h5 : take len c4 with _ | ⟨payload,c5⟩
  · rw [h5] at hx
    exact absurd rfl hx
  rw [take_more h5 s]
  rfl

/-- Nor is an answer about all records. -/
theorem records_more {x : Except Preread (List Bytes)} (h : records fuel c parts = x) (hx : x ≠ .error .incomplete)
    (s : Bytes) {n : ℕ} (hn : fuel ≤ n) : records n (c ++ s) parts = x := by
  induction fuel generalizing c parts n with
  | zero =>
    subst h
    exact absurd rfl hx
  | succ fuel ih =>
    obtain ⟨n,rfl⟩ : ∃ k, n = k + 1 := ⟨n - 1,by omega⟩
    rw [records] at h ⊢
    rcases hr : record c with e | ⟨payload,c'⟩
    · rw [hr] at h
      subst h
      have he : (Except.error e : Except Preread (Bytes × Bytes)) ≠ .error .incomplete := by
        rintro ⟨⟩
        exact hx rfl
      rw [record_more hr he s]
      rfl
    · rw [hr] at h
      rw [record_more hr (fun h => nomatch h) s]
      dsimp only [Except.map] at h ⊢
      by_cases hw : isWhole (parts ++ [payload]) = true
      · rw [if_pos hw] at h ⊢
        exact h
      · rw [if_neg hw] at h ⊢
        by_cases hc : c' = []
        · rw [if_pos hc] at h
          exact absurd h.symm hx
        · rw [if_neg hc] at h
          rw [if_neg (List.append_ne_nil_of_left_ne_nil hc s)]
          exact ih h (Nat.le_of_succ_le_succ hn)

/-- The records are read up to a whole message. -/
theorem records_encode {fs : List Fragment} (hw : Whole (parts.flatten ++ carried fs)) (hp : ¬ Whole parts.flatten)
    (r : Bytes) (hf : fs.length < fuel) :
    ∃ pre post, payloads fs = pre ++ post ∧ Whole (parts ++ pre).flatten ∧
      records fuel (encode fs ++ r) parts = .ok (parts ++ pre) := by
  induction fs generalizing fuel parts with
  | nil =>
    rw [carried,payloads,List.map_nil,List.flatten_nil,List.append_nil] at hw
    exact absurd hw hp
  | cons f fs ih =>
    cases fuel with
    | zero => exact absurd hf (Nat.not_lt_zero _)
    | succ fuel =>
      rw [encode_cons,List.append_assoc,records,record_fragment]
      dsimp only
      by_cases hone : isWhole (parts ++ [f.payload]) = true
      · rw [if_pos hone]
        exact ⟨[f.payload],payloads fs,rfl,isWhole_iff.mp hone,rfl⟩
      · have hnot := fun h => hone (isWhole_iff.mpr h)
        have hw' : Whole ((parts ++ [f.payload]).flatten ++ carried fs) := by
          rw [List.flatten_append,List.flatten_singleton,List.append_assoc]
          exact hw
        have hne : fs ≠ [] := by
          rintro rfl
          rw [carried,payloads,List.map_nil,List.flatten_nil,List.append_nil] at hw'
          exact hnot hw'
        obtain ⟨pre,post,hpp,hpre,hr⟩ := ih hw' hnot (Nat.lt_of_succ_lt_succ hf)
        have hnil : encode fs ++ r ≠ [] := by
          have hl := length_le_encode fs
          have hpos := List.length_pos_of_ne_nil hne
          refine List.append_ne_nil_of_left_ne_nil (List.ne_nil_of_length_pos (by omega)) r
        rw [if_neg hone,if_neg hnil]
        refine ⟨f.payload :: pre,post,congrArg (f.payload :: ·) hpp,?_,?_⟩
        · rw [List.append_cons]
          exact hpre
        · rw [hr,List.append_assoc,List.singleton_append]

/-- Records that carry a whole message are read for that message. -/
theorem parse_encode {fs : List Fragment} (hw : Whole (carried fs)) (r : Bytes) :
    parse (encode fs ++ r) = (handshake (carried fs)).getD .incomplete := by
  have hp : ¬ Whole ([] : List Bytes).flatten := by
    rintro ⟨k,body,tail,len,h,-,-⟩
    cases h
  have hl := length_le_encode fs
  obtain ⟨pre,post,hpp,hpre,hr⟩ := @records_encode ((encode fs ++ r).length + 1) [] fs hw hp r
    (by rw [List.length_append]; omega)
  have hflat : carried fs = pre.flatten ++ post.flatten := by
    rw [carried,hpp,List.flatten_append]
  cases fs with
  | nil => exact absurd hw hp
  | cons f fs =>
    have hc : encode (f :: fs) ++ r = recHandshake :: (3 :: f.minor :: vector 2 f.payload ++ (encode fs ++ r)) := by
      rw [encode_cons,List.append_assoc]
      rfl
    rw [List.nil_append] at hpre hr
    rw [hflat,handshake_append hpre]
    unfold parse
    rw [hr,hc]
    dsimp only
    rw [if_neg (fun h => h rfl)]

end Reading

end OxiServe.Server.Preread
