import OxiServe.Lib.Numerals
import OxiServe.Http3.Grammar

/-! # Frames survive every delivery

A frame is written with integers of any width that holds them. Reading headers and
payloads in turn gives the frames that were written, however the bytes are cut into
reads; a stream that ends inside a frame ends in FRAME_ERROR.
-/
namespace OxiServe.Http3

section Writing

/-- Bytes `v` occupies on the wire. -/
def varintLen (v : ℕ) : ℕ :=
  if v ≤ 0x3f then 1 else if v ≤ 0x3fff then 2 else if v ≤ 0x3fffffff then 4 else 8

/-- Appends `v` in the shortest form that holds it. -/
def putVarint (v : ℕ) : Bytes :=
  match varintLen v with
  | 1 => [v.toUInt8]
  | 2 => toBe 2 (v % 2 ^ 16 ||| 0x4000)
  | 4 => toBe 4 (v % 2 ^ 32 ||| 0x80000000)
  | _ => toBe 8 (v ||| 0xc000000000000000)

def putFrame (kind : ℕ) (payload : Bytes) : Bytes := putVarint kind ++ putVarint payload.length ++ payload

/-- The form of `2 ^ c` bytes: the two top bits are `c`, the others hold `v`. -/
def wideVarint (c v : ℕ) : Bytes := toBe (2 ^ c) (c * 2 ^ (8 * 2 ^ c - 2) + v)

/-- One of the four forms of `v`, of a width that holds it. -/
def LegalVarint (v : ℕ) (b : Bytes) : Prop := ∃ c < 4, v < 2 ^ (8 * 2 ^ c - 2) ∧ b = wideVarint c v

/-- A type and a payload behind two integers of legal widths. -/
def LegalFrame (f : ℕ × Bytes) (b : Bytes) : Prop :=
  ∃ k l, LegalVarint f.1 k ∧ LegalVarint f.2.length l ∧ b = k ++ l ++ f.2

/-- The frames one after the other, each in a legal form of its own. -/
inductive Wire : List (ℕ × Bytes) → Bytes → Prop
  | nil : Wire [] []
  | cons {f : ℕ × Bytes} {fs : List (ℕ × Bytes)} {b rest : Bytes} :
    LegalFrame f b → isReservedH2 f.1 = false → Wire fs rest → Wire (f :: fs) (b ++ rest)

end Writing

/-- Headers and payloads read in turn: the frames, and how the stream ended. A payload
that is not there is FRAME_ERROR at every caller. -/
inductive Reader.Reads : Reader → List (ℕ × Bytes) → Except ℕ Unit → Prop
  | ended {r s : Reader} : r.head = (.ok none,s) → Reads r [] (.ok ())
  | refused {r s : Reader} {e : ℕ} : r.head = (.error e,s) → Reads r [] (.error e)
  | cut {r s : Reader} {h : Head} : r.head = (.ok (some h),s) → s.exact h.len = none →
    Reads r [] (.error Code.frameError)
  | frame {r s t : Reader} {h : Head} {payload : Bytes} {fs : List (ℕ × Bytes)} {e : Except ℕ Unit} :
    r.head = (.ok (some h),s) → s.exact h.len = some (payload,t) → Reads t fs e →
      Reads r ((h.kind,payload) :: fs) e

section Varints
variable {v c n : ℕ} {b p rest : Bytes}

/-- What is added below the top bits of `c` is seen in the first byte and kept in the others. -/
theorem top_bits {k : ℕ} (hv : v < 64 * 256 ^ k) :
    (c * (64 * 256 ^ k) + v) / 256 ^ k = c * 64 + v / 256 ^ k ∧ v / 256 ^ k < 64 ∧
      (c * (64 * 256 ^ k) + v) % 256 ^ k = v % 256 ^ k := by
  have hp : 0 < 256 ^ k := Nat.pow_pos (by decide)
  have he : c * (64 * 256 ^ k) + v = v + 256 ^ k * (c * 64) := by ring
  refine ⟨?_,(Nat.div_lt_iff_lt_mul hp).mpr hv,?_⟩
  · rw [he,Nat.add_mul_div_left _ _ hp,Nat.add_comm]
  · rw [he,Nat.add_mul_mod_self_left]

theorem getVarint_wide (rest : Bytes) (hc : c < 4) (hv : v < 2 ^ (8 * 2 ^ c - 2)) :
    getVarint (wideVarint c v ++ rest) = some (v,2 ^ c) := by
  obtain ⟨k,hk⟩ : ∃ k, 2 ^ c = k + 1 := ⟨2 ^ c - 1,(Nat.sub_add_cancel (Nat.two_pow_pos c)).symm⟩
  have hw : 2 ^ (8 * (k + 1) - 2) = 64 * 256 ^ k := by
    have he : 8 * (k + 1) - 2 = 6 + 8 * k := by omega
    rw [he,Nat.pow_add,Nat.pow_mul]
  rw [hk,hw] at hv
  obtain ⟨htop,hlow,hrest⟩ := top_bits (c := c) hv
  have hbyte {q : ℕ} (hq : q < 64) :
      (c * 64 + q).toUInt8.toNat = c * 64 + q ∧ (c * 64 + q) / 64 = c ∧ (c * 64 + q) % 64 = q := by
    rw [Nat.toUInt8_eq,UInt8.toNat_ofNat']
    omega
  obtain ⟨hfirst,hclass,hvalue⟩ := hbyte hlow
  have hl : (toBe k (c * (64 * 256 ^ k) + v)).length = k := length_toBe _ _
  rw [wideVarint,hk,hw,toBe_succ,List.cons_append]
  simp only [getVarint,htop,hfirst,hclass,hvalue,hk,Nat.add_sub_cancel,List.length_cons,List.length_append,hl]
  rw [if_neg (by omega),List.take_left' hl,ofBe_foldl,hl,ofBe_toBe,hrest,Nat.div_add_mod']

theorem LegalVarint.get_self (h : LegalVarint v b) : ∃ m, getVarint b = some (v,m) ∧ m = b.length := by
  obtain ⟨c,hc,hv,rfl⟩ := h
  refine ⟨2 ^ c,?_,by rw [wideVarint,length_toBe]⟩
  have hg := getVarint_wide [] hc hv
  rwa [List.append_nil] at hg

theorem LegalVarint.get (h : LegalVarint v b) : getVarint (b ++ rest) = some (v,b.length) := by
  obtain ⟨m,hg,rfl⟩ := h.get_self
  exact getVarint_append hg

/-- The shortest form is that of the least width. -/
theorem legal_putVarint (hv : v < 2 ^ 62) : LegalVarint v (putVarint v) ∧ (putVarint v).length = varintLen v := by
  have hor {x i a : ℕ} (hx : x < 2 ^ i) : x ||| 2 ^ i * a = 2 ^ i * a + x := by
    rw [Nat.or_comm,Nat.two_pow_add_eq_or_of_lt hx a]
  unfold putVarint varintLen
  split_ifs with h1 h2 h3
  · refine ⟨⟨0,by decide,by omega,?_⟩,rfl⟩
    have he : 0 * 2 ^ (8 * 2 ^ 0 - 2) + v = v := by omega
    rw [wideVarint,he,pow_zero,toBe_succ]
    simp [toBe]
  · have hm : v % 2 ^ 16 ||| 0x4000 = 1 * 2 ^ (8 * 2 ^ 1 - 2) + v := by
      rw [Nat.mod_eq_of_lt (by omega)]
      exact hor (i := 14) (a := 1) (by omega)
    refine ⟨⟨1,by decide,by omega,?_⟩,length_toBe _ _⟩
    rw [hm]
    rfl
  · have hm : v % 2 ^ 32 ||| 0x80000000 = 2 * 2 ^ (8 * 2 ^ 2 - 2) + v := by
      rw [Nat.mod_eq_of_lt (by omega)]
      exact hor (i := 30) (a := 2) (by omega)
    refine ⟨⟨2,by decide,by omega,?_⟩,length_toBe _ _⟩
    rw [hm]
    rfl
  · have hm : v ||| 0xc000000000000000 = 3 * 2 ^ (8 * 2 ^ 3 - 2) + v := hor (i := 62) (a := 3) hv
    refine ⟨⟨3,by decide,hv,?_⟩,length_toBe _ _⟩
    rw [hm]
    rfl

end Varints

section Frames
variable {f : ℕ × Bytes} {b rest : Bytes}

theorem legal_putFrame {kind : ℕ} {payload : Bytes} (hk : kind < 2 ^ 62) (hl : payload.length < 2 ^ 62) :
    LegalFrame (kind,payload) (putFrame kind payload) :=
  ⟨_,_,(legal_putVarint hk).1,(legal_putVarint hl).1,rfl⟩

/-- The header of a frame that is there, whatever follows it. -/
theorem parseHead_legal {k l : Bytes} (hk : LegalVarint f.1 k) (hl : LegalVarint f.2.length l)
    (hr : isReservedH2 f.1 = false) :
    parseHead (k ++ l ++ rest) = .ok (some ⟨f.1,f.2.length,k.length + l.length⟩) := by
  have hd : (k ++ (l ++ rest)).drop k.length = l ++ rest := List.drop_left' rfl
  rw [List.append_assoc,parseHead,hk.get]
  simp only [hd,hl.get,hr,Bool.false_eq_true,if_false]

/-- Too few bytes for the header: there is none yet, never half of one. -/
theorem parseHead_short {k l p : Bytes} (hk : LegalVarint f.1 k) (hl : LegalVarint f.2.length l)
    (hr : isReservedH2 f.1 = false) (hp : p <+: k ++ l ++ f.2) (hlen : p.length < k.length + l.length) :
    parseHead p = .ok none := by
  by_contra hn
  obtain ⟨x,hx⟩ := hp
  have ha := parseHead_append (x := x) rfl hn
  rw [hx,parseHead_legal hk hl hr] at ha
  have hle := parseHead_headLen ha.symm
  dsimp only at hle
  omega

end Frames

namespace Reader
variable {r s : Reader} {f : ℕ × Bytes} {fs gs : List (ℕ × Bytes)} {b rest : Bytes} {e e' : Except ℕ Unit}

theorem head_takes {h : Head} (hh : Http3.head r.pending = .ok (some (h,rest))) :
    ∃ s, r.head = (.ok (some h),s) ∧ s.pending = rest := by
  rw [head_eq] at hh
  rcases hr : r.head with ⟨e | _ | g,s⟩
  · simp only [hr,Except.map] at hh
    cases hh
  · simp only [hr,Except.map,Option.map_none] at hh
    cases hh
  · simp only [hr,Except.map,Option.map_some] at hh
    cases hh
    exact ⟨s,rfl,rfl⟩

theorem head_ends (hh : Http3.head r.pending = .ok none) : ∃ s, r.head = (.ok none,s) := by
  rw [head_eq] at hh
  rcases hr : r.head with ⟨e | _ | g,s⟩
  · simp only [hr,Except.map] at hh
    cases hh
  · exact ⟨s,rfl⟩
  · simp only [hr,Except.map,Option.map_some] at hh
    cases hh

theorem head_refuses {e : ℕ} (hh : Http3.head r.pending = .error e) : ∃ s, r.head = (.error e,s) := by
  rw [head_eq] at hh
  rcases hr : r.head with ⟨e | _ | g,s⟩
  · simp only [hr,Except.map] at hh
    cases hh
    exact ⟨s,rfl⟩
  · simp only [hr,Except.map,Option.map_none] at hh
    cases hh
  · simp only [hr,Except.map,Option.map_some] at hh
    cases hh

theorem exact_lacks {n : ℕ} (hx : Http3.exact r.pending n = none) : r.exact n = none := by
  rw [exact_eq] at hx
  exact Option.map_eq_none_iff.mp hx

/-- One frame off the stream: its header, its payload, and the reader at the byte after it. -/
theorem takes_frame (hf : LegalFrame f b) (hr : isReservedH2 f.1 = false) (hp : r.pending = b ++ rest) :
    ∃ h s t, r.head = (.ok (some h),s) ∧ h.kind = f.1 ∧ s.exact h.len = some (f.2,t) ∧ t.pending = rest := by
  obtain ⟨k,l,hk,hl,rfl⟩ := hf
  rw [List.append_assoc] at hp
  have hlen : (k ++ l).length = k.length + l.length := List.length_append
  have hhead : Http3.head r.pending =
      .ok (some (⟨f.1,f.2.length,k.length + l.length⟩,f.2 ++ rest)) := by
    simp only [Http3.head,hp,parseHead_legal hk hl hr]
    rw [List.drop_left' hlen]
  obtain ⟨s,hs,hps⟩ := head_takes hhead
  have hexact : Http3.exact s.pending f.2.length = some (f.2,rest) := by
    rw [hps,Http3.exact,if_neg (by simp),List.take_left' rfl,List.drop_left' rfl]
  obtain ⟨t,ht,hpt⟩ := exact_some hexact
  exact ⟨_,s,t,hs,rfl,ht,hpt⟩

/-- A stream that ends inside a frame. -/
theorem reads_cut (hf : LegalFrame f b) (hr : isReservedH2 f.1 = false) (hp : r.pending <+: b)
    (h0 : r.pending ≠ []) (hb : r.pending ≠ b) : r.Reads [] (.error Code.frameError) := by
  obtain ⟨k,l,hk,hl,rfl⟩ := hf
  by_cases hlen : r.pending.length < k.length + l.length
  · have hhead : Http3.head r.pending = .error Code.frameError := by
      simp only [Http3.head,parseHead_short hk hl hr hp hlen,if_neg h0]
    obtain ⟨s,hs⟩ := head_refuses hhead
    exact .refused hs
  · obtain ⟨x,hx⟩ := List.prefix_of_prefix_length_le (List.prefix_append (k ++ l) f.2) hp
      (by rw [List.length_append]; omega)
    have hshort : x.length < f.2.length := by
      obtain ⟨y,hy⟩ := hp
      rw [← hx,List.append_assoc,List.append_cancel_left_eq] at hy
      have hy0 : y ≠ [] := by
        rintro rfl
        rw [List.append_nil] at hy
        exact hb (by rw [← hx,hy])
      have hpos := List.length_pos_of_ne_nil hy0
      rw [← hy,List.length_append]
      omega
    have hhead : Http3.head r.pending = .ok (some (⟨f.1,f.2.length,k.length + l.length⟩,x)) := by
      simp only [Http3.head,← hx,parseHead_legal hk hl hr]
      rw [List.drop_left' List.length_append]
    obtain ⟨s,hs,hps⟩ := head_takes hhead
    exact .cut hs (exact_lacks (by rw [hps,Http3.exact,if_pos hshort]))

theorem reads_end (hp : r.pending = []) : r.Reads [] (.ok ()) := by
  have hhead : Http3.head r.pending = .ok none := by
    rw [hp]
    rfl
  obtain ⟨s,hs⟩ := head_ends hhead
  exact .ended hs

/-- Whole frames are read off before whatever the rest gives. -/
theorem reads_wire (hw : Wire fs b) (hp : r.pending = b ++ rest)
    (ht : ∀ t : Reader, t.pending = rest → t.Reads gs e) : r.Reads (fs ++ gs) e := by
  induction hw generalizing r with
  | nil => exact ht r hp
  | cons hf hr hw ih =>
    rw [List.append_assoc] at hp
    obtain ⟨h,s,t,hs,hk,hx,hpt⟩ := takes_frame hf hr hp
    have hreads := Reads.frame hs hx (ih hpt)
    rwa [hk] at hreads

theorem Reads.deterministic (h : r.Reads fs e) (h' : r.Reads gs e') : fs = gs ∧ e = e' := by
  induction h generalizing gs with
  | ended hh =>
    cases h' with
    | ended hh' => exact ⟨rfl,rfl⟩
    | refused hh' => cases hh.symm.trans hh'
    | cut hh' _ => cases hh.symm.trans hh'
    | frame hh' _ _ => cases hh.symm.trans hh'
  | refused hh =>
    cases h' with
    | ended hh' => cases hh.symm.trans hh'
    | refused hh' =>
      cases hh.symm.trans hh'
      exact ⟨rfl,rfl⟩
    | cut hh' _ => cases hh.symm.trans hh'
    | frame hh' _ _ => cases hh.symm.trans hh'
  | cut hh hx =>
    cases h' with
    | ended hh' => cases hh.symm.trans hh'
    | refused hh' => cases hh.symm.trans hh'
    | cut hh' _ => exact ⟨rfl,rfl⟩
    | frame hh' hx' _ =>
      cases hh.symm.trans hh'
      cases hx.symm.trans hx'
  | frame hh hx _ ih =>
    cases h' with
    | ended hh' => cases hh.symm.trans hh'
    | refused hh' => cases hh.symm.trans hh'
    | cut hh' hx' =>
      cases hh.symm.trans hh'
      cases hx.symm.trans hx'
    | frame hh' hx' h' =>
      cases hh.symm.trans hh'
      cases hx.symm.trans hx'
      obtain ⟨rfl,rfl⟩ := ih h'
      exact ⟨rfl,rfl⟩

end Reader

/-- Framing does not depend on delivery. An integer that was written is read back; frames
in any legal form are what every division of their bytes into reads gives, and then the
stream is over; a stream cut inside a frame gives the frames before it and FRAME_ERROR. -/
theorem framing_of_delivery :
    (∀ v rest, v < 2 ^ 62 → getVarint (putVarint v ++ rest) = some (v,(putVarint v).length) ∧
      (putVarint v).length = varintLen v) ∧
    (∀ kind payload, kind < 2 ^ 62 → payload.length < 2 ^ 62 → LegalFrame (kind,payload) (putFrame kind payload)) ∧
    (∀ fs b recv, Wire fs b → Recv.bytes recv = b → ∀ gs e, (Reader.new recv).Reads gs e ↔ gs = fs ∧ e = .ok ()) ∧
    (∀ fs b f c p recv, Wire fs b → LegalFrame f c → isReservedH2 f.1 = false → p <+: c → p ≠ [] → p ≠ c →
      Recv.bytes recv = b ++ p →
        ∀ gs e, (Reader.new recv).Reads gs e ↔ gs = fs ∧ e = .error Code.frameError) := by
  have hiff {r : Reader} {fs : List (ℕ × Bytes)} {d : Except ℕ Unit} (h : r.Reads fs d) :
      ∀ gs e, r.Reads gs e ↔ gs = fs ∧ e = d := by
    intro gs e
    constructor
    · intro h'
      exact h'.deterministic h
    · rintro ⟨rfl,rfl⟩
      exact h
  refine ⟨?_,?_,?_,?_⟩
  · intro v rest hv
    obtain ⟨hl,hlen⟩ := legal_putVarint hv
    exact ⟨hl.get,hlen⟩
  · intro kind payload hk hl
    exact legal_putFrame hk hl
  · intro fs b recv hw hb
    have hp : (Reader.new recv).pending = b ++ [] := by simp [hb]
    have hr := Reader.reads_wire hw hp (fun t ht => Reader.reads_end ht)
    rw [List.append_nil] at hr
    exact hiff hr
  · intro fs b f c p recv hw hf hr hp h0 hc hb
    have hr := Reader.reads_wire (r := .new recv) hw hb (fun t ht =>
      Reader.reads_cut hf hr (ht ▸ hp) (ht ▸ h0) (ht ▸ hc))
    rw [List.append_nil] at hr
    exact hiff hr

/-- A wide header cut inside both of its integers; a stream that ends before its payload does. -/
theorem framing_of_delivery_pieces :
    getVarint (putVarint 300 ++ [7]) = some (300,2) ∧
    (Reader.new ⟨[[0x40],[0,0x80,0,0],[2,104],[105]],true⟩).Reads [(0,[104,105])] (.ok ()) ∧
    (Reader.new ⟨[[0],[2,104]],true⟩).Reads [] (.error Code.frameError) := by
  have hf : LegalFrame (0,[104,105]) [0x40,0,0x80,0,0,2,104,105] :=
    ⟨[0x40,0],[0x80,0,0,2],⟨1,by decide,by decide,by decide⟩,⟨2,by decide,by decide,by decide⟩,rfl⟩
  refine ⟨(framing_of_delivery.1 300 [7] (by decide)).1,?_,?_⟩
  · exact (framing_of_delivery.2.2.1 _ _ _ (.cons hf rfl .nil) rfl _ _).mpr ⟨rfl,rfl⟩
  · exact (framing_of_delivery.2.2.2 [] [] _ _ [0,2,104] _ .nil (framing_of_delivery.2.1 0 [104,105] (by decide)
      (by decide)) rfl ⟨[105],rfl⟩ (by decide) (by decide) rfl _ _).mpr ⟨rfl,rfl⟩

end OxiServe.Http3
