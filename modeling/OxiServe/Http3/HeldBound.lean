import OxiServe.Http3.Held

/-! # When a stream is held within its limits

Behind a field section within its limit only frames of unchecked types make the
server hold more than the limits and one read: trailers, promises and unknown
types on a request stream, and any frame of a control stream.
-/
namespace OxiServe.Http3
open Hpack (Header)
open Http2 (Parsed parseHeaders)

section Body
variable {maxBody fuel n B : ℕ} {r s t : Reader} {h : Head} {body chunk payload : Bytes}

/-- How much has arrived when the read is done that brings the `n`-th byte, or when
all has: `has` bytes are there and `chunks` are to come. -/
def arrived (n : ℕ) : ℕ → List Bytes → ℕ
  | has, [] => has
  | has, c :: chunks => if n ≤ has then has else arrived n (has + c.length) chunks

theorem Reader.fillHeld_arrived (hf : r.recv.chunks.length < fuel) :
    r.fillHeld (hasLen n) fuel = arrived n r.buf.length r.recv.chunks := by
  induction fuel generalizing r with
  | zero => omega
  | succ fuel ih =>
    obtain ⟨buf,eof,⟨chunks,finished⟩,hs⟩ := r
    rw [Reader.fillHeld]
    by_cases hn : n ≤ buf.length
    · have hb : hasLen n buf = true := decide_eq_true hn
      rw [if_pos hb]
      cases chunks with
      | nil => rfl
      | cons c chunks => exact (if_pos hn).symm
    · have hb : ¬ hasLen n buf = true := by simpa [hasLen] using hn
      rw [if_neg hb]
      cases chunks with
      | nil =>
        cases eof with
        | true => rfl
        | false => rfl
      | cons c chunks =>
        cases eof with
        | true =>
          cases hs rfl
        | false =>
          have hi := ih (r := ⟨buf ++ c,false,⟨chunks,finished⟩,(by intro h; cases h)⟩)
            (by simpa using hf)
          have hg := @Reader.buf_le_fillHeld ⟨buf ++ c,false,⟨chunks,finished⟩,(by intro h; cases h)⟩ (hasLen n) fuel
          simp only [Reader.fill,Bool.false_eq_true,if_false,arrived,if_neg hn]
          simp only [List.length_append] at hi hg
          rw [← hi]
          omega

theorem Reader.exactHeld_arrived : r.exactHeld n = arrived n r.buf.length r.recv.chunks :=
  Reader.fillHeld_arrived (Nat.lt_succ_self _)

/-- The body loop collects the payload of such a frame without a check. -/
def isUnchecked (kind : ℕ) : Bool := kind != Kind.data && !isControl kind

/-- `Collects maxBody r body n`: from the reader `r` and the body so far, a frame of
an unchecked type is reached, and with its payload `n` bytes are in hand. -/
inductive Collects (maxBody : ℕ) : Reader → Bytes → ℕ → Prop
  | here {r s : Reader} {h : Head} {body : Bytes} :
    r.head = (.ok (some h),s) → isUnchecked h.kind = true →
      Collects maxBody r body (body.length + arrived h.len s.buf.length s.recv.chunks)
  | data {r s t : Reader} {h : Head} {body chunk : Bytes} {n : ℕ} :
    r.head = (.ok (some h),s) → h.kind = Kind.data → body.length + h.len ≤ maxBody →
      s.exact h.len = some (chunk,t) → Collects maxBody t (body ++ chunk) n → Collects maxBody r body n
  | skip {r s t : Reader} {h : Head} {body payload : Bytes} {n : ℕ} :
    r.head = (.ok (some h),s) → isUnchecked h.kind = true → s.exact h.len = some (payload,t) →
      Collects maxBody t body n → Collects maxBody r body n

theorem isUnchecked_iff {kind : ℕ} : isUnchecked kind = true ↔ kind ≠ Kind.data ∧ isControl kind = false := by
  simp [isUnchecked]

/-- What is left after a frame is shorter than what there was. -/
theorem Reader.exact_shorter (hr : r.head = (.ok (some h),s)) (hx : s.exact h.len = some (payload,t)) :
    t.pending.length < r.pending.length := by
  have h1 := head_shorter (Reader.head_ok hr)
  have h2 := Http3.exact_some (Reader.exact_ok hx)
  omega

theorem Collects.le_bodyHeld (hc : Collects maxBody r body n) (hf : r.pending.length < fuel) :
    n ≤ r.bodyHeld maxBody fuel body := by
  induction hc generalizing fuel with
  | here hr hk =>
    cases fuel with
    | zero => omega
    | succ fuel =>
      obtain ⟨hd,hctl⟩ := isUnchecked_iff.mp hk
      simp only [Reader.bodyHeld,hr,if_neg hd,hctl,Bool.false_eq_true,if_false,Reader.exactHeld_arrived]
      omega
  | data hr hk hl hx _ ih =>
    cases fuel with
    | zero => omega
    | succ fuel =>
      have hlt := Reader.exact_shorter hr hx
      have hf' : _ < fuel := hlt.trans_le (Nat.lt_succ_iff.mp hf)
      have hi := ih hf'
      simp only [Reader.bodyHeld,hr,if_pos hk,if_neg (Nat.not_lt.mpr hl),hx]
      omega
  | skip hr hk hx _ ih =>
    cases fuel with
    | zero => omega
    | succ fuel =>
      obtain ⟨hd,hctl⟩ := isUnchecked_iff.mp hk
      have hlt := Reader.exact_shorter hr hx
      have hf' : _ < fuel := hlt.trans_le (Nat.lt_succ_iff.mp hf)
      have hi := ih hf'
      simp only [Reader.bodyHeld,hr,if_neg hd,hctl,Bool.false_eq_true,if_false,hx]
      omega

theorem bodyHeld_le (hB : maxBody + slack ≤ B) (hs : r.Slim) (hb : body.length ≤ maxBody)
    (hc : ∀ n, Collects maxBody r body n → n ≤ B) : r.bodyHeld maxBody fuel body ≤ B := by
  induction fuel generalizing r body with
  | zero =>
    rw [Reader.bodyHeld]
    omega
  | succ fuel ih =>
    have hhead := hs.headHeld
    have hs' := hs.head
    rw [Reader.bodyHeld]
    refine Nat.max_le.mpr ⟨by omega,?_⟩
    rcases hr : r.head with ⟨e | _ | h,s⟩
    · exact Nat.zero_le _
    · exact Nat.zero_le _
    · rw [hr] at hs'
      dsimp only at hs' ⊢
      by_cases hk : h.kind = Kind.data
      · rw [if_pos hk]
        by_cases hl : maxBody < body.length + h.len
        · rw [if_pos hl]
          exact Nat.zero_le _
        · rw [if_neg hl]
          have hx := hs'.exactHeld (n := h.len)
          refine Nat.max_le.mpr ⟨by omega,?_⟩
          cases he : s.exact h.len with
          | none => exact Nat.zero_le _
          | some p =>
            obtain ⟨chunk,t⟩ := p
            have hlen := (Http3.exact_some (Reader.exact_ok he)).1
            refine ih (hs'.exact he) ?_ ?_
            · rw [List.length_append]
              omega
            · intro n hn
              exact hc n (.data hr hk (Nat.not_lt.mp hl) he hn)
      · rw [if_neg hk]
        by_cases hctl : isControl h.kind = true
        · rw [if_pos hctl]
          exact Nat.zero_le _
        · rw [if_neg hctl]
          have hu : isUnchecked h.kind = true := isUnchecked_iff.mpr ⟨hk,Bool.eq_false_iff.mpr hctl⟩
          refine Nat.max_le.mpr ⟨Reader.exactHeld_arrived ▸ hc _ (.here hr hu),?_⟩
          cases he : s.exact h.len with
          | none => exact Nat.zero_le _
          | some p =>
            obtain ⟨payload,t⟩ := p
            exact ih (hs'.exact he) hb (fun n hn => hc n (.skip hr hu he hn))

end Body

section Control
variable {fuel n B : ℕ} {r : Reader} {first : Bool}

/-- `ControlCollects r first n`: a frame of the control stream is collected, and `n`
bytes are in hand. -/
inductive ControlCollects : Reader → Bool → ℕ → Prop
  | here {r s : Reader} {h : Head} {first : Bool} :
    r.head = (.ok (some h),s) → first = decide (h.kind = Kind.settings) →
      ControlCollects r first (arrived h.len s.buf.length s.recv.chunks)
  | next {r s t : Reader} {h : Head} {first : Bool} {payload : Bytes} {n : ℕ} :
    r.head = (.ok (some h),s) → first = decide (h.kind = Kind.settings) → s.exact h.len = some (payload,t) →
      Reader.controlFrame h.kind payload = .ok () → ControlCollects t false n → ControlCollects r first n

theorem ControlCollects.le_controlHeld (hc : ControlCollects r first n) (hf : r.pending.length < fuel) :
    n ≤ r.controlHeld fuel first := by
  induction hc generalizing fuel with
  | here hr hk =>
    cases fuel with
    | zero => omega
    | succ fuel =>
      simp only [Reader.controlHeld,hr,if_pos hk,Reader.exactHeld_arrived]
      omega
  | next hr hk hx ho _ ih =>
    cases fuel with
    | zero => omega
    | succ fuel =>
      have hlt := Reader.exact_shorter hr hx
      have hf' : _ < fuel := hlt.trans_le (Nat.lt_succ_iff.mp hf)
      have hi := ih hf'
      simp only [Reader.controlHeld,hr,if_pos hk,hx,ho]
      omega

theorem controlHeld_le (hB : slack ≤ B) (hs : r.Slim) (hc : ∀ n, ControlCollects r first n → n ≤ B) :
    r.controlHeld fuel first ≤ B := by
  induction fuel generalizing r first with
  | zero => exact Nat.zero_le _
  | succ fuel ih =>
    have hhead := hs.headHeld
    have hs' := hs.head
    rw [Reader.controlHeld]
    refine Nat.max_le.mpr ⟨by omega,?_⟩
    rcases hr : r.head with ⟨e | _ | h,s⟩
    · exact Nat.zero_le _
    · exact Nat.zero_le _
    · rw [hr] at hs'
      dsimp only at hs' ⊢
      by_cases hk : first = decide (h.kind = Kind.settings)
      · rw [if_pos hk]
        refine Nat.max_le.mpr ⟨Reader.exactHeld_arrived ▸ hc _ (.here hr hk),?_⟩
        cases he : s.exact h.len with
        | none => exact Nat.zero_le _
        | some p =>
          obtain ⟨payload,t⟩ := p
          dsimp only
          cases ho : Reader.controlFrame h.kind payload with
          | error e => exact Nat.zero_le _
          | ok u => exact ih (hs'.exact he) (fun n hn => hc n (.next hr hk he ho hn))
      · rw [if_neg hk]
        exact Nat.zero_le _

end Control

section Streams
variable {maxBody n B : ℕ} {a : Arrival}

/-- On a request stream `n` bytes are in hand, the field section among them, when
the payload of an unchecked frame has been collected. -/
def RequestCollects (maxBody : ℕ) (recv : Recv) (n : ℕ) : Prop :=
  ∃ h r block s fields parsed m, (Reader.new recv).head = (.ok (some h),r) ∧ h.kind = Kind.headers ∧
    h.len ≤ maxFieldSection ∧ r.exact h.len = some (block,s) ∧ Qpack.decode block maxFieldSection = .ok fields ∧
      parseHeaders fields = .ok parsed ∧ Collects maxBody s [] m ∧ n = block.length + m

/-- On a control stream `n` bytes are in hand when the payload of a frame has been collected. -/
def ControlStreamCollects (recv : Recv) (n : ℕ) : Prop :=
  ∃ r, (Reader.new recv).varint = some (StreamType.control,r) ∧ ControlCollects r true n

theorem RequestCollects.le_held {recv : Recv} (hc : RequestCollects maxBody recv n) :
    n ≤ recv.requestHeld maxBody := by
  obtain ⟨h,r,block,s,fields,parsed,m,hr,hk,hl,he,hq,hp,hb,rfl⟩ := hc
  have hm : m ≤ s.bodyHeld maxBody (s.pending.length + 1) [] := hb.le_bodyHeld (Nat.lt_succ_self _)
  have ho : (Qpack.decode block maxFieldSection).toOption.map parseHeaders = some (.ok parsed) := by
    rw [hq]
    exact congrArg some hp
  simp only [Recv.requestHeld,hr,if_pos (And.intro hk hl),he,ho]
  omega

theorem requestHeld_le (hB : maxFieldSection + maxBody + slack ≤ B)
    (hc : ∀ n, RequestCollects maxBody a.toRecv n → n ≤ B) : a.toRecv.requestHeld maxBody ≤ B := by
  have hs := a.slim_new
  have hhead := hs.headHeld
  have hs' := hs.head
  rw [Recv.requestHeld]
  refine Nat.max_le.mpr ⟨by omega,?_⟩
  rcases hr : (Reader.new a.toRecv).head with ⟨e | _ | h,r⟩
  · exact Nat.zero_le _
  · exact Nat.zero_le _
  · rw [hr] at hs'
    dsimp only at hs' ⊢
    split
    · rename_i hk
      have hx := hs'.exactHeld (n := h.len)
      refine Nat.max_le.mpr ⟨by omega,?_⟩
      cases he : r.exact h.len with
      | none => exact Nat.zero_le _
      | some p =>
        obtain ⟨block,s⟩ := p
        have hlen := (Http3.exact_some (Reader.exact_ok he)).1
        dsimp only
        split
        · rename_i parsed ho
          obtain ⟨fields,hq,hp⟩ := Option.map_eq_some_iff.mp ho
          have hq : Qpack.decode block maxFieldSection = .ok fields := by
            cases hd : Qpack.decode block maxFieldSection with
            | error e =>
              rw [hd] at hq
              cases hq
            | ok fs =>
              rw [hd] at hq
              cases hq
              rfl
          have hbody : s.bodyHeld maxBody (s.pending.length + 1) [] ≤ B - block.length := by
            refine bodyHeld_le (by omega) (hs'.exact he) (Nat.zero_le _) ?_
            intro m hm
            have hn := hc _ ⟨h,r,block,s,fields,parsed,m,hr,hk.1,hk.2,he,hq,hp,hm,rfl⟩
            omega
          omega
        · omega
    · exact Nat.zero_le _

theorem ControlStreamCollects.le_held {recv : Recv} (hc : ControlStreamCollects recv n) :
    n ≤ recv.controlStreamHeld := by
  obtain ⟨r,hv,hcc⟩ := hc
  have hm : n ≤ r.controlHeld (r.pending.length + 1) true := hcc.le_controlHeld (Nat.lt_succ_self _)
  simp only [Recv.controlStreamHeld,hv,if_true]
  omega

theorem controlStreamHeld_le (hB : slack ≤ B) (hc : ∀ n, ControlStreamCollects a.toRecv n → n ≤ B) :
    a.toRecv.controlStreamHeld ≤ B := by
  have hs := a.slim_new
  have hheld := hs.varintHeld
  rw [Recv.controlStreamHeld]
  refine Nat.max_le.mpr ⟨by omega,?_⟩
  cases hv : (Reader.new a.toRecv).varint with
  | none => exact Nat.zero_le _
  | some p =>
    obtain ⟨t,r⟩ := p
    dsimp only
    split
    · rename_i ht
      subst ht
      exact controlHeld_le hB (hs.varint hv) (fun n hn => hc n ⟨r,hv,hn⟩)
    · exact Nat.zero_le _

inductive Role
  | request
  | control
deriving DecidableEq, Repr

/-- A stream of a peer and the listener's `client_max_body_size`. -/
structure PeerStream where
  role : Role
  maxBody : ℕ
  arrival : Arrival

/-- The most bytes of the stream the server holds at a time. -/
def PeerStream.held (p : PeerStream) : ℕ :=
  match p.role with
  | .request => p.arrival.toRecv.requestHeld p.maxBody
  | .control => p.arrival.toRecv.controlStreamHeld

/-- The bytes in hand when the payload of a frame of an unchecked type has been collected. -/
def PeerStream.Collects (p : PeerStream) (n : ℕ) : Prop :=
  match p.role with
  | .request => RequestCollects p.maxBody p.arrival.toRecv n
  | .control => ControlStreamCollects p.arrival.toRecv n

/-- The limits on the field section and the body, and a constant over them. -/
def PeerStream.Within (c : ℕ) (p : PeerStream) (n : ℕ) : Prop := n ≤ maxFieldSection + p.maxBody + c

theorem PeerStream.Collects.le_held {p : PeerStream} (hc : p.Collects n) : n ≤ p.held := by
  obtain ⟨role,maxBody,arrival⟩ := p
  cases role with
  | request => exact RequestCollects.le_held hc
  | control => exact ControlStreamCollects.le_held hc

/-- From a constant of one header and one read on, a stream is held within its limits
exactly if every frame of an unchecked type is. -/
theorem PeerStream.held_within_iff (c : ℕ) (p : PeerStream) :
    p.Within (slack + c) p.held ↔ ∀ n, p.Collects n → p.Within (slack + c) n := by
  constructor
  · intro h n hn
    exact hn.le_held.trans h
  · intro h
    obtain ⟨role,maxBody,arrival⟩ := p
    unfold PeerStream.Within at h ⊢
    cases role with
    | request => exact requestHeld_le (by dsimp only; omega) h
    | control => exact controlStreamHeld_le (by dsimp only; omega) h

/-- SETTINGS that announce `2 ^ 62 - 1` bytes, of which `m` come one by one. -/
def endlessSettings (m : ℕ) : Arrival where
  chunks := [0] :: [4,255,255,255,255,255,255,255,255] :: List.replicate m [0]
  finished := false
  sized := by
    simp only [List.mem_cons]
    rintro c (rfl | rfl | hc)
    · decide
    · decide
    · rw [List.eq_of_mem_replicate hc]
      decide

theorem endlessSettings_collects (m : ℕ) (hm : m < 2 ^ 62) :
    ∃ n, m ≤ n ∧ PeerStream.Collects ⟨.control,0,endlessSettings m⟩ n := by
  have hv : (Reader.new (endlessSettings m).toRecv).varint = some (StreamType.control,⟨[],false,
      ⟨[4,255,255,255,255,255,255,255,255] :: List.replicate m [0],false⟩,(by intro h; cases h)⟩) := rfl
  have hh : Reader.head ⟨[],false,⟨[4,255,255,255,255,255,255,255,255] :: List.replicate m [0],false⟩,
      (by intro h; cases h)⟩ = (.ok (some ⟨Kind.settings,2 ^ 62 - 1,9⟩),
        ⟨[],false,⟨List.replicate m [0],false⟩,(by intro h; cases h)⟩) := rfl
  have hlen : Reader.pending ⟨[],false,⟨List.replicate m [0],false⟩,(by intro h; cases h)⟩ = List.replicate m 0 := by
    simp [Reader.pending,Recv.bytes]
  have hmin := Reader.min_le_exactHeld (n := 2 ^ 62 - 1)
    (r := ⟨[],false,⟨List.replicate m [0],false⟩,(by intro h; cases h)⟩)
  rw [hlen,List.length_replicate] at hmin
  have hle := hmin.trans' (show m ≤ min (2 ^ 62 - 1) m by omega)
  rw [Reader.exactHeld_arrived] at hle
  exact ⟨_,hle,_,hv,.here hh rfl⟩

/-- No constant below `2 ^ 61` does: a control stream may announce and send more. -/
theorem endlessSettings_held : ¬ ∃ c < 2 ^ 61, ∀ p : PeerStream, p.Within c p.held := by
  rintro ⟨c,hc,hall⟩
  have hmax : maxFieldSection = 65536 := rfl
  obtain ⟨n,hn,hcol⟩ := endlessSettings_collects (maxFieldSection + c + 1) (by omega)
  have hw := hall ⟨.control,0,endlessSettings (maxFieldSection + c + 1)⟩
  have hle := hcol.le_held
  unfold PeerStream.Within at hw
  dsimp only at hw
  omega

end Streams

end OxiServe.Http3
