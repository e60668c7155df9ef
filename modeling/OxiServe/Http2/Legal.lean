import OxiServe.Http2.ReceiveCredit
import OxiServe.Http2.AfterReset

/-! # Every queued frame is legal for the peer

A queued frame is at most as long as the peer's MAX_FRAME_SIZE and reads back as it was
written. DATA is cut to size and what the reader loop queues is short; the header block
of a response goes into one HEADERS frame whatever its length.
-/
namespace OxiServe.Http2
open Conn Server Response

/-- A frame that a peer with this MAX_FRAME_SIZE takes, and takes as what it is. -/
def Legal (size : ℕ) (b : Bytes) : Prop :=
  ∃ kind flags stream payload, b = writeFrame kind flags stream payload ∧ payload.length ≤ size ∧
    payload.length < 2 ^ 24 ∧ Head.parse b = ⟨payload.length,kind,flags,stream⟩

/-- The step queues no frame that is too long: the header block of a response fits one
frame, and so does the text with which reading ended. -/
def Sys.fitsFrame (s : Sys) : Act → Prop
  | .reply _ r _ => s.gone = true ∨ (headBlock (r.frame true).resp).length ≤ s.conn.maxFrame
  | .hangUp (.error e) => s.gone = true ∨ 8 + e.why.length ≤ s.conn.maxFrame
  | _ => True

section Frames
variable {c d : Conn} {f : Frame} {i size : ℕ} {b : Bytes}

theorem legal_writeFrame {kind flags : UInt8} {stream : ℕ} {payload : Bytes} (hl : payload.length ≤ size)
    (hsize : size ≤ maxFrameLimit) (hs : stream < 2 ^ 31) : Legal size (writeFrame kind flags stream payload) := by
  have hlimit : maxFrameLimit < 2 ^ 24 := by decide
  have hlen : payload.length < 2 ^ 24 := by omega
  refine ⟨kind,flags,stream,payload,rfl,hl,hlen,?_⟩
  rw [parse_writeFrame,Nat.mod_eq_of_lt hlen,Nat.mod_eq_of_lt hs]

theorem length_writeFrame (kind flags : UInt8) (stream : ℕ) (payload : Bytes) :
    (writeFrame kind flags stream payload).length = payload.length + 9 := by
  simp [writeFrame,Head.write]
  omega

/-- The length of a frame says what its payload takes. -/
theorem Legal.length_le {kind flags : UInt8} {stream : ℕ} {payload : Bytes}
    (h : Legal size (writeFrame kind flags stream payload)) : payload.length ≤ size := by
  obtain ⟨k,fl,s,p,he,hl,-,-⟩ := h
  have hlen := congrArg List.length he
  rw [length_writeFrame,length_writeFrame] at hlen
  omega

/-- A short frame on a stream of 31 bits. -/
def Short (b : Bytes) : Prop :=
  ∃ kind flags stream payload, b = writeFrame kind flags stream payload ∧ payload.length ≤ 72 ∧ stream < 2 ^ 31

theorem Short.legal (h : Short b) (h1 : defaultMaxFrame ≤ size) (h2 : size ≤ maxFrameLimit) : Legal size b := by
  obtain ⟨kind,flags,stream,payload,rfl,hl,hs⟩ := h
  have hdefault : defaultMaxFrame = 16384 := rfl
  exact legal_writeFrame (by omega) h2 hs

theorem short_opening : ∀ b ∈ openingFrames, Short b := by
  intro b hb
  rcases List.mem_cons.mp hb with rfl | hb
  · exact ⟨_,_,_,_,rfl,by decide +kernel,by decide⟩
  · rw [List.mem_singleton.mp hb]
    exact ⟨_,_,_,_,rfl,by decide +kernel,by decide⟩

theorem short_rst (hi : i < 2 ^ 31) (code : Code) : Short (rst i code) := ⟨_,_,_,_,rfl,by simp,hi⟩

theorem Notice.short (h : Notice i b) (hi : i < 2 ^ 31) : Short b := by
  cases h with
  | rst code => exact short_rst hi code
  | settings => exact ⟨_,_,_,_,rfl,Nat.zero_le _,by decide⟩
  | ping hp => exact ⟨_,_,_,_,rfl,by omega,by decide⟩

/-- Short frames are queued. -/
def Shortly (c d : Conn) : Prop := ∃ new, d.out = c.out ++ new ∧ ∀ b ∈ new, Short b

theorem Shortly.refl (h : d.out = c.out) : Shortly c d := Appends.refl h

theorem Shortly.trans {e : Conn} (h : Shortly c d) (h' : Shortly d e) : Shortly c e := Appends.trans h h'

theorem Notes.shortly (h : Notes i c d) (hi : i < 2 ^ 31) : Shortly c d :=
  Appends.mono h.out (fun _ hb => hb.short hi)

theorem Shortly.replenished (c : Conn) : Shortly c c.replenish := by
  unfold replenish
  dsimp only
  split
  · refine ⟨_,rfl,fun b hb => ?_⟩
    rw [List.mem_singleton.mp hb]
    exact ⟨_,_,_,_,rfl,by simp,by decide⟩
  · exact .refl rfl

theorem Shortly.dispatch (hl : Ledger c) (hw : c.highestClientStream < 2 ^ 31) : Shortly c c.dispatch := by
  obtain ⟨-,new,ho,hn⟩ := dispatch_notes (c := c) (P := fun j => j < 2 ^ 31) (by
    intro j hj
    obtain ⟨st,hst⟩ := Option.isSome_iff_exists.mp hj
    exact Nat.lt_of_le_of_lt (hl.known j st hst) hw)
  refine ⟨new,ho,fun b hb => ?_⟩
  obtain ⟨j,hj,hnote⟩ := hn b hb
  exact hnote.short hj

/-- What GOAWAY takes after the stream and the code. -/
def goawayText : Except ConnErr Unit → Bytes
  | .ok () => []
  | .error e => e.why

theorem out_shutdown (c : Conn) (r : Except ConnErr Unit) : ∃ p, (c.shutdown r).out = c.out ++ [writeFrame Kind.goaway 0 0 p] ∧
    p.length = 8 + (goawayText r).length := by
  cases r with
  | ok u => exact ⟨_,rfl,by simp [goawayText]⟩
  | error e => exact ⟨_,rfl,by simp only [List.length_append,length_toBe,goawayText]⟩

theorem Shortly.shutdown {r : Except ConnErr Unit} (h : (goawayText r).length ≤ 64) : Shortly c (c.shutdown r) := by
  obtain ⟨p,ho,hp⟩ := out_shutdown c r
  refine ⟨_,ho,fun b hb => ?_⟩
  rw [List.mem_singleton.mp hb]
  exact ⟨_,_,_,_,rfl,by omega,by decide⟩

theorem onData_shortly (hw : f.head.stream < 2 ^ 31) : Shortly c (c.onData f).1 ∧ (c.onData f).2.brief := by
  rcases onData_noted c f with ⟨h,-⟩ | ⟨h,-⟩ | h
  · exact ⟨h.notes.shortly hw,h.brief⟩
  · exact ⟨h.notes.shortly hw,h.brief⟩
  · exact ⟨(Shortly.replenished (c.charged f)).trans (h.notes.shortly hw),h.brief⟩

/-- Whatever the frame, the reader loop answers with short ones. -/
theorem next_shortly (hl : Ledger c) (hc : c.highestClientStream < 2 ^ 31) (hw : f.head.stream < 2 ^ 31)
    (hn : c.next (.frame f) = some d) : Shortly c d := by
  have harm : Shortly c (c.arm f).1 ∧ (c.arm f).2.brief := by
    by_cases hd : f.head.kind = Kind.data
    · rw [Conn.arm,if_pos hd]
      exact onData_shortly hw
    · have h := Noted.arm c f hd
      exact ⟨h.notes.shortly hw,h.brief⟩
  have hres : c.result = none := (next_frame hn).1
  simp only [next,hres,Option.isSome_none,Bool.false_eq_true,if_false,readFrame] at hn
  by_cases hlen : defaultMaxFrame < f.head.len
  · rw [if_pos hlen] at hn
    cases hn
    exact .shutdown (by decide +kernel)
  rw [if_neg hlen] at hn
  by_cases hexp : c.expectContinuation.any (fun i => f.head.kind != Kind.continuation || f.head.stream != i) = true
  · rw [if_pos hexp] at hn
    cases hn
    exact .shutdown (by decide +kernel)
  rw [if_neg hexp] at hn
  rcases ha : c.arm f with ⟨b,n⟩
  rw [ha] at hn harm
  obtain ⟨hb,hbrief⟩ := harm
  cases n with
  | dispatch =>
    cases hn
    refine hb.trans (.dispatch (hl.arm ha) ?_)
    rcases highest_arm ha with h | h
    · rw [h]
      exact hc
    · rw [h]
      exact hw
  | again =>
    cases hn
    exact hb
  | ret r =>
    cases hn
    refine hb.trans (.shutdown ?_)
    cases r with
    | ok u => exact Nat.zero_le _
    | error e => exact hbrief e rfl
  | panic => cases hn

/-- MAX_FRAME_SIZE is one that SETTINGS may give. -/
def Conn.sized (c : Conn) : Prop := defaultMaxFrame ≤ c.maxFrame ∧ c.maxFrame ≤ maxFrameLimit

theorem sized_applySettings (h : c.sized) (ps : List (ℕ × ℕ)) : (c.applySettings ps).1.sized := by
  induction ps generalizing c with
  | nil => exact h
  | cons p ps ih =>
    have hone : (c.applySetting p.1 p.2).1.sized := by
      unfold applySetting
      split
      · split <;> exact h
      split
      · split
        · exact h
        · rename_i hok
          simp only [not_or,Nat.not_lt] at hok
          exact hok
      · repeat' split
        all_goals exact h
    rcases ha : c.applySetting p.1 p.2 with ⟨d,e⟩
    rw [ha] at hone
    cases e with
    | none =>
      simp only [applySettings,ha]
      exact ih hone
    | some e =>
      simp only [applySettings,ha]
      exact hone

theorem sized_arm (h : c.sized) (f : Frame) : (c.arm f).1.sized := by
  by_cases hs : f.head.kind = Kind.settings
  · have hp := sized_applySettings h (settingsPairs f.payload)
    rw [arm_settings hs]
    rcases onSettings_cases c f with ⟨he,-⟩ | ⟨e,he,-⟩ | ⟨-,new,he,h'⟩
    · rw [he]
      exact h
    · rwa [he] at hp
    · rw [he] at hp
      rw [h']
      exact hp
  by_cases hw : f.head.kind = Kind.windowUpdate
  · rw [arm_windowUpdate hw]
    rcases onWindowUpdate_moves c f with ⟨hm,-⟩ | ⟨-,⟨-,he⟩ | ⟨-,he⟩ | ⟨-,he,-⟩⟩
    · rw [sized,(Level.moves hm).size]
      exact h
    · rw [he]
      exact h
    · rw [he]
      exact h
    · rw [he]
      exact h
  · obtain ⟨b,hb,hm⟩ := arm_moves c hs hw
    rw [sized,(Level.moves hm).size]
    cases hb with
    | here => exact h
    | refused _ => exact h
    | opened _ => exact h

theorem kept_sized : Kept Conn.sized where
  out := fun _ _ h => h
  next := by
    intro c e d h hn
    cases e with
    | frame f =>
      obtain ⟨-,⟨e,rfl⟩ | ⟨-,b,n,ha,hcase⟩⟩ := next_frame hn
      · exact h
      have hb := sized_arm h f
      rw [ha] at hb
      rcases hcase with ⟨-,rfl⟩ | ⟨-,rfl⟩ | ⟨r,-,rfl⟩
      · rw [sized,(Level.dispatch b).size]
        exact hb
      · exact hb
      · exact hb
    | hangUp r =>
      simp only [next] at hn
      split at hn
      · cases hn
      · cases hn
        exact h
    | send id data =>
      obtain ⟨-,rfl⟩ := next_send hn
      exact h
    | finish id =>
      simp only [next] at hn
      split at hn
      · cases hn
        exact h
      · cases hn

end Frames

section Run
variable {maxBody size id : ℕ} {as : List Act} {s s' s'' : Sys} {a : Act}

/-- Legal frames are queued. -/
def Lawful (size : ℕ) (s s' : Sys) : Prop := ∃ new, s'.conn.out = s.conn.out ++ new ∧ ∀ b ∈ new, Legal size b

theorem Lawful.refl (h : s'.conn.out = s.conn.out) : Lawful size s s' := Appends.refl h

theorem Lawful.trans (h : Lawful size s s') (h' : Lawful size s' s'') : Lawful size s s'' := Appends.trans h h'

theorem Lawful.put {b : Bytes} (h : s.gone = true ∨ Legal size b) : Lawful size s (s.put b) := by
  unfold Sys.put
  split
  · exact .refl rfl
  · rename_i hg
    exact Appends.one (h.resolve_left hg) rfl

theorem Lawful.finish (h : s.finish id = some s') : Lawful size s s' := .refl (out_finish h)

theorem Lawful.go {o : Onward} (hs : size ≤ maxFrameLimit) (hid : id < 2 ^ 31) (h : s.go id o = some s') :
    Lawful size s s' := by
  cases o with
  | endStream => exact (Lawful.put (Or.inr (legal_writeFrame (Nat.zero_le _) hs hid))).trans (.finish h)
  | stop => exact .finish h
  | pump data tail =>
    cases h
    exact .refl rfl
  | read io =>
    cases h
    exact .refl rfl

theorem Lawful.send {c : Conn} {data : Bytes} (hs : s.conn.maxFrame ≤ maxFrameLimit) (hid : id < 2 ^ 31)
    (h : s.conn.next (.send id data) = some c) : Lawful s.conn.maxFrame s { s with conn := c } := by
  obtain ⟨hcan,rfl⟩ := next_send h
  simp only [canSend,Bool.and_eq_true,decide_eq_true_eq] at hcan
  refine ⟨_,rfl,fun b hb => ?_⟩
  rw [List.mem_singleton.mp hb]
  exact legal_writeFrame hcan.2 hs hid

theorem Turn.lawful (hs : s.conn.sized) (hid : id < 2 ^ 31) (h : Turn s id s') : Lawful s.conn.maxFrame s s' := by
  have hgo {q : Sys} {o : Onward} (h : q.go id o = some s') : Lawful s.conn.maxFrame q s' := .go hs.2 hid h
  cases h with
  | malformed _ _ _ _ h =>
    exact (Lawful.put (Or.inr ((short_rst hid _).legal hs.1 hs.2))).trans (.finish h)
  | handed _ _ _ _ h =>
    rw [h]
    exact .refl rfl
  | pump _ h =>
    cases h with
    | cut _ h => exact hgo h
    | failed _ _ h => exact hgo h
    | sent _ _ hc _ h =>
      rw [h]
      exact (Lawful.send hs.2 hid hc).trans (.refl rfl)
    | whole _ _ hc h => exact (Lawful.send hs.2 hid hc).trans (hgo h)
  | read _ h => exact hgo h

/-- A writer that is there takes the HEADERS frame of an answer first. -/
theorem Answered.out_head {r : Reply} {t : ℕ} {headOnly : Bool} (hg : s.gone = false)
    (h : Answered s id r t headOnly s') :
    ∃ q : Sys, q.conn.out = s.conn.out ++ [responseHead id r (responseBody r headOnly)] ∧
      ((∃ o, q.go id o = some s') ∨ q.finish id = some s') := by
  have hout : ((s.record id (responseBody r headOnly)).put (responseHead id r (responseBody r headOnly))).conn.out =
      s.conn.out ++ [responseHead id r (responseBody r headOnly)] := by
    have hgone : (s.record id (responseBody r headOnly)).gone = false := hg
    rw [Sys.put,hgone]
    rfl
  cases h with
  | lost hg' _ =>
    rw [hg] at hg'
    cases hg'
  | empty _ _ h => exact ⟨_,hout,Or.inr h⟩
  | body _ _ h => exact ⟨_,hout,Or.inl ⟨_,h⟩⟩

/-- The rest of an answer is legal, so all of it is if the HEADERS frame is. -/
theorem Answered.lawful_iff {r : Reply} {t : ℕ} {headOnly : Bool} (hs : s.conn.sized) (hid : id < 2 ^ 31)
    (h : Answered s id r t headOnly s') :
    Lawful s.conn.maxFrame s s' ↔ s.gone = true ∨ (headBlock (r.frame true).resp).length ≤ s.conn.maxFrame := by
  cases hg : s.gone with
  | true =>
    have hout : s'.conn.out = s.conn.out := by
      cases h with
      | lost _ h => exact out_finish (s := s.record id (responseBody r headOnly)) h
      | empty hg' _ _ => cases hg'.symm.trans hg
      | body hg' _ _ => cases hg'.symm.trans hg
    exact ⟨fun _ => Or.inl rfl,fun _ => .refl hout⟩
  | false =>
    obtain ⟨q,hq,hrest⟩ := h.out_head hg
    have hrest : Lawful s.conn.maxFrame q s' := by
      rcases hrest with ⟨o,h⟩ | h
      · exact .go hs.2 hid h
      · exact .finish h
    constructor
    · rintro ⟨new,ho,hn⟩
      obtain ⟨rest,ho',-⟩ := hrest
      rw [ho,hq,List.append_assoc] at ho'
      have hmem : responseHead id r (responseBody r headOnly) ∈ new := by
        rw [List.append_cancel_left ho']
        exact List.mem_append_left _ (List.mem_singleton.mpr rfl)
      exact Or.inr (hn _ hmem).length_le
    · intro hlen
      refine Lawful.trans ⟨_,hq,fun b hb => ?_⟩ hrest
      rw [List.mem_singleton.mp hb]
      exact legal_writeFrame (hlen.resolve_left (by simp)) hs.2 hid

/-- A step queues legal frames exactly when its header block or its text fits a frame. -/
theorem step_lawful_iff (hr : Runs (stepRel Sys.step) (Sys.new maxBody) as s) (hs : s.conn.sized)
    (hstep : s.step a = some s') : Lawful s.conn.maxFrame s s' ↔ s.fitsFrame a := by
  obtain ⟨hl,-⟩ := run_anchored hr
  have hw := run_wired hr
  have hid {id : ℕ} (h : id ∈ s.conn.running) : id < 2 ^ 31 := Nat.lt_of_le_of_lt (hl.tasksKnown id h) hw
  cases Sys.step_cases hstep with
  | @reads _ _ c hres he hc h' =>
    rw [h']
    rcases he with ⟨f,wire,rfl,rfl⟩ | ⟨r,rfl,rfl⟩
    · refine ⟨fun _ => trivial,fun _ => ?_⟩
      obtain ⟨new,ho,hn⟩ := next_shortly hl hw wire hc
      cases hg : s.gone with
      | true => exact .refl (by simp)
      | false => exact ⟨new,by simpa using ho,fun b hb => (hn b hb).legal hs.1 hs.2⟩
    · simp only [next,hres,Option.isSome_none,Bool.false_eq_true,if_false,Option.some.injEq] at hc
      subst hc
      obtain ⟨p,ho,hp⟩ := out_shutdown s.conn r
      have hfits : s.fitsFrame (.hangUp r) ↔ s.gone = true ∨ 8 + (goawayText r).length ≤ s.conn.maxFrame := by
        cases r with
        | ok u =>
          have hdefault : defaultMaxFrame = 16384 := rfl
          have h1 := hs.1
          exact ⟨fun _ => Or.inr (by simp only [goawayText,List.length_nil]; omega),fun _ => trivial⟩
        | error e => exact Iff.rfl
      rw [hfits,← hp]
      cases hg : s.gone with
      | true => exact ⟨fun _ => Or.inl rfl,fun _ => .refl (by simp)⟩
      | false =>
        constructor
        · rintro ⟨new,hout,hn⟩
          have hnew : new = [writeFrame Kind.goaway 0 0 p] := by
            rw [if_neg (by simp)] at hout
            exact List.append_cancel_left (hout.symm.trans ho)
          rw [hnew] at hn
          exact Or.inr (hn _ (List.mem_singleton.mpr rfl)).length_le
        · intro h
          refine ⟨_,by simpa using ho,fun b hb => ?_⟩
          rw [List.mem_singleton.mp hb]
          exact legal_writeFrame (h.resolve_left (by simp)) hs.2 (by decide)
  | turn h ht => exact ⟨fun _ => trivial,fun _ => ht.lawful hs (hid h)⟩
  | reply h _ ha => exact ha.lawful_iff hs (hid h)
  | writerGone h' =>
    rw [h']
    exact ⟨fun _ => trivial,fun _ => .refl rfl⟩

/-- The queue begins with two legal frames, and each step adds legal ones exactly when it
fits. The size they keep to is the one the peer announced last. -/
theorem run_lawful_iff (maxBody : ℕ) (as : List Act) (s : Sys) (hr : Runs (stepRel Sys.step) (Sys.new maxBody) as s) :
    (Sys.new maxBody).conn.out = [openingFrames.flatten] ∧ (∀ b ∈ openingFrames, Legal defaultMaxFrame b) ∧
      (s.conn.result = none → s.conn.maxFrame = frameSize as) ∧
        ∀ a s', s.step a = some s' → (Lawful s.conn.maxFrame s s' ↔ s.fitsFrame a) := by
  have hdefault : defaultMaxFrame ≤ maxFrameLimit := by decide
  have hs : s.conn.sized :=
    hr.invariant (I := fun _ s => s.conn.sized) ⟨Nat.le_refl _,hdefault⟩ (fun _ _ _ _ _ h hn => kept_sized.step hn h)
  exact ⟨rfl,fun b hb => (short_opening b hb).legal (Nat.le_refl _) hdefault,(run_windows hr).size,
    fun a s' hstep => step_lawful_iff hr hs hstep⟩

end Run

section Answers

/-- A response with one header. -/
def headerReply (v : Bytes) : Reply := .new { Resp.new with hdrs := [(lit "x-a",v)] } .empty

def answered : List Act := [getFrame,.turn 1]

example : (headerReply [126]).resp.hdrs = [(lit "x-a",lit "~")] := by decide +kernel

theorem answered_lawful : ∃ s s', Runs (stepRel Sys.step) (Sys.new 1) answered s ∧
    s.step (.reply 1 (headerReply [126]) 0) = some s' ∧ Lawful s.conn.maxFrame s s' := by
  have h : ((runList Sys.step (Sys.new 1) answered).bind (fun s => (s.step (.reply 1 (headerReply [126]) 0)).map (fun _ =>
      decide ((headBlock ((headerReply [126]).frame true).resp).length ≤ s.conn.maxFrame)))) = some true := by
    decide +kernel
  obtain ⟨s,hs,h⟩ := Option.bind_eq_some_iff.mp h
  obtain ⟨s',hreply,hlen⟩ := Option.map_eq_some_iff.mp h
  have hr := Runs.of_runList hs
  obtain ⟨-,-,-,hstep⟩ := run_lawful_iff 1 answered s hr
  exact ⟨s,s',hr,hreply,(hstep _ s' hreply).mpr (Or.inr (of_decide_eq_true hlen))⟩

theorem length_encode_le {name value : Bytes} (hn : ∀ e ∈ Hpack.staticTable, e.1 ≠ name)
    (hv : value.length ≤ Huffman.encodedLen value) : value.length ≤ (Hpack.Encoder.encode name value).length := by
  have hnone : Hpack.staticTable.findIdx? (fun e => e.1 == name && e.2 == value) = none := by
    rw [List.findIdx?_eq_none_iff]
    intro e he
    simp [hn e he]
  have hraw : Hpack.writeString value = Hpack.writeInt value.length 7 0x00 ++ value := if_neg (by omega)
  unfold Hpack.Encoder.encode
  rw [hnone,hraw]
  simp only [List.length_append]
  omega

/-- A value of as many tildes as the peer takes bytes in a frame. -/
def longValue : Bytes := List.replicate defaultMaxFrame 126

theorem length_longHead : defaultMaxFrame < (headBlock ((headerReply longValue).frame true).resp).length := by
  have hlen : longValue.length = defaultMaxFrame := List.length_replicate
  have hv : longValue.length ≤ Huffman.encodedLen longValue := by
    have hbits : (Huffman.table.getD (126 : UInt8).toNat (0,0)).2 = 13 := by decide +kernel
    rw [Huffman.encodedLen,hlen,longValue,List.map_replicate,hbits,List.sum_replicate]
    decide
  have hname : ∀ e ∈ Hpack.staticTable, e.1 ≠ lit "x-a" := by decide +kernel
  have henc := length_encode_le hname hv
  have hkept : ([(lit "x-a",longValue)].filter (fun h => !connectionSpecific.contains (toAsciiLowercase h.1))) =
      [(lit "x-a",longValue)] := by
    have h : toAsciiLowercase (lit "x-a") ∉ connectionSpecific := by decide +kernel
    simp [h]
  have hlow : toAsciiLowercase (lit "x-a") = lit "x-a" := by decide +kernel
  have hdrs : ((headerReply longValue).frame true).resp.hdrs = [(lit "x-a",longValue)] := rfl
  have hstatus : 0 < (Hpack.Encoder.encode (lit ":status") (decimal ((headerReply longValue).frame true).resp.status)).length := by
    decide +kernel
  unfold headBlock
  rw [hdrs,hkept]
  simp only [List.length_append,List.flatMap_cons,List.flatMap_nil,List.append_nil,hlow]
  omega

example : (Huffman.table.getD (126 : UInt8).toNat (0,0)).2 = 13 := by decide +kernel

/-- The HEADERS frame of such a response is longer than the peer takes. -/
theorem longHead_illegal : ∃ s s', Runs (stepRel Sys.step) (Sys.new 1) answered s ∧ s.conn.maxFrame = defaultMaxFrame ∧
    s.step (.reply 1 (headerReply longValue) 0) = some s' ∧ ∃ b ∈ s'.conn.out, ¬ Legal s.conn.maxFrame b := by
  have h : ((runList Sys.step (Sys.new 1) answered).bind (fun s => (s.step (.reply 1 (headerReply longValue) 0)).map
      (fun _ => (s.conn.maxFrame,s.gone)))) = some (defaultMaxFrame,false) := by
    decide +kernel
  obtain ⟨s,hs,h⟩ := Option.bind_eq_some_iff.mp h
  obtain ⟨s',hreply,hv⟩ := Option.map_eq_some_iff.mp h
  simp only [Prod.mk.injEq] at hv
  refine ⟨s,s',.of_runList hs,hv.1,hreply,?_⟩
  obtain ⟨-,headOnly,-,ha⟩ := Sys.reply_cases hreply
  obtain ⟨q,hq,hrest⟩ := ha.out_head hv.2
  refine ⟨responseHead 1 (headerReply longValue) (responseBody (headerReply longValue) headOnly),?_,fun hlegal => ?_⟩
  · have hmem : responseHead 1 (headerReply longValue) (responseBody (headerReply longValue) headOnly) ∈ q.conn.out := by
      rw [hq]
      exact List.mem_append_right _ (List.mem_singleton.mpr rfl)
    rcases hrest with ⟨o,h⟩ | h
    · obtain ⟨new,ho,-⟩ := (Own.go h).out
      rw [ho]
      exact List.mem_append_left _ hmem
    · rwa [out_finish h]
  · have hle := hlegal.length_le
    have hlong := length_longHead
    rw [hv.1] at hle
    omega

end Answers

end OxiServe.Http2
