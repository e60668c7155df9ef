import Mathlib.Algebra.BigOperators.Group.List.Basic
import OxiServe.Http2.Notices
import OxiServe.Http2.Spawning

/-! # Credit for the peer's uploads

What the peer may still send: the windows announced to it with the increments it was
given, less the DATA it sent, padding included. The connection window is refilled when
half of it is used; no stream is ever given more than the window it began with.
-/
namespace OxiServe.Http2
open Conn

section Sums

/-- The frames of the first entry of the queue. -/
def openingFrames : List Bytes :=
  [settings [(Setting.maxConcurrentStreams,maxConcurrent),(Setting.initialWindowSize,ourInitialWindow),
    (Setting.enablePush,0),(Setting.maxHeaderListSize,maxHeaderList)],windowUpdate 0 (ourInitialWindow - 65535)]

/-- What a queued frame adds to the window of a stream, to that of the connection
under id 0. -/
def incrementOn (i : ℕ) (b : Bytes) : ℕ :=
  if kindOf b = Kind.windowUpdate ∧ streamOf b = i then Frame.first31 (payloadOf b) else 0

def increments (i : ℕ) (out : List Bytes) : ℕ := (out.map (incrementOn i)).sum

/-- The increments the peer was sent. The entry a connection begins with holds two frames. -/
def refills (i : ℕ) (out : List Bytes) : ℕ := increments i openingFrames + increments i out.tail

/-- The initial window of a stream as the peer is told. -/
def toldWindow : ℕ :=
  lastValue Setting.initialWindowSize 65535 (openingFrames.flatMap (fun b =>
    if kindOf b = Kind.settings then settingsPairs (payloadOf b) else []))

/-- The flow-controlled bytes of a frame. -/
def Event.charge : Event → ℕ
  | .frame f => if f.head.kind = Kind.data then f.head.len else 0
  | _ => 0

def Event.chargeOn (i : ℕ) (e : Event) : ℕ := if e.isOn i = true then e.charge else 0

def received (es : List Event) : ℕ := (es.map Event.charge).sum

def receivedOn (i : ℕ) (es : List Event) : ℕ := (es.map (Event.chargeOn i)).sum

/-- The bytes of a stream that are no data. -/
def paddingOn (i : ℕ) (es : List Event) : ℕ := (es.map (fun e => e.chargeOn i - (e.dataOn i).length)).sum

def connCredit (es : List Event) (out : List Bytes) : ℤ := 65535 + refills 0 out - received es

def streamCredit (i : ℕ) (es : List Event) (out : List Bytes) : ℤ := toldWindow + refills i out - receivedOn i es

variable (i : ℕ) (es : List Event) (e : Event)

theorem opening_eq (maxBody : ℕ) : (Conn.new maxBody).out = [openingFrames.flatten] := rfl

theorem toldWindow_eq : toldWindow = ourInitialWindow := by decide +kernel

theorem increments_opening : increments i openingFrames = if i = 0 then ourInitialWindow - 65535 else 0 := by
  have h : Frame.first31 (toBe 4 (ourInitialWindow - 65535)) = ourInitialWindow - 65535 := by decide +kernel
  have hs : (Kind.settings = Kind.windowUpdate) = False := by decide
  simp [increments,openingFrames,incrementOn,settings,windowUpdate,h,hs,eq_comm]

theorem increments_append (as bs : List Bytes) : increments i (as ++ bs) = increments i as + increments i bs := by
  simp [increments]

theorem refills_append {as : List Bytes} (h : as ≠ []) (bs : List Bytes) :
    refills i (as ++ bs) = refills i as + increments i bs := by
  rw [refills,List.tail_append_of_ne_nil h,increments_append,refills,Nat.add_assoc]

theorem received_snoc : received (es ++ [e]) = received es + e.charge := by simp [received]

theorem receivedOn_snoc : receivedOn i (es ++ [e]) = receivedOn i es + e.chargeOn i := by simp [receivedOn]

theorem length_unpad {p data : Bytes} {b : Bool} (h : unpad p b = some data) : data.length ≤ p.length := by
  unfold unpad at h
  split at h
  · cases h
    exact Nat.le_refl _
  split at h
  · cases h
  split at h
  · cases h
  · cases h
    rw [List.length_take,List.length_cons]
    omega

theorem dataOn_le : (e.dataOn i).length ≤ e.chargeOn i := by
  cases e with
  | frame f =>
    simp only [Event.dataOn,Frame.dataOn]
    split
    · rename_i h
      rw [Event.chargeOn,Event.isOn,if_pos (by simpa using h.2),Event.charge,if_pos h.1,← f.len_eq]
      cases hu : unpad f.payload (f.head.has Flag.padded) with
      | none => exact Nat.zero_le _
      | some data => exact length_unpad hu
    · exact Nat.zero_le _
  | _ => exact Nat.zero_le _

/-- What was received on a stream is data and padding. -/
theorem receivedOn_eq : receivedOn i es = (dataOf i es).length + paddingOn i es := by
  induction es using List.reverseRecOn with
  | nil => rfl
  | append_singleton es e ih =>
    have hle := dataOn_le i e
    have hp : paddingOn i (es ++ [e]) = paddingOn i es + (e.chargeOn i - (e.dataOn i).length) := by simp [paddingOn]
    rw [receivedOn_snoc,dataOf_snoc,List.length_append,hp,ih]
    omega

end Sums

section Frames
variable {c d e : Conn} {f : Frame} {i : ℕ}

/-- No window is given back. -/
structure Unpaid (c d : Conn) : Prop where
  recv : d.recvWindow = c.recvWindow
  out : ∃ new, d.out = c.out ++ new ∧ ∀ j, increments j new = 0

theorem Unpaid.refl (hr : d.recvWindow = c.recvWindow) (ho : d.out = c.out) : Unpaid c d :=
  ⟨hr,[],by simp [ho],fun _ => rfl⟩

theorem Unpaid.trans (h : Unpaid c d) (h' : Unpaid d e) : Unpaid c e := by
  obtain ⟨hr,as,ha,hza⟩ := h
  obtain ⟨hr',bs,hb,hzb⟩ := h'
  exact ⟨hr'.trans hr,as ++ bs,by rw [hb,ha,List.append_assoc],fun j => by rw [increments_append,hza,hzb]⟩

theorem increments_zero {new : List Bytes} (h : ∀ b ∈ new, kindOf b ≠ Kind.windowUpdate) (j : ℕ) :
    increments j new = 0 := by
  refine List.sum_eq_zero (fun n hn => ?_)
  obtain ⟨b,hb,rfl⟩ := List.mem_map.mp hn
  exact if_neg (fun hk => h b hb hk.1)

theorem Unpaid.append {b : Bytes} (hr : d.recvWindow = c.recvWindow) (ho : d.out = c.out ++ [b])
    (hb : kindOf b ≠ Kind.windowUpdate) : Unpaid c d := by
  refine ⟨hr,[b],ho,increments_zero (fun x hx => ?_)⟩
  rw [List.mem_singleton.mp hx]
  exact hb

theorem Notice.kind {b : Bytes} (h : Notice i b) : kindOf b ≠ Kind.windowUpdate := by
  cases h with
  | rst code =>
    rw [Http2.rst,kindOf_writeFrame]
    decide
  | settings =>
    rw [settingsAck,kindOf_writeFrame]
    decide
  | ping _ =>
    rw [kindOf_writeFrame]
    decide

theorem Notes.unpaid (h : Notes i c d) : Unpaid c d := by
  obtain ⟨hr,new,ho,hn⟩ := h
  exact ⟨hr,new,ho,increments_zero (fun b hb => (hn b hb).kind)⟩

theorem Unpaid.dispatch (c : Conn) : Unpaid c c.dispatch := by
  obtain ⟨hr,new,ho,hn⟩ := dispatch_notes (c := c) (P := fun _ => True) (fun _ _ => trivial)
  refine ⟨hr,new,ho,increments_zero (fun b hb => ?_)⟩
  obtain ⟨j,-,hj⟩ := hn b hb
  exact hj.kind

theorem Unpaid.shutdown (c : Conn) (r : Except ConnErr Unit) : Unpaid c (c.shutdown r) := by
  refine .append rfl rfl ?_
  cases r <;> simp [goaway,Kind.goaway,Kind.windowUpdate]

/-- What a frame adds to the windows of the peer. -/
inductive Pays (c : Conn) (f : Frame) (d : Conn) : Prop
  | unpaid : Unpaid c d → (d.result = none → f.head.kind ≠ Kind.data) → Pays c f d
  | refused : Unpaid (c.charged f) d → d.result ≠ none → Pays c f d
  | charged : f.head.kind = Kind.data → Unpaid (c.charged f).replenish d → Pays c f d

theorem next_pays (hn : c.next (.frame f) = some d) : Pays c f d := by
  obtain ⟨-,⟨e,rfl⟩ | ⟨-,b,n,ha,hcase⟩⟩ := next_frame hn
  · exact .unpaid (.shutdown c _) (fun h => nomatch h)
  have hb : Unpaid b d ∧ (¬ n.goesOn → d.result ≠ none) := by
    rcases hcase with ⟨rfl,rfl⟩ | ⟨rfl,rfl⟩ | ⟨r,rfl,rfl⟩
    · exact ⟨.dispatch b,fun h => absurd (Or.inl rfl) h⟩
    · exact ⟨.refl rfl rfl,fun h => absurd (Or.inr rfl) h⟩
    · exact ⟨.shutdown b r,fun _ => Option.some_ne_none _⟩
  by_cases hd : f.head.kind = Kind.data
  · have hdata := onData_noted c f
    have harm : c.arm f = c.onData f := by rw [Conn.arm,if_pos hd]
    rw [← harm,ha] at hdata
    rcases hdata with ⟨hnotes,hends⟩ | ⟨hnotes,hends⟩ | hnotes
    · exact .unpaid (hnotes.notes.unpaid.trans hb.1) (fun hres => absurd hres (hb.2 hends))
    · exact .refused (hnotes.notes.unpaid.trans hb.1) (hb.2 hends)
    · exact .charged hd (hnotes.notes.unpaid.trans hb.1)
  · have hnotes := Noted.arm c f hd
    rw [ha] at hnotes
    exact .unpaid (hnotes.notes.unpaid.trans hb.1) (fun _ => hd)

theorem next_frame_len (hn : c.next (.frame f) = some d) (hres : d.result = none) : f.head.len ≤ defaultMaxFrame := by
  by_contra hlen
  simp only [next,(next_frame hn).1,Option.isSome_none,Bool.false_eq_true,if_false,readFrame,
    if_pos (Nat.lt_of_not_le hlen),fail,Option.some.injEq] at hn
  rw [← hn] at hres
  cases hres

/-- Half of the window is always left, and what is given back is queued. -/
theorem replenish_pays (c : Conn) : ∃ new, c.replenish.out = c.out ++ new ∧ (∀ j, j ≠ 0 → increments j new = 0) ∧
    windowRefillAt < c.replenish.recvWindow ∧
      (0 < c.recvWindow → c.replenish.recvWindow = c.recvWindow + increments 0 new) := by
  unfold replenish
  dsimp only
  have hw : ∀ used : ℕ, used < 2 ^ 31 → Frame.first31 (toBe 4 used) = used := by
    intro used hu
    simp only [Frame.first31,u32At,length_toBe,Nat.zero_add,Nat.le_refl,if_true,Option.getD_some,List.drop_zero]
    rw [List.take_of_length_le (by simp),ofBe_toBe]
    omega
  split
  · refine ⟨[windowUpdate 0 (ourInitialWindow - c.recvWindow).toNat],rfl,fun j hj => ?_,?_,fun hpos => ?_⟩
    · simp [increments,incrementOn,windowUpdate,Ne.symm hj]
    · have h : windowRefillAt < (ourInitialWindow : ℤ) := by decide
      exact h
    · have hu : (ourInitialWindow - c.recvWindow).toNat < 2 ^ 31 := by
        have : (ourInitialWindow : ℤ) = 1048576 := by decide
        omega
      have hk : increments 0 [windowUpdate 0 (ourInitialWindow - c.recvWindow).toNat] =
          (ourInitialWindow - c.recvWindow).toNat := by
        simp [increments,incrementOn,windowUpdate,hw _ hu]
      rename_i hle
      have h0 : 0 ≤ windowRefillAt := by decide
      rw [hk]
      dsimp only
      omega
  · rename_i hlt
    refine ⟨[],by simp,fun _ _ => rfl,?_,fun _ => by simp [increments]⟩
    have h1 : (ourInitialWindow : ℤ) = 1048576 := by decide
    have h2 : windowRefillAt = 524288 := by decide
    omega

end Frames

section Run
variable {maxBody i : ℕ} {es : List Event} {c d : Conn} {e : Event}

/-- The connection window is what the peer was told, and no stream was given more. -/
structure Ledgered (es : List Event) (c : Conn) : Prop where
  out : c.out ≠ []
  streams : ∀ i, i ≠ 0 → refills i c.out = 0
  room : c.result = none → windowRefillAt < c.recvWindow
  conn : c.result = none → connCredit es c.out = c.recvWindow

theorem Ledgered.new (maxBody : ℕ) : Ledgered [] (Conn.new maxBody) where
  out := by simp [opening_eq]
  streams := by
    intro i hi
    rw [refills,increments_opening,if_neg hi,opening_eq]
    rfl
  room := by
    intro _
    have h : windowRefillAt < (ourInitialWindow : ℤ) := by decide
    exact h
  conn := by
    intro _
    rw [connCredit,refills,increments_opening,opening_eq]
    rfl

theorem Ledgered.unpaid (h : Ledgered es c) (hu : Unpaid c d) (hres : d.result = none → c.result = none)
    (he : d.result = none → e.charge = 0) : Ledgered (es ++ [e]) d := by
  obtain ⟨hr,new,ho,hn⟩ := hu
  have hrefill (i : ℕ) : refills i d.out = refills i c.out := by rw [ho,refills_append i h.out,hn i,Nat.add_zero]
  refine ⟨by rw [ho]; simp [h.out],fun i hi => by rw [hrefill]; exact h.streams i hi,fun hd => ?_,fun hd => ?_⟩
  · rw [hr]
    exact h.room (hres hd)
  · rw [hr,← h.conn (hres hd),connCredit,connCredit,hrefill,received_snoc,he hd,Nat.add_zero]

theorem Ledgered.frame {f : Frame} (h : Ledgered es c) (hn : c.next (.frame f) = some d) :
    Ledgered (es ++ [.frame f]) d := by
  have hres : c.result = none := (next_frame hn).1
  cases next_pays hn with
  | unpaid hu hk => exact h.unpaid hu (fun _ => hres) (fun hd => if_neg (hk hd))
  | refused hu hd =>
    obtain ⟨-,new,ho,hz⟩ := hu
    have ho : d.out = c.out ++ new := ho
    refine ⟨by rw [ho]; simp [h.out],fun i hi => ?_,fun hd' => absurd hd' hd,fun hd' => absurd hd' hd⟩
    rw [ho,refills_append i h.out,hz i]
    exact h.streams i hi
  | charged hk hu =>
    obtain ⟨hr,as,ho,hz⟩ := hu
    obtain ⟨bs,hb,hstreams,hroom,hback⟩ := replenish_pays (c.charged f)
    have hb : (c.charged f).replenish.out = c.out ++ bs := hb
    have hrefill (i : ℕ) : refills i d.out = refills i c.out + increments i bs := by
      rw [ho,hb,List.append_assoc,refills_append i h.out,increments_append,hz i,Nat.add_zero]
    refine ⟨by rw [ho,hb]; simp [h.out],fun i hi => ?_,fun _ => by rw [hr]; exact hroom,fun hd => ?_⟩
    · rw [hrefill,hstreams i hi]
      exact h.streams i hi
    · have hlen := next_frame_len hn hd
      have hleft := h.room hres
      have h1 : windowRefillAt = 524288 := by decide
      have h2 : defaultMaxFrame = 16384 := rfl
      have hcharged : (c.charged f).recvWindow = c.recvWindow - f.head.len := rfl
      have hconn := h.conn hres
      have hcharge : (Event.frame f).charge = f.head.len := if_pos hk
      rw [hr,hback (by omega),hcharged,← hconn,connCredit,connCredit,hrefill,received_snoc,hcharge]
      push_cast
      omega

theorem run_ledgered (hr : Runs (stepRel Conn.next) (Conn.new maxBody) es c) : Ledgered es c := by
  refine hr.invariant (I := Ledgered) (.new maxBody) ?_
  intro es c e d _ h hn
  cases e with
  | frame f => exact h.frame hn
  | hangUp r =>
    simp only [stepRel,next] at hn
    split at hn
    · cases hn
    · cases hn
      exact h.unpaid (.shutdown c r) (by intro hd; cases hd) (fun _ => rfl)
  | send id data =>
    obtain ⟨-,rfl⟩ := next_send hn
    exact h.unpaid (.append rfl rfl (by rw [kindOf_writeFrame]; decide)) (fun hd => hd) (fun _ => rfl)
  | finish id =>
    simp only [stepRel,next] at hn
    split at hn
    · cases hn
      exact h.unpaid (.refl rfl rfl) (fun hd => hd) (fun _ => rfl)
    · cases hn

theorem run_noZero (hr : Runs (stepRel Conn.next) (Conn.new maxBody) es c) : c.streams.get? 0 = none := by
  refine hr.invariant (I := fun _ c => c.streams.get? 0 = none) rfl ?_
  intro es c e d _ h hn
  cases e with
  | frame f => exact (next_tides h hn).2.1
  | hangUp r =>
    simp only [stepRel,next] at hn
    split at hn
    · cases hn
    · cases hn
      exact h
  | send id data =>
    obtain ⟨-,rfl⟩ := next_send hn
    exact h
  | finish id =>
    simp only [stepRel,next] at hn
    split at hn
    · cases hn
      exact h
    · cases hn

/-- The credit of a connection: its window is never used up, and that of a stream is
used up once the peer sent the initial window on it. -/
structure Credited (maxBody : ℕ) (es : List Event) (c : Conn) : Prop where
  conn : 0 < connCredit es c.out
  streams : ∀ i st, c.streams.get? i = some st → st.state = .opened → st.body.length < maxBody →
    (0 < streamCredit i es c.out ↔ receivedOn i es < ourInitialWindow)
  small : ∀ i st, c.streams.get? i = some st → st.state = .opened → st.body.length < maxBody →
    maxBody + paddingOn i es ≤ ourInitialWindow → 0 < streamCredit i es c.out

theorem streamCredit_pos (hr : Runs (stepRel Conn.next) (Conn.new maxBody) es c) (hi : i ≠ 0) :
    0 < streamCredit i es c.out ↔ receivedOn i es < ourInitialWindow := by
  rw [streamCredit,(run_ledgered hr).streams i hi,toldWindow_eq]
  omega

/-- Every state a connection reaches while it reads. -/
theorem run_credited (maxBody : ℕ) (es : List Event) (c : Conn)
    (hr : Runs (stepRel Conn.next) (Conn.new maxBody) es c) (hres : c.result = none) : Credited maxBody es c := by
  obtain ⟨hl,-,ha⟩ := run_assembled hr
  have hne (i : ℕ) (st : Stream) (hst : c.streams.get? i = some st) : i ≠ 0 := by
    rintro rfl
    rw [run_noZero hr] at hst
    cases hst
  have hledger := run_ledgered hr
  refine ⟨?_,fun i st hst _ _ => streamCredit_pos hr (hne i st hst),fun i st hst ho hlt hsmall => ?_⟩
  · have hroom := hledger.room hres
    have h0 : (0 : ℤ) ≤ windowRefillAt := by decide
    rw [hledger.conn hres]
    omega
  · have hnot : st.dispatched = false := by
      cases hd : st.dispatched with
      | false => rfl
      | true => exact absurd ho ((hl.lives i st hst).notOpen hd)
    have hbody := ((ha hres).heard i st hst (by simp [Stream.isPending,hnot,ho])).body
    rw [streamCredit_pos hr (hne i st hst),receivedOn_eq,← hbody]
    omega

end Run

section Upload

def openUpload : Event := .frame (.of Kind.headers Flag.endHeaders 1 [0x82])

/-- A DATA frame of the largest size, which leaves the stream open. -/
def fullFrame : Frame := .of Kind.data 0 1 (List.replicate defaultMaxFrame 0)

/-- An upload of `n` such frames. -/
def upload (n : ℕ) : List Event := openUpload :: List.replicate n (.frame fullFrame)

/-- The connection reads on, and the upload is the only stream. -/
structure Uploading (n : ℕ) (c : Conn) : Prop where
  reads : c.result = none
  free : c.expectContinuation = none
  limit : c.clientMaxBodySize = 2 * ourInitialWindow
  entry : ∃ st, c.streams.entries = [(1,st)] ∧ st.state = .opened ∧ st.body.length = n * defaultMaxFrame

variable {n : ℕ} {c : Conn}

theorem Uploading.next (h : Uploading n c) (hn : n < 64) :
    ∃ d, c.next (.frame fullFrame) = some d ∧ Uploading (n + 1) d := by
  obtain ⟨hres,hfree,hlimit,st,hst,hop,hbody⟩ := h
  obtain ⟨out,w,he⟩ := replenish_eq (c.charged fullFrame)
  have hget : c.streams.get? 1 = some st := KeyMap.get?_eq_some_iff.mpr (by rw [hst]; exact List.mem_singleton.mpr rfl)
  have hlen : (List.replicate defaultMaxFrame (0 : UInt8)).length = defaultMaxFrame := List.length_replicate
  have hsize : defaultMaxFrame = 16384 := rfl
  have hwindow : ourInitialWindow = 1048576 := rfl
  have hfits : ¬ c.clientMaxBodySize < st.body.length + (List.replicate defaultMaxFrame (0 : UInt8)).length := by
    rw [hlimit,hbody,hlen,hsize]
    omega
  have hstate : c.stateOf 1 = .opened := by simp [stateOf,hget,hop]
  have harm : c.arm fullFrame = (({ c with out := out, recvWindow := w } : Conn).modifyStream 1 (fun s =>
      { s with body := s.body ++ List.replicate defaultMaxFrame 0, state := s.state }),.dispatch) := by
    have hd : c.arm fullFrame = c.onData fullFrame := if_pos rfl
    have hcharged : ({ c with recvWindow := c.recvWindow - (fullFrame.head.len : ℤ) } : Conn).replenish =
        { c with out := out, recvWindow := w } := he
    have hopen : ({ c with out := out, recvWindow := w } : Conn).stateOf 1 = .opened := hstate
    have hunpad : unpad fullFrame.payload (fullFrame.head.has Flag.padded) = some (List.replicate defaultMaxFrame 0) :=
      rfl
    have hends : fullFrame.head.has Flag.endStream = false := rfl
    have hone : fullFrame.head.stream = 1 := rfl
    rw [hd,onData,if_neg (by decide)]
    simp only [hunpad,hcharged,hone,hopen,hget,if_neg hfits,hends,Bool.false_eq_true,if_false]
  refine ⟨({ c with out := out, recvWindow := w } : Conn).modifyStream 1 (fun s =>
    { s with body := s.body ++ List.replicate defaultMaxFrame 0, state := s.state }),?_,?_⟩
  · have hpoor : ¬ defaultMaxFrame < fullFrame.head.len := by
      have : fullFrame.head.len = defaultMaxFrame := hlen
      omega
    have hread : c.readFrame fullFrame = ((({ c with out := out, recvWindow := w } : Conn).modifyStream 1 (fun s =>
        { s with body := s.body ++ List.replicate defaultMaxFrame 0, state := s.state })).dispatch,.again) := by
      simp only [readFrame,if_neg hpoor,hfree,Option.any_none,Bool.false_eq_true,if_false,harm]
    simp only [Conn.next,hres,Option.isSome_none,Bool.false_eq_true,if_false,hread,Option.some.injEq]
    rw [dispatch]
    simp [modifyStream,KeyMap.modify,KeyMap.mapVals,hst,isReady,hop]
  · refine ⟨hres,hfree,hlimit,{ st with body := st.body ++ List.replicate defaultMaxFrame 0 },?_,hop,?_⟩
    · simp [modifyStream,KeyMap.modify,KeyMap.mapVals,hst]
    · rw [List.length_append,hbody,hlen,Nat.succ_mul]

theorem run_upload (n : ℕ) (hn : n ≤ 64) :
    ∃ c, Runs (stepRel Conn.next) (Conn.new (2 * ourInitialWindow)) (upload n) c ∧ Uploading n c := by
  induction n with
  | zero =>
    have h : (runList Conn.next (Conn.new (2 * ourInitialWindow)) (upload 0)).map (fun c =>
        (c.result.isNone && c.expectContinuation.isNone,c.clientMaxBodySize,
          c.streams.entries.map (fun e => (e.1,e.2.state == .opened,e.2.body.length)))) =
            some (true,2 * ourInitialWindow,[(1,true,0)]) := by
      decide +kernel
    obtain ⟨c,hc,hv⟩ := Option.map_eq_some_iff.mp h
    simp only [Prod.mk.injEq,Bool.and_eq_true,Option.isNone_iff_eq_none] at hv
    obtain ⟨⟨hres,hfree⟩,hlimit,hentry⟩ := hv
    obtain ⟨⟨k,st⟩,hst,he⟩ := List.map_eq_singleton_iff.mp hentry
    simp only [Prod.mk.injEq,beq_iff_eq] at he
    obtain ⟨rfl,hop,hbody⟩ := he
    exact ⟨c,.of_runList hc,hres,hfree,hlimit,st,hst,hop,by rw [hbody,Nat.zero_mul]⟩
  | succ n ih =>
    obtain ⟨c,hr,hc⟩ := ih (by omega)
    obtain ⟨d,hd,hu⟩ := hc.next (by omega)
    refine ⟨d,?_,hu⟩
    have hup : upload (n + 1) = upload n ++ [.frame fullFrame] := by
      rw [upload,upload,List.replicate_succ',List.cons_append]
    rw [hup]
    exact hr.snoc hd

theorem receivedOn_upload (n : ℕ) : receivedOn 1 (upload n) = n * defaultMaxFrame := by
  have hone : (Event.frame fullFrame).chargeOn 1 = defaultMaxFrame := List.length_replicate
  have hopen : openUpload.chargeOn 1 = 0 := by decide
  simp [receivedOn,upload,hone,hopen]

/-- A first frame of an upload to a server that takes twice the initial window. -/
theorem upload_one_credited : ∃ c, Runs (stepRel Conn.next) (Conn.new (2 * ourInitialWindow)) (upload 1) c ∧
    Credited (2 * ourInitialWindow) (upload 1) c := by
  obtain ⟨c,hr,hc⟩ := run_upload 1 (by decide)
  exact ⟨c,hr,run_credited _ _ c hr hc.reads⟩

/-- Half of an allowed upload leaves the stream open without credit. -/
theorem upload_half_stuck : ∃ c st, Runs (stepRel Conn.next) (Conn.new (2 * ourInitialWindow)) (upload 64) c ∧
    c.result = none ∧ c.streams.get? 1 = some st ∧ st.state = .opened ∧ st.body.length < 2 * ourInitialWindow ∧
      streamCredit 1 (upload 64) c.out = 0 := by
  obtain ⟨c,hr,hc⟩ := run_upload 64 (by decide)
  obtain ⟨st,hst,hop,hbody⟩ := hc.entry
  have hget : c.streams.get? 1 = some st :=
    KeyMap.get?_eq_some_iff.mpr (by rw [hst]; exact List.mem_singleton.mpr rfl)
  refine ⟨c,st,hr,hc.reads,hget,hop,by rw [hbody]; decide,?_⟩
  rw [streamCredit,(run_ledgered hr).streams 1 (by decide),toldWindow_eq,receivedOn_upload]
  decide

end Upload

end OxiServe.Http2
