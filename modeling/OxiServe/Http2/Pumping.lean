import OxiServe.Http2.AfterReset
import OxiServe.Http2.FlowControl

/-! # Calls of `pump`

Between its first frame and its last a call of `pump` has queued the beginning of its
data and nothing else for its stream, whatever the reader loop and the other tasks do
meanwhile. Each frame fits into the windows the peer granted.
-/
namespace OxiServe.Http2
open Conn Server Response

section Calls
variable {maxBody : ℕ} {as : List Act} {s s' : Sys} {id : ℕ} {data : Bytes} {off since : ℕ} {tail : Tail}

/-- The task is in a call of `pump`, which began behind `since` frames and has come to
`off`. -/
structure Sys.inCall (s : Sys) (id : ℕ) (data : Bytes) (off since : ℕ) (tail : Tail) : Prop where
  running : id ∈ s.conn.running
  prog : s.progs id = .pump data off since tail

/-- What a call of `pump` has queued. -/
structure Queued (s : Sys) (id : ℕ) (data : Bytes) (off since : ℕ) : Prop where
  since_le : since ≤ s.conn.out.length
  off_lt : off < data.length
  sofar : carried (s.conn.out.drop since) id = data.take off

theorem carried_frame {kind flags : UInt8} {i : ℕ} {payload : Bytes} (hi : i < 2 ^ 31) :
    carried [writeFrame kind flags i payload] id = if kind = Kind.data ∧ i = id then payload else [] := by
  have hd : isDataOf id (writeFrame kind flags i payload) = decide (kind = Kind.data ∧ i = id) := by
    simp only [isDataOf,kindOf_writeFrame,streamOf_writeFrame,Nat.mod_eq_of_lt hi,Bool.decide_and]
    rfl
  by_cases h : kind = Kind.data ∧ i = id
  · rw [decide_eq_true h] at hd
    rw [if_pos h,carried,List.filter_cons_of_pos hd]
    simp
  · rw [decide_eq_false h] at hd
    rw [if_neg h,carried,List.filter_cons_of_neg (by simp [hd])]
    rfl

/-- Frames that carry nothing for the stream leave the call as it is. -/
theorem Queued.append {new : List Bytes} (h : Queued s id data off since) (ho : s'.conn.out = s.conn.out ++ new)
    (hn : carried new id = []) : Queued s' id data off since := by
  refine ⟨?_,h.off_lt,?_⟩
  · rw [ho,List.length_append]
    exact Nat.le_trans h.since_le (Nat.le_add_right _ _)
  · rw [ho,List.drop_append_of_le_length h.since_le,carried_append,h.sofar,hn,List.append_nil]

theorem carried_eq_nil {new : List Bytes} (h : ∀ b ∈ new, kindOf b ≠ Kind.data ∨ payloadOf b = [] ∨ streamOf b ≠ id) :
    carried new id = [] := by
  simp only [carried,List.flatten_eq_nil_iff,List.mem_map,List.mem_filter,isDataOf,Bool.and_eq_true,beq_iff_eq]
  rintro p ⟨b,⟨hb,hk,hs⟩,rfl⟩
  rcases h b hb with h | h | h
  · exact absurd hk h
  · exact h
  · exact absurd hs h

/-- `pump` is only called with data. -/
def Onward.Full (o : Onward) : Prop := ∀ d t, o = .pump d t → d ≠ []

theorem fileTurn_full (f : File) (t off left : ℕ) : (fileTurn f t off left).Full := by
  intro d tl h
  unfold fileTurn at h
  split at h
  · cases h
  split at h
  · cases h
  split at h
  · cases h
  · rename_i hb
    cases h
    exact hb

theorem Tail.onward_full (stopped : Bool) (tl : Tail) : (tl.onward stopped).Full := by
  cases tl with
  | last => exact fun _ _ h => nomatch h
  | file f t off left =>
    unfold Tail.onward
    cases stopped with
    | true => exact fun _ _ h => nomatch h
    | false => exact fileTurn_full f t off left
  | stream io =>
    intro d t h
    simp only [Tail.onward] at h
    split at h <;> cases h

theorem pumpOnward_full (stopped : Bool) (data : Bytes) (tl : Tail) : (pumpOnward stopped data tl).Full := by
  unfold pumpOnward
  split
  · exact tl.onward_full stopped
  · rename_i hd
    intro d t h
    cases h
    exact hd

theorem bodyOnward_full (stopped : Bool) (t : ℕ) (body : Body) : (bodyOnward stopped t body).Full := by
  cases body with
  | empty => exact fun _ _ h => nomatch h
  | bytes b => exact pumpOnward_full stopped b .last
  | mmap w => exact pumpOnward_full stopped w.bytes .last
  | inline f off len => exact fileTurn_full f t off len
  | file f off len => exact fileTurn_full f t off len
  | upgraded _ _ => exact fun _ _ h => nomatch h
  | stream pre io len => exact pumpOnward_full stopped pre (.stream io)

theorem readOnward_full (io : Io) : (readOnward io).Full := by
  intro d t h
  unfold readOnward at h
  split at h
  · cases h
  split at h
  · cases h
  · rename_i hb
    cases h
    exact hb

/-- A call begins with nothing queued. -/
theorem queued_go {o : Onward} (hd : o.Full) (h : s.go id o = some s')
    (hc : s'.inCall id data off since tail) : Queued s' id data off since := by
  cases o with
  | endStream => exact absurd hc.running (not_running_finish h)
  | stop => exact absurd hc.running (not_running_finish h)
  | pump d t =>
    cases h
    have hp := hc.prog
    simp only [Sys.moveTo,if_true,Prog.pump.injEq] at hp
    obtain ⟨rfl,rfl,rfl,-⟩ := hp
    refine ⟨Nat.le_refl _,List.length_pos_iff.mpr (hd _ _ rfl),?_⟩
    simp [Sys.moveTo,carried]
  | read io =>
    cases h
    have hp := hc.prog
    simp [Sys.moveTo] at hp

/-- A step of another task is none of this one. -/
theorem Queued.other {j : ℕ} {ks : List UInt8} (h : Queued s id data off since) (ho : Own s s' j ks) (hji : j ≠ id)
    (hj : j < 2 ^ 31) : Queued s' id data off since := by
  obtain ⟨new,hout,hn⟩ := ho.out
  refine h.append hout (carried_eq_nil (fun b hb => Or.inr (Or.inr ?_)))
  rw [(hn b hb).1,Nat.mod_eq_of_lt hj]
  exact hji

theorem Queued.idle (h : Queued s id data off since) (hi : Idle s s') : Queued s' id data off since := by
  obtain ⟨new,hout,hn⟩ := hi.out
  exact h.append hout (carried_eq_nil (fun b hb => (hn b hb).imp (fun h => h) Or.inl))

theorem Queued.send {c : Conn} {d : Bytes} (h : Queued s id data off since) (hid : id < 2 ^ 31)
    (hn : s.conn.next (.send id d) = some c) :
    since ≤ c.out.length ∧ carried (c.out.drop since) id = data.take off ++ d := by
  obtain ⟨-,rfl⟩ := next_send hn
  have ho : ((({ s.conn.emit (writeFrame Kind.data 0 id d) with
      connWindow := s.conn.connWindow - d.length }).modifyFlow id
        (fun w => { w with window := w.window - d.length })).out) = s.conn.out ++ [writeFrame Kind.data 0 id d] := rfl
  rw [ho]
  refine ⟨?_,?_⟩
  · rw [List.length_append]
    exact Nat.le_trans h.since_le (Nat.le_add_right _ _)
  · rw [List.drop_append_of_le_length h.since_le,carried_append,h.sofar,carried_frame hid,if_pos ⟨rfl,rfl⟩]

/-- How one step leaves a call of `pump`. -/
inductive After (s s' : Sys) (id : ℕ) (data : Bytes) (since : ℕ) (tail : Tail) : Prop
  | goesOn {off : ℕ} : s'.inCall id data off since tail → After s s' id data since tail
  | whole : carried (s'.conn.out.drop since) id = data → After s s' id data since tail
  | stopped : s.stopped id = true → After s s' id data since tail
  | failed : s.gone = true → After s s' id data since tail

theorem inCall_other {j : ℕ} {ks : List UInt8} (ho : Own s s' j ks) (hji : id ≠ j) :
    s'.inCall id data off since tail ↔ s.inCall id data off since tail := by
  refine ⟨fun h => ⟨(ho.running id hji).mp h.running,?_⟩,fun h => ⟨(ho.running id hji).mpr h.running,?_⟩⟩
  · rw [← ho.progs id hji]
    exact h.prog
  · rw [ho.progs id hji]
    exact h.prog

/-- A call takes one step: its frames are those of before and at most one more. -/
theorem PumpTurn.after (h : PumpTurn s id data off since tail s') (hq : Queued s id data off since)
    (hid : id < 2 ^ 31) (hrun : id ∈ s.conn.running) :
    carried (s'.conn.out.drop since) id <+: data ∧ After s s' id data since tail ∧
      ∀ d o n t, s'.inCall id d o n t → Queued s' id d o n := by
  cases h with
  | cut hs h =>
    refine ⟨?_,.stopped hs,fun _ _ _ _ hc => queued_go (tail.onward_full true) h hc⟩
    rw [(hq.idle (.go h)).sofar]
    exact List.take_prefix _ _
  | failed _ hg h =>
    refine ⟨?_,.failed hg,fun _ _ _ _ hc => queued_go (tail.onward_full false) h hc⟩
    rw [(hq.idle (.go h)).sofar]
    exact List.take_prefix _ _
  | @sent n c _ _ hn hlt h =>
    obtain ⟨hle,hcar⟩ := hq.send hid hn
    have hsum : carried (s'.conn.out.drop since) id = data.take (off + n) := by
      rw [h,List.take_add]
      exact hcar
    have hprog : s'.progs id = .pump data (off + n) since tail := by
      rw [h]
      simp [Sys.moveTo]
    have hrun' : id ∈ s'.conn.running := by
      rw [h]
      obtain ⟨-,rfl⟩ := next_send hn
      exact hrun
    refine ⟨hsum ▸ List.take_prefix _ _,.goesOn ⟨hrun',hprog⟩,fun d o n' t hc => ?_⟩
    have hp := hc.prog
    rw [hprog,Prog.pump.injEq] at hp
    obtain ⟨rfl,rfl,rfl,-⟩ := hp
    exact ⟨by rw [h]; exact hle,hlt,hsum⟩
  | @whole c _ _ hn h =>
    obtain ⟨hle,hcar⟩ := hq.send hid hn
    obtain ⟨new,hout,hnew⟩ := (Idle.go h).out
    have hall : carried (s'.conn.out.drop since) id = data := by
      have hnil : carried new id = [] := carried_eq_nil (fun b hb => (hnew b hb).imp (fun h => h) Or.inl)
      rw [hout,List.drop_append_of_le_length hle,carried_append,hcar,List.take_append_drop,hnil,List.append_nil]
    refine ⟨hall ▸ List.prefix_refl _,.whole hall,fun _ _ _ _ hc => queued_go (tail.onward_full false) h hc⟩

/-- What one step of the connection does to a call of `pump`. -/
structure Steady (s s' : Sys) : Prop where
  queued : ∀ id data off since tail, s'.inCall id data off since tail → Queued s' id data off since
  sofar : ∀ id data off since tail, s.inCall id data off since tail → carried (s'.conn.out.drop since) id <+: data
  after : ∀ id data off since tail, s.inCall id data off since tail → After s s' id data since tail

/-- A step that leaves the call where it is. -/
theorem Steady.keep (hq : ∀ id data off since tail, s.inCall id data off since tail → Queued s id data off since)
    (hto : ∀ id data off since tail, s.inCall id data off since tail → s'.inCall id data off since tail)
    (hof : ∀ id data off since tail, s'.inCall id data off since tail → s.inCall id data off since tail)
    (ho : ∃ new, s'.conn.out = s.conn.out ++ new ∧ ∀ b ∈ new, kindOf b ≠ Kind.data) : Steady s s' := by
  obtain ⟨new,hout,hn⟩ := ho
  have happ {id data off since tail} (h : s.inCall id data off since tail) : Queued s' id data off since :=
    (hq _ _ _ _ _ h).append hout (carried_eq_nil (fun b hb => Or.inl (hn b hb)))
  refine ⟨fun _ _ _ _ _ h => happ (hof _ _ _ _ _ h),fun _ _ _ _ _ h => ?_,fun _ _ _ _ _ h => .goesOn (hto _ _ _ _ _ h)⟩
  rw [(happ h).sofar]
  exact List.take_prefix _ _

/-- A step of one task, given what it does to its own call. -/
theorem Steady.own {j : ℕ} {ks : List UInt8}
    (hq : ∀ id data off since tail, s.inCall id data off since tail → Queued s id data off since)
    (ho : Own s s' j ks) (hj : j < 2 ^ 31) (hnew : ∀ d o n t, s'.inCall j d o n t → Queued s' j d o n)
    (hown : ∀ d o n t, s.inCall j d o n t →
      carried (s'.conn.out.drop n) j <+: d ∧ After s s' j d n t) : Steady s s' where
  queued := by
    intro id data off since tail h
    by_cases hi : id = j
    · subst hi
      exact hnew _ _ _ _ h
    · exact (hq _ _ _ _ _ ((inCall_other ho hi).mp h)).other ho (fun he => hi he.symm) hj
  sofar := by
    intro id data off since tail h
    by_cases hi : id = j
    · subst hi
      exact (hown _ _ _ _ h).1
    · rw [((hq _ _ _ _ _ h).other ho (fun he => hi he.symm) hj).sofar]
      exact List.take_prefix _ _
  after := by
    intro id data off since tail h
    by_cases hi : id = j
    · subst hi
      exact (hown _ _ _ _ h).2
    · exact .goesOn ((inCall_other ho hi).mpr h)

theorem Turn.steady {j : ℕ} (h : Turn s j s') (hj : j < 2 ^ 31) (hrun : j ∈ s.conn.running)
    (hq : ∀ id data off since tail, s.inCall id data off since tail → Queued s id data off since) : Steady s s' := by
  refine .own hq h.own hj ?_ ?_
  · intro d o n t hc
    cases h with
    | malformed _ _ _ _ h => exact absurd hc.running (not_running_finish h)
    | handed _ _ _ _ h =>
      have hp := hc.prog
      rw [h] at hp
      simp [Sys.moveTo] at hp
    | pump hp h => exact (h.after (hq _ _ _ _ _ ⟨hrun,hp⟩) hj hrun).2.2 d o n t hc
    | read _ h => exact queued_go (readOnward_full _) h hc
  · intro d o n t hc
    cases h with
    | malformed _ _ hp _ _ => cases hp.symm.trans hc.prog
    | handed _ _ hp _ _ => cases hp.symm.trans hc.prog
    | pump hp h =>
      have he := hp.symm.trans hc.prog
      rw [Prog.pump.injEq] at he
      obtain ⟨rfl,rfl,rfl,rfl⟩ := he
      obtain ⟨h1,h2,-⟩ := h.after (hq _ _ _ _ _ hc) hj hrun
      exact ⟨h1,h2⟩
    | read hp _ => cases hp.symm.trans hc.prog

theorem Answered.steady {j t : ℕ} {r : Reply} {headOnly : Bool} (h : Answered s j r t headOnly s') (hj : j < 2 ^ 31)
    (hp : s.progs j = .handling headOnly)
    (hq : ∀ id data off since tail, s.inCall id data off since tail → Queued s id data off since) : Steady s s' := by
  refine .own hq h.own hj ?_ (by intro d o n t hc; cases hp.symm.trans hc.prog)
  intro d o n t' hc
  cases h with
  | lost _ h => exact absurd hc.running (not_running_finish h)
  | empty _ _ h => exact absurd hc.running (not_running_finish h)
  | body _ _ h => exact queued_go (bodyOnward_full _ _ _) h hc

theorem step_steady {a : Act} (hr : Runs (stepRel Sys.step) (Sys.new maxBody) as s) (h : s.step a = some s')
    (hq : ∀ id data off since tail, s.inCall id data off since tail → Queued s id data off since) : Steady s s' := by
  have hl := (run_anchored hr).1
  have hwire {j : ℕ} (hj : j ∈ s.conn.running) : j < 2 ^ 31 := Nat.lt_of_le_of_lt (hl.tasksKnown j hj) (run_wired hr)
  cases Sys.step_cases h with
  | reads _ he hc h' =>
    have he := he.imp (fun ⟨f,_,_,h⟩ => (⟨f,h⟩ : ∃ f, _ = Event.frame f)) (fun ⟨r,_,h⟩ => (⟨r,h⟩ : ∃ r, _ = Event.hangUp r))
    obtain ⟨hmono,hnew⟩ := (Enlists.reads he hc).running
    obtain ⟨new,hout,hn⟩ := next_silently he hc
    rw [h']
    refine .keep hq (fun id _ _ _ _ h => ⟨hmono id h.running,h.prog⟩) (fun id _ _ _ _ h => ⟨?_,h.prog⟩) ?_
    · rcases hnew id h.running with hi | hi
      · exact hi
      · exact nomatch ((run_started hr id).resolve_left hi).symm.trans h.prog
    · cases s.gone with
      | true => exact ⟨[],by simp,by simp⟩
      | false => exact ⟨new,by simpa using hout,fun b hb => (hn b hb).1⟩
  | turn hid ht => exact ht.steady (hwire hid) hid hq
  | reply hid hp ha => exact ha.steady (hwire hid) hp hq
  | writerGone hg =>
    rw [hg]
    exact .keep hq (fun _ _ _ _ _ h => ⟨h.running,h.prog⟩) (fun _ _ _ _ _ h => ⟨h.running,h.prog⟩)
      ⟨[],by simp,by simp⟩

theorem run_queued (hr : Runs (stepRel Sys.step) (Sys.new maxBody) as s) :
    ∀ id data off since tail, s.inCall id data off since tail → Queued s id data off since := by
  refine (hr.invariant (I := fun as s => Runs (stepRel Sys.step) (Sys.new maxBody) as s ∧
    ∀ id data off since tail, s.inCall id data off since tail → Queued s id data off since) ⟨.nil,?_⟩ ?_).2
  · intro id _ _ _ _ h
    exact nomatch h.prog
  · intro as s a s' _ ⟨hr,hq⟩ hstep
    exact ⟨hr.snoc hstep,(step_steady hr hstep hq).queued⟩

end Calls

section FlowControlled
variable {maxBody : ℕ} {as : List Act} {s s' : Sys} {a : Act}

/-- A frame with body bytes fits the stream's window and the peer's frame size. -/
def Fits (maxBody : ℕ) (as : List Act) (queue : List Bytes) (b : Bytes) : Prop :=
  kindOf b = Kind.data → payloadOf b ≠ [] →
    ((payloadOf b).length : ℤ) ≤ streamWindow maxBody as queue (streamOf b) ∧ (payloadOf b).length ≤ frameSize as

/-- What the peer's windows allow at a reached state, and at any step from it. -/
structure FlowControlled (maxBody : ℕ) (as : List Act) (s : Sys) : Prop where
  total : sentTotal s.conn.out ≤ 65535 + granted maxBody as 0
  grows : ∀ a s', s.step a = some s' → s.conn.out <+: s'.conn.out
  fits : ∀ a s', s.step a = some s' → ∀ pre b post, s'.conn.out = pre ++ b :: post → s.conn.out.length ≤ pre.length →
    Fits maxBody as pre b
  prefixed : ∀ id data off since tail, s.inCall id data off since tail →
    carried (s.conn.out.drop since) id = data.take off
  steady : ∀ a s', s.step a = some s' → ∀ id data off since tail, s.inCall id data off since tail →
    carried (s'.conn.out.drop since) id <+: data ∧ After s s' id data since tail

/-- The frames a step queues: without body bytes, or behind one DATA frame. -/
inductive Adds (s s' : Sys) : Prop
  | idle {new : List Bytes} : s'.conn.out = s.conn.out ++ new →
    (∀ b ∈ new, kindOf b ≠ Kind.data ∨ payloadOf b = []) → Adds s s'
  | data {id : ℕ} {data : Bytes} {c : Conn} {new : List Bytes} : s.conn.next (.send id data) = some c →
    id ∈ s.conn.running → s'.conn.out = s.conn.out ++ writeFrame Kind.data 0 id data :: new →
    (∀ b ∈ new, kindOf b ≠ Kind.data ∨ payloadOf b = []) → Adds s s'

theorem Sends.adds {id : ℕ} (h : Sends s id s') (hid : id ∈ s.conn.running) : Adds s s' := by
  cases h with
  | idle hi =>
    obtain ⟨new,ho,hn⟩ := hi.out
    exact .idle ho hn
  | data hc hi =>
    obtain ⟨new,ho,hn⟩ := hi.out
    obtain ⟨-,rfl⟩ := next_send hc
    refine .data hc hid (ho.trans ?_) hn
    simp [modifyFlow,emit]

theorem step_adds (h : s.step a = some s') : Adds s s' := by
  cases Sys.step_cases h with
  | reads _ he hc h' =>
    obtain ⟨new,ho,hn⟩ := next_silently (he.imp (fun ⟨f,_,_,h⟩ => ⟨f,h⟩) (fun ⟨r,_,h⟩ => ⟨r,h⟩)) hc
    rw [h']
    cases s.gone with
    | true => exact .idle (List.append_nil _).symm (by simp)
    | false => exact .idle ho (fun b hb => Or.inl (hn b hb).1)
  | turn hid ht => exact ht.sends.adds hid
  | reply hid _ ha => exact (Sends.idle ha.idle).adds hid
  | writerGone hg =>
    rw [hg]
    exact .idle (List.append_nil _).symm (by simp)

theorem new_frame {out new pre post : List Bytes} {b : Bytes} (h : out ++ new = pre ++ b :: post)
    (hle : out.length ≤ pre.length) : ∃ mid, pre = out ++ mid ∧ new = mid ++ b :: post := by
  obtain ⟨mid,rfl⟩ : out <+: pre := List.prefix_of_prefix_length_le ⟨new,h⟩ (List.prefix_append _ _) hle
  rw [List.append_assoc] at h
  exact ⟨mid,rfl,List.append_cancel_left h⟩

theorem Fits.empty {queue : List Bytes} {b : Bytes} (h : kindOf b ≠ Kind.data ∨ payloadOf b = []) :
    Fits maxBody as queue b := by
  intro hk hp
  rcases h with h | h
  · exact absurd hk h
  · exact absurd h hp

/-- What the windows allow when a task sends. -/
theorem Fits.sent {id : ℕ} {data : Bytes} {c : Conn} (hr : Runs (stepRel Sys.step) (Sys.new maxBody) as s)
    (hid : id ∈ s.conn.running) (hn : s.conn.next (.send id data) = some c) :
    Fits maxBody as s.conn.out (writeFrame Kind.data 0 id data) := by
  obtain ⟨hl,ha⟩ := run_anchored hr
  have hw := run_windows hr
  have hwire : id < 2 ^ 31 := Nat.lt_of_le_of_lt (hl.tasksKnown id hid) (run_wired hr)
  obtain ⟨hcan,-⟩ := next_send hn
  simp only [canSend,Bool.and_eq_true,decide_eq_true_eq,Bool.not_eq_true',Option.isNone_iff_eq_none] at hcan
  obtain ⟨⟨⟨⟨⟨⟨-,hreset⟩,hres⟩,-⟩,-⟩,hwin⟩,hmax⟩ := hcan
  obtain ⟨st,hst,-⟩ := ha id hid hreset
  intro _ _
  rw [payloadOf_writeFrame,streamOf_writeFrame,Nat.mod_eq_of_lt hwire,← hw.streams hres id st hst,← hw.size hres]
  exact ⟨hwin,hmax⟩

/-- The pumps of any number of streams keep to the windows the peer grants, whichever
way their frames interleave with its own. -/
theorem run_flowControlled (maxBody : ℕ) (as : List Act) (s : Sys)
    (hr : Runs (stepRel Sys.step) (Sys.new maxBody) as s) : FlowControlled maxBody as s where
  total := by
    have hw := run_windows hr
    have h1 := hw.conn
    have h2 := hw.nonneg
    omega
  grows := by
    intro a s' h
    cases step_adds h with
    | idle ho _ => exact ⟨_,ho.symm⟩
    | data _ _ ho _ => exact ⟨_,ho.symm⟩
  fits := by
    intro a s' h pre b post ho hle
    cases step_adds h with
    | idle hout hn =>
      obtain ⟨mid,-,rfl⟩ := new_frame (hout.symm.trans ho) hle
      exact .empty (hn b (List.mem_append_right _ List.mem_cons_self))
    | data hc hid hout hn =>
      obtain ⟨mid,rfl,hnew⟩ := new_frame (hout.symm.trans ho) hle
      cases mid with
      | nil =>
        obtain ⟨rfl,-⟩ := List.cons.inj hnew
        rw [List.append_nil]
        exact .sent hr hid hc
      | cons x mid =>
        obtain ⟨-,rfl⟩ := List.cons.inj hnew
        exact .empty (hn b (List.mem_append_right _ List.mem_cons_self))
  prefixed := fun _ _ _ _ _ h => (run_queued hr _ _ _ _ _ h).sofar
  steady := by
    intro a s' h id data off since tail hc
    have hs := step_steady hr h (run_queued hr)
    exact ⟨hs.sofar _ _ _ _ _ hc,hs.after _ _ _ _ _ hc⟩

/-- The peer's window has room for two bytes of the body. -/
def shortWindow : List Act :=
  [.frame (.of Kind.settings 0 0 [0,4,0,0,0,2]) connectionId_lt,
    .frame (.of Kind.headers (Flag.endHeaders ||| Flag.endStream) 1 [0x82,0x86,0x84]) firstId_lt,.turn 1,
    .reply 1 (.new .new (.bytes (lit "abc"))) 0,.turn 1]

theorem shortWindow_flowControlled : ∃ s n, Runs (stepRel Sys.step) (Sys.new 1) shortWindow s ∧
    s.inCall 1 (lit "abc") 2 n .last ∧ FlowControlled 1 shortWindow s := by
  have h : (runList Sys.step (Sys.new 1) shortWindow).map (fun s => (decide (1 ∈ s.conn.running),
      match s.progs 1 with
      | .pump data off _ .last => some (data,off)
      | _ => none)) = some (true,some (lit "abc",2)) := by
    decide +kernel
  obtain ⟨s,hs,hv⟩ := Option.map_eq_some_iff.mp h
  simp only [Prod.mk.injEq,decide_eq_true_eq] at hv
  obtain ⟨hrun,hv⟩ := hv
  split at hv
  · rename_i data off n hp
    cases hv
    exact ⟨s,n,.of_runList hs,⟨hrun,hp⟩,run_flowControlled 1 shortWindow s (.of_runList hs)⟩
  · cases hv

end FlowControlled

end OxiServe.Http2
