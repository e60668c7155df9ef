import Mathlib.Tactic.Ring
import OxiServe.Http2.HpackSync
import OxiServe.Http2.Moves

/-! # The frames a connection queues

The bytes handed to the writer, read back as frames, and what an arm of the
reader loop adds to them: control frames, and at most one RST_STREAM, which is
on the stream of the frame it answers.
-/
namespace OxiServe.Http2
open Conn

section Written

/-- A written frame reads back, the length cut to 24 bits and the id to 31. -/
theorem parse_writeFrame (kind flags : UInt8) (stream : ℕ) (payload : Bytes) :
    Head.parse (writeFrame kind flags stream payload) =
      ⟨payload.length % 2 ^ 24,kind,flags,stream % 2 ^ 31⟩ := by
  have h1 : ofBe (toBe 3 payload.length) = payload.length % 2 ^ 24 := ofBe_toBe 3 _
  have h2 : ofBe (toBe 4 stream) % 2 ^ 31 = stream % 2 ^ 31 := by
    rw [ofBe_toBe]
    omega
  obtain ⟨a,b,c,h3⟩ : ∃ a b c, toBe 3 payload.length = [a,b,c] := List.length_eq_three.mp (length_toBe _ _)
  have hw : writeFrame kind flags stream payload =
      a :: b :: c :: kind :: flags :: (toBe 4 stream ++ payload) := by
    simp [writeFrame,Head.write,h3]
  have ht : (toBe 4 stream ++ payload).take 4 = toBe 4 stream := by
    rw [List.take_left' (length_toBe _ _)]
  rw [h3] at h1
  simp only [Head.parse,hw,List.take_succ_cons,List.take_zero,h1,List.drop_succ_cons,List.drop_zero,ht,h2]
  rfl

def kindOf (b : Bytes) : UInt8 := (Head.parse b).kind

def streamOf (b : Bytes) : ℕ := (Head.parse b).stream

def payloadOf (b : Bytes) : Bytes := b.drop headerLen

variable (kind flags : UInt8) (stream : ℕ) (payload : Bytes)

@[simp] theorem kindOf_writeFrame : kindOf (writeFrame kind flags stream payload) = kind := by
  rw [kindOf,parse_writeFrame]

@[simp] theorem streamOf_writeFrame : streamOf (writeFrame kind flags stream payload) = stream % 2 ^ 31 := by
  rw [streamOf,parse_writeFrame]

@[simp] theorem flags_writeFrame : (Head.parse (writeFrame kind flags stream payload)).flags = flags := by
  rw [parse_writeFrame]

@[simp] theorem payloadOf_writeFrame : payloadOf (writeFrame kind flags stream payload) = payload := by
  apply List.drop_left'
  simp [Head.write,headerLen]

end Written

section Queue

/-- A queued frame that neither answers nor resets a stream. -/
def isControl (b : Bytes) : Bool := kindOf b != Kind.data && kindOf b != Kind.headers && kindOf b != Kind.rstStream

/-- An RST_STREAM for the stream is queued. -/
def Conn.hasReset (c : Conn) (id : ℕ) : Prop := ∃ b ∈ c.out, kindOf b = Kind.rstStream ∧ streamOf b = id

/-- Only control frames are queued. -/
def Quietly (c c' : Conn) : Prop := ∃ new, c'.out = c.out ++ new ∧ ∀ b ∈ new, isControl b = true

variable {c c' d : Conn}

theorem Quietly.refl (h : c'.out = c.out) : Quietly c c' := Appends.refl h

theorem Quietly.trans (h1 : Quietly c c') (h2 : Quietly c' d) : Quietly c d := Appends.trans h1 h2

theorem Quietly.emit {b : Bytes} (h : isControl b = true) : Quietly c (c.emit b) := Appends.one h rfl

theorem Quietly.replenished (c : Conn) : Quietly c c.replenish := by
  unfold replenish
  dsimp only
  split
  · exact .emit (c := c) (by simp [isControl,windowUpdate,Kind.windowUpdate,Kind.data,Kind.headers,Kind.rstStream])
  · exact .refl rfl

theorem Quietly.shutdown (c : Conn) (r : Except ConnErr Unit) : Quietly c (c.shutdown r) := by
  refine ⟨_,rfl,?_⟩
  intro x hx
  rw [List.mem_singleton.mp hx]
  cases r <;> simp [isControl,goaway,Kind.goaway,Kind.data,Kind.headers,Kind.rstStream]

theorem control_new (maxBody : ℕ) : ∀ b ∈ (Conn.new maxBody).out, isControl b = true := by
  have h : ∀ b ∈ (Conn.new 0).out, isControl b = true := by decide +kernel
  exact h

/-- The resets that leave no mark on the stream: it depends on itself, it is
refused, or a zero WINDOW_UPDATE names a stream that is gone. -/
def Conn.resetsUnmarked (c : Conn) (f : Frame) : Bool :=
  if f.head.kind = Kind.headers then
    selfDependent f || c.stateOf f.head.stream = .idle && maxConcurrent ≤ (aim c f).active
  else if f.head.kind = Kind.priority then Frame.first31 f.payload = f.head.stream
  else if f.head.kind = Kind.windowUpdate then
    Frame.first31 f.payload = 0 && (c.streams.get? f.head.stream).isNone
  else false

/-- How a frame is answered. -/
inductive Answer (c : Conn) (f : Frame) (c' : Conn) : Prop
  | quiet : Quietly c c' → Answer c f c'
  | reset {d : Conn} {st : Stream} {code : Code} : Quietly c d → d.streams.get? f.head.stream = some st →
    c.serverResets f = true → c' = d.resetStream f.head.stream code → Answer c f c'
  | unmarked {d : Conn} {code : Code} : Quietly c d → c.resetsUnmarked f = true →
    c'.out = d.out ++ [rst f.head.stream code] → Answer c f c'

end Queue

section Arms
variable {c c' : Conn} {f : Frame} {n : Next}

theorem fail_answer {d : Conn} {code : Code} {why : String} (hq : Quietly c d) (h : d.fail code why = (c',n)) :
    Answer c f c' := by
  cases h
  exact .quiet hq

/-- The end of a header block, seen from the connection `d` that decodes it. -/
theorem closeBlock_answer {d : Conn} {st : Stream} (h : d.closeBlock f = (c',n)) (hq : Quietly c d)
    (hst : d.streams.get? f.head.stream = some st)
    (hs : d.badBlock st.pendingIsTrailers st.pending = true → c.serverResets f = true) : Answer c f c' := by
  have hfin : Answer c f (d.finishBlock f.head.stream).1 := by
    have hf : Quietly c (d.feed f.head.stream st.pending) := hq.trans (.refl rfl)
    have hget : (d.feed f.head.stream st.pending).streams.get? f.head.stream = some { st with pending := [] } := by
      simp [feed,modifyStream,KeyMap.get?_modify,hst]
    unfold badBlock at hs
    revert hs
    simp only [finishBlock,hst]
    cases (d.dec.decode st.pending maxHeaderList).2.2 with
    | error e =>
      intro hs
      cases e with
      | compression => exact .quiet hf
      | tooLarge => exact .reset hf hget (hs rfl) rfl
    | ok u =>
      intro hs
      dsimp only at hs ⊢
      by_cases ht : st.pendingIsTrailers = true
      · simp only [ht,if_true]
        split
        · rename_i hp
          exact .reset hf hget (hs (by simpa [ht,isPseudo] using hp)) rfl
        · exact .quiet hf
      · simp only [ht]
        exact .quiet (hf.trans (.refl rfl))
  unfold closeBlock at h
  split at h
  · rename_i hd
    cases h
    rwa [hd] at hfin
  · rename_i hd
    cases h
    rwa [hd] at hfin

theorem openBlock_answer {d : Conn} {st : Stream} (h : d.openBlock f = (c',n)) (hq : Quietly c d)
    (hst : d.streams.get? f.head.stream = some st)
    (hs : (f.head.has Flag.endHeaders && d.badBlock st.pendingIsTrailers st.pending) = true →
      c.serverResets f = true) : Answer c f c' := by
  unfold openBlock at h
  split at h
  · rename_i he
    rw [he,Bool.true_and] at hs
    exact closeBlock_answer h hq hst hs
  · cases h
    exact .quiet (hq.trans (.refl rfl))

theorem onData_answer (hk : f.head.kind = Kind.data) (h : c.onData f = (c',n)) : Answer c f c' := by
  unfold onData at h
  split at h
  · exact fail_answer (.refl rfl) h
  have hq : Quietly c ({ c with recvWindow := c.recvWindow - f.head.len }).replenish :=
    .trans (.refl rfl) (.replenished _)
  obtain ⟨out,w,he⟩ := replenish_eq { c with recvWindow := c.recvWindow - f.head.len }
  rw [he] at hq
  cases hu : unpad f.payload (f.head.has Flag.padded) with
  | none =>
    simp only [hu] at h
    cases h
    exact .quiet (.refl rfl)
  | some data =>
    simp only [hu,he] at h
    have hst : ({ c with out := out, recvWindow := w } : Conn).stateOf f.head.stream = c.stateOf f.head.stream :=
      rfl
    rw [hst] at h
    cases hs : c.stateOf f.head.stream with
    | idle =>
      simp only [hs] at h
      exact fail_answer hq h
    | closed =>
      simp only [hs] at h
      exact fail_answer hq h
    | reset =>
      obtain ⟨st,hget,-⟩ := stateOf_entry hs (by simp) (by simp)
      simp only [hs] at h
      cases h
      exact .reset hq hget (by simp [serverResets,hk,hs]) rfl
    | halfClosed =>
      obtain ⟨st,hget,-⟩ := stateOf_entry hs (by simp) (by simp)
      simp only [hs] at h
      cases h
      exact .reset hq hget (by simp [serverResets,hk,hs]) rfl
    | opened =>
      obtain ⟨st,hget,-⟩ := stateOf_entry hs (by simp) (by simp)
      simp only [hs,hget] at h
      split at h
      · rename_i hlong
        cases h
        exact .reset hq hget (by simp [serverResets,hk,hs,overlong,hget,hu,hlong]) rfl
      · cases h
        exact .quiet (hq.trans (.refl rfl))

theorem onTrailers_answer (hk : f.head.kind = Kind.headers)
    (hw : c.stateOf f.head.stream = .opened ∨ c.stateOf f.head.stream = .halfClosed)
    (h : c.onTrailers f (fragment f) = (c',n)) : Answer c f c' := by
  have hkd : f.head.kind ≠ Kind.data := by rw [hk]; decide
  obtain ⟨st,hget⟩ : ∃ st, c.streams.get? f.head.stream = some st := by
    rcases hw with hw | hw
    all_goals
      obtain ⟨st,hget,-⟩ := stateOf_entry hw (by simp) (by simp)
      exact ⟨st,hget⟩
  have hsr : c.serverResets f = (!f.head.has Flag.endStream ||
      (f.head.has Flag.endHeaders && c.badBlock true (fragment f))) := by
    rcases hw with hw | hw
    all_goals simp only [serverResets,if_neg hkd,if_pos hk,hw]
  unfold onTrailers at h
  split at h
  · rename_i hend
    cases h
    exact .reset (.refl rfl) hget (by rw [hsr,hend,Bool.true_or]) rfl
  · simp only [hget] at h
    have hget' : (c.modifyStream f.head.stream (fun s =>
        { s with pending := fragment f, pendingIsTrailers := true, state := .halfClosedRemote })).streams.get?
          f.head.stream = some { st with pending := fragment f, pendingIsTrailers := true, state := .halfClosedRemote } := by
      simp [modifyStream,KeyMap.get?_modify,hget]
    refine openBlock_answer h (.refl rfl) hget' ?_
    · intro hbad
      rw [hsr]
      exact Bool.or_eq_true_iff.mpr (Or.inr hbad)

theorem onNewStream_answer (hk : f.head.kind = Kind.headers) (hself : selfDependent f = false)
    (hw : c.stateOf f.head.stream = .idle) (h : c.onNewStream f (fragment f) = (c',n)) : Answer c f c' := by
  have hlt : ¬ f.head.stream ≤ c.highestClientStream := fun hle => by
    have := stateOf_idle hw
    omega
  have hkd : f.head.kind ≠ Kind.data := by rw [hk]; decide
  rw [onNewStream,if_neg hlt] at h
  simp only at h
  split at h
  · rename_i hfull
    cases h
    have hfull' : maxConcurrent ≤ (aim c f).active := hfull
    refine .unmarked (d := aim c f) (.refl rfl) ?_ rfl
    simp [resetsUnmarked,hk,hself,hw,hfull']
  · have hget : ((aim c f).insertStream f (fragment f)).streams.get? f.head.stream =
        some { Stream.new with
          state := if f.head.has Flag.endStream then .halfClosedRemote else .opened
          pending := fragment f } := by
      simp [insertStream,KeyMap.get?_insert]
    refine openBlock_answer h (.refl rfl) hget ?_
    · intro hbad
      simp only [serverResets,if_neg hkd,if_pos hk,hw]
      exact hbad

/-- A HEADERS frame that depends on itself is answered or refused, not read. -/
theorem onHeaders_selfDependent (hs : selfDependent f = true) (h : c.onHeaders f = (c',n)) :
    (c' = c.emit (rst f.head.stream .protocol) ∧ n = .again) ∨ (c' = c ∧ ∃ e, n = .ret (.error e)) := by
  have hfail {code : Code} {why : String} (h : c.fail code why = (c',n)) : c' = c ∧ ∃ e, n = .ret (.error e) := by
    cases h
    exact ⟨rfl,_,rfl⟩
  unfold onHeaders at h
  split at h
  · exact Or.inr (hfail h)
  split at h
  · exact Or.inr (hfail h)
  cases hu : unpad f.payload (f.head.has Flag.padded) with
  | none =>
    simp only [hu] at h
    exact Or.inr (hfail h)
  | some block =>
    simp only [selfDependent,hu,Option.getD_some,Bool.and_eq_true,decide_eq_true_eq] at hs
    simp only [hu,hs.1,hs.2,if_true] at h
    split at h
    · exact Or.inr (hfail h)
    · cases h
      exact Or.inl ⟨rfl,rfl⟩

theorem onHeaders_answer (hk : f.head.kind = Kind.headers) (h : c.onHeaders f = (c',n)) : Answer c f c' := by
  by_cases hself : selfDependent f = true
  · rcases onHeaders_selfDependent hself h with ⟨rfl,-⟩ | ⟨rfl,-⟩
    · exact .unmarked (.refl rfl) (by simp [resetsUnmarked,hk,hself]) rfl
    · exact .quiet (.refl rfl)
  rcases onHeaders_cases h with hb | ⟨hp,hdep,-⟩ | ⟨rfl,-⟩
  · unfold onBlock at hb
    split at hb
    · rename_i hw
      exact onTrailers_answer hk (Or.inl hw) hb
    · rename_i hw
      exact onTrailers_answer hk (Or.inr hw) hb
    · exact fail_answer (.refl rfl) hb
    · exact fail_answer (.refl rfl) hb
    · rename_i hw
      exact onNewStream_answer hk (Bool.eq_false_iff.mpr hself) hw hb
  · exact absurd (by simp [selfDependent,hp,hdep]) hself
  · exact .quiet (.refl rfl)

theorem onContinuation_answer (hk : f.head.kind = Kind.continuation) (h : c.onContinuation f = (c',n)) :
    Answer c f c' := by
  have hkd : f.head.kind ≠ Kind.data := by rw [hk]; decide
  have hkh : f.head.kind ≠ Kind.headers := by rw [hk]; decide
  unfold onContinuation at h
  split at h
  · exact fail_answer (.refl rfl) h
  cases hget : c.streams.get? f.head.stream with
  | none =>
    simp only [hget] at h
    cases h
    exact .quiet (.refl rfl)
  | some st =>
    simp only [hget] at h
    split at h
    · exact fail_answer (.refl rfl) h
    split at h
    · rename_i hend
      have hget' : ({ c.modifyStream f.head.stream (fun s =>
          { s with pending := s.pending ++ f.payload }) with expectContinuation := none } : Conn).streams.get?
            f.head.stream = some { st with pending := st.pending ++ f.payload } := by
        simp [modifyStream,KeyMap.get?_modify,hget]
      refine closeBlock_answer h (.refl rfl) hget' ?_
      · intro hbad
        simp only [serverResets,if_neg hkd,if_neg hkh,if_pos hk,hend,hget,Bool.true_and,Option.any_some]
        exact hbad
    · cases h
      exact .quiet (.refl rfl)

theorem onPriority_answer (hk : f.head.kind = Kind.priority) (h : c.onPriority f = (c',n)) : Answer c f c' := by
  unfold onPriority at h
  split at h
  · exact fail_answer (.refl rfl) h
  split at h
  · exact fail_answer (.refl rfl) h
  split at h
  · rename_i hself
    cases h
    refine .unmarked (.refl rfl) ?_ rfl
    simp [resetsUnmarked,hk,hself,Kind.priority,Kind.headers]
  · cases h
    exact .quiet (.refl rfl)

theorem onSettings_answer (h : c.onSettings f = (c',n)) : Answer c f c' := by
  unfold onSettings at h
  split at h
  · exact fail_answer (.refl rfl) h
  split at h
  · split at h
    · exact fail_answer (.refl rfl) h
    · cases h
      exact .quiet (.refl rfl)
  split at h
  · exact fail_answer (.refl rfl) h
  split at h
  · rename_i d e hd
    obtain ⟨dec,mf,w,rfl⟩ := applySettings_eq hd
    cases h
    exact .quiet (.refl rfl)
  · rename_i d hd
    obtain ⟨dec,mf,w,rfl⟩ := applySettings_eq hd
    cases h
    exact .quiet (.trans (.refl rfl) (.emit rfl))

theorem onPing_answer (h : c.onPing f = (c',n)) : Answer c f c' := by
  unfold onPing at h
  split at h
  · exact fail_answer (.refl rfl) h
  split at h
  · exact fail_answer (.refl rfl) h
  split at h
  · cases h
    exact .quiet (.emit (by simp [isControl,Kind.ping,Kind.data,Kind.headers,Kind.rstStream]))
  · cases h
    exact .quiet (.refl rfl)

theorem onRstStream_answer (h : c.onRstStream f = (c',n)) : Answer c f c' := by
  unfold onRstStream at h
  repeat' split at h
  · exact fail_answer (.refl rfl) h
  · exact fail_answer (.refl rfl) h
  · exact fail_answer (.refl rfl) h
  all_goals
    cases h
    exact .quiet (.refl rfl)

theorem onWindowUpdate_answer (hk : f.head.kind = Kind.windowUpdate) (h : c.onWindowUpdate f = (c',n)) :
    Answer c f c' := by
  have hkd : f.head.kind ≠ Kind.data := by rw [hk]; decide
  have hkh : f.head.kind ≠ Kind.headers := by rw [hk]; decide
  have hkc : f.head.kind ≠ Kind.continuation := by rw [hk]; decide
  have hkp : f.head.kind ≠ Kind.priority := by rw [hk]; decide
  have hsr : c.serverResets f = (f.head.stream ≠ 0 && (Frame.first31 f.payload = 0 ||
      maxWindow < (c.flows f.head.stream).window + Frame.first31 f.payload) : Bool) := by
    simp only [serverResets,if_neg hkd,if_neg hkh,if_neg hkc,if_pos hk]
  unfold onWindowUpdate at h
  split at h
  · exact fail_answer (.refl rfl) h
  split at h
  · exact fail_answer (.refl rfl) h
  split at h
  · rename_i hzero
    split at h
    · exact fail_answer (.refl rfl) h
    · rename_i h0
      cases h
      cases hget : c.streams.get? f.head.stream with
      | none =>
        have he : (c.emit (rst f.head.stream .protocol)).streams.get? f.head.stream = none := hget
        have ho : (c.resetStream f.head.stream .protocol).out = c.out ++ [rst f.head.stream .protocol] := by
          simp only [resetStream,he]
          rfl
        refine .unmarked (.refl rfl) ?_ ho
        simp [resetsUnmarked,if_neg hkh,if_neg hkp,if_pos hk,hzero,hget]
      | some st => exact .reset (.refl rfl) hget (by rw [hsr]; simp [h0,hzero]) rfl
  rename_i hzero
  split at h
  · split at h
    · exact fail_answer (.refl rfl) h
    · cases h
      exact .quiet (.refl rfl)
  rename_i h0
  split at h
  · rename_i st hget
    split at h
    · rename_i hover
      cases h
      exact .reset (.refl rfl) hget (by rw [hsr]; simp [h0,hover]) rfl
    · cases h
      exact .quiet (.refl rfl)
  · cases h
    exact .quiet (.refl rfl)

/-- Whatever arm a frame takes. -/
theorem arm_answer (h : c.arm f = (c',n)) : Answer c f c' := by
  unfold arm at h
  split at h
  · rename_i hk
    exact onData_answer hk h
  split at h
  · rename_i hk
    exact onHeaders_answer hk h
  split at h
  · rename_i hk
    exact onContinuation_answer hk h
  split at h
  · rename_i hk
    exact onPriority_answer hk h
  split at h
  · exact onRstStream_answer h
  split at h
  · exact onSettings_answer h
  split at h
  · exact onPing_answer h
  split at h
  · rename_i hk
    exact onWindowUpdate_answer hk h
  split at h
  · cases h
    exact .quiet (.refl rfl)
  split at h
  · exact fail_answer (.refl rfl) h
  · cases h
    exact .quiet (.refl rfl)

example : ((Conn.new 0).arm (.of Kind.goaway 0 0 [])).1.out = (Conn.new 0).out := by decide +kernel

end Arms

section Silent
variable {c c' d : Conn} {f : Frame}

/-- No frame of a response is queued. -/
def Silently (c c' : Conn) : Prop :=
  ∃ new, c'.out = c.out ++ new ∧ ∀ b ∈ new, kindOf b ≠ Kind.data ∧ kindOf b ≠ Kind.headers

theorem Silently.trans (h1 : Silently c c') (h2 : Silently c' d) : Silently c d := Appends.trans h1 h2

theorem Quietly.silently (h : Quietly c c') : Silently c c' := by
  apply Appends.mono h
  intro b hb
  simp only [isControl,Bool.and_eq_true,bne_iff_ne] at hb
  exact hb.1

theorem Silently.rst {i : ℕ} {code : Code} (h : c'.out = c.out ++ [rst i code]) : Silently c c' := by
  refine Appends.one ?_ h
  rw [Http2.rst,kindOf_writeFrame]
  decide

theorem out_resetStream (c : Conn) (i : ℕ) (code : Code) : (c.resetStream i code).out = c.out ++ [rst i code] := by
  unfold resetStream
  dsimp only
  split <;> rfl

theorem Answer.silently (h : Answer c f d) : Silently c d := by
  cases h with
  | quiet hq => exact hq.silently
  | reset hq _ _ he =>
    rw [he]
    exact hq.silently.trans (.rst (out_resetStream _ _ _))
  | unmarked hq _ ho => exact hq.silently.trans (.rst ho)

theorem Silently.dispatch (c : Conn) : Silently c c.dispatch := by
  have hrefl : Silently c c := (Quietly.refl rfl).silently
  refine dispatch_induction (P := fun d => Silently c d) hrefl ?_
  intro d i st hd hst _
  refine hd.trans ?_
  unfold dispatchOne
  simp only [hst]
  split
  · split
    · exact .rst (out_resetStream _ _ _)
    · exact (Quietly.refl rfl).silently
  · exact (Quietly.refl rfl).silently

/-- The reader loop queues no frame of a response. -/
theorem next_silently {e : Event} (he : (∃ f, e = .frame f) ∨ ∃ r, e = .hangUp r) (hn : c.next e = some c') :
    Silently c c' := by
  rcases he with ⟨f,rfl⟩ | ⟨r,rfl⟩
  · obtain ⟨-,⟨e,rfl⟩ | ⟨-,d,n,ha,hcase⟩⟩ := next_frame hn
    · exact (Quietly.shutdown c _).silently
    have hd := (arm_answer ha).silently
    rcases hcase with ⟨-,rfl⟩ | ⟨-,rfl⟩ | ⟨r,-,rfl⟩
    · exact hd.trans (.dispatch d)
    · exact hd
    · exact hd.trans (Quietly.shutdown d r).silently
  · simp only [next] at hn
    split at hn
    · cases hn
    · cases hn
      exact (Quietly.shutdown c r).silently

end Silent

end OxiServe.Http2
