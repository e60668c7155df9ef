import OxiServe.Http2.Outgoing
import OxiServe.Http2.Request
import OxiServe.Http2.Body

/-! # Stream tasks beside the reader loop

A connection together with how far the task of each stream has come: it parses
its request, waits for the handler, queues HEADERS and then its body. A task may
be interrupted before every frame it queues, which is at least wherever the
source has it wait.
-/
namespace OxiServe.Http2
open Conn Server Response

section Body

/-- What is left of a body behind the bytes that are being queued. -/
inductive Tail
  | last
  | file (f : File) (t off left : ℕ)
  | stream (io : Io)

/-- Where a task goes next: it ends the stream, returns, calls `pump` or waits for
its upstream. -/
inductive Onward
  | endStream
  | stop
  | pump (data : Bytes) (tail : Tail)
  | read (io : Io)

/-- One turn of the file loop. A read that fails or yields nothing leaves it. -/
def fileTurn (f : File) (t off left : ℕ) : Onward :=
  if left = 0 then .endStream
  else
    match f.readAt t off (min left chunkLen) with
    | none => .endStream
    | some b => if b = [] then .endStream else .pump b (.file f (t + 1) (off + b.length) (left - b.length))

/-- Behind a call of `pump`. Only the loops look whether the stream is over. -/
def Tail.onward (stopped : Bool) : Tail → Onward
  | .last => .endStream
  | .file f t off left => if stopped then .stop else fileTurn f t off left
  | .stream io => if stopped then .stop else .read io

def pumpOnward (stopped : Bool) (data : Bytes) (tail : Tail) : Onward :=
  if data = [] then tail.onward stopped else .pump data tail

/-- What a read of the upstream leads to; an error counts as its end. -/
def readOnward (io : Io) : Onward :=
  match Reader.read chunkLen io with
  | (.failed,_) => .endStream
  | (.data b,io) => if b = [] then .endStream else .pump b (.stream io)

def bodyOnward (stopped : Bool) (t : ℕ) : Body → Onward
  | .empty => .endStream
  | .bytes b => pumpOnward stopped b .last
  | .mmap w => pumpOnward stopped w.bytes .last
  | .inline f off len | .file f off len => fileTurn f t off len
  | .upgraded _ _ => .endStream
  | .stream pre io _ => pumpOnward stopped pre (.stream io)

/-- The header block of a response. -/
def headBlock (resp : Resp) : Bytes :=
  ((Hpack.Encoder.new 4096).beginBlock).2 ++ Hpack.Encoder.encode (lit ":status") (decimal resp.status) ++
    (resp.hdrs.filter (fun h => !connectionSpecific.contains (toAsciiLowercase h.1))).flatMap
      (fun h => Hpack.Encoder.encode (toAsciiLowercase h.1) h.2) ++
    (match resp.framing with
      | .length n => Hpack.Encoder.encode (lit "content-length") (decimal n)
      | _ => [])

/-- A HEAD request gets no body. -/
def responseBody (r : Reply) (headOnly : Bool) : Body := if headOnly then .empty else (r.frame true).body

/-- The HEADERS frame of a response; an empty body ends the stream with it. -/
def responseHead (id : ℕ) (r : Reply) (body : Body) : Bytes :=
  writeFrame Kind.headers (Flag.endHeaders ||| (if body.isEmpty then Flag.endStream else 0)) id
    (headBlock (r.frame true).resp)

end Body

section System

/-- How far a task has come. `since` is the number of frames that were queued when
the call of `pump` began. -/
inductive Prog
  | start
  | handling (headOnly : Bool)
  | pump (data : Bytes) (off since : ℕ) (tail : Tail)
  | read (io : Io)

/-- A connection with its tasks. `gone` says that the writer has stopped taking
frames, and `replies` records the body each task was given. -/
structure Sys where
  conn : Conn
  progs : ℕ → Prog
  gone : Bool
  replies : ℕ → Option Body

/-- What can happen next. The head of a frame has room for 31 bits of stream id. -/
inductive Act
  | frame (f : Frame) (wire : f.head.stream < 2 ^ 31)
  | hangUp (r : Except ConnErr Unit)
  | turn (id : ℕ)
  | reply (id : ℕ) (r : Reply) (t : ℕ)
  | writerGone

/-- How much both windows of a stream allow. -/
def Conn.allowed (self : Conn) (id : ℕ) : ℕ := (min self.connWindow (self.flows id).window).toNat

namespace Sys

def new (clientMaxBodySize : ℕ) : Sys where
  conn := .new clientMaxBodySize
  progs := fun _ => .start
  gone := false
  replies := fun _ => none

/-- The stream was reset or the connection is closed. -/
def stopped (self : Sys) (id : ℕ) : Bool := (self.conn.flows id).reset || self.conn.result.isSome

def put (self : Sys) (frame : Bytes) : Sys :=
  if self.gone then self else { self with conn := self.conn.emit frame }

def moveTo (self : Sys) (id : ℕ) (p : Prog) : Sys :=
  { self with progs := fun j => if j = id then p else self.progs j }

def finish (self : Sys) (id : ℕ) : Option Sys :=
  (self.conn.next (.finish id)).map (fun c => { self with conn := c })

def go (self : Sys) (id : ℕ) : Onward → Option Sys
  | .endStream => (self.put (writeFrame Kind.data Flag.endStream id [])).finish id
  | .stop => self.finish id
  | .pump data tail => some (self.moveTo id (.pump data 0 self.conn.out.length tail))
  | .read io => some (self.moveTo id (.read io))

/-- One frame of a call of `pump`. A writer that is gone fails the send, which ends
the call like a stream that is over. -/
def pumpTurn (self : Sys) (id : ℕ) (data : Bytes) (off since : ℕ) (tail : Tail) : Option Sys :=
  if self.stopped id then self.go id (tail.onward true)
  else if self.conn.allowed id = 0 then none
  else if self.gone then self.go id (tail.onward false)
  else
    let n := min (min (self.conn.allowed id) self.conn.maxFrame) (data.length - off)
    (self.conn.next (.send id ((data.drop off).take n))).bind (fun c =>
      let self := { self with conn := c }
      if off + n < data.length then some (self.moveTo id (.pump data (off + n) since tail))
      else self.go id (tail.onward false))

def turn (self : Sys) (id : ℕ) : Option Sys :=
  match self.conn.tasks.find? (fun t => t.id = id) with
  | none => none
  | some task =>
    match self.progs id with
    | .start =>
      match task.request with
      | .error code => (self.put (rst id code)).finish id
      | .ok h => some (self.moveTo id (.handling (h.req.method = .head)))
    | .handling _ => none
    | .pump data off since tail => self.pumpTurn id data off since tail
    | .read io => self.go id (readOnward io)

def record (self : Sys) (id : ℕ) (body : Body) : Sys :=
  { self with replies := fun j => if j = id then some body else self.replies j }

/-- The handler has answered. `t` is the clock of the first read of a file. -/
def reply (self : Sys) (id : ℕ) (r : Reply) (t : ℕ) : Option Sys :=
  match self.progs id with
  | .handling headOnly =>
    let body := responseBody r headOnly
    let self := self.record id body
    if id ∉ self.conn.running then none
    else if self.gone then self.finish id
    else
      let self := self.put (responseHead id r body)
      if body.isEmpty then self.finish id else self.go id (bodyOnward (self.stopped id) t body)
  | _ => none

/-- The reader loop takes an event; nothing reaches a writer that is gone. -/
def reads (self : Sys) (e : Event) : Option Sys :=
  (self.conn.next e).map (fun c =>
    { self with conn := { c with out := if self.gone then self.conn.out else c.out } })

def step (self : Sys) : Act → Option Sys
  | .frame f _ => self.reads (.frame f)
  | .hangUp r => self.reads (.hangUp r)
  | .turn id => self.turn id
  | .reply id r t => self.reply id r t
  | .writerGone => some { self with gone := true }

end Sys

end System

section Steps
variable {s s' s'' : Sys} {id : ℕ}

/-- The end of a task. -/
def Conn.endTask (c : Conn) (id : ℕ) : Conn :=
  { c with tasks := c.tasks.filter (fun t => t.id ≠ id) }.modifyFlow id (fun w => { w with done := true })

theorem Sys.finish_eq (h : s.finish id = some s') :
    id ∈ s.conn.running ∧ s' = { s with conn := s.conn.endTask id } := by
  obtain ⟨c,hc,rfl⟩ := Option.map_eq_some_iff.mp h
  simp only [next] at hc
  split at hc
  · rename_i hm
    cases hc
    exact ⟨hm,rfl⟩
  · cases hc

theorem not_running_finish (h : s.finish id = some s') : id ∉ s'.conn.running := by
  obtain ⟨-,rfl⟩ := Sys.finish_eq h
  exact fun hm => (mem_running_finish.mp hm).2 rfl

/-- What the task of one stream cannot touch, and the kinds of frames it queues. -/
structure Own (s s' : Sys) (id : ℕ) (kinds : List UInt8) : Prop where
  progs : ∀ j, j ≠ id → s'.progs j = s.progs j
  replies : ∀ j, j ≠ id → s'.replies j = s.replies j
  gone : s'.gone = s.gone
  streams : s'.conn.streams = s.conn.streams
  highest : s'.conn.highestClientStream = s.conn.highestClientStream
  expect : s'.conn.expectContinuation = s.conn.expectContinuation
  result : s'.conn.result = s.conn.result
  resets : ∀ j, (s'.conn.flows j).reset = (s.conn.flows j).reset
  running : ∀ j, j ≠ id → (j ∈ s'.conn.running ↔ j ∈ s.conn.running)
  tasks : ∀ t ∈ s'.conn.tasks, t ∈ s.conn.tasks
  out : ∃ new, s'.conn.out = s.conn.out ++ new ∧ ∀ b ∈ new, streamOf b = id % 2 ^ 31 ∧ kindOf b ∈ kinds

theorem Own.mono {ks ls : List UInt8} (h : Own s s' id ks) (hk : ∀ k ∈ ks, k ∈ ls) : Own s s' id ls := by
  obtain ⟨new,ho,hn⟩ := h.out
  exact ⟨h.progs,h.replies,h.gone,h.streams,h.highest,h.expect,h.result,h.resets,h.running,h.tasks,new,ho,
    fun b hb => ⟨(hn b hb).1,hk _ (hn b hb).2⟩⟩

theorem Own.trans {ks : List UInt8} (h : Own s s' id ks) (h' : Own s' s'' id ks) : Own s s'' id ks where
  progs := fun j hj => (h'.progs j hj).trans (h.progs j hj)
  replies := fun j hj => (h'.replies j hj).trans (h.replies j hj)
  gone := h'.gone.trans h.gone
  streams := h'.streams.trans h.streams
  highest := h'.highest.trans h.highest
  expect := h'.expect.trans h.expect
  result := h'.result.trans h.result
  resets := fun j => (h'.resets j).trans (h.resets j)
  running := fun j hj => (h'.running j hj).trans (h.running j hj)
  tasks := fun t ht => h.tasks t (h'.tasks t ht)
  out := Appends.trans h.out h'.out

theorem Own.moveTo (s : Sys) (id : ℕ) (p : Prog) (ks : List UInt8) : Own s (s.moveTo id p) id ks where
  progs := fun j hj => by simp [Sys.moveTo,hj]
  replies := fun _ _ => rfl
  gone := rfl
  streams := rfl
  highest := rfl
  expect := rfl
  result := rfl
  resets := fun _ => rfl
  running := fun _ _ => Iff.rfl
  tasks := fun _ h => h
  out := ⟨[],by simp [Sys.moveTo],by simp⟩

theorem Own.put (s : Sys) (kind flags : UInt8) (id : ℕ) (payload : Bytes) :
    Own s (s.put (writeFrame kind flags id payload)) id [kind] := by
  unfold Sys.put
  split
  · exact ⟨fun _ _ => rfl,fun _ _ => rfl,rfl,rfl,rfl,rfl,rfl,fun _ => rfl,fun _ _ => Iff.rfl,fun _ h => h,[],
      by simp,by simp⟩
  · refine ⟨fun _ _ => rfl,fun _ _ => rfl,rfl,rfl,rfl,rfl,rfl,fun _ => rfl,fun _ _ => Iff.rfl,fun _ h => h,_,rfl,?_⟩
    intro b hb
    rw [List.mem_singleton.mp hb,streamOf_writeFrame,kindOf_writeFrame]
    exact ⟨rfl,List.mem_singleton.mpr rfl⟩

theorem Own.finish {ks : List UInt8} (h : s.finish id = some s') : Own s s' id ks := by
  obtain ⟨-,rfl⟩ := Sys.finish_eq h
  refine ⟨fun _ _ => rfl,fun _ _ => rfl,rfl,rfl,rfl,rfl,rfl,fun j => ?_,fun j hj => ?_,
    fun t ht => (List.mem_filter.mp ht).1,[],?_,by simp⟩
  · simp only [Conn.endTask,modifyFlow]
    split <;> rfl
  · simp only [Conn.endTask]
    exact mem_running_finish.trans (and_iff_left hj)
  · simp [Conn.endTask,modifyFlow]

theorem Own.go {o : Onward} (h : s.go id o = some s') : Own s s' id [Kind.data] := by
  cases o with
  | endStream => exact (Own.put s _ _ _ _).trans (Own.finish h)
  | stop => exact .finish h
  | pump data tail =>
    cases h
    exact .moveTo s id _ _
  | read io =>
    cases h
    exact .moveTo s id _ _

/-- A DATA frame sent within the windows. -/
theorem next_send {c c' : Conn} {data : Bytes} (h : c.next (.send id data) = some c') :
    c.canSend id data = true ∧ c' = ({ c.emit (writeFrame Kind.data 0 id data) with
      connWindow := c.connWindow - data.length }).modifyFlow id
        (fun w => { w with window := w.window - data.length }) := by
  simp only [next] at h
  split at h
  · rename_i hs
    cases h
    exact ⟨hs,rfl⟩
  · cases h

theorem Own.send {c : Conn} {data : Bytes} (h : s.conn.next (.send id data) = some c) :
    Own s { s with conn := c } id [Kind.data] := by
  obtain ⟨-,rfl⟩ := next_send h
  refine ⟨fun _ _ => rfl,fun _ _ => rfl,rfl,rfl,rfl,rfl,rfl,fun j => ?_,fun _ _ => Iff.rfl,fun _ h => h,_,rfl,?_⟩
  · simp only [modifyFlow,emit]
    split <;> rfl
  · intro b hb
    rw [List.mem_singleton.mp hb,streamOf_writeFrame,kindOf_writeFrame]
    exact ⟨rfl,List.mem_singleton.mpr rfl⟩

/-- What one frame of a call of `pump` comes to. -/
inductive PumpTurn (s : Sys) (id : ℕ) (data : Bytes) (off since : ℕ) (tail : Tail) (s' : Sys) : Prop
  | cut : s.stopped id = true → s.go id (tail.onward true) = some s' → PumpTurn s id data off since tail s'
  | failed : s.stopped id = false → s.gone = true → s.go id (tail.onward false) = some s' →
    PumpTurn s id data off since tail s'
  | sent {n : ℕ} {c : Conn} : s.stopped id = false → s.gone = false →
    s.conn.next (.send id ((data.drop off).take n)) = some c → off + n < data.length →
    s' = ({ s with conn := c } : Sys).moveTo id (.pump data (off + n) since tail) → PumpTurn s id data off since tail s'
  | whole {c : Conn} : s.stopped id = false → s.gone = false → s.conn.next (.send id (data.drop off)) = some c →
    ({ s with conn := c } : Sys).go id (tail.onward false) = some s' → PumpTurn s id data off since tail s'

theorem Sys.pumpTurn_cases {data : Bytes} {off since : ℕ} {tail : Tail}
    (h : s.pumpTurn id data off since tail = some s') : PumpTurn s id data off since tail s' := by
  unfold pumpTurn at h
  by_cases hs : s.stopped id = true
  · rw [if_pos hs] at h
    exact .cut hs h
  rw [if_neg hs] at h
  split at h
  · cases h
  have hs : s.stopped id = false := by simpa using hs
  by_cases hg : s.gone = true
  · rw [if_pos hg] at h
    exact .failed hs hg h
  rw [if_neg hg] at h
  have hg : s.gone = false := by simpa using hg
  obtain ⟨c,hc,h⟩ := Option.bind_eq_some_iff.mp h
  split at h
  · rename_i hlt
    cases h
    exact .sent hs hg hc hlt rfl
  · rename_i hge
    rw [List.take_of_length_le (by rw [List.length_drop]; omega)] at hc
    exact .whole hs hg hc h

theorem PumpTurn.own {data : Bytes} {off since : ℕ} {tail : Tail} (h : PumpTurn s id data off since tail s') :
    Own s s' id [Kind.data] := by
  cases h with
  | cut _ h => exact .go h
  | failed _ _ h => exact .go h
  | sent _ _ hc _ h =>
    rw [h]
    exact (Own.send hc).trans (.moveTo _ _ _ _)
  | whole _ _ hc h => exact (Own.send hc).trans (.go h)

/-- What a turn of a task comes to. -/
inductive Turn (s : Sys) (id : ℕ) (s' : Sys) : Prop
  | malformed {task : StreamTask} {code : Code} : task ∈ s.conn.tasks → task.id = id → s.progs id = .start →
    task.request = .error code → (s.put (rst id code)).finish id = some s' → Turn s id s'
  | handed {task : StreamTask} {r : Handed} : task ∈ s.conn.tasks → task.id = id → s.progs id = .start →
    task.request = .ok r → s' = s.moveTo id (.handling (r.req.method = .head)) → Turn s id s'
  | pump {data : Bytes} {off since : ℕ} {tail : Tail} : s.progs id = .pump data off since tail →
    PumpTurn s id data off since tail s' → Turn s id s'
  | read {io : Io} : s.progs id = .read io → s.go id (readOnward io) = some s' → Turn s id s'

theorem Sys.turn_cases (h : s.turn id = some s') : id ∈ s.conn.running ∧ Turn s id s' := by
  unfold turn at h
  cases ht : s.conn.tasks.find? (fun t => t.id = id) with
  | none =>
    rw [ht] at h
    cases h
  | some task =>
    have hm := List.mem_of_find?_eq_some ht
    have hi : task.id = id := by simpa using List.find?_some ht
    have hr : id ∈ s.conn.running := List.mem_map.mpr ⟨task,hm,hi⟩
    refine ⟨hr,?_⟩
    simp only [ht] at h
    cases hp : s.progs id with
    | start =>
      simp only [hp] at h
      cases hq : task.request with
      | error code =>
        simp only [hq] at h
        exact .malformed hm hi hp hq h
      | ok r =>
        simp only [hq] at h
        cases h
        exact .handed hm hi hp hq rfl
    | handling headOnly =>
      simp only [hp] at h
      cases h
    | pump data off since tail =>
      simp only [hp] at h
      exact .pump hp (pumpTurn_cases h)
    | read io =>
      simp only [hp] at h
      exact .read hp h

/-- Only the start of a task queues an RST_STREAM. -/
theorem Turn.own_of_handed (h : Turn s id s') (hok : s.progs id = .start →
    ∀ task ∈ s.conn.tasks, task.id = id → ∃ r, task.request = .ok r) : Own s s' id [Kind.data] := by
  cases h with
  | malformed hm hi hp hq h =>
    obtain ⟨r,hr⟩ := hok hp _ hm hi
    rw [hq] at hr
    cases hr
  | handed _ _ _ _ h =>
    rw [h]
    exact .moveTo _ _ _ _
  | pump _ h => exact h.own
  | read _ h => exact .go h

theorem Turn.own (h : Turn s id s') : Own s s' id [Kind.data,Kind.rstStream] := by
  have hsub : ∀ k ∈ [Kind.data], k ∈ [Kind.data,Kind.rstStream] := by simp
  cases h with
  | malformed _ _ _ _ h =>
    have ho : Own s s' id [Kind.rstStream] := (Own.put s _ _ _ _).trans (.finish h)
    exact ho.mono (by simp)
  | handed _ _ _ _ h =>
    rw [h]
    exact .moveTo _ _ _ _
  | pump _ h => exact h.own.mono hsub
  | read _ h => exact (Own.go h).mono hsub

/-- What the answer of the handler comes to. -/
inductive Answered (s : Sys) (id : ℕ) (r : Reply) (t : ℕ) (headOnly : Bool) (s' : Sys) : Prop
  | lost : s.gone = true → (s.record id (responseBody r headOnly)).finish id = some s' →
    Answered s id r t headOnly s'
  | empty : s.gone = false → (responseBody r headOnly).isEmpty = true →
    ((s.record id (responseBody r headOnly)).put (responseHead id r (responseBody r headOnly))).finish id = some s' →
    Answered s id r t headOnly s'
  | body : s.gone = false → (responseBody r headOnly).isEmpty = false →
    ((s.record id (responseBody r headOnly)).put (responseHead id r (responseBody r headOnly))).go id
      (bodyOnward (s.stopped id) t (responseBody r headOnly)) = some s' → Answered s id r t headOnly s'

theorem Sys.stopped_put (s : Sys) (id : ℕ) (b : Bytes) : (s.put b).stopped id = s.stopped id := by
  unfold put
  split <;> rfl

theorem Sys.reply_cases {r : Reply} {t : ℕ} (h : s.reply id r t = some s') :
    id ∈ s.conn.running ∧ ∃ headOnly, s.progs id = .handling headOnly ∧ Answered s id r t headOnly s' := by
  unfold reply at h
  split at h
  · rename_i headOnly hp
    simp only at h
    split at h
    · cases h
    rename_i hr
    refine ⟨not_not.mp hr,headOnly,hp,?_⟩
    split at h
    · rename_i hg
      exact .lost hg h
    rename_i hg
    have hg : s.gone = false := by simpa [record] using hg
    split at h
    · rename_i he
      exact .empty hg he h
    · rename_i he
      rw [stopped_put] at h
      exact .body hg (by simpa using he) h
  · cases h

theorem Own.record (s : Sys) (id : ℕ) (body : Body) (ks : List UInt8) : Own s (s.record id body) id ks :=
  ⟨fun _ _ => rfl,fun _ hj => by simp [Sys.record,hj],rfl,rfl,rfl,rfl,rfl,fun _ => rfl,fun _ _ => Iff.rfl,
    fun _ h => h,[],by simp [Sys.record],by simp⟩

theorem Answered.own {r : Reply} {t : ℕ} {headOnly : Bool} (h : Answered s id r t headOnly s') :
    Own s s' id [Kind.headers,Kind.data] := by
  have hr := Own.record s id (responseBody r headOnly) [Kind.headers,Kind.data]
  have hput (q : Sys) : Own q (q.put (responseHead id r (responseBody r headOnly))) id [Kind.headers,Kind.data] :=
    (Own.put _ _ _ _ _).mono (by simp)
  cases h with
  | lost _ h => exact hr.trans (.finish h)
  | empty _ _ h => exact hr.trans ((hput _).trans (.finish h))
  | body _ _ h => exact hr.trans ((hput _).trans ((Own.go h).mono (by simp)))

/-- The two kinds of steps: the reader loop takes an event, or one task moves. -/
inductive Step (s : Sys) (s' : Sys) : Act → Prop
  | reads {a : Act} {e : Event} {c : Conn} : s.conn.result = none →
    ((∃ f h, a = .frame f h ∧ e = .frame f) ∨ (∃ r, a = .hangUp r ∧ e = .hangUp r)) → s.conn.next e = some c →
    s' = { s with conn := { c with out := if s.gone then s.conn.out else c.out } } → Step s s' a
  | turn {id : ℕ} : id ∈ s.conn.running → Turn s id s' → Step s s' (.turn id)
  | reply {id : ℕ} {r : Reply} {t : ℕ} {headOnly : Bool} : id ∈ s.conn.running →
    s.progs id = .handling headOnly → Answered s id r t headOnly s' → Step s s' (.reply id r t)
  | writerGone : s' = { s with gone := true } → Step s s' .writerGone

theorem Sys.step_cases {a : Act} (h : s.step a = some s') : Step s s' a := by
  have hnone {e : Event} {c : Conn} (he : (∃ f, e = .frame f) ∨ ∃ r, e = .hangUp r)
      (hn : s.conn.next e = some c) : s.conn.result = none := by
    rcases he with ⟨f,rfl⟩ | ⟨r,rfl⟩
    all_goals
      simp only [next] at hn
      split at hn
      · cases hn
      · rename_i hr
        simpa using hr
  cases a with
  | frame f wire =>
    obtain ⟨c,hc,rfl⟩ := Option.map_eq_some_iff.mp h
    exact .reads (hnone (Or.inl ⟨f,rfl⟩) hc) (Or.inl ⟨f,wire,rfl,rfl⟩) hc rfl
  | hangUp r =>
    obtain ⟨c,hc,rfl⟩ := Option.map_eq_some_iff.mp h
    exact .reads (hnone (Or.inr ⟨r,rfl⟩) hc) (Or.inr ⟨r,rfl,rfl⟩) hc rfl
  | turn id =>
    obtain ⟨hr,ht⟩ := turn_cases h
    exact .turn hr ht
  | reply id r t =>
    obtain ⟨hr,headOnly,hp,ha⟩ := reply_cases h
    exact .reply hr hp ha
  | writerGone =>
    cases h
    exact .writerGone rfl

end Steps

section Frame
variable {P : Conn → Prop} {s s' : Sys} {id : ℕ}

/-- A property that every event keeps and that does not look at the queue. -/
structure Kept (P : Conn → Prop) : Prop where
  out : ∀ c o, P c → P { c with out := o }
  next : ∀ c e c', P c → c.next e = some c' → P c'

theorem Kept.finish (hk : Kept P) (h : s.finish id = some s') (hp : P s.conn) : P s'.conn := by
  obtain ⟨c,hc,rfl⟩ := Option.map_eq_some_iff.mp h
  exact hk.next _ _ _ hp hc

theorem Kept.put (hk : Kept P) (b : Bytes) (hp : P s.conn) : P (s.put b).conn := by
  unfold Sys.put
  split
  · exact hp
  · exact hk.out _ _ hp

theorem Kept.go (hk : Kept P) {o : Onward} (h : s.go id o = some s') (hp : P s.conn) : P s'.conn := by
  cases o with
  | endStream => exact hk.finish h (hk.put _ hp)
  | stop => exact hk.finish h hp
  | pump data tail =>
    cases h
    exact hp
  | read io =>
    cases h
    exact hp

theorem Kept.step (hk : Kept P) {a : Act} (h : s.step a = some s') (hp : P s.conn) : P s'.conn := by
  cases Sys.step_cases h with
  | reads _ _ hc h =>
    rw [h]
    exact hk.out _ _ (hk.next _ _ _ hp hc)
  | turn _ ht =>
    cases ht with
    | malformed _ _ _ _ h => exact hk.finish h (hk.put _ hp)
    | handed _ _ _ _ h =>
      rw [h]
      exact hp
    | pump _ h =>
      cases h with
      | cut _ h => exact hk.go h hp
      | failed _ _ h => exact hk.go h hp
      | sent _ _ hc _ h =>
        rw [h]
        exact hk.next _ _ _ hp hc
      | whole _ _ hc h => exact hk.go h (hk.next _ _ _ hp hc)
    | read _ h => exact hk.go h hp
  | reply _ _ ha =>
    cases ha with
    | lost _ h => exact hk.finish h hp
    | empty _ _ h => exact hk.finish h (hk.put _ hp)
    | body _ _ h => exact hk.go h (hk.put _ hp)
  | writerGone hg =>
    rw [hg]
    exact hp

theorem kept_ledger : Kept Ledger where
  out := fun _ _ h => ⟨h.lives,h.known,h.tasksKnown,h.nodup,h.active_le⟩
  next := fun _ _ _ h hn => h.next hn

end Frame

section Payload
variable {s s' s'' : Sys} {id : ℕ}

/-- No body byte is queued and no window moves. -/
structure Idle (s s' : Sys) : Prop where
  out : ∃ new, s'.conn.out = s.conn.out ++ new ∧ ∀ b ∈ new, kindOf b ≠ Kind.data ∨ payloadOf b = []
  conn : s'.conn.connWindow = s.conn.connWindow
  initial : s'.conn.peerInitialWindow = s.conn.peerInitialWindow
  size : s'.conn.maxFrame = s.conn.maxFrame
  windows : ∀ j, (s'.conn.flows j).window = (s.conn.flows j).window

theorem Idle.trans (h : Idle s s') (h' : Idle s' s'') : Idle s s'' where
  out := Appends.trans h.out h'.out
  conn := h'.conn.trans h.conn
  initial := h'.initial.trans h.initial
  size := h'.size.trans h.size
  windows := fun j => (h'.windows j).trans (h.windows j)

theorem Idle.same (h : s'.conn = s.conn) : Idle s s' := by
  refine ⟨⟨[],by simp [h],by simp⟩,?_,?_,?_,fun j => ?_⟩
  all_goals rw [h]

theorem Idle.put {kind flags : UInt8} {payload : Bytes} (s : Sys) (h : kind ≠ Kind.data ∨ payload = []) :
    Idle s (s.put (writeFrame kind flags id payload)) := by
  unfold Sys.put
  split
  · exact ⟨⟨[],by simp,by simp⟩,rfl,rfl,rfl,fun _ => rfl⟩
  · refine ⟨⟨_,rfl,?_⟩,rfl,rfl,rfl,fun _ => rfl⟩
    intro b hb
    rw [List.mem_singleton.mp hb,kindOf_writeFrame,payloadOf_writeFrame]
    exact h

theorem Idle.finish (h : s.finish id = some s') : Idle s s' := by
  obtain ⟨-,rfl⟩ := Sys.finish_eq h
  refine ⟨⟨[],by simp [Conn.endTask,modifyFlow],by simp⟩,rfl,rfl,rfl,fun j => ?_⟩
  simp only [Conn.endTask,modifyFlow]
  split <;> rfl

theorem Idle.go {o : Onward} (h : s.go id o = some s') : Idle s s' := by
  cases o with
  | endStream => exact (Idle.put s (Or.inr rfl)).trans (.finish h)
  | stop => exact .finish h
  | pump data tail =>
    cases h
    exact .same rfl
  | read io =>
    cases h
    exact .same rfl

/-- A step of a task queues no body bytes, or those of one DATA frame. -/
inductive Sends (s : Sys) (id : ℕ) (s' : Sys) : Prop
  | idle : Idle s s' → Sends s id s'
  | data {data : Bytes} {c : Conn} : s.conn.next (.send id data) = some c → Idle { s with conn := c } s' →
    Sends s id s'

theorem PumpTurn.sends {data : Bytes} {off since : ℕ} {tail : Tail} (h : PumpTurn s id data off since tail s') :
    Sends s id s' := by
  cases h with
  | cut _ h => exact .idle (.go h)
  | failed _ _ h => exact .idle (.go h)
  | sent _ _ hc _ h =>
    rw [h]
    exact .data hc (.same rfl)
  | whole _ _ hc h => exact .data hc (.go h)

theorem Turn.sends (h : Turn s id s') : Sends s id s' := by
  cases h with
  | malformed _ _ _ _ h => exact .idle ((Idle.put s (Or.inl (by decide))).trans (.finish h))
  | handed _ _ _ _ h =>
    rw [h]
    exact .idle (.same rfl)
  | pump _ h => exact h.sends
  | read _ h => exact .idle (.go h)

theorem Answered.idle {r : Reply} {t : ℕ} {headOnly : Bool} (h : Answered s id r t headOnly s') : Idle s s' := by
  have hr : Idle s (s.record id (responseBody r headOnly)) := .same rfl
  have hp : Idle (s.record id (responseBody r headOnly))
      ((s.record id (responseBody r headOnly)).put (responseHead id r (responseBody r headOnly))) :=
    .put _ (Or.inl (by decide))
  cases h with
  | lost _ h => exact hr.trans (.finish h)
  | empty _ _ h => exact hr.trans (hp.trans (.finish h))
  | body _ _ h => exact hr.trans (hp.trans (.go h))

end Payload

section Gone
variable {s s' : Sys} {a : Act} {j : ℕ}

theorem out_finish (h : s.finish j = some s') : s'.conn.out = s.conn.out := by
  obtain ⟨-,rfl⟩ := Sys.finish_eq h
  rfl

theorem out_put_gone (hg : s.gone = true) (b : Bytes) : (s.put b).conn.out = s.conn.out := by simp [Sys.put,hg]

theorem out_go_gone {o : Onward} (hg : s.gone = true) (h : s.go j o = some s') : s'.conn.out = s.conn.out := by
  cases o with
  | endStream => exact (out_finish h).trans (out_put_gone hg _)
  | stop => exact out_finish h
  | pump data tail =>
    cases h
    rfl
  | read io =>
    cases h
    rfl

/-- Nothing is queued once the writer is gone. -/
theorem out_gone (hg : s.gone = true) (h : s.step a = some s') : s'.conn.out = s.conn.out := by
  cases Sys.step_cases h with
  | reads _ _ _ h' =>
    rw [h']
    simp [hg]
  | turn _ ht =>
    cases ht with
    | malformed _ _ _ _ h => exact (out_finish h).trans (out_put_gone hg _)
    | handed _ _ _ _ h =>
      rw [h]
      rfl
    | pump _ h =>
      cases h with
      | cut _ h => exact out_go_gone hg h
      | failed _ _ h => exact out_go_gone hg h
      | sent _ hn _ _ _ => cases hn.symm.trans hg
      | whole _ hn _ _ => cases hn.symm.trans hg
    | read _ h => exact out_go_gone hg h
  | reply _ _ ha =>
    cases ha with
    | lost _ h =>
      have ho := out_finish h
      exact ho
    | empty hn _ _ => cases hn.symm.trans hg
    | body hn _ _ => cases hn.symm.trans hg
  | writerGone h' => rw [h']

end Gone

end OxiServe.Http2
