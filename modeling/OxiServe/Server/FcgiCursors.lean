import OxiServe.Server.FcgiReader

/-! # The reader with its offsets

The reader keeps what it has parsed of `raw` and what it has handed over of `out` as
offsets, and makes room in `raw` before each read of the socket. Whatever is pumped, and
whatever the buffers of the caller, it hands over the payload once and in order, and
reports the end behind all of it.
-/
namespace OxiServe.Fcgi

/-- What waiting for the socket comes to; `late` is the read timeout, which a poll does
not look at. -/
inductive Arrival
  | pending
  | late
  | failed
  | data (b : Bytes)
deriving DecidableEq, Repr

/-- The fields of `FcgiBody` as they are kept. -/
structure Cursors where
  sock : List Arrival
  raw : Bytes
  consumed : ℕ
  out : Bytes
  outAt : ℕ
  appStatus : ℕ
  done : Bool
deriving DecidableEq, Repr

/-- What one `poll_read` gives: nothing yet, an error, or the bytes it filled in. -/
inductive Poll
  | pending
  | failed
  | ready (b : Bytes)
deriving DecidableEq, Repr

/-- The room that is made before a read. -/
def readRoom : ℕ := 16 * 1024

/-- One poll of the socket. A closed one gives no bytes. -/
def pollSock : List Arrival → Arrival × List Arrival
  | [] => (.data [],[])
  | .data b :: s =>
    if b.length ≤ readRoom then (.data b,s) else (.data (b.take readRoom),.data (b.drop readRoom) :: s)
  | a :: s => (a,s)

/-- A read that is waited for. -/
def readSock : List Arrival → Arrival × List Arrival
  | .pending :: s => readSock s
  | s => pollSock s

/-- The read puts its bytes over the room at `before`. -/
def overwrite (raw : Bytes) (before : ℕ) (b : Bytes) : Bytes := raw.take before ++ b ++ raw.drop (before + b.length)

namespace Cursors
open FcgiBody (Pump Completes)

def new (sock : List Arrival) : Cursors := ⟨sock,[],0,[],0,0,false⟩

def drainLoop : ℕ → Cursors → Bytes → (Cursors × Bytes) × Except ℕ Bool
  | 0, me, sink => ((me,sink),.ok false)
  | fuel + 1, me, sink =>
    match parseRecord (me.raw.drop me.consumed) with
    | .error .incomplete => ((me,sink),.ok false)
    | .error .malformed => ((me,sink),.error 502)
    | .ok r =>
      match r.ty with
      | .stdout => drainLoop fuel { me with consumed := me.consumed + r.total } (sink ++ r.body)
      | .endRequest =>
        match endRequestStatus r.body with
        | some (app,proto) =>
          if proto ≠ 0 then (({ me with appStatus := app },sink),.error 502)
          else (({ me with appStatus := app, consumed := me.consumed + r.total, done := true },sink),.ok true)
        | none => (({ me with consumed := me.consumed + r.total, done := true },sink),.ok true)
      | _ => drainLoop fuel { me with consumed := me.consumed + r.total } sink

/-- Parses whatever is buffered; every record takes some of it. -/
def drainRecords (me : Cursors) (sink : Bytes) : (Cursors × Bytes) × Except ℕ Bool :=
  drainLoop (me.raw.length + 1) me sink

def compact (me : Cursors) : Cursors :=
  if 0 < me.consumed then { me with raw := me.raw.drop me.consumed, consumed := 0 } else me

def pump (me : Cursors) (sink : Bytes) : (Cursors × Bytes) × Except ℕ Pump :=
  match me.drainRecords sink with
  | (st,.error c) => (st,.error c)
  | (st,.ok true) => (st,.ok .ended)
  | ((me,sink),.ok false) =>
    match readSock me.compact.sock with
    | (.data b,s) =>
      if b = [] then (({ me.compact with sock := s, done := true },sink),.ok .ended)
      else
        match { me.compact with sock := s, raw := me.compact.raw ++ b }.drainRecords sink with
        | (st,.error c) => (st,.error c)
        | (st,.ok true) => (st,.ok .ended)
        | (st,.ok false) => (st,.ok .more)
    | (.late,s) => (({ me.compact with sock := s },sink),.error 504)
    | (_,s) => (({ me.compact with sock := s },sink),.error 502)

/-- Hands over what is decoded, as far as the buffer of the caller takes it. -/
def handOver (cap : ℕ) (me : Cursors) : Bytes × Cursors :=
  let n := min (me.out.length - me.outAt) cap
  ((me.out.drop me.outAt).take n,
    if me.outAt + n = me.out.length then { me with out := [], outAt := 0 } else { me with outAt := me.outAt + n })

/-- Makes room in `raw`, polls the socket and takes the room off again that was not
filled; `again` is the next round of the loop. -/
def askSocket (again : Cursors → Poll × Cursors) (me : Cursors) : Poll × Cursors :=
  let before := me.raw.length
  let raw := me.raw ++ List.replicate readRoom 0
  match pollSock me.sock with
  | (.failed,s) => (.failed,{ me with sock := s, raw := raw.take before })
  | (.data b,s) =>
    let me := { me with sock := s, raw := (overwrite raw before b).take (before + b.length) }
    if b = [] then again { me with done := true } else again me
  | (_,s) => (.pending,{ me with sock := s, raw := raw.take before })

def pollLoop (cap : ℕ) : ℕ → Cursors → Poll × Cursors
  | 0, me => (.failed,me)
  | fuel + 1, me =>
    if me.outAt < me.out.length then (.ready (me.handOver cap).1,(me.handOver cap).2)
    else if me.done then (.ready [],me)
    else
      match { me with out := [] }.drainRecords [] with
      | ((me,_),.error _) => (.failed,me)
      | ((me,decoded),.ok _) =>
        let me := { me with out := decoded }.compact
        if me.out ≠ [] ∨ me.done = true then pollLoop cap fuel me else askSocket (pollLoop cap fuel) me

/-- The bytes and the events of a socket that are still to come. -/
def weight : List Arrival → ℕ
  | [] => 0
  | .data b :: s => b.length + weight s + 1
  | _ :: s => weight s + 1

/-- Each round but the last two takes something off the socket. -/
def pollRead (cap : ℕ) (me : Cursors) : Poll × Cursors := pollLoop cap (weight me.sock + 3) me

/-- Pumps at most `k` times, while there is more. -/
def pumps : ℕ → Cursors → Bytes → (Cursors × Bytes) × Except ℕ Pump
  | 0, me, sink => ((me,sink),.ok .more)
  | k + 1, me, sink =>
    match me.pump sink with
    | ((me,sink),.ok .more) => pumps k me sink
    | ((me,sink),e) => ((me,sink),e)

/-- Reads with buffers of these sizes. -/
def polls : List ℕ → Cursors → List Poll × Cursors
  | [], me => ([],me)
  | cap :: caps, me => ((me.pollRead cap).1 :: (polls caps (me.pollRead cap).2).1,(polls caps (me.pollRead cap).2).2)

end Cursors

/-- The bytes some reads gave. -/
def got (ps : List Poll) : Bytes := ps.flatMap (fun | .ready b => b | _ => [])

/-- The bytes a socket still gives. -/
def bytesOf (s : List Arrival) : Bytes := s.flatMap (fun | .data b => b | _ => [])

/-- Bytes come in pieces, with waits between them, until the socket is closed. -/
def Arrives (s : List Arrival) : Prop := ∀ a ∈ s, a = .pending ∨ ∃ b, b ≠ [] ∧ a = .data b

section Socket
variable {s : List Arrival}

theorem pollSock_arrives (h : Arrives s) :
    (∃ s', pollSock s = (.pending,s') ∧ Arrives s' ∧ bytesOf s' = bytesOf s ∧ Cursors.weight s' < Cursors.weight s) ∨
    (∃ b s', pollSock s = (.data b,s') ∧ Arrives s' ∧ bytesOf s = b ++ bytesOf s' ∧ (b = [] → s = [] ∧ s' = []) ∧
      (b ≠ [] → Cursors.weight s' < Cursors.weight s)) := by
  cases s with
  | nil => exact .inr ⟨[],[],rfl,h,rfl,fun _ => ⟨rfl,rfl⟩,fun hn => absurd rfl hn⟩
  | cons a s =>
    have hs : Arrives s := fun x hx => h x (List.mem_cons_of_mem _ hx)
    rcases h a List.mem_cons_self with rfl | ⟨b,hb,rfl⟩
    · exact .inl ⟨s,rfl,hs,rfl,Nat.lt_succ_self _⟩
    · right
      by_cases hl : b.length ≤ readRoom
      · refine ⟨b,s,if_pos hl,hs,rfl,fun hn => absurd hn hb,fun _ => ?_⟩
        rw [Cursors.weight]
        omega
      · have hroom : 0 < readRoom := by decide
        have htake : b.take readRoom ≠ [] := by
          apply List.ne_nil_of_length_pos
          rw [List.length_take]
          omega
        have hdrop : b.drop readRoom ≠ [] := by
          apply List.ne_nil_of_length_pos
          rw [List.length_drop]
          omega
        have hcut : Arrives (.data (b.drop readRoom) :: s) := List.forall_mem_cons.mpr ⟨.inr ⟨_,hdrop,rfl⟩,hs⟩
        refine ⟨b.take readRoom,.data (b.drop readRoom) :: s,if_neg hl,hcut,?_,fun hn => absurd hn htake,fun _ => ?_⟩
        · simp only [bytesOf,List.flatMap_cons]
          rw [← List.append_assoc,List.take_append_drop]
        · rw [Cursors.weight,Cursors.weight,List.length_drop]
          omega

theorem readSock_arrives (h : Arrives s) : ∃ b s', readSock s = (.data b,s') ∧ Arrives s' ∧
    bytesOf s = b ++ bytesOf s' ∧ (b = [] → bytesOf s' = []) := by
  induction s with
  | nil => exact ⟨[],[],rfl,h,rfl,fun _ => rfl⟩
  | cons a s ih =>
    have hs : Arrives s := fun x hx => h x (List.mem_cons_of_mem _ hx)
    rcases h a List.mem_cons_self with rfl | ⟨b,hb,rfl⟩
    · exact ih hs
    · rcases pollSock_arrives h with ⟨s',hp,-⟩ | ⟨c,s',hp,h1,h2,h3,-⟩
      · simp only [pollSock] at hp
        split at hp
        · cases hp
        · cases hp
      · refine ⟨c,s',hp,h1,h2,fun hc => ?_⟩
        rw [(h3 hc).2]
        rfl

end Socket

namespace Cursors
open FcgiBody (Pump Completes drainLoop_wire awaited_none)

/-- Both offsets are within their buffers, and nothing that was handed over is kept. -/
structure Tidy (me : Cursors) : Prop where
  consumed_le : me.consumed ≤ me.raw.length
  out_at : me.outAt < me.out.length ∨ me.outAt = 0 ∧ me.out = []

/-- What a parse pass sees. -/
def view (me : Cursors) : FcgiBody := ⟨[],me.raw.drop me.consumed,[],me.appStatus,me.done⟩

section Drain
variable {me : Cursors} {rs : List WireRecord} {fin : Option WireRecord} {rest : Bytes}

/-- The pass with an offset does what the pass on the rest of the buffer does. -/
theorem drainLoop_view (fuel : ℕ) (sink : Bytes) (h : me.consumed ≤ me.raw.length) :
    ∃ k app d sink' e, drainLoop fuel me sink = (({ me with consumed := k, appStatus := app, done := d },sink'),e) ∧
      k ≤ me.raw.length ∧ FcgiBody.drainLoop fuel me.view sink =
        ((view { me with consumed := k, appStatus := app, done := d },sink'),e) := by
  induction fuel generalizing me sink with
  | zero => exact ⟨me.consumed,me.appStatus,me.done,sink,.ok false,rfl,h,rfl⟩
  | succ fuel ih =>
    have hv : me.view.raw = me.raw.drop me.consumed := rfl
    cases hp : parseRecord (me.raw.drop me.consumed) with
    | error e =>
      cases e with
      | incomplete =>
        refine ⟨me.consumed,me.appStatus,me.done,sink,.ok false,?_,h,?_⟩
        · simp only [drainLoop,hp]
        · simp only [FcgiBody.drainLoop,hv,hp]
      | malformed =>
        refine ⟨me.consumed,me.appStatus,me.done,sink,.error 502,?_,h,?_⟩
        · simp only [drainLoop,hp]
        · simp only [FcgiBody.drainLoop,hv,hp]
    | ok r =>
      have htotal := (parseRecord_total hp).2
      rw [List.length_drop] at htotal
      have hle : me.consumed + r.total ≤ me.raw.length := by omega
      have hcons : me.view.consume r = view { me with consumed := me.consumed + r.total } := by
        simp only [view,FcgiBody.consume,List.drop_drop]
      cases hty : r.ty with
      | stdout =>
        obtain ⟨k,app,d,sink',e,h1,h2,h3⟩ :=
          @ih { me with consumed := me.consumed + r.total } (sink ++ r.body) hle
        refine ⟨k,app,d,sink',e,?_,h2,?_⟩
        · simp only [drainLoop,hp,hty]
          exact h1
        · simp only [FcgiBody.drainLoop,hv,hp,hty,hcons]
          exact h3
      | endRequest =>
        cases hst : endRequestStatus r.body with
        | none =>
          refine ⟨me.consumed + r.total,me.appStatus,true,sink,.ok true,?_,hle,?_⟩
          · simp only [drainLoop,hp,hty,hst]
          · simp only [FcgiBody.drainLoop,hv,hp,hty,hst,hcons]
            rfl
        | some st =>
          obtain ⟨app,proto⟩ := st
          by_cases hz : proto ≠ 0
          · refine ⟨me.consumed,app,me.done,sink,.error 502,?_,h,?_⟩
            · simp only [drainLoop,hp,hty,hst,if_pos hz]
            · simp only [FcgiBody.drainLoop,hv,hp,hty,hst,if_pos hz]
              rfl
          · refine ⟨me.consumed + r.total,app,true,sink,.ok true,?_,hle,?_⟩
            · simp only [drainLoop,hp,hty,hst,if_neg hz]
            · simp only [FcgiBody.drainLoop,hv,hp,hty,hst,if_neg hz,hcons]
              rfl
      | _ =>
        obtain ⟨k,app,d,sink',e,h1,h2,h3⟩ :=
          @ih { me with consumed := me.consumed + r.total } sink hle
        refine ⟨k,app,d,sink',e,?_,h2,?_⟩
        · simp only [drainLoop,hp,hty]
          exact h1
        · simp only [FcgiBody.drainLoop,hv,hp,hty,hcons]
          exact h3

/-- A pass decodes the records that are complete, or everything when the end of the
request is among them. -/
theorem drainRecords_wire (hrun : ∀ r ∈ rs, r.ty ≠ .endRequest) (hfin : ∀ e ∈ fin, Completes e)
    (h : me.consumed ≤ me.raw.length) (hw : me.raw.drop me.consumed ++ rest = wire rs fin) (sink : Bytes) :
    (∃ parsed rs' k, rs = parsed ++ rs' ∧
        me.drainRecords sink = (({ me with consumed := k },sink ++ payload parsed),.ok false) ∧
        k ≤ me.raw.length ∧ me.raw.drop k ++ rest = wire rs' fin ∧ Waiting (me.raw.drop k) rs' fin) ∨
      (∃ k app, me.drainRecords sink =
          (({ me with consumed := k, appStatus := app, done := true },sink ++ payload rs),.ok true) ∧
        k ≤ me.raw.length) := by
  obtain ⟨k,app,d,sink',e,h1,h2,h3⟩ := drainLoop_view (me.raw.length + 1) sink h
  have hfuel : me.view.raw.length < me.raw.length + 1 := by
    rw [view,List.length_drop]
    omega
  rcases @drainLoop_wire rs fin rest me.view _ hrun hfin hw hfuel sink with
    ⟨parsed,rs',raw',hrs,hd,hw',-,hwait⟩ | ⟨-,-,me',hd,-,hdone⟩
  · have heq := h3.symm.trans hd
    simp only [Prod.mk.injEq,view,FcgiBody.mk.injEq] at heq
    obtain ⟨⟨⟨-,rfl,-,rfl,rfl⟩,rfl⟩,rfl⟩ := heq
    exact .inl ⟨parsed,rs',k,hrs,h1,h2,hw',hwait⟩
  · have heq := h3.symm.trans hd
    simp only [Prod.mk.injEq] at heq
    obtain ⟨⟨hv,rfl⟩,rfl⟩ := heq
    have hd : d = true := by
      rw [← hdone,← hv]
      rfl
    rw [hd] at h1
    exact .inr ⟨k,app,h1,h2⟩

/-- Compacting drops what was parsed. -/
theorem compact_eq (me : Cursors) : me.compact = { me with raw := me.raw.drop me.consumed, consumed := 0 } := by
  obtain ⟨sock,raw,consumed,out,outAt,appStatus,done⟩ := me
  cases consumed with
  | zero => rfl
  | succ n => rfl

/-- Room that a read did not take is taken off again. -/
theorem take_room (raw : Bytes) : (raw ++ List.replicate readRoom 0).take raw.length = raw := List.take_left' rfl

theorem take_overwrite (raw b : Bytes) :
    (overwrite (raw ++ List.replicate readRoom 0) raw.length b).take (raw.length + b.length) = raw ++ b := by
  rw [overwrite,take_room]
  exact List.take_left' List.length_append

end Drain

end Cursors

end OxiServe.Fcgi
