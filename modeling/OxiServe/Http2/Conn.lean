import Mathlib.Data.Int.Order.Basic
import OxiServe.Lib.Appends
import OxiServe.Lib.KeyMap
import OxiServe.Http2.Frame
import OxiServe.Http2.Hpack

/-! # An HTTP/2 connection

The reader loop of a connection, one arm for each frame type, with the stream
table, the flow-control cells and the stream tasks it spawns. A task is a
separate party: it sends DATA while its windows allow and marks its stream done
when it ends. `fed` records the header blocks handed to the HPACK decoder.
-/
namespace OxiServe.Http2
open Hpack (Header Decoder)

def ourInitialWindow : ℕ := 1024 * 1024
def maxConcurrent : ℕ := 128
def maxHeaderList : ℕ := 64 * 1024
def windowRefillAt : ℤ := ourInitialWindow / 2

structure ConnErr where
  code : Code
  why : Bytes
deriving DecidableEq, Repr

/-- Flow-control state shared by the reader loop and the task of one stream. -/
structure StreamFlow where
  window : ℤ
  reset : Bool
  done : Bool
deriving DecidableEq, Repr

inductive State
  | opened
  | halfClosedRemote
  | reset
deriving DecidableEq, Repr

structure Stream where
  state : State
  pending : Bytes
  pendingIsTrailers : Bool
  headers : List Header
  headersDone : Bool
  body : Bytes
  contentLength : Option ℕ
  dispatched : Bool
deriving DecidableEq, Repr

def Stream.new : Stream := ⟨.opened,[],false,[],false,[],none,false⟩

/-- A spawned stream task that has not finished. -/
structure StreamTask where
  id : ℕ
  headers : List Header
  body : Bytes
deriving DecidableEq, Repr

inductive Where
  | idle | opened | halfClosed | closed | reset
deriving DecidableEq, Repr

/-- The locals of `read_loop` and the cells it shares. A flow cell is keyed by
its stream id, which is never used twice on a connection. -/
structure Conn where
  clientMaxBodySize : ℕ
  dec : Decoder
  streams : KeyMap ℕ Stream
  flows : ℕ → StreamFlow
  connWindow : ℤ
  maxFrame : ℕ
  peerInitialWindow : ℤ
  recvWindow : ℤ
  highestClientStream : ℕ
  lastStream : ℕ
  expectContinuation : Option ℕ
  out : List Bytes
  tasks : List StreamTask
  result : Option (Except ConnErr Unit)
  fed : List Bytes

/-- How an arm of the loop ends: at the dispatch step, by `continue`, by a
return, or at an `expect`. -/
inductive Next
  | dispatch
  | again
  | ret (r : Except ConnErr Unit)
  | panic
deriving DecidableEq

namespace Conn

def new (clientMaxBodySize : ℕ) : Conn where
  clientMaxBodySize := clientMaxBodySize
  dec := Decoder.new 4096
  streams := .empty
  flows := fun _ => ⟨0,false,false⟩
  connWindow := defaultWindow
  maxFrame := defaultMaxFrame
  peerInitialWindow := defaultWindow
  recvWindow := ourInitialWindow
  highestClientStream := 0
  lastStream := 0
  expectContinuation := none
  out :=
    [settings [(Setting.maxConcurrentStreams,maxConcurrent),(Setting.initialWindowSize,ourInitialWindow),
      (Setting.enablePush,0),(Setting.maxHeaderListSize,maxHeaderList)] ++
      windowUpdate 0 (ourInitialWindow - 65535)]
  tasks := []
  result := none
  fed := []

def fail (self : Conn) (code : Code) (why : String) : Conn × Next := (self,.ret (.error ⟨code,lit why⟩))

def emit (self : Conn) (frame : Bytes) : Conn := { self with out := self.out ++ [frame] }

def modifyStream (self : Conn) (id : ℕ) (f : Stream → Stream) : Conn :=
  { self with streams := self.streams.modify id f }

def modifyFlow (self : Conn) (id : ℕ) (f : StreamFlow → StreamFlow) : Conn :=
  { self with flows := fun j => if j = id then f (self.flows j) else self.flows j }

/-- Where a stream id sits; an absent id up to the highest one is closed. -/
def stateOf (self : Conn) (id : ℕ) : Where :=
  match self.streams.get? id with
  | some s =>
    match s.state with
    | .opened => .opened
    | .halfClosedRemote => if s.dispatched then .closed else .halfClosed
    | .reset => .reset
  | none => if id ≤ self.highestClientStream then .closed else .idle

def resetStream (self : Conn) (id : ℕ) (code : Code) : Conn :=
  let self := self.emit (rst id code)
  match self.streams.get? id with
  | some _ =>
    (self.modifyStream id (fun s => { s with state := .reset })).modifyFlow id
      (fun f => { f with reset := true, done := true })
  | none => self

def replenish (self : Conn) : Conn :=
  let used := ourInitialWindow - self.recvWindow
  if windowRefillAt ≤ used then
    { self.emit (windowUpdate 0 used.toNat) with recvWindow := ourInitialWindow }
  else self

/-- Drops the streams whose tasks have finished. -/
def reap (self : Conn) : Conn :=
  { self with streams := self.streams.retain (fun id s => !(s.dispatched && (self.flows id).done)) }

/-- The streams that count towards the concurrency limit. -/
def active (self : Conn) : ℕ := self.streams.count (fun id _ => !(self.flows id).done)

section HeaderBlocks

/-- Takes the pending block of a stream and runs the decoder over it. -/
def feed (self : Conn) (id : ℕ) (block : Bytes) : Conn :=
  { self.modifyStream id (fun s => { s with pending := [] }) with
    dec := (self.dec.decode block maxHeaderList).1, fed := self.fed ++ [block] }

/-- Decodes the completed header block of a stream. -/
def finishBlock (self : Conn) (id : ℕ) : Conn × Option ConnErr :=
  match self.streams.get? id with
  | none => (self,none)
  | some st =>
    let (_,out,r) := self.dec.decode st.pending maxHeaderList
    let self := self.feed id st.pending
    match r with
    | .error .compression => (self,some ⟨.compression,lit "hpack decoding error"⟩)
    | .error .tooLarge => (self.resetStream id .enhanceYourCalm,none)
    | .ok () =>
      if st.pendingIsTrailers then
        if out.any (fun h => h.name.head? == some 58) then (self.resetStream id .protocol,none)
        else (self,none)
      else
        let cl := (out.find? (fun h => h.name == lit "content-length")).bind (fun h => parseUnsigned 64 h.value)
        (self.modifyStream id (fun s => { s with contentLength := cl, headers := out, headersDone := true }),
          none)

/-- The end of the HEADERS and CONTINUATION arms. -/
def closeBlock (self : Conn) (f : Frame) : Conn × Next :=
  match self.finishBlock f.head.stream with
  | (self,some e) => (self,.ret (.error e))
  | (self,none) => (self,.dispatch)

def openBlock (self : Conn) (f : Frame) : Conn × Next :=
  if f.head.has Flag.endHeaders then self.closeBlock f
  else ({ self with expectContinuation := some f.head.stream },.dispatch)

/-- A second header block on a live stream. -/
def onTrailers (self : Conn) (f : Frame) (block : Bytes) : Conn × Next :=
  if !f.head.has Flag.endStream then (self.resetStream f.head.stream .protocol,.dispatch)
  else
    match self.streams.get? f.head.stream with
    | none => (self,.panic)
    | some _ =>
      (self.modifyStream f.head.stream (fun s =>
        { s with pending := block, pendingIsTrailers := true, state := .halfClosedRemote })).openBlock f

def insertStream (self : Conn) (f : Frame) (block : Bytes) : Conn :=
  let st := { Stream.new with
    state := if f.head.has Flag.endStream then .halfClosedRemote else .opened, pending := block }
  { self.modifyFlow f.head.stream (fun _ => ⟨self.peerInitialWindow,false,false⟩) with
    streams := self.streams.insert f.head.stream st }

def onNewStream (self : Conn) (f : Frame) (block : Bytes) : Conn × Next :=
  if f.head.stream ≤ self.highestClientStream then self.fail .protocol "stream id went backwards"
  else
    let self := { self with highestClientStream := f.head.stream, lastStream := f.head.stream }.reap
    if maxConcurrent ≤ self.active then (self.emit (rst f.head.stream .refusedStream),.dispatch)
    else (self.insertStream f block).openBlock f

def onBlock (self : Conn) (f : Frame) (block : Bytes) : Conn × Next :=
  match self.stateOf f.head.stream with
  | .opened => self.onTrailers f block
  | .halfClosed => self.onTrailers f block
  | .closed => self.fail .streamClosed "HEADERS on a closed stream"
  | .reset => self.fail .streamClosed "HEADERS on a closed stream"
  | .idle => self.onNewStream f block

end HeaderBlocks

section Arms

def onData (self : Conn) (f : Frame) : Conn × Next :=
  if f.head.stream = 0 then self.fail .protocol "DATA on stream 0"
  else
    let self := { self with recvWindow := self.recvWindow - f.head.len }
    match unpad f.payload (f.head.has Flag.padded) with
    | none => self.fail .protocol "bad padding"
    | some data =>
      let self := self.replenish
      match self.stateOf f.head.stream with
      | .idle => self.fail .protocol "DATA on an idle stream"
      | .closed => self.fail .streamClosed "DATA on a closed stream"
      | .reset => (self.resetStream f.head.stream .streamClosed,.again)
      | .halfClosed => (self.resetStream f.head.stream .streamClosed,.again)
      | .opened =>
        match self.streams.get? f.head.stream with
        | none => (self,.panic)
        | some st =>
          if self.clientMaxBodySize < st.body.length + data.length then
            (self.resetStream f.head.stream .enhanceYourCalm,.again)
          else
            (self.modifyStream f.head.stream (fun s =>
              { s with
                body := s.body ++ data
                state := if f.head.has Flag.endStream then .halfClosedRemote else s.state }),.dispatch)

def onHeaders (self : Conn) (f : Frame) : Conn × Next :=
  if f.head.stream = 0 then self.fail .protocol "HEADERS on stream 0"
  else if f.head.stream % 2 = 0 then self.fail .protocol "even client stream id"
  else
    match unpad f.payload (f.head.has Flag.padded) with
    | none => self.fail .protocol "bad padding"
    | some block =>
      if f.head.has Flag.priority then
        if block.length < 5 then self.fail .frameSize "short priority field"
        else if Frame.first31 block = f.head.stream then
          (self.emit (rst f.head.stream .protocol),.again)
        else self.onBlock f (block.drop 5)
      else self.onBlock f block

def onContinuation (self : Conn) (f : Frame) : Conn × Next :=
  if self.expectContinuation ≠ some f.head.stream then
    self.fail .protocol "CONTINUATION without an open block"
  else
    match self.streams.get? f.head.stream with
    | none => (self,.panic)
    | some st =>
      if maxHeaderList * 2 < st.pending.length + f.payload.length then
        self.fail .protocol "header block too large"
      else
        let self := self.modifyStream f.head.stream (fun s => { s with pending := s.pending ++ f.payload })
        if f.head.has Flag.endHeaders then { self with expectContinuation := none }.closeBlock f
        else (self,.dispatch)

def onPriority (self : Conn) (f : Frame) : Conn × Next :=
  if f.head.len ≠ 5 then self.fail .frameSize "bad PRIORITY length"
  else if f.head.stream = 0 then self.fail .protocol "PRIORITY on stream 0"
  else if Frame.first31 f.payload = f.head.stream then
    (self.emit (rst f.head.stream .protocol),.dispatch)
  else (self,.dispatch)

def onRstStream (self : Conn) (f : Frame) : Conn × Next :=
  if f.head.stream = 0 then self.fail .protocol "RST_STREAM on stream 0"
  else if f.head.len ≠ 4 then self.fail .frameSize "bad RST_STREAM length"
  else if self.stateOf f.head.stream = .idle then self.fail .protocol "RST_STREAM on an idle stream"
  else
    match self.streams.get? f.head.stream with
    | some _ =>
      ((self.modifyStream f.head.stream (fun s => { s with state := .reset })).modifyFlow f.head.stream
        (fun w => { w with reset := true }),.dispatch)
    | none => (self,.dispatch)

/-- The identifier and value pairs of a SETTINGS payload. -/
def settingsPairs : Bytes → List (ℕ × ℕ)
  | a :: b :: c :: d :: e :: f :: rest => (ofBe [a,b],ofBe [c,d,e,f]) :: settingsPairs rest
  | _ => []

def applySetting (self : Conn) (id v : ℕ) : Conn × Option ConnErr :=
  if id = Setting.initialWindowSize then
    if maxWindow < v then (self,some ⟨.flowControl,lit "window too large"⟩)
    else ({ self with peerInitialWindow := v },none)
  else if id = Setting.maxFrameSize then
    if v < defaultMaxFrame ∨ maxFrameLimit < v then (self,some ⟨.protocol,lit "bad MAX_FRAME_SIZE"⟩)
    else ({ self with maxFrame := v },none)
  else if id = Setting.enablePush then
    if 1 < v then (self,some ⟨.protocol,lit "bad ENABLE_PUSH"⟩) else (self,none)
  else if id = Setting.headerTableSize then ({ self with dec := self.dec.setMaxSize v },none)
  else (self,none)

def applySettings : Conn → List (ℕ × ℕ) → Conn × Option ConnErr
  | self, [] => (self,none)
  | self, (id,v) :: rest =>
    match self.applySetting id v with
    | (self,some e) => (self,some e)
    | (self,none) => self.applySettings rest

/-- A changed INITIAL_WINDOW_SIZE moves the window of every stream in the table. -/
def shiftWindows (self : Conn) (delta : ℤ) : Conn :=
  { self with
    flows := fun j =>
      if (self.streams.get? j).isSome then { self.flows j with window := (self.flows j).window + delta }
      else self.flows j }

def onSettings (self : Conn) (f : Frame) : Conn × Next :=
  if f.head.stream ≠ 0 then self.fail .protocol "SETTINGS on a stream"
  else if f.head.has Flag.ack then
    if f.head.len ≠ 0 then self.fail .frameSize "SETTINGS ack with payload" else (self,.again)
  else if f.head.len % 6 ≠ 0 then self.fail .frameSize "SETTINGS length not a multiple of 6"
  else
    match self.applySettings (settingsPairs f.payload) with
    | (self,some e) => (self,.ret (.error e))
    | (new,none) =>
      ((new.shiftWindows (new.peerInitialWindow - self.peerInitialWindow)).emit settingsAck,.dispatch)

def onPing (self : Conn) (f : Frame) : Conn × Next :=
  if f.head.stream ≠ 0 then self.fail .protocol "PING on a stream"
  else if f.head.len ≠ 8 then self.fail .frameSize "bad PING length"
  else if !f.head.has Flag.ack then (self.emit (writeFrame Kind.ping Flag.ack 0 f.payload),.dispatch)
  else (self,.dispatch)

def onWindowUpdate (self : Conn) (f : Frame) : Conn × Next :=
  if f.head.len ≠ 4 then self.fail .frameSize "bad WINDOW_UPDATE length"
  else if f.head.stream ≠ 0 ∧ self.stateOf f.head.stream = .idle then
    self.fail .protocol "WINDOW_UPDATE on an idle stream"
  else if Frame.first31 f.payload = 0 then
    if f.head.stream = 0 then self.fail .protocol "zero connection window update"
    else (self.resetStream f.head.stream .protocol,.again)
  else if f.head.stream = 0 then
    if maxWindow < self.connWindow + Frame.first31 f.payload then
      self.fail .flowControl "connection window overflow"
    else ({ self with connWindow := self.connWindow + Frame.first31 f.payload },.dispatch)
  else
    match self.streams.get? f.head.stream with
    | some _ =>
      if maxWindow < (self.flows f.head.stream).window + Frame.first31 f.payload then
        (self.resetStream f.head.stream .flowControl,.again)
      else
        (self.modifyFlow f.head.stream (fun w => { w with window := w.window + Frame.first31 f.payload }),
          .dispatch)
    | none => (self,.dispatch)

def arm (self : Conn) (f : Frame) : Conn × Next :=
  if f.head.kind = Kind.data then self.onData f
  else if f.head.kind = Kind.headers then self.onHeaders f
  else if f.head.kind = Kind.continuation then self.onContinuation f
  else if f.head.kind = Kind.priority then self.onPriority f
  else if f.head.kind = Kind.rstStream then self.onRstStream f
  else if f.head.kind = Kind.settings then self.onSettings f
  else if f.head.kind = Kind.ping then self.onPing f
  else if f.head.kind = Kind.windowUpdate then self.onWindowUpdate f
  else if f.head.kind = Kind.goaway then (self,.ret (.ok ()))
  else if f.head.kind = Kind.pushPromise then self.fail .protocol "PUSH_PROMISE from a client"
  else (self,.dispatch)

end Arms

section Dispatch

def isReady (s : Stream) : Bool := !s.dispatched && s.headersDone && s.state == .halfClosedRemote

def spawnStream (self : Conn) (id : ℕ) (st : Stream) : Conn :=
  { self.modifyStream id (fun s => { s with headers := [], body := [] }) with
    tasks := self.tasks ++ [⟨id,st.headers,st.body⟩] }

/-- Hands a complete request over, or resets it when its length is wrong. -/
def dispatchOne (self : Conn) (id : ℕ) : Conn :=
  match self.streams.get? id with
  | none => self
  | some st =>
    let self := self.modifyStream id (fun s => { s with dispatched := true })
    match st.contentLength with
    | some n =>
      if n ≠ st.body.length then
        (self.modifyFlow id (fun w => { w with done := true })).resetStream id .protocol
      else self.spawnStream id st
    | none => self.spawnStream id st

def dispatch (self : Conn) : Conn :=
  ((self.streams.entries.filter (fun e => isReady e.2)).map Prod.fst).foldl dispatchOne self

/-- One turn of the loop on a whole frame. -/
def readFrame (self : Conn) (f : Frame) : Conn × Next :=
  if defaultMaxFrame < f.head.len then self.fail .frameSize "frame exceeds max size"
  else if self.expectContinuation.any (fun i =>
      f.head.kind != Kind.continuation || f.head.stream != i) then
    self.fail .protocol "expected CONTINUATION"
  else
    match self.arm f with
    | (self,.dispatch) => (self.dispatch,.again)
    | r => r

/-- What `serve` does once `read_loop` has returned. -/
def shutdown (self : Conn) (r : Except ConnErr Unit) : Conn :=
  { self.emit (match r with
      | .ok () => goaway self.lastStream .noError []
      | .error e => goaway self.lastStream e.code e.why) with result := some r }

end Dispatch

end Conn

section System

/-- What can happen next on a connection: a frame arrives, reading ends at a
frame boundary or fails, a task sends a DATA frame, a task ends. -/
inductive Event
  | frame (f : Frame)
  | hangUp (r : Except ConnErr Unit)
  | send (id : ℕ) (data : Bytes)
  | finish (id : ℕ)

namespace Conn

def running (self : Conn) : List ℕ := self.tasks.map StreamTask.id

/-- A task may send while neither window is used up and its stream is not reset. -/
def canSend (self : Conn) (id : ℕ) (data : Bytes) : Bool :=
  id ∈ self.running && !(self.flows id).reset && self.result.isNone && data ≠ [] &&
    (data.length : ℤ) ≤ self.connWindow && (data.length : ℤ) ≤ (self.flows id).window &&
    data.length ≤ self.maxFrame

def next (self : Conn) : Event → Option Conn
  | .frame f =>
    if self.result.isSome then none
    else match self.readFrame f with
      | (self,.again) => some self
      | (self,.ret r) => some (self.shutdown r)
      | _ => none
  | .hangUp r => if self.result.isSome then none else some (self.shutdown r)
  | .send id data =>
    if self.canSend id data then
      some (({ self.emit (writeFrame Kind.data 0 id data) with
        connWindow := self.connWindow - data.length }).modifyFlow id
          (fun w => { w with window := w.window - data.length }))
    else none
  | .finish id =>
    if id ∈ self.running then
      some ({ self with tasks := self.tasks.filter (fun t => t.id ≠ id) }.modifyFlow id
        (fun w => { w with done := true }))
    else none

end Conn

end System

end OxiServe.Http2
