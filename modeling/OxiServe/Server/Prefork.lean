import Mathlib.Algebra.Ring.Nat
import OxiServe.Lib.Runs
import Mathlib.Data.List.Perm.Basic

/-! # The master and its workers

The master as a machine: where it is in its loop, the flags its signal handlers set, the
lists of the workers it knows of, and next to it the processes there are. A signal may
arrive and a worker may exit between any two steps of the master.
-/
namespace OxiServe.Server.Prefork

inductive Signal
  | stop | reload | reopen
deriving DecidableEq, Repr

/-- A configuration that is served, as far as it matters here. -/
structure Generation where
  conf : ℕ
  workers : ℕ
deriving DecidableEq, Repr

/-- A forked worker that is not yet waited for. -/
structure Proc where
  pid : ℕ
  live : Bool
  /-- It was sent SIGQUIT. -/
  quit : Bool
  /-- How often it was sent SIGUSR1. -/
  reopened : ℕ
deriving DecidableEq, Repr

/-- Where the master is. -/
inductive Pc
  /-- Forks the first workers. -/
  | starting (w : ℕ)
  /-- At the head of the loop. -/
  | head
  /-- Before RELOAD is read. -/
  | reopened
  /-- A reload was asked for, and STOP is read next. -/
  | asked
  /-- In `reload`, before the configuration is read. -/
  | loading
  /-- In `reload`, with some workers forked. -/
  | forking (next : Generation) (fresh : List (ℕ × ℕ))
  /-- Before `waitpid`. -/
  | calling
  /-- In `waitpid`, with a signal in between or not. -/
  | waiting (interrupted : Bool)
  /-- Behind `EINTR`, before STOP is read. -/
  | interrupted
  /-- A worker was waited for. -/
  | reaped (pid : ℕ)
  /-- A worker of the current set is gone, and STOP is read next. -/
  | lost (w : ℕ)
  | respawning (w : ℕ)
  /-- Waits for all the workers before it ends. -/
  | draining (rest : List ℕ)
  | exited (ok : Bool)
deriving DecidableEq, Repr

structure State where
  stop : Bool
  reload : ℕ
  reopen : ℕ
  pc : Pc
  gen : Generation
  children : List (ℕ × ℕ)
  retiring : List ℕ
  procs : List Proc
deriving DecidableEq, Repr

inductive Event
  | signal (sig : Signal)
  /-- A worker exits. -/
  | die (pid : ℕ)
  | fork (pid : ℕ)
  | forkFails
  /-- What reading, parsing and binding the new configuration comes to. -/
  | prepare (next : Option Generation)
  | eintr
  /-- `waitpid` returns a worker that has exited. -/
  | reap (pid : ℕ)
  /-- The next step of the master itself. -/
  | go
deriving DecidableEq, Repr

/-- `Vec::swap_remove` -/
def swapRemove {α : Type} (l : List α) (i : ℕ) : List α :=
  match l.getLast? with
  | none => []
  | some z => (l.set i z).dropLast

namespace State

def init (gen : Generation) : State := ⟨false,0,0,.starting 0,gen,[],[],[]⟩

/-- The workers the master knows of. -/
def tracked (s : State) : List ℕ := s.children.map Prod.fst ++ s.retiring

/-- Sends SIGQUIT. -/
def quit (s : State) (pids : List ℕ) : State :=
  { s with procs := s.procs.map (fun p => if p.pid ∈ pids then { p with quit := true } else p) }

/-- Sends SIGUSR1. -/
def usr1 (s : State) (pids : List ℕ) : State :=
  { s with procs := s.procs.map (fun p => if p.pid ∈ pids then { p with reopened := p.reopened + 1 } else p) }

def bump (n : ℕ) : ℕ := (n + 1) % 2 ^ 32

def onSignal (s : State) : Signal → State
  | .stop => { s with stop := true }
  | .reload => { s with reload := bump s.reload }
  | .reopen => { s with reopen := bump s.reopen }

/-- A process of that number is there and has exited. -/
def zombie (s : State) (pid : ℕ) : Bool := s.procs.any (fun p => p.pid == pid && !p.live)

def collect (s : State) (pid : ℕ) : State := { s with procs := s.procs.filter (fun p => p.pid != pid) }

/-- Forks a worker. -/
def forked (s : State) (pid : ℕ) : State := { s with procs := s.procs ++ [⟨pid,true,false,0⟩] }

/-- The new generation takes over. -/
def commit (s : State) (next : Generation) (fresh : List (ℕ × ℕ)) : State :=
  let s := { s with retiring := s.retiring ++ s.children.map Prod.fst }.quit (s.children.map Prod.fst)
  { s with children := fresh, gen := next, pc := .head }

/-- The bookkeeping behind a `waitpid` that returned a worker. -/
def release (s : State) (pid : ℕ) : State :=
  match s.retiring.findIdx? (· == pid) with
  | some i => { s with retiring := swapRemove s.retiring i, pc := .head }
  | none =>
    match s.children.findIdx? (fun c => c.1 == pid) with
    | none => { s with pc := .head }
    | some i => { s with children := swapRemove s.children i, pc := .lost (s.children[i]?.map Prod.snd |>.getD 0) }

def go (s : State) : Option State :=
  match s.pc with
  | .starting w => if w < s.gen.workers then none else some { s with pc := .head }
  | .head =>
    let t := if 0 < s.reopen then s.usr1 s.tracked else s
    some { t with reopen := 0, pc := .reopened }
  | .reopened => some { s with reload := 0, pc := if 0 < s.reload then .asked else .calling }
  | .asked => some { s with pc := if s.stop then .calling else .loading }
  | .forking next fresh => if fresh.length < next.workers then none else some (s.commit next fresh)
  | .calling => some { s with pc := .waiting false }
  | .waiting _ => if s.procs = [] then some { s with pc := .exited true } else none
  | .interrupted =>
    some (if s.stop then { s.quit s.tracked with pc := .draining s.tracked } else { s with pc := .head })
  | .reaped pid => some (s.release pid)
  | .lost w =>
    some { s with pc := if s.stop then (if s.children = [] && s.retiring = [] then .exited true else .head) else .respawning w }
  | .draining [] => some { s with pc := .exited true }
  | .draining (p :: rest) =>
    if s.procs.any (fun q => q.pid == p && q.live) then none else some { s.collect p with pc := .draining rest }
  | .loading => none
  | .respawning _ => none
  | .exited _ => none

def step (s : State) : Event → Option State
  | .signal sig =>
    let t := s.onSignal sig
    some (match s.pc with
      | .waiting _ => { t with pc := .waiting true }
      | _ => t)
  | .die pid =>
    if s.procs.any (fun p => p.pid == pid && p.live) then
      some { s with procs := s.procs.map (fun p => if p.pid == pid then { p with live := false } else p) }
    else none
  | .fork pid =>
    if s.procs.any (fun p => p.pid == pid) then none
    else
      match s.pc with
      | .starting w =>
        if w < s.gen.workers then some { s.forked pid with children := s.children ++ [(pid,w)], pc := .starting (w + 1) }
        else none
      | .forking next fresh =>
        if fresh.length < next.workers then some { s.forked pid with pc := .forking next (fresh ++ [(pid,fresh.length)]) }
        else none
      | .respawning w => some { s.forked pid with children := s.children ++ [(pid,w)], pc := .head }
      | _ => none
  | .forkFails =>
    match s.pc with
    | .starting w => if w < s.gen.workers then some { s with pc := .exited false } else none
    | .forking next fresh => if fresh.length < next.workers then some { s with pc := .head } else none
    | .respawning _ => some { s with pc := .exited false }
    | _ => none
  | .prepare next =>
    match s.pc with
    | .loading =>
      some { s with pc := match next with
        | none => .head
        | some g => .forking g [] }
    | _ => none
  | .eintr =>
    match s.pc with
    | .waiting true => some { s with pc := .interrupted }
    | .draining (_ :: rest) => some { s with pc := .draining rest }
    | _ => none
  | .reap pid =>
    match s.pc with
    | .waiting _ => if s.zombie pid then some { s.collect pid with pc := .reaped pid } else none
    | _ => none
  | .go => s.go

end State

end OxiServe.Server.Prefork
