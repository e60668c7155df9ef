import OxiServe.Lib.Runs
import OxiServe.Server.CacheEntry
import Mathlib.Data.Fintype.Basic

/-! # One cache file and who writes it

The file of a key is written under a temporary name and renamed into place. The temporary
name is made of the process id, so the threads of a process share it. Opening truncates what
is there, reading takes several calls, readers remove what they cannot decode and the manager
removes what it finds due.
-/
namespace OxiServe.Server.CacheFile
open Cache

inductive Phase
  | idle
  /-- `std::fs::write` with so much written, and then the rename. -/
  | writing (data : Bytes) (inode offset : ℕ)
  | reading (inode : ℕ) (got : Bytes)
  | removing
  | loaded
  /-- `touch_if_stale` with the length it is about to set. -/
  | touching (inode len : ℕ)
deriving DecidableEq, Repr

def Phase.isWriting : Phase → Bool
  | .writing _ _ _ => true
  | _ => false

/-- The directory as far as it concerns a key, the threads at work, the data that `store`
was called with and what `load` returned. -/
structure State (T P : Type) where
  files : ℕ → Bytes
  used : ℕ
  entry : Option ℕ
  temp : P → Option ℕ
  phase : T → Phase
  given : List Bytes
  returned : List Dated

inductive Act (T P : Type)
  | create (t : T) (data : Bytes)
  | write (t : T) (n : ℕ)
  | fail (t : T)
  | rename (t : T)
  | openEntry (t : T)
  | read (t : T) (n : ℕ)
  | decode (t : T)
  | remove (t : T)
  | touch (t : T) (stale : Bool)
  | setLen (t : T)
  /-- `collect` comes across a temporary file. -/
  | removeTemp (p : P)
  /-- The manager finds the entry too old, or the zone too large. -/
  | removeEntry

def overwrite (content : Bytes) (offset : ℕ) (chunk : Bytes) : Bytes :=
  (content ++ List.replicate (offset - content.length) 0).take offset ++ chunk ++ content.drop (offset + chunk.length)

def resize (content : Bytes) (len : ℕ) : Bytes := (content ++ List.replicate (len - content.length) 0).take len

section Steps
variable {T P : Type} [DecidableEq T] [DecidableEq P]

def State.init : State T P := ⟨fun _ => [],0,none,fun _ => none,fun _ => .idle,[],[]⟩

def State.to (s : State T P) (t : T) (ph : Phase) : State T P := { s with phase := Function.update s.phase t ph }

/-- One system call, or what a thread does between two of them. -/
def step (proc : T → P) (key : Bytes) (s : State T P) : Act T P → Option (State T P)
  | .create t data =>
    if s.phase t = .idle then
      let i := (s.temp (proc t)).getD s.used
      some { s with
        files := Function.update s.files i []
        used := max s.used (i + 1)
        temp := Function.update s.temp (proc t) (some i)
        phase := Function.update s.phase t (.writing data i 0)
        given := s.given ++ [data] }
    else none
  | .write t n =>
    match s.phase t with
    | .writing data i off =>
      if 1 ≤ n ∧ off + n ≤ data.length then
        some { s with
          files := Function.update s.files i (overwrite (s.files i) off ((data.drop off).take n))
          phase := Function.update s.phase t (.writing data i (off + n)) }
      else none
    | _ => none
  | .fail t =>
    match s.phase t with
    | .writing _ _ _ => some (s.to t .idle)
    | _ => none
  | .rename t =>
    match s.phase t with
    | .writing data _ off =>
      if off = data.length then
        match s.temp (proc t) with
        | some j => some { s with
            entry := some j
            temp := Function.update s.temp (proc t) none
            phase := Function.update s.phase t .idle }
        | none => some (s.to t .idle)
      else none
    | _ => none
  | .openEntry t =>
    if s.phase t = .idle then
      match s.entry with
      | some i => some (s.to t (.reading i []))
      | none => some s
    else none
  | .read t n =>
    match s.phase t with
    | .reading i got =>
      if 1 ≤ n ∧ got.length + n ≤ (s.files i).length then
        some (s.to t (.reading i (got ++ ((s.files i).drop got.length).take n)))
      else none
    | _ => none
  | .decode t =>
    match s.phase t with
    | .reading i got =>
      if (s.files i).length ≤ got.length then
        match decodeEntry got key with
        | some (.ok d) => some { s.to t .loaded with returned := s.returned ++ [d] }
        | _ => some (s.to t .removing)
      else none
    | _ => none
  | .remove t => if s.phase t = .removing then some { s.to t .idle with entry := none } else none
  | .touch t stale =>
    if s.phase t = .loaded then
      match s.entry with
      | some i => some (s.to t (if stale then .touching i (s.files i).length else .idle))
      | none => some (s.to t .idle)
    else none
  | .setLen t =>
    match s.phase t with
    | .touching i len =>
      some { s.to t .idle with files := Function.update s.files i (resize (s.files i) len) }
    | _ => none
  | .removeTemp p => some { s with temp := Function.update s.temp p none }
  | .removeEntry => some { s with entry := none }

/-- What loads returned are entries that `store` was called with. -/
def Whole (key : Bytes) (s : State T P) : Prop :=
  ∀ d ∈ s.returned, ∃ data ∈ s.given, decodeEntry data key = some (.ok d)

/-- No other thread of the process is on its way from opening the temporary file to the
rename. -/
def Alone (proc : T → P) (s : State T P) : Act T P → Prop
  | .create t _ => ∀ u, proc u = proc t → (s.phase u).isWriting = false
  | _ => True

instance [Fintype T] (proc : T → P) (s : State T P) (a : Act T P) : Decidable (Alone proc s a) :=
  match a with
  | .create t _ => inferInstanceAs (Decidable (∀ u, proc u = proc t → (s.phase u).isWriting = false))
  | .write _ _ | .fail _ | .rename _ | .openEntry _ | .read _ _ | .decode _ | .remove _ | .touch _ _ | .setLen _
  | .removeTemp _ | .removeEntry => isTrue trivial

end Steps

end OxiServe.Server.CacheFile
