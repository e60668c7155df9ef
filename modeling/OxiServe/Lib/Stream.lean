import OxiServe.Lib.Bytes

/-! # Byte sources and sinks

A source is read in pieces of bounded size and a sink takes a bounded number of
bytes. What a source hands over until its end does not mention the loop that
reads it, and consecutive writes to a sink are one write of the concatenation.
-/
namespace OxiServe

/-- One read: bytes, none of them at the end of the source, or an error. -/
inductive ReadResult
  | data (b : Bytes)
  | failed
deriving DecidableEq, Repr

/-- A source that shrinks with every read that yields bytes. -/
class Reader (ρ : Type) where
  read : ℕ → ρ → ReadResult × ρ
  size : ρ → ℕ
  size_lt : ∀ {cap r b r'}, read cap r = (.data b,r') → b ≠ [] → size r' < size r
  length_le : ∀ {cap r b r'}, read cap r = (.data b,r') → b.length ≤ cap

section Delivery
variable {ρ : Type} [Reader ρ]

/-- Reads until the end or an error; the flag is false after an error. -/
def drain (cap : ℕ) : ℕ → ρ → Bytes × Bool
  | 0, _ => ([],false)
  | fuel + 1, r =>
    match Reader.read cap r with
    | (.failed,_) => ([],false)
    | (.data b,r') => if b = [] then ([],true) else (b ++ (drain cap fuel r').1,(drain cap fuel r').2)

/-- All a source hands over in pieces of at most `cap` bytes. -/
def delivery (cap : ℕ) (r : ρ) : Bytes × Bool := drain cap (Reader.size r + 1) r

theorem drain_eq_delivery {cap fuel : ℕ} {r : ρ} (h : Reader.size r < fuel) :
    drain cap fuel r = delivery cap r := by
  suffices hf : ∀ n m, Reader.size r < n → Reader.size r < m → drain cap n r = drain cap m r by
    exact hf _ _ h (Nat.lt_succ_self _)
  intro n
  induction n generalizing r with
  | zero => intro m hn; omega
  | succ n ih =>
    intro m hn hm
    cases m with
    | zero => omega
    | succ m =>
      simp only [drain]
      rcases hr : Reader.read cap r with ⟨b | _,r'⟩
      · by_cases hb : b = []
        · simp only [if_pos hb]
        · have hlt := Reader.size_lt hr hb
          have hk := ih (r := r') (by omega) m (by omega) (by omega)
          simp only [if_neg hb,hk]
      · rfl

theorem delivery_failed {cap : ℕ} {r r' : ρ} (h : Reader.read cap r = (.failed,r')) :
    delivery cap r = ([],false) := by
  simp only [delivery,drain,h]

theorem delivery_end {cap : ℕ} {r r' : ρ} (h : Reader.read cap r = (.data [],r')) :
    delivery cap r = ([],true) := by
  simp only [delivery,drain,h,↓reduceIte]

theorem delivery_data {cap : ℕ} {r r' : ρ} {b : Bytes} (h : Reader.read cap r = (.data b,r'))
    (hb : b ≠ []) : delivery cap r = (b ++ (delivery cap r').1,(delivery cap r').2) := by
  have hd : drain cap (Reader.size r) r' = delivery cap r' := drain_eq_delivery (Reader.size_lt h hb)
  rw [← hd]
  simp only [delivery,drain,h,if_neg hb]

end Delivery

section Source

/-- Segments as they arrive; a read returns one segment or the front of it. -/
abbrev Source := List ReadResult

def Source.read (cap : ℕ) : Source → ReadResult × Source
  | [] => (.data [],[])
  | .failed :: s => (.failed,s)
  | .data b :: s => if b.length ≤ cap then (.data b,s) else (.data (b.take cap),.data (b.drop cap) :: s)

def Source.size : Source → ℕ
  | [] => 0
  | .failed :: s => Source.size s + 1
  | .data b :: s => b.length + Source.size s + 1

theorem Source.size_lt {cap : ℕ} {s s' : Source} {b : Bytes} (h : Source.read cap s = (.data b,s'))
    (hb : b ≠ []) : Source.size s' < Source.size s := by
  match s with
  | [] =>
    cases h
    exact absurd rfl hb
  | .failed :: s => cases h
  | .data c :: s =>
    simp only [Source.read] at h
    split at h
    · cases h
      simp only [Source.size]
      omega
    · cases h
      have hp := List.length_pos_iff.mpr hb
      simp only [List.length_take] at hp
      simp only [Source.size,List.length_drop]
      omega

theorem Source.length_le {cap : ℕ} {s s' : Source} {b : Bytes} (h : Source.read cap s = (.data b,s')) :
    b.length ≤ cap := by
  match s with
  | [] =>
    cases h
    exact Nat.zero_le _
  | .failed :: s => cases h
  | .data c :: s =>
    simp only [Source.read] at h
    split at h
    · cases h
      assumption
    · cases h
      exact List.length_take_le _ _

instance : Reader Source where
  read := Source.read
  size := Source.size
  size_lt := Source.size_lt
  length_le := Source.length_le

/-- The bytes up to the end or the first error, and which of the two it is. -/
def Source.contents : Source → Bytes × Bool
  | [] => ([],true)
  | .failed :: _ => ([],false)
  | .data b :: s => if b = [] then ([],true) else (b ++ (Source.contents s).1,(Source.contents s).2)

/-- Segmentation and buffer size do not change what arrives. -/
theorem Source.delivery_eq_contents {cap : ℕ} (hc : 0 < cap) (s : Source) :
    delivery cap s = Source.contents s := by
  induction hn : Source.size s using Nat.strongRecOn generalizing s with
  | ind n ih =>
    match s with
    | [] =>
      have hr : Reader.read cap ([] : Source) = (.data [],[]) := rfl
      exact delivery_end hr
    | .failed :: s =>
      have hr : Reader.read cap (.failed :: s : Source) = (.failed,s) := rfl
      exact delivery_failed hr
    | .data b :: s =>
      by_cases hb : b = []
      · subst hb
        have hr : Reader.read cap (.data [] :: s : Source) = (.data [],s) := rfl
        rw [delivery_end hr]
        rfl
      · by_cases hl : b.length ≤ cap
        · have hr : Reader.read cap (.data b :: s : Source) = (.data b,s) := if_pos hl
          rw [delivery_data hr hb,ih _ (by rw [← hn]; exact Source.size_lt hr hb) s rfl]
          simp only [Source.contents,if_neg hb]
        · have hr : Reader.read cap (.data b :: s : Source) = (.data (b.take cap),.data (b.drop cap) :: s) :=
            if_neg hl
          have ht : b.take cap ≠ [] := by
            intro h
            have := congrArg List.length h
            simp only [List.length_take,List.length_nil] at this
            omega
          have hd : b.drop cap ≠ [] := by
            intro h
            have := congrArg List.length h
            simp only [List.length_drop,List.length_nil] at this
            omega
          rw [delivery_data hr ht,ih _ (by rw [← hn]; exact Source.size_lt hr ht) _ rfl]
          simp only [Source.contents,if_neg hb,if_neg hd]
          rw [← List.append_assoc,List.take_append_drop]

end Source

section Sink

/-- The writing half of a connection: what went out, and how much more the peer
takes before a write fails. -/
structure Sink where
  out : Bytes
  room : Option ℕ
  flushOk : Bool
deriving DecidableEq, Repr

namespace Sink

def takes (s : Sink) (n : ℕ) : Bool :=
  match s.room with
  | none => true
  | some k => n ≤ k

/-- The part of `b` that goes out before the peer stops taking bytes. -/
def fitting (s : Sink) (b : Bytes) : Bytes :=
  match s.room with
  | none => b
  | some k => b.take k

def writeAll (s : Sink) (b : Bytes) : Sink × Bool :=
  ({ s with out := s.out ++ s.fitting b, room := s.room.map (· - b.length) },s.takes b.length)

@[simp] theorem writeAll_snd (s : Sink) (b : Bytes) : (s.writeAll b).2 = s.takes b.length := rfl

@[simp] theorem writeAll_flushOk (s : Sink) (b : Bytes) : (s.writeAll b).1.flushOk = s.flushOk := rfl

@[simp] theorem writeAll_nil (s : Sink) : s.writeAll [] = (s,true) := by
  rcases s with ⟨out,room,ok⟩
  cases room <;> simp [writeAll,fitting,takes]

theorem takes_append {s : Sink} {a b : Bytes} :
    s.takes (a ++ b).length = (s.takes a.length && (s.writeAll a).1.takes b.length) := by
  rcases s with ⟨out,room,ok⟩
  cases room with
  | none => rfl
  | some k =>
    rw [Bool.eq_iff_iff]
    simp only [takes,writeAll,Option.map_some,List.length_append,Bool.and_eq_true,decide_eq_true_eq]
    omega

theorem writeAll_append (s : Sink) (a b : Bytes) :
    (s.writeAll (a ++ b)).1 = ((s.writeAll a).1.writeAll b).1 := by
  rcases s with ⟨out,room,ok⟩
  cases room with
  | none => simp [writeAll,fitting]
  | some k =>
    simp only [writeAll,fitting,Option.map_some,List.append_assoc,List.length_append,Sink.mk.injEq,
      Option.some.injEq,and_true,List.append_cancel_left_eq]
    exact ⟨List.take_append,by omega⟩

end Sink

end Sink

end OxiServe
