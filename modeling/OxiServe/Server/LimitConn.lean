import OxiServe.Lib.Bytes
import OxiServe.Lib.Runs
import Mathlib.Data.Nat.Bitwise
import Mathlib.Data.UInt

/-! # Request limits per key

A zone counts the requests a key has in flight in a table of shared words, each
the tag of a key and its count. Every operation is a task that takes one atomic
step at a time on the words, in any order with the others; a guard is live from
the exchange that counted it to the one that gives it back.
-/
namespace OxiServe.LimitConn

/-- How far a probe walks before giving up. -/
def probe : ℕ := 16

def maxConns : ℕ := 65535

def countBits : ℕ := 16

def countMask : ℕ := 2 ^ countBits - 1

def pack (tag count : ℕ) : ℕ := (tag <<< countBits) % 2 ^ 64 ||| (count &&& countMask)

def tagOf (w : ℕ) : ℕ := w >>> countBits

def countOf (w : ℕ) : ℕ := w &&& countMask

/-- One `limit_conn_zone`; the seed is drawn when the zone is made. -/
structure Zone where
  maxEntries : ℕ
  seed : UInt64

def nextPowerOfTwo (n : ℕ) : ℕ := if n ≤ 1 then 1 else 2 ^ ((n - 1).log2 + 1)

namespace Zone

def slots (z : Zone) : ℕ := max (nextPowerOfTwo z.maxEntries) 64

def mask (z : Zone) : ℕ := z.slots - 1

/-- FNV-1a over the seed and the key, folded into 48 bits; a key's tag is never 0. -/
def tag (z : Zone) (key : Bytes) : ℕ :=
  let h := key.foldl (fun (h : UInt64) (b : UInt8) => (h ^^^ b.toUInt64) * 0x100000001b3) (0xcbf29ce484222325 ^^^ z.seed)
  let t := (h ^^^ (h >>> 48)) &&& 0xffffffffffff
  if t = 0 then 1 else t.toNat

/-- The slot at position `p` of the window of `tag`. -/
def slotAt (z : Zone) (tag p : ℕ) : ℕ := ((tag &&& z.mask) + p) &&& z.mask

end Zone

/-- Where an operation is, named by its next atomic access: the probe of
`acquire`, its claim of an empty slot, the second look at a reusable slot and
the takeover, the load and the exchange of `increment`, a held guard, and the
load and the exchange of `release`. -/
inductive Task
  | probing (tag limit p : ℕ) (reusable : Option ℕ)
  | claiming (tag limit p : ℕ) (reusable : Option ℕ)
  | reloading (tag i : ℕ)
  | takingOver (tag i w : ℕ)
  | counting (tag limit i : ℕ)
  | bumping (tag limit i w : ℕ)
  | held (tag i : ℕ)
  | releasing (tag i : ℕ)
  | lowering (tag i w : ℕ)
  | finished
deriving DecidableEq, Repr

/-- The tag and slot of the guard a task stands for. -/
def Task.live : Task → Option (ℕ × ℕ)
  | .held tag i => some (tag,i)
  | .releasing tag i => some (tag,i)
  | .lowering tag i _ => some (tag,i)
  | _ => none

/-- The words with one of them replaced. -/
def write (words : ℕ → ℕ) (i w : ℕ) : ℕ → ℕ := fun j => if j = i then w else words j

/-- The next turn of the probe, or what follows the last one. -/
def onward (tag limit p : ℕ) (reusable : Option ℕ) : Task :=
  if p < probe then .probing tag limit p reusable
  else match reusable with
    | some i => .reloading tag i
    | none => .finished

/-- One atomic step of a task. -/
def Zone.advance (z : Zone) (words : ℕ → ℕ) : Task → Option ((ℕ → ℕ) × Task)
  | .probing tag limit p reusable =>
    let i := z.slotAt tag p
    let w := words i
    if w = 0 then some (words,.claiming tag limit p reusable)
    else if tagOf w = tag then some (words,.counting tag limit i)
    else some (words,onward tag limit (p + 1) (if reusable.isNone && countOf w == 0 then some i else reusable))
  | .claiming tag limit p reusable =>
    let i := z.slotAt tag p
    if words i = 0 then some (write words i (pack tag 1),.held tag i)
    else if tagOf (words i) = tag then some (words,.counting tag limit i)
    else some (words,onward tag limit (p + 1) reusable)
  | .reloading tag i =>
    if countOf (words i) = 0 then some (words,.takingOver tag i (words i)) else some (words,.finished)
  | .takingOver tag i w =>
    if words i = w then some (write words i (pack tag 1),.held tag i) else some (words,.finished)
  | .counting tag limit i =>
    let w := words i
    if w ≠ 0 ∧ tagOf w ≠ tag then some (words,.finished)
    else if limit ≤ countOf w ∨ countMask ≤ countOf w then some (words,.finished)
    else some (words,.bumping tag limit i w)
  | .bumping tag limit i w =>
    if words i = w then some (write words i (pack tag (countOf w + 1)),.held tag i)
    else some (words,.counting tag limit i)
  | .releasing tag i =>
    let w := words i
    if tagOf w ≠ tag ∨ countOf w = 0 then some (words,.finished) else some (words,.lowering tag i w)
  | .lowering tag i w =>
    if words i = w then some (write words i (pack tag (countOf w - 1)),.finished)
    else some (words,.releasing tag i)
  | .held _ _ => none
  | .finished => none

/-- The shared words and every operation started so far. -/
structure State where
  words : ℕ → ℕ
  tasks : List Task

/-- A call of `acquire`, the drop of a guard, or one atomic step of a task. -/
inductive Event
  | acquire (key : Bytes) (limit : ℕ)
  | drop (t : ℕ)
  | step (t : ℕ)
deriving DecidableEq, Repr

namespace State

def new : State := ⟨fun _ => 0,[]⟩

/-- The live guards on slot `i`. -/
def liveOn (s : State) (i : ℕ) : ℕ := s.tasks.countP fun k => k.live.any fun g => g.2 == i

/-- The live guards that carry `tag`. -/
def liveFor (s : State) (tag : ℕ) : ℕ := s.tasks.countP fun k => k.live.any fun g => g.1 == tag

end State

def Zone.next (z : Zone) (s : State) : Event → Option State
  | .acquire key limit =>
    some { s with tasks := s.tasks ++ [onward (z.tag key) (min limit maxConns) 0 none] }
  | .drop t => match s.tasks[t]? with
    | some (.held tag i) => some { s with tasks := s.tasks.set t (.releasing tag i) }
    | _ => none
  | .step t => match s.tasks[t]? with
    | some k => (z.advance s.words k).map fun r => ⟨r.1,s.tasks.set t r.2⟩
    | none => none

section Words

theorem tagOf_pack {tag count : ℕ} (ht : tag < 2 ^ 48) (hc : count < 2 ^ 16) : tagOf (pack tag count) = tag := by
  have hlow : tag <<< countBits < 2 ^ 64 := by
    rw [Nat.shiftLeft_eq,countBits]
    omega
  rw [pack,tagOf,countMask,Nat.and_two_pow_sub_one_eq_mod,Nat.mod_eq_of_lt hlow,countBits,Nat.mod_eq_of_lt hc,
    ← Nat.shiftLeft_add_eq_or_of_lt hc,Nat.shiftLeft_eq,Nat.shiftRight_eq_div_pow]
  omega

theorem countOf_pack {tag count : ℕ} (ht : tag < 2 ^ 48) (hc : count < 2 ^ 16) : countOf (pack tag count) = count := by
  have hlow : tag <<< countBits < 2 ^ 64 := by
    rw [Nat.shiftLeft_eq,countBits]
    omega
  rw [pack,countOf,countMask,Nat.and_two_pow_sub_one_eq_mod,Nat.and_two_pow_sub_one_eq_mod,Nat.mod_eq_of_lt hlow,
    countBits,Nat.mod_eq_of_lt hc,← Nat.shiftLeft_add_eq_or_of_lt hc,Nat.shiftLeft_eq]
  omega

@[simp] theorem countOf_zero : countOf 0 = 0 := rfl

@[simp] theorem tagOf_zero : tagOf 0 = 0 := rfl

@[simp] theorem write_same (words : ℕ → ℕ) (i w : ℕ) : write words i w i = w := if_pos rfl

theorem write_other (words : ℕ → ℕ) {i j : ℕ} (w : ℕ) (h : j ≠ i) : write words i w j = words j := if_neg h

theorem Zone.tag_pos (z : Zone) (key : Bytes) : 0 < z.tag key := by
  simp only [Zone.tag]
  split
  · exact Nat.one_pos
  · next h =>
    exact Nat.pos_of_ne_zero fun h0 => h (UInt64.toNat_inj.mp h0)

theorem Zone.tag_lt (z : Zone) (key : Bytes) : z.tag key < 2 ^ 48 := by
  simp only [Zone.tag]
  split
  · decide
  · rw [UInt64.toNat_and]
    exact Nat.lt_of_le_of_lt Nat.and_le_right (by decide)

end Words

section Steps

/-- What a task carries along from its earlier accesses. -/
def Task.Sound : Task → Prop
  | .probing tag _ _ _ => tag < 2 ^ 48
  | .claiming tag _ _ _ => tag < 2 ^ 48
  | .reloading tag _ => tag < 2 ^ 48
  | .takingOver tag _ w => tag < 2 ^ 48 ∧ countOf w = 0
  | .counting tag _ _ => tag < 2 ^ 48
  | .bumping tag limit _ w =>
    tag < 2 ^ 48 ∧ (w = 0 ∨ tagOf w = tag) ∧ countOf w < limit ∧ countOf w < countMask
  | .held tag _ => tag < 2 ^ 48
  | .releasing tag _ => tag < 2 ^ 48
  | .lowering tag _ w => tag < 2 ^ 48 ∧ tagOf w = tag ∧ 0 < countOf w
  | .finished => True

/-- The effects an atomic step can have on the words and on the task's guard. -/
inductive Moves (words : ℕ → ℕ) (k : Task) : (ℕ → ℕ) → Task → Prop
  | quiet {k' : Task} : k'.live = k.live → Moves words k words k'
  | gain {k' : Task} {tag i : ℕ} : k.live = none → k'.live = some (tag,i) → tag < 2 ^ 48 →
      (tagOf (words i) = tag ∨ countOf (words i) = 0) → countOf (words i) < countMask →
      Moves words k (write words i (pack tag (countOf (words i) + 1))) k'
  | lose {k' : Task} {tag i : ℕ} : k.live = some (tag,i) → k'.live = none → tag < 2 ^ 48 →
      tagOf (words i) = tag → 0 < countOf (words i) →
      Moves words k (write words i (pack tag (countOf (words i) - 1))) k'
  | slip {k' : Task} {tag i : ℕ} : k.live = some (tag,i) → k'.live = none →
      (tagOf (words i) ≠ tag ∨ countOf (words i) = 0) → Moves words k words k'

theorem onward_live (tag limit p : ℕ) (r : Option ℕ) : (onward tag limit p r).live = none := by
  unfold onward
  split
  · rfl
  · cases r <;> rfl

theorem onward_sound {tag : ℕ} (limit p : ℕ) (r : Option ℕ) (ht : tag < 2 ^ 48) : (onward tag limit p r).Sound := by
  unfold onward
  split
  · exact ht
  · cases r with
    | none => trivial
    | some i => exact ht

variable {z : Zone} {words words' : ℕ → ℕ} {k k' : Task}

theorem moves_claim {tag i : ℕ} (ht : tag < 2 ^ 48) (hk : k.live = none) (hc : countOf (words i) = 0) :
    Moves words k (write words i (pack tag 1)) (.held tag i) := by
  have hgain : Moves words k (write words i (pack tag (countOf (words i) + 1))) (.held tag i) :=
    .gain hk rfl ht (.inr hc) (by rw [hc]; decide)
  rwa [hc] at hgain

theorem advance_cases (hs : k.Sound) (h : z.advance words k = some (words',k')) :
    k'.Sound ∧ Moves words k words' k' := by
  cases k with
  | probing tag limit p r =>
    simp only [Zone.advance] at h
    split at h
    · cases h; exact ⟨hs,.quiet rfl⟩
    · split at h
      · cases h; exact ⟨hs,.quiet rfl⟩
      · cases h; exact ⟨onward_sound _ _ _ hs,.quiet (onward_live _ _ _ _)⟩
  | claiming tag limit p r =>
    simp only [Zone.advance] at h
    split at h
    · next hz => cases h; exact ⟨hs,moves_claim hs rfl (by rw [hz]; rfl)⟩
    · split at h
      · cases h; exact ⟨hs,.quiet rfl⟩
      · cases h; exact ⟨onward_sound _ _ _ hs,.quiet (onward_live _ _ _ _)⟩
  | reloading tag i =>
    simp only [Zone.advance] at h
    split at h
    · next hz => cases h; exact ⟨⟨hs,hz⟩,.quiet rfl⟩
    · cases h; exact ⟨trivial,.quiet rfl⟩
  | takingOver tag i w =>
    simp only [Zone.advance] at h
    split at h
    · next hw => cases h; exact ⟨hs.1,moves_claim hs.1 rfl (by rw [hw]; exact hs.2)⟩
    · cases h; exact ⟨trivial,.quiet rfl⟩
  | counting tag limit i =>
    simp only [Zone.advance] at h
    split at h
    · cases h; exact ⟨trivial,.quiet rfl⟩
    · next htag =>
      split at h
      · cases h; exact ⟨trivial,.quiet rfl⟩
      · next hroom =>
        cases h
        refine ⟨⟨hs,?_,?_,?_⟩,.quiet rfl⟩
        · by_contra hne
          exact htag ⟨fun h0 => hne (.inl h0),fun ht => hne (.inr ht)⟩
        · exact Nat.lt_of_not_le fun hle => hroom (.inl hle)
        · exact Nat.lt_of_not_le fun hle => hroom (.inr hle)
  | bumping tag limit i w =>
    simp only [Zone.advance] at h
    obtain ⟨ht,htag,hlim,hmask⟩ := hs
    split at h
    · next hw =>
      cases h
      subst hw
      refine ⟨ht,.gain rfl rfl ht ?_ hmask⟩
      rcases htag with h0 | htag
      · exact .inr (by rw [h0]; rfl)
      · exact .inl htag
    · cases h; exact ⟨ht,.quiet rfl⟩
  | held tag i => cases h
  | releasing tag i =>
    simp only [Zone.advance] at h
    split at h
    · next hbad => cases h; exact ⟨trivial,.slip rfl rfl hbad⟩
    · next hgood =>
      cases h
      refine ⟨⟨hs,?_,?_⟩,.quiet rfl⟩
      · by_contra hne
        exact hgood (.inl hne)
      · exact Nat.pos_of_ne_zero fun h0 => hgood (.inr h0)
  | lowering tag i w =>
    simp only [Zone.advance] at h
    obtain ⟨ht,htag,hpos⟩ := hs
    split at h
    · next hw =>
      cases h
      subst hw
      exact ⟨trivial,.lose rfl rfl ht htag hpos⟩
    · cases h; exact ⟨ht,.quiet rfl⟩
  | finished => cases h

end Steps

end OxiServe.LimitConn
