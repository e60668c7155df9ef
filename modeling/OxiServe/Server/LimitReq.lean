import Mathlib.Data.Nat.Bitwise
import Mathlib.Data.UInt
import OxiServe.Server.Env

/-! # Request rates per key

A zone keeps one bucket for each key in a table of shared entries, the hash of
the key and a word that packs when it was last seen with its excess in
milli-requests. The state of a key is touched only by requests that are admitted.
-/
namespace OxiServe.LimitReq
open Server (Decision)

def scale : ℕ := 1000

/-- How far a probe walks before it evicts. -/
def probe : ℕ := 16

def excessBits : ℕ := 24

def excessMask : ℕ := 2 ^ excessBits - 1

def msMask : ℕ := 2 ^ 39 - 1

/-- Set on every stored state, so that none is the word of a fresh bucket. -/
def present : ℕ := 1 <<< 63

def maxU64 : ℕ := 2 ^ 64 - 1

/-- What one check goes by: the zone's rate and the directive's settings. -/
structure Rule where
  rate : ℕ
  burst : ℕ
  nodelay : Bool
  delayAfter : ℕ
deriving DecidableEq, Repr

/-- Drains and adds in one expression that is clamped at its end. -/
def step (prevExcess elapsedMs : ℕ) (r : Rule) : ℕ × Decision :=
  let drained := min (r.rate * elapsedMs) (2 ^ 127 - 1) / scale
  let excess := (prevExcess + scale - drained) % 2 ^ 64
  if r.burst < excess then (prevExcess,.reject)
  else if excess = 0 ∨ r.nodelay ∨ excess ≤ r.delayAfter then (excess,.pass)
  else (excess,.delay (min ((excess - r.delayAfter) * scale) maxU64 / max r.rate 1))

def pack (lastMs excess : ℕ) : ℕ := present ||| (lastMs &&& msMask) <<< excessBits ||| min excess excessMask

def unpack (w : ℕ) : ℕ × ℕ := (w >>> excessBits &&& msMask,w &&& excessMask)

/-- What a state word says: the excess and the time since the key was last seen. -/
def reading (nowMs cur : ℕ) : ℕ × ℕ :=
  if cur = 0 then (0,maxU64 / scale) else ((unpack cur).2,nowMs - (unpack cur).1)

/-- One turn of `bump` against a state word; a rejection stores nothing. -/
def bumpWord (r : Rule) (nowMs cur : ℕ) : ℕ × Decision :=
  let (prevExcess,elapsed) := reading nowMs cur
  match step prevExcess elapsed r with
  | (_,.reject) => (cur,.reject)
  | (excess,d) => (pack nowMs excess,d)

section Table

structure Zone where
  rate : ℕ
  rate_pos : 0 < rate
  maxEntries : ℕ
  seed : UInt64

def nextPowerOfTwo (n : ℕ) : ℕ := if n ≤ 1 then 1 else 2 ^ ((n - 1).log2 + 1)

namespace Zone

def slots (z : Zone) : ℕ := max (nextPowerOfTwo z.maxEntries) 64

def mask (z : Zone) : ℕ := z.slots - 1

/-- FNV-1a over the seed and the key; 0 marks an empty slot. -/
def hashKey (z : Zone) (key : Bytes) : ℕ :=
  let h := key.foldl (fun (h : UInt64) (b : UInt8) => (h ^^^ b.toUInt64) * 0x100000001b3) (0xcbf29ce484222325 ^^^ z.seed)
  if h = 0 then 1 else h.toNat

/-- The slot at position `p` of the window of a hash. -/
def slotAt (z : Zone) (h p : ℕ) : ℕ := (h + p) % 2 ^ 64 &&& z.mask

end Zone

/-- The shared memory of a zone: the hash and the state of each slot. -/
structure Table where
  hash : ℕ → ℕ
  state : ℕ → ℕ

def Table.new : Table := ⟨fun _ => 0,fun _ => 0⟩

/-- The words with one of them replaced. -/
def write (words : ℕ → ℕ) (i w : ℕ) : ℕ → ℕ := fun j => if j = i then w else words j

/-- A slot taken for a hash, its bucket fresh. -/
def Table.take (t : Table) (i h : ℕ) : Table := ⟨write t.hash i h,write t.state i 0⟩

/-- The slot with the smaller time of the two. -/
def staler (t : Table) (stalest : Option (ℕ × ℕ)) (i : ℕ) : Option (ℕ × ℕ) :=
  match stalest with
  | none => some (i,(unpack (t.state i)).1)
  | some (j,l) => if (unpack (t.state i)).1 < l then some (i,(unpack (t.state i)).1) else some (j,l)

/-- The probe of a check that has the table to itself, with the turns that are
left: the entry of the hash, an empty slot, or the stalest entry of the window. -/
def Zone.locate (z : Zone) (t : Table) (h : ℕ) : ℕ → ℕ → Option (ℕ × ℕ) → Table × ℕ
  | 0, _, stalest => (t.take (stalest.getD (0,0)).1 h,(stalest.getD (0,0)).1)
  | left + 1, p, stalest =>
    let i := z.slotAt h p
    if t.hash i = h then (t,i)
    else if t.hash i = 0 then (t.take i h,i)
    else z.locate t h left (p + 1) (staler t stalest i)

/-- A check from its first access to its last, with no other in between. -/
def Zone.check (z : Zone) (t : Table) (key : Bytes) (nowMs burst : ℕ) (nodelay : Bool) (delayAfter : ℕ) :
    Table × Decision :=
  let (t,i) := z.locate t (z.hashKey key) probe 0 none
  let (w,d) := bumpWord ⟨z.rate,burst,nodelay,delayAfter⟩ nowMs (t.state i)
  (if d = .reject then t else { t with state := write t.state i w },d)

end Table

section Words

theorem pack_eq (lastMs excess : ℕ) :
    pack lastMs excess = 2 ^ 63 + (lastMs % 2 ^ 39 * 2 ^ 24 + min excess excessMask) := by
  have hlow : min excess excessMask < 2 ^ excessBits := Nat.lt_of_le_of_lt (Nat.min_le_right _ _) (by decide)
  have hms : lastMs &&& msMask = lastMs % 2 ^ 39 := Nat.and_two_pow_sub_one_eq_mod lastMs 39
  have hlt : lastMs % 2 ^ 39 < 2 ^ 39 := Nat.mod_lt _ (by decide)
  have hsmall : (lastMs % 2 ^ 39) <<< excessBits + min excess excessMask < 2 ^ 63 := by
    rw [Nat.shiftLeft_eq]
    simp only [excessBits] at hlow ⊢
    omega
  rw [pack,Nat.or_assoc,hms,← Nat.shiftLeft_add_eq_or_of_lt hlow,present,← Nat.shiftLeft_add_eq_or_of_lt hsmall,
    Nat.shiftLeft_eq,Nat.shiftLeft_eq,Nat.one_mul]
  rfl

theorem pack_ne_zero (lastMs excess : ℕ) : pack lastMs excess ≠ 0 := by
  rw [pack_eq]
  omega

theorem unpack_pack (lastMs excess : ℕ) : unpack (pack lastMs excess) = (lastMs % 2 ^ 39,min excess excessMask) := by
  have hlow : min excess excessMask < 2 ^ 24 := Nat.lt_of_le_of_lt (Nat.min_le_right _ _) (by decide)
  have hms : lastMs % 2 ^ 39 < 2 ^ 39 := Nat.mod_lt _ (by decide)
  rw [unpack,pack_eq,msMask,Nat.and_two_pow_sub_one_eq_mod,excessMask,Nat.and_two_pow_sub_one_eq_mod,
    Nat.shiftRight_eq_div_pow,excessBits]
  simp only [excessMask,excessBits] at hlow
  apply Prod.ext
  · simp only
    omega
  · simp only
    omega

/-- A fresh bucket has been idle long enough for any rate. -/
theorem reading_zero (nowMs : ℕ) : reading nowMs 0 = (0,18446744073709551) := rfl

theorem reading_pack (nowMs lastMs excess : ℕ) :
    reading nowMs (pack lastMs excess) = (min excess excessMask,nowMs - lastMs % 2 ^ 39) := by
  rw [reading,if_neg (pack_ne_zero _ _),unpack_pack]

end Words

section Step
variable {r : Rule} {prev elapsed nowMs cur : ℕ}

/-- The excess a step computes, without its wrap-around. -/
def excessOf (r : Rule) (prev elapsed : ℕ) : ℕ := prev + scale - min (r.rate * elapsed) (2 ^ 127 - 1) / scale

theorem step_eq (h : prev ≤ excessMask) : step prev elapsed r =
    if r.burst < excessOf r prev elapsed then (prev,.reject)
    else if excessOf r prev elapsed = 0 ∨ r.nodelay ∨ excessOf r prev elapsed ≤ r.delayAfter then
      (excessOf r prev elapsed,.pass)
    else (excessOf r prev elapsed,
      .delay (min ((excessOf r prev elapsed - r.delayAfter) * scale) maxU64 / max r.rate 1)) := by
  have hlt : excessOf r prev elapsed < 2 ^ 64 := by
    simp only [excessMask,excessBits] at h
    unfold excessOf scale
    omega
  have hmod : (prev + scale - min (r.rate * elapsed) (2 ^ 127 - 1) / scale) % 2 ^ 64 = excessOf r prev elapsed :=
    Nat.mod_eq_of_lt hlt
  simp only [step,hmod]

theorem step_reject (h : prev ≤ excessMask) (hb : r.burst < excessOf r prev elapsed) :
    step prev elapsed r = (prev,.reject) := by
  rw [step_eq h,if_pos hb]

theorem step_admits (h : prev ≤ excessMask) (hb : excessOf r prev elapsed ≤ r.burst) :
    ∃ d, step prev elapsed r = (excessOf r prev elapsed,d) ∧ d ≠ .reject ∧
      (excessOf r prev elapsed = 0 → d = .pass) := by
  rw [step_eq h,if_neg (Nat.not_lt.mpr hb)]
  by_cases hd : excessOf r prev elapsed = 0 ∨ r.nodelay ∨ excessOf r prev elapsed ≤ r.delayAfter
  · exact ⟨_,if_pos hd,by simp,fun _ => rfl⟩
  · exact ⟨_,if_neg hd,by simp,fun h0 => absurd (Or.inl h0) hd⟩

theorem reading_le (nowMs cur : ℕ) : (reading nowMs cur).1 ≤ excessMask := by
  unfold reading
  split
  · exact Nat.zero_le _
  · exact Nat.and_le_right

/-- The excess a request finds in a state word. -/
def excessAt (r : Rule) (nowMs cur : ℕ) : ℕ := excessOf r (reading nowMs cur).1 (reading nowMs cur).2

theorem bumpWord_eq (r : Rule) (nowMs cur : ℕ) : bumpWord r nowMs cur =
    match step (reading nowMs cur).1 (reading nowMs cur).2 r with
    | (_,.reject) => (cur,.reject)
    | (excess,d) => (pack nowMs excess,d) := rfl

theorem bumpWord_reject (h : r.burst < excessAt r nowMs cur) : bumpWord r nowMs cur = (cur,.reject) := by
  rw [bumpWord_eq,step_reject (reading_le _ _) h]

theorem bumpWord_admits (h : excessAt r nowMs cur ≤ r.burst) :
    ∃ d, bumpWord r nowMs cur = (pack nowMs (excessAt r nowMs cur),d) ∧ d ≠ .reject ∧
      (excessAt r nowMs cur = 0 → d = .pass) := by
  obtain ⟨d,hs,hd,h0⟩ := step_admits (reading_le nowMs cur) h
  refine ⟨d,?_,hd,h0⟩
  rw [bumpWord_eq,hs]
  cases d with
  | reject => exact absurd rfl hd
  | pass => rfl
  | delay ms => rfl

end Step

end OxiServe.LimitReq
