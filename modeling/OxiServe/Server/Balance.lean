import OxiServe.Server.PeerHealth
import OxiServe.Server.Proxy

/-! # Choosing a peer

Primaries before backups, by the method of the group, and the peer whose penalty
ends first when all are out. Peers already tried for a request are left out of
every choice.
-/
namespace OxiServe.Server
open Config

inductive LbMethod
  | roundRobin | leastConn | ipHash | random
deriving DecidableEq, Repr

/-- What a group configures for one of its servers. -/
structure PeerConf where
  weight : UInt32
  maxFails : UInt32
  failTimeoutMs : UInt64
  backup : Bool
  down : Bool

/-- A group with the configuration and the health of each of its servers. -/
structure Group where
  up : Upstream
  method : LbMethod
  conf : ℕ → PeerConf
  health : ℕ → PeerHealth

namespace Group
variable (g : Group)

def indices : List ℕ := List.range g.up.servers.length

/-- `Iterator::min_by_key`: the first of the least. -/
def minByKey (key : ℕ → ℕ) : List ℕ → Option ℕ
  | [] => none
  | i :: rest =>
    match minByKey key rest with
    | none => some i
    | some j => if key j < key i then some j else some i

def weightOf (i : ℕ) : ℕ := max (g.conf i).weight.toNat 1

/-- Each candidate takes as many slots as it weighs. -/
def slotPeer : List ℕ → ℕ → Option ℕ
  | [], _ => none
  | i :: rest, slot => if slot < g.weightOf i then some i else slotPeer rest (slot - g.weightOf i)

def pickFrom (candidates : List ℕ) (hash : Option UInt64) (cursor : ℕ) : Option ℕ :=
  match g.method with
  | .ipHash => candidates[(hash.getD 0).toNat % candidates.length]?
  | .leastConn => minByKey (fun i => (g.health i).inFlight * 1000 / g.weightOf i) candidates
  | .random => candidates[cursor % candidates.length]?
  | .roundRobin =>
    let total := (candidates.map g.weightOf).sum % 2 ^ 32
    (g.slotPeer candidates (cursor % 2 ^ 32 % max total 1)).or candidates.head?

def candidates (nowMs : ℕ) (exclude : List ℕ) (wantBackup : Bool) : List ℕ :=
  g.indices.filter (fun i =>
    !(g.conf i).down && (g.conf i).backup == wantBackup && !(g.health i).isDown nowMs && !exclude.contains i)

def selectExcluding (nowMs : ℕ) (hash : Option UInt64) (cursor : ℕ) (exclude : List ℕ) : Option ℕ :=
  if g.candidates nowMs exclude false ≠ [] then g.pickFrom (g.candidates nowMs exclude false) hash cursor
  else if g.candidates nowMs exclude true ≠ [] then g.pickFrom (g.candidates nowMs exclude true) hash cursor
  else
    minByKey (fun i => (g.health i).downUntilMs)
      (g.indices.filter (fun i => !(g.conf i).down && !exclude.contains i))

/-- The peer a cookie names, unless it cannot take the request. -/
def stickyPeer (nowMs : ℕ) (cookie : Option Bytes) (exclude : List ℕ) : Option ℕ :=
  match cookie, g.up.sticky with
  | some id, some _ =>
    match g.up.servers.findIdx? (fun s => s.stickyId == id) with
    | none => none
    | some i =>
      if !(g.conf i).down && !(g.health i).isDown nowMs && !exclude.contains i then some i else none
  | _, _ => none

def addrBytes : Option SocketAddr → Bytes
  | some ⟨.v4 a b c d,_⟩ => [a,b,c,d]
  | some ⟨.v6 text,_⟩ => text
  | none => []

def fnvHash (b : Bytes) : UInt64 :=
  b.foldl (fun h c => (h ^^^ c.toUInt64) * 0x100000001b3) 0xcbf29ce484222325

def selectPeerExcluding (ctx : Ctx) (stickyMs nowMs cursor : ℕ) (exclude : List ℕ) : Option ℕ :=
  let cookie := g.up.sticky.bind (fun sc => requestCookie ctx sc.name)
  match g.stickyPeer stickyMs cookie exclude with
  | some i => some i
  | none =>
    let hash := if g.method = .ipHash then some (fnvHash (addrBytes ctx.remote)) else none
    g.selectExcluding nowMs hash cursor exclude

variable {g}

theorem minByKey_mem {key : ℕ → ℕ} {l : List ℕ} {i : ℕ} (h : minByKey key l = some i) : i ∈ l := by
  induction l generalizing i with
  | nil => cases h
  | cons a l ih =>
    simp only [minByKey] at h
    cases hm : minByKey key l with
    | none =>
      rw [hm] at h
      cases h
      exact List.mem_cons_self
    | some j =>
      rw [hm] at h
      dsimp only at h
      split at h
      · cases h
        exact List.mem_cons_of_mem _ (ih hm)
      · cases h
        exact List.mem_cons_self

theorem slotPeer_mem {l : List ℕ} {slot i : ℕ} (h : g.slotPeer l slot = some i) : i ∈ l := by
  induction l generalizing slot with
  | nil => cases h
  | cons a l ih =>
    simp only [slotPeer] at h
    split at h
    · cases h
      exact List.mem_cons_self
    · exact List.mem_cons_of_mem _ (ih h)

theorem pickFrom_mem {l : List ℕ} {hash : Option UInt64} {cursor i : ℕ} (h : g.pickFrom l hash cursor = some i) :
    i ∈ l := by
  unfold pickFrom at h
  cases hm : g.method with
  | ipHash =>
    rw [hm] at h
    exact List.mem_of_getElem? h
  | leastConn =>
    rw [hm] at h
    exact minByKey_mem h
  | random =>
    rw [hm] at h
    exact List.mem_of_getElem? h
  | roundRobin =>
    rw [hm] at h
    rcases Option.or_eq_some_iff.mp h with h | ⟨-,h⟩
    · exact slotPeer_mem h
    · exact List.mem_of_head? h

theorem selectExcluding_spec {nowMs : ℕ} {hash : Option UInt64} {cursor : ℕ} {exclude : List ℕ} {i : ℕ}
    (h : g.selectExcluding nowMs hash cursor exclude = some i) :
    i < g.up.servers.length ∧ i ∉ exclude := by
  have hcand : ∀ b, i ∈ g.candidates nowMs exclude b → i < g.up.servers.length ∧ i ∉ exclude := by
    intro b hi
    obtain ⟨hr,hp⟩ := List.mem_filter.mp hi
    simp only [Bool.and_eq_true,Bool.not_eq_true'] at hp
    exact ⟨List.mem_range.mp hr,by simpa using hp.2⟩
  unfold selectExcluding at h
  split at h
  · exact hcand false (pickFrom_mem h)
  · split at h
    · exact hcand true (pickFrom_mem h)
    · obtain ⟨hr,hp⟩ := List.mem_filter.mp (minByKey_mem h)
      simp only [Bool.and_eq_true,Bool.not_eq_true'] at hp
      exact ⟨List.mem_range.mp hr,by simpa using hp.2⟩

theorem stickyPeer_spec {nowMs : ℕ} {cookie : Option Bytes} {exclude : List ℕ} {i : ℕ}
    (h : g.stickyPeer nowMs cookie exclude = some i) : i < g.up.servers.length ∧ i ∉ exclude := by
  unfold stickyPeer at h
  split at h
  · split at h
    · cases h
    · rename_i j hj
      split at h
      · rename_i hp
        cases h
        simp only [Bool.and_eq_true,Bool.not_eq_true'] at hp
        exact ⟨(List.findIdx?_eq_some_iff_getElem.mp hj).1,by simpa using hp.2⟩
      · cases h
  · cases h

/-- A peer that is chosen is one of the group and has not been tried. -/
theorem selectPeerExcluding_spec {ctx : Ctx} {stickyMs nowMs cursor : ℕ} {exclude : List ℕ} {i : ℕ}
    (h : g.selectPeerExcluding ctx stickyMs nowMs cursor exclude = some i) :
    i < g.up.servers.length ∧ i ∉ exclude := by
  simp only [selectPeerExcluding] at h
  split at h
  · rename_i hs
    cases h
    exact stickyPeer_spec hs
  · exact selectExcluding_spec h

end Group

/-- What choices read besides the request: the state of the groups and the clock
at each attempt. -/
structure Balancing where
  method : Bytes → LbMethod
  conf : Bytes → ℕ → PeerConf
  health : ℕ → ℕ → Bytes → ℕ → PeerHealth
  stickyMs : ℕ → ℕ → ℕ
  nowMs : ℕ → ℕ → ℕ
  cursor : ℕ → ℕ → ℕ

/-- The world in which peers are chosen as the groups choose them. -/
def Env.selecting (env : Env) (ctx : Ctx) (b : Balancing) : Env :=
  { env with
    selectPeer := fun clock k name tried =>
      match ctx.http.upstreams.lookup name with
      | none => none
      | some up =>
        Group.selectPeerExcluding ⟨up,b.method name,b.conf name,b.health clock k name⟩ ctx (b.stickyMs clock k)
          (b.nowMs clock k) (b.cursor clock k) tried }

theorem selecting_spec {env : Env} {ctx : Ctx} {b : Balancing} {name : Bytes} {up : Upstream}
    (hu : ctx.http.upstreams.lookup name = some up) {clock k : ℕ} {tried : List ℕ} {i : ℕ}
    (h : (env.selecting ctx b).selectPeer clock k name tried = some i) : i < up.servers.length ∧ i ∉ tried := by
  simp only [Env.selecting,hu] at h
  exact Group.selectPeerExcluding_spec h

end OxiServe.Server
