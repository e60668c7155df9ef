import OxiServe.Config.Model
import Mathlib.Data.List.TakeWhile

/-! # Listeners and the choice of a server by host

A listener holds the servers that share an address. A host picks the first
exact name, else the longest leading wildcard, the longest trailing wildcard,
the first matching expression or the default server, after its trailing dots
are dropped. Whether it still carries a port is for the caller to see to.
-/
namespace OxiServe.Config

def dot : UInt8 := 46

def trimEndDots (host : Bytes) : Bytes := (host.reverse.dropWhile (· == dot)).reverse

/-- The longest wildcard of either kind so far, with its server. -/
structure BestWildcard where
  lead : Option (ℕ × ServerConf)
  trail : Option (ℕ × ServerConf)

/-- A strictly longer wildcard replaces the best one. -/
def keepLonger (best : Option (ℕ × ServerConf)) (len : ℕ) (s : ServerConf) : Option (ℕ × ServerConf) :=
  match best with
  | none => some (len,s)
  | some (l,t) => if l < len then some (len,s) else some (l,t)

def matchesLeading (host suffix : Bytes) : Bool :=
  suffix.length < host.length && host[host.length - suffix.length - 1]? == some dot &&
    eqIgnoreAsciiCase (host.drop (host.length - suffix.length)) suffix

def matchesTrailing (host pre : Bytes) : Bool :=
  pre.length < host.length && host[pre.length]? == some dot && eqIgnoreAsciiCase (host.take pre.length) pre

/-- The names of one server: it is taken at once, or the wildcards are noted. -/
def scanNames (host : Bytes) (s : ServerConf) : List ServerName → BestWildcard → Except ServerConf BestWildcard
  | [], best => .ok best
  | .exact e :: names, best => if eqIgnoreAsciiCase host e then .error s else scanNames host s names best
  | .leadingWildcard suffix :: names, best =>
    scanNames host s names
      (if matchesLeading host suffix then { best with lead := keepLonger best.lead suffix.length s } else best)
  | .trailingWildcard pre :: names, best =>
    scanNames host s names
      (if matchesTrailing host pre then { best with trail := keepLonger best.trail pre.length s } else best)
  | .empty :: names, best => if host.isEmpty then .error s else scanNames host s names best
  | .regex _ :: names, best => scanNames host s names best

def scanServers (host : Bytes) : List ServerConf → BestWildcard → Except ServerConf BestWildcard
  | [], best => .ok best
  | s :: servers, best =>
    match scanNames host s s.names best with
    | .error t => .error t
    | .ok best => scanServers host servers best

def matchesRegex (host : Bytes) : ServerName → Bool
  | .regex re => re.isMatch host
  | _ => false

/-- The servers of one address. -/
structure Listener where
  servers : List ServerConf
  defaultServer : ℕ
  default_lt : defaultServer < servers.length

namespace Listener

/-- The server used when no name matches, and before a host is known. -/
def default (self : Listener) : ServerConf := self.servers.get ⟨self.defaultServer,self.default_lt⟩

/-- Picks a server by host. -/
def matchHost (self : Listener) (host : Bytes) : ServerConf :=
  let host := trimEndDots host
  match scanServers host self.servers ⟨none,none⟩ with
  | .error s => s
  | .ok best =>
    match best.lead, best.trail with
    | some (_,s), _ => s
    | none, some (_,s) => s
    | none, none => (self.servers.find? fun s => s.names.any (matchesRegex host)).getD self.default

end Listener

section Trimming

theorem trimEndDots_append_cons {c : UInt8} (hc : c ≠ dot) (a b : Bytes) :
    trimEndDots (a ++ c :: b) = a ++ c :: trimEndDots b := by
  unfold trimEndDots
  have hsplit : (a ++ c :: b).reverse = b.reverse ++ (c :: a.reverse) := by simp
  rw [hsplit,List.dropWhile_append]
  split
  · next hnil =>
    rw [List.isEmpty_iff.mp hnil,List.dropWhile_cons_of_neg (by simpa using hc)]
    simp
  · simp

theorem trimEndDots_nil_iff {b : Bytes} : trimEndDots b = [] ↔ b.all (· == dot) = true := by
  rw [trimEndDots,List.reverse_eq_nil_iff,List.dropWhile_eq_nil_iff]
  simp [List.all_eq_true]

theorem length_trimEndDots_le (b : Bytes) : (trimEndDots b).length ≤ b.length := by
  have h := (List.dropWhile_sublist (· == dot) (l := b.reverse)).length_le
  simpa [trimEndDots] using h

/-- Only the host without its trailing dots counts. -/
theorem Listener.matchHost_congr (l : Listener) {a b : Bytes} (h : trimEndDots a = trimEndDots b) :
    l.matchHost a = l.matchHost b := by
  unfold Listener.matchHost
  rw [h]

end Trimming

end OxiServe.Config
