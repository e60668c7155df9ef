import Mathlib.Logic.Function.Basic
import OxiServe.Server.Handler
import OxiServe.Server.LeakyBucket

/-! # One request and several zones

The directives in effect are checked in the order they are listed, and each check
charges its zone before the next one is made. A rejection ends the loop and takes
nothing back.
-/
namespace OxiServe.LimitReq
open Server (Decision)

/-- What a request brings to the zones: its key in each, where it has one, and
its start by the zone's clock. -/
structure Visit where
  key : Bytes → Option Bytes
  nowMs : Bytes → ℕ

variable (zones : Bytes → Zone)

def checkZones (v : Visit) : ℕ → (Bytes → Table) → List Config.LimitReq → (Bytes → Table) × Decision
  | longest, tables, [] => (tables,if 0 < longest then .delay longest else .pass)
  | longest, tables, l :: ls =>
    match v.key l.zone with
    | none => checkZones v longest tables ls
    | some key =>
      let (t,d) := (zones l.zone).check (tables l.zone) key (v.nowMs l.zone) l.burst l.nodelay l.delayAfter
      match d with
      | .pass => checkZones v longest (Function.update tables l.zone t) ls
      | .delay ms => checkZones v (max longest ms) (Function.update tables l.zone t) ls
      | .reject => (Function.update tables l.zone t,.reject)

/-- The state word that a check of the key works on. -/
def Zone.bucket (z : Zone) (t : Table) (key : Bytes) : ℕ :=
  (z.locate t (z.hashKey key) probe 0 none).1.state (z.locate t (z.hashKey key) probe 0 none).2

/-- The least burst that no request exceeds, as the stored excess ends below it. -/
def unlimited : ℕ := excessMask + 1000

section Check
variable {z : Zone} {t : Table} {key : Bytes} {nowMs : ℕ}

theorem locate_cases (z : Zone) (t : Table) (h left p : ℕ) (stalest : Option (ℕ × ℕ)) :
    (z.locate t h left p stalest).1 = t ∨
      (z.locate t h left p stalest).1.state (z.locate t h left p stalest).2 = 0 := by
  induction left generalizing p stalest with
  | zero =>
    right
    simp [Zone.locate,Table.take,write]
  | succ left ih =>
    simp only [Zone.locate]
    split
    · exact .inl rfl
    · split
      · right
        simp [Table.take,write]
      · exact ih _ _

/-- A directive's settings with the rate of its zone. -/
def ruleOf (z : Zone) (l : Config.LimitReq) : Rule := ⟨z.rate,l.burst,l.nodelay,l.delayAfter⟩

/-- What a request finds in a bucket; the directives of a zone agree on it. -/
def Zone.excess (z : Zone) (nowMs cur : ℕ) : ℕ := excessAt ⟨z.rate,0,false,0⟩ nowMs cur

theorem Zone.excess_le (z : Zone) (nowMs cur : ℕ) : z.excess nowMs cur ≤ unlimited := by
  have hle := reading_le nowMs cur
  unfold Zone.excess excessAt excessOf unlimited scale
  omega

theorem check_rejected {l : Config.LimitReq} (h : l.burst < z.excess nowMs (z.bucket t key)) :
    z.check t key nowMs l.burst l.nodelay l.delayAfter = (t,.reject) := by
  have hrej : bumpWord (ruleOf z l) nowMs (z.bucket t key) = (z.bucket t key,.reject) := bumpWord_reject h
  have hsame : (z.locate t (z.hashKey key) probe 0 none).1 = t := by
    rcases locate_cases z t (z.hashKey key) probe 0 none with hs | hs
    · exact hs
    · have hzero : z.excess nowMs (z.bucket t key) = 0 := by
        rw [Zone.bucket,hs]
        exact excessAt_zero z.rate_pos nowMs
      omega
  have he : z.check t key nowMs l.burst l.nodelay l.delayAfter =
      (if (bumpWord (ruleOf z l) nowMs (z.bucket t key)).2 = .reject then (z.locate t (z.hashKey key) probe 0 none).1
        else { (z.locate t (z.hashKey key) probe 0 none).1 with
          state := write (z.locate t (z.hashKey key) probe 0 none).1.state (z.locate t (z.hashKey key) probe 0 none).2
            (bumpWord (ruleOf z l) nowMs (z.bucket t key)).1 },
        (bumpWord (ruleOf z l) nowMs (z.bucket t key)).2) := rfl
  rw [he,hrej,hsame]
  rfl

theorem check_admitted {l : Config.LimitReq} (h : z.excess nowMs (z.bucket t key) ≤ l.burst) :
    (z.check t key nowMs l.burst l.nodelay l.delayAfter).2 ≠ .reject := by
  obtain ⟨d,hd,hne,-⟩ := bumpWord_admits (r := ruleOf z l) h
  have he : (z.check t key nowMs l.burst l.nodelay l.delayAfter).2 =
      (bumpWord (ruleOf z l) nowMs (z.bucket t key)).2 := rfl
  rw [he,hd]
  exact hne

theorem check_unlimited {l : Config.LimitReq} (h : unlimited ≤ l.burst) :
    (z.check t key nowMs l.burst l.nodelay l.delayAfter).2 ≠ .reject :=
  check_admitted (Nat.le_trans (z.excess_le nowMs _) h)

/-- A rejection leaves the whole table of its zone as it was. -/
theorem check_reject_keeps {l : Config.LimitReq}
    (h : (z.check t key nowMs l.burst l.nodelay l.delayAfter).2 = .reject) :
    (z.check t key nowMs l.burst l.nodelay l.delayAfter).1 = t := by
  rcases Nat.lt_or_ge l.burst (z.excess nowMs (z.bucket t key)) with hlt | hge
  · rw [check_rejected hlt]
  · exact absurd h (check_admitted hge)

end Check

section Loop
variable {zones} {v : Visit} {tables : Bytes → Table} {l : Config.LimitReq} {ls : List Config.LimitReq} {key : Bytes}

/-- The check that a directive asks for. -/
def checkOf (zones : Bytes → Zone) (v : Visit) (tables : Bytes → Table) (key : Bytes) (l : Config.LimitReq) :
    Table × Decision :=
  (zones l.zone).check (tables l.zone) key (v.nowMs l.zone) l.burst l.nodelay l.delayAfter

theorem checkZones_none (h : v.key l.zone = none) (longest : ℕ) :
    checkZones zones v longest tables (l :: ls) = checkZones zones v longest tables ls := by
  simp only [checkZones,h]

theorem checkZones_reject (hk : v.key l.zone = some key) (h : (checkOf zones v tables key l).2 = .reject)
    (longest : ℕ) : checkZones zones v longest tables (l :: ls) = (tables,.reject) := by
  have hkeeps : (checkOf zones v tables key l).1 = tables l.zone := check_reject_keeps h
  unfold checkOf at h hkeeps
  simp only [checkZones,hk,h,hkeeps,Function.update_eq_self]

theorem checkZones_admits (hk : v.key l.zone = some key) (h : (checkOf zones v tables key l).2 ≠ .reject)
    (ls : List Config.LimitReq) (longest : ℕ) : ∃ longer, checkZones zones v longest tables (l :: ls) =
      checkZones zones v longer (Function.update tables l.zone (checkOf zones v tables key l).1) ls := by
  have hcall : checkOf zones v tables key l =
      (zones l.zone).check (tables l.zone) key (v.nowMs l.zone) l.burst l.nodelay l.delayAfter := rfl
  simp only [checkZones,hk,← hcall]
  cases hd : (checkOf zones v tables key l).2 with
  | pass => exact ⟨longest,rfl⟩
  | delay ms => exact ⟨max longest ms,rfl⟩
  | reject => exact absurd hd h

/-- A zone that no directive names is not touched. -/
theorem checkZones_other {ζ : Bytes} (h : ∀ l ∈ ls, l.zone ≠ ζ) (longest : ℕ) :
    (checkZones zones v longest tables ls).1 ζ = tables ζ := by
  induction ls generalizing tables longest with
  | nil => rfl
  | cons l ls ih =>
    have hl : l.zone ≠ ζ := h l List.mem_cons_self
    have hls : ∀ l ∈ ls, l.zone ≠ ζ := fun l hm => h l (List.mem_cons_of_mem _ hm)
    cases hk : v.key l.zone with
    | none =>
      rw [checkZones_none hk]
      exact ih hls longest
    | some key =>
      by_cases hd : (checkOf zones v tables key l).2 = .reject
      · rw [checkZones_reject hk hd]
      · obtain ⟨longer,he⟩ := checkZones_admits hk hd ls longest
        rw [he,ih hls,Function.update_of_ne hl.symm]

theorem checkZones_unlimited (h : ∀ l ∈ ls, unlimited ≤ l.burst) (longest : ℕ) :
    (checkZones zones v longest tables ls).2 ≠ .reject := by
  induction ls generalizing tables longest with
  | nil =>
    simp only [checkZones]
    split <;> simp
  | cons l ls ih =>
    have hls : ∀ l ∈ ls, unlimited ≤ l.burst := fun l hm => h l (List.mem_cons_of_mem _ hm)
    cases hk : v.key l.zone with
    | none =>
      rw [checkZones_none hk]
      exact ih hls longest
    | some key =>
      have hd : (checkOf zones v tables key l).2 ≠ .reject := check_unlimited (h l List.mem_cons_self)
      obtain ⟨longer,he⟩ := checkZones_admits hk hd ls longest
      rw [he]
      exact ih hls longer

/-- The answers a request's environment gives are those of the zones. -/
def Answered (zones : Bytes → Zone) (v : Visit) (env : Server.Env) (ctx : Server.Ctx) :
    ℕ → (Bytes → Table) → List Config.LimitReq → Prop
  | _, _, [] => True
  | i, tables, l :: ls =>
    match v.key l.zone with
    | none => Answered zones v env ctx (i + 1) tables ls
    | some key =>
      env.checkReq ctx.clock i l.zone key l.burst l.nodelay l.delayAfter = (checkOf zones v tables key l).2 ∧
        Answered zones v env ctx (i + 1) (Function.update tables l.zone (checkOf zones v tables key l).1) ls

/-- The handler refuses a request exactly where the loop over the zones does. -/
theorem applyLimitReq_eq {env : Server.Env} {ctx : Server.Ctx} (core : Config.CoreConf)
    (hv : v.key = Server.zoneKey env ctx ctx.http.limitReqZones ctx.http.limitReqKeys) {i : ℕ} (longest : ℕ)
    (h : Answered zones v env ctx i tables ls) : Server.applyLimitReq env ctx core i ls =
      if (checkZones zones v longest tables ls).2 = .reject then some core.limitReqStatus else none := by
  induction ls generalizing i longest tables with
  | nil => exact (if_neg (checkZones_unlimited (fun _ hl => by cases hl) longest)).symm
  | cons l ls ih =>
    cases hk : v.key l.zone with
    | none =>
      simp only [Answered,hk] at h
      rw [checkZones_none hk,Server.applyLimitReq,← hv,hk]
      exact ih longest h
    | some key =>
      simp only [Answered,hk] at h
      obtain ⟨hanswer,hrest⟩ := h
      rw [Server.applyLimitReq,← hv,hk]
      simp only [hanswer]
      by_cases hd : (checkOf zones v tables key l).2 = .reject
      · rw [checkZones_reject hk hd,hd,if_pos rfl]
      · obtain ⟨longer,he⟩ := checkZones_admits hk hd ls longest
        rw [he,← ih longer hrest]
        cases hc : (checkOf zones v tables key l).2 with
        | pass => rfl
        | delay ms => rfl
        | reject => exact absurd hc hd

end Loop

end OxiServe.LimitReq
