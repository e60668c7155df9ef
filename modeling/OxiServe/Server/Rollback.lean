import OxiServe.Server.CheckRace
import OxiServe.Server.ReqZones

/-! # Charged without being served

A request that is refused by a later zone has been charged to the earlier ones,
and which request that is depends on the order of the directives. Neither shows
for exactly the lists in which the first directive alone can refuse.
-/
namespace OxiServe.LimitReq
open Server (Decision)

variable (zones : Bytes → Zone)

/-- Which of the requests are admitted, each against what the one before left. -/
def decisions (ds : List Config.LimitReq) : (Bytes → Table) → List Visit → List Bool
  | _, [] => []
  | tables, v :: vs => decide ((checkZones zones v 0 tables ds).2 ≠ .reject) ::
      decisions ds (checkZones zones v 0 tables ds).1 vs

/-- A rejected request is charged to none of its zones. -/
def RolledBack (ds : List Config.LimitReq) : Prop := ∀ (tables : Bytes → Table) (v : Visit),
  (checkZones zones v 0 tables ds).2 = .reject → ∀ d ∈ ds, ∀ key, v.key d.zone = some key →
    (zones d.zone).bucket ((checkZones zones v 0 tables ds).1 d.zone) key = (zones d.zone).bucket (tables d.zone) key

def OrderFree (ds : List Config.LimitReq) : Prop := ∀ ds', ds.Perm ds' → ∀ (tables : Bytes → Table) (vs : List Visit),
  decisions zones ds' tables vs = decisions zones ds tables vs

/-- Only the first directive can refuse a request, and it shares its zone with
another one only when it cannot either. -/
def FirstRefuses : List Config.LimitReq → Prop
  | [] => True
  | d :: ds => ∀ e ∈ ds, unlimited ≤ e.burst ∧ (e.zone = d.zone → unlimited ≤ d.burst)

section Sufficient
variable {zones} {v : Visit} {tables : Bytes → Table} {d : Config.LimitReq} {ds : List Config.LimitReq}

theorem rolledBack_of_first (h : FirstRefuses ds) : RolledBack zones ds := by
  intro tables v hrej e he key hk
  cases ds with
  | nil => cases he
  | cons d ds =>
    have hrest : ∀ e ∈ ds, unlimited ≤ e.burst := fun e he => (h e he).1
    cases hkey : v.key d.zone with
    | none =>
      rw [checkZones_none hkey] at hrej
      exact absurd hrej (checkZones_unlimited hrest 0)
    | some k =>
      by_cases hd : (checkOf zones v tables k d).2 = .reject
      · rw [checkZones_reject hkey hd]
      · obtain ⟨longer,hstep⟩ := checkZones_admits hkey hd ds 0
        rw [hstep] at hrej
        exact absurd hrej (checkZones_unlimited hrest longer)

/-- What one directive makes of a request by itself. -/
def alone (zones : Bytes → Zone) (v : Visit) (d : Config.LimitReq) (t : Table) : Table × Bool :=
  match v.key d.zone with
  | none => (t,false)
  | some key =>
    let c := (zones d.zone).check t key (v.nowMs d.zone) d.burst d.nodelay d.delayAfter
    (c.1,decide (c.2 = .reject))

/-- Among directives of other zones that never refuse, one decides for itself,
wherever it stands. -/
theorem checkZones_alone (zones : Bytes → Zone) (v : Visit) (tables : Bytes → Table) {pre post : List Config.LimitReq}
    (h : ∀ e ∈ pre ++ post, unlimited ≤ e.burst ∧ e.zone ≠ d.zone) (longest : ℕ) :
    (checkZones zones v longest tables (pre ++ d :: post)).1 d.zone = (alone zones v d (tables d.zone)).1 ∧
      ((checkZones zones v longest tables (pre ++ d :: post)).2 = .reject ↔
        (alone zones v d (tables d.zone)).2 = true) := by
  induction pre generalizing tables longest with
  | nil =>
    have hzone : ∀ e ∈ post, e.zone ≠ d.zone := fun e he => (h e he).2
    have hburst : ∀ e ∈ post, unlimited ≤ e.burst := fun e he => (h e he).1
    rw [List.nil_append]
    cases hk : v.key d.zone with
    | none =>
      rw [checkZones_none hk,checkZones_other hzone]
      simp [alone,hk,checkZones_unlimited hburst longest]
    | some key =>
      have ha : alone zones v d (tables d.zone) =
          ((checkOf zones v tables key d).1,decide ((checkOf zones v tables key d).2 = .reject)) := by
        rw [alone,hk]
        rfl
      by_cases hd : (checkOf zones v tables key d).2 = .reject
      · have hkeeps : (checkOf zones v tables key d).1 = tables d.zone := check_reject_keeps hd
        rw [checkZones_reject hk hd,ha,hkeeps]
        simp [hd]
      · obtain ⟨longer,he⟩ := checkZones_admits hk hd post longest
        rw [he,checkZones_other hzone,Function.update_self,ha]
        simp [hd,checkZones_unlimited hburst longer]
  | cons e pre ih =>
    obtain ⟨hburst,hzone⟩ := h e List.mem_cons_self
    have hrest : ∀ e ∈ pre ++ post, unlimited ≤ e.burst ∧ e.zone ≠ d.zone :=
      fun e he => h e (List.mem_cons_of_mem _ he)
    rw [List.cons_append]
    cases hk : v.key e.zone with
    | none =>
      rw [checkZones_none hk]
      exact ih _ hrest longest
    | some key =>
      have hd : (checkOf zones v tables key e).2 ≠ .reject := check_unlimited hburst
      obtain ⟨longer,he⟩ := checkZones_admits hk hd (pre ++ d :: post) longest
      have hsame : Function.update tables e.zone (checkOf zones v tables key e).1 d.zone = tables d.zone :=
        Function.update_of_ne hzone.symm _ _
      rw [he,← hsame]
      exact ih _ hrest longer

theorem decisions_unlimited (h : ∀ e ∈ ds, unlimited ≤ e.burst) (tables : Bytes → Table) (vs : List Visit) :
    decisions zones ds tables vs = vs.map (fun _ => true) := by
  induction vs generalizing tables with
  | nil => rfl
  | cons v vs ih =>
    rw [decisions,ih,decide_eq_true (checkZones_unlimited h 0)]
    rfl

theorem decisions_alone {pre post pre' post' : List Config.LimitReq} {tables' : Bytes → Table}
    (h : ∀ e ∈ pre ++ post, unlimited ≤ e.burst ∧ e.zone ≠ d.zone)
    (h' : ∀ e ∈ pre' ++ post', unlimited ≤ e.burst ∧ e.zone ≠ d.zone) (ht : tables d.zone = tables' d.zone)
    (vs : List Visit) :
    decisions zones (pre ++ d :: post) tables vs = decisions zones (pre' ++ d :: post') tables' vs := by
  induction vs generalizing tables tables' with
  | nil => rfl
  | cons v vs ih =>
    obtain ⟨htable,hrej⟩ := checkZones_alone zones v tables h 0
    obtain ⟨htable',hrej'⟩ := checkZones_alone zones v tables' h' 0
    have hnext : (checkZones zones v 0 tables (pre ++ d :: post)).1 d.zone =
        (checkZones zones v 0 tables' (pre' ++ d :: post')).1 d.zone := by rw [htable,htable',ht]
    rw [decisions,decisions,ih hnext]
    congr 1
    rw [decide_eq_decide,ne_eq,ne_eq,hrej,hrej',ht]

theorem orderFree_of_first (h : FirstRefuses ds) : OrderFree zones ds := by
  intro ds' hp tables vs
  cases ds with
  | nil => rw [List.nil_perm.mp hp]
  | cons d ds =>
    by_cases hd : unlimited ≤ d.burst
    · have hall : ∀ e ∈ d :: ds, unlimited ≤ e.burst := by
        intro e he
        rcases List.mem_cons.mp he with rfl | he
        · exact hd
        · exact (h e he).1
      have hall' : ∀ e ∈ ds', unlimited ≤ e.burst := fun e he => hall e (hp.mem_iff.mpr he)
      rw [decisions_unlimited hall,decisions_unlimited hall']
    · obtain ⟨pre,post,rfl⟩ := List.append_of_mem (hp.mem_iff.mp List.mem_cons_self)
      have hp' : ds.Perm (pre ++ post) := List.Perm.cons_inv (hp.trans List.perm_middle)
      have hothers : ∀ e ∈ [] ++ ds, unlimited ≤ e.burst ∧ e.zone ≠ d.zone :=
        fun e he => ⟨(h e he).1,fun hz => hd ((h e he).2 hz)⟩
      have hothers' : ∀ e ∈ pre ++ post, unlimited ≤ e.burst ∧ e.zone ≠ d.zone :=
        fun e he => hothers e (hp'.mem_iff.mpr he)
      exact decisions_alone hothers' hothers rfl vs

end Sufficient

section Necessary
variable {zones} {z : Zone} {t : Table} {tables : Bytes → Table} {key : Bytes}
variable {d e : Config.LimitReq} {ds : List Config.LimitReq}

/-- A request with one key for every zone, made as the zones' clocks start. -/
def atOnce (key : Bytes) : Visit := ⟨fun _ => some key,fun _ => 0⟩

/-- The key's entry is where its probe begins. -/
def Zone.Ready (z : Zone) (t : Table) (key : Bytes) : Prop := t.hash (z.slotAt (z.hashKey key) 0) = z.hashKey key

def filled (z : Zone) (key : Bytes) (w : ℕ) : Table := ⟨fun _ => z.hashKey key,fun _ => w⟩

theorem filled_ready (z : Zone) (key : Bytes) (w : ℕ) : z.Ready (filled z key w) key := rfl

theorem ready_locate (h : z.Ready t key) :
    z.locate t (z.hashKey key) probe 0 none = (t,z.slotAt (z.hashKey key) 0) := by
  exact if_pos h

theorem ready_bucket (h : z.Ready t key) : z.bucket t key = t.state (z.slotAt (z.hashKey key) 0) := by
  rw [Zone.bucket,ready_locate h]

theorem filled_bucket (z : Zone) (key : Bytes) (w : ℕ) : z.bucket (filled z key w) key = w :=
  ready_bucket (filled_ready z key w)

theorem excess_stored (z : Zone) (excess : ℕ) : z.excess 0 (pack 0 excess) = min excess excessMask + 1000 := by
  rw [Zone.excess,excessAt_stored]
  simp

/-- Below the limit of what is stored, every burst is all but used up by some word. -/
theorem brink (z : Zone) {burst : ℕ} (h : burst < unlimited) :
    ∃ w, z.excess 0 w ≤ burst ∧ burst < min (z.excess 0 w) excessMask + 1000 := by
  unfold unlimited at h
  rcases Nat.lt_or_ge burst 1000 with hlt | hge
  · have hzero : z.excess 0 0 = 0 := excessAt_zero z.rate_pos 0
    refine ⟨0,?_,?_⟩
    · omega
    · omega
  · have hx := excess_stored z (burst - 1000)
    refine ⟨pack 0 (burst - 1000),?_,?_⟩
    · omega
    · omega

theorem ready_admitted (hr : z.Ready t key) (h : z.excess 0 (z.bucket t key) ≤ d.burst) :
    z.Ready (z.check t key 0 d.burst d.nodelay d.delayAfter).1 key ∧
      z.bucket (z.check t key 0 d.burst d.nodelay d.delayAfter).1 key = pack 0 (z.excess 0 (z.bucket t key)) := by
  obtain ⟨c,hc,hne,-⟩ := bumpWord_admits (r := ruleOf z d) h
  have he : (z.check t key 0 d.burst d.nodelay d.delayAfter).1 =
      { t with state := write t.state (z.slotAt (z.hashKey key) 0) (pack 0 (z.excess 0 (z.bucket t key))) } := by
    have hc' : bumpWord ⟨z.rate,d.burst,d.nodelay,d.delayAfter⟩ 0 (t.state (z.slotAt (z.hashKey key) 0)) =
        (pack 0 (z.excess 0 (z.bucket t key)),c) := by
      rw [← ready_bucket hr]
      exact hc
    rw [Zone.check,ready_locate hr]
    simp only [hc',if_neg hne]
  have hready : z.Ready (z.check t key 0 d.burst d.nodelay d.delayAfter).1 key := by
    rw [he]
    exact hr
  refine ⟨hready,?_⟩
  rw [ready_bucket hready,he]
  simp [write]

/-- What is found in the bucket of a zone. -/
def level (zones : Bytes → Zone) (tables : Bytes → Table) (key ζ : Bytes) : ℕ :=
  (zones ζ).excess 0 ((zones ζ).bucket (tables ζ) key)

def AllReady (zones : Bytes → Zone) (tables : Bytes → Table) (key : Bytes) : Prop :=
  ∀ ζ, (zones ζ).Ready (tables ζ) key

/-- An admission raises the level of its own zone and moves no other. -/
theorem admitted_level (hp : AllReady zones tables key) (h : level zones tables key d.zone ≤ d.burst) :
    AllReady zones (Function.update tables d.zone (checkOf zones (atOnce key) tables key d).1) key ∧
      level zones (Function.update tables d.zone (checkOf zones (atOnce key) tables key d).1) key d.zone =
        min (level zones tables key d.zone) excessMask + 1000 ∧
      ∀ ζ, ζ ≠ d.zone →
        level zones (Function.update tables d.zone (checkOf zones (atOnce key) tables key d).1) key ζ =
          level zones tables key ζ := by
  obtain ⟨hready,hbucket⟩ := ready_admitted (hp d.zone) h
  refine ⟨?_,?_,?_⟩
  · intro ζ
    by_cases hz : ζ = d.zone
    · subst hz
      rw [Function.update_self]
      exact hready
    · rw [Function.update_of_ne hz]
      exact hp ζ
  · rw [level,Function.update_self]
    exact (congrArg ((zones d.zone).excess 0) hbucket).trans (excess_stored _ _)
  · intro ζ hz
    rw [level,Function.update_of_ne hz]
    rfl

theorem checkZones_level (hp : AllReady zones tables key) (ds : List Config.LimitReq) (longest : ℕ) (ζ : Bytes) :
    level zones tables key ζ ≤ level zones (checkZones zones (atOnce key) longest tables ds).1 key ζ := by
  induction ds generalizing tables longest with
  | nil => exact Nat.le_refl _
  | cons d ds ih =>
    rcases Nat.lt_or_ge d.burst (level zones tables key d.zone) with hlt | hge
    · have hrej : (checkOf zones (atOnce key) tables key d).2 = .reject := by
        rw [checkOf]
        exact congrArg Prod.snd (check_rejected hlt)
      rw [checkZones_reject rfl hrej]
    · obtain ⟨hready,hown,hother⟩ := admitted_level hp hge
      obtain ⟨longer,he⟩ := checkZones_admits (v := atOnce key) rfl (check_admitted hge) ds longest
      rw [he]
      refine Nat.le_trans ?_ (ih hready longer)
      by_cases hz : ζ = d.zone
      · subst hz
        have hle : level zones tables key d.zone ≤ unlimited := (zones d.zone).excess_le _ _
        unfold unlimited at hle
        omega
      · rw [hother ζ hz]

/-- A level past a burst refuses the request, wherever the directive stands. -/
theorem checkZones_refused (hp : AllReady zones tables key) (he : e ∈ ds)
    (h : e.burst < level zones tables key e.zone) (longest : ℕ) :
    (checkZones zones (atOnce key) longest tables ds).2 = .reject := by
  induction ds generalizing tables longest with
  | nil => cases he
  | cons d ds ih =>
    rcases Nat.lt_or_ge d.burst (level zones tables key d.zone) with hlt | hge
    · have hrej : (checkOf zones (atOnce key) tables key d).2 = .reject := congrArg Prod.snd (check_rejected hlt)
      rw [checkZones_reject rfl hrej]
    · obtain ⟨hready,hown,hother⟩ := admitted_level hp hge
      obtain ⟨longer,hstep⟩ := checkZones_admits (v := atOnce key) rfl (check_admitted hge) ds longest
      have hmem : e ∈ ds := by
        rcases List.mem_cons.mp he with rfl | he
        · exact absurd h (Nat.not_lt.mpr hge)
        · exact he
      rw [hstep]
      refine ih hready hmem ?_ longer
      by_cases hz : e.zone = d.zone
      · have hle : level zones tables key d.zone ≤ unlimited := (zones d.zone).excess_le _ _
        unfold unlimited at hle
        rw [hz] at h ⊢
        omega
      · rw [hother _ hz]
        exact h

/-- After a first directive that admits and another one that then refuses, the
request has been charged. -/
theorem not_rolledBack (hp : AllReady zones tables key) (hd : level zones tables key d.zone ≤ d.burst)
    (hlt : level zones tables key d.zone < unlimited)
    (hrej : (checkZones zones (atOnce key) 0 tables (d :: ds)).2 = .reject) : ¬ RolledBack zones (d :: ds) := by
  intro h
  obtain ⟨hready,hown,-⟩ := admitted_level hp hd
  obtain ⟨longer,hstep⟩ := checkZones_admits (v := atOnce key) rfl (check_admitted hd) ds 0
  have hmono := checkZones_level hready ds longer d.zone
  rw [← hstep] at hmono
  have hsame : level zones (checkZones zones (atOnce key) 0 tables (d :: ds)).1 key d.zone =
      level zones tables key d.zone := congrArg ((zones d.zone).excess 0) (h tables _ hrej d List.mem_cons_self key rfl)
  unfold unlimited at hlt
  omega

theorem unlimited_of_elsewhere (h : RolledBack zones (d :: ds)) (he : e ∈ ds) (hz : e.zone ≠ d.zone) :
    unlimited ≤ e.burst := by
  rcases Nat.lt_or_ge e.burst unlimited with hlt | hge
  · exfalso
    let words : Bytes → ℕ := fun ζ => if ζ = d.zone then 0 else pack 0 excessMask
    let tables : Bytes → Table := fun ζ => filled (zones ζ) [107] (words ζ)
    have hp : AllReady zones tables [107] := fun ζ => filled_ready _ _ _
    have hlevel : ∀ ζ, level zones tables [107] ζ = (zones ζ).excess 0 (words ζ) := by
      intro ζ
      rw [level,filled_bucket]
    have hzero : level zones tables [107] d.zone = 0 := by
      rw [hlevel,show words d.zone = 0 from if_pos rfl]
      exact excessAt_zero (zones d.zone).rate_pos 0
    have hfull : level zones tables [107] e.zone = unlimited := by
      rw [hlevel,show words e.zone = pack 0 excessMask from if_neg hz,excess_stored,Nat.min_self]
      rfl
    have hrej := checkZones_refused hp (List.mem_cons_of_mem d he) (by omega) 0
    exact not_rolledBack hp (by omega) (by omega) hrej h
  · exact hge

/-- Two directives of one zone: whichever burst is smaller, it refuses what the
other one has charged. -/
theorem unlimited_of_shared (h : RolledBack zones (d :: ds)) (ho : OrderFree zones (d :: ds)) (he : e ∈ ds)
    (hz : e.zone = d.zone) : unlimited ≤ min e.burst d.burst := by
  rcases Nat.lt_or_ge (min e.burst d.burst) unlimited with hlt | hge
  · exfalso
    obtain ⟨w,hw,hbrink⟩ := brink (zones d.zone) hlt
    let tables : Bytes → Table := fun ζ => filled (zones ζ) [107] w
    have hp : AllReady zones tables [107] := fun ζ => filled_ready _ _ _
    have hlevel : level zones tables [107] d.zone = (zones d.zone).excess 0 w := by
      rw [level,filled_bucket]
    rw [← hlevel] at hw hbrink
    have hd : level zones tables [107] d.zone ≤ d.burst := by omega
    have hrej : (checkZones zones (atOnce [107]) 0 tables (d :: ds)).2 = .reject := by
      rcases Nat.le_total e.burst d.burst with hle | hle
      · obtain ⟨hready,hown,-⟩ := admitted_level hp hd
        obtain ⟨longer,hstep⟩ := checkZones_admits (v := atOnce [107]) rfl (check_admitted hd) ds 0
        rw [hstep]
        refine checkZones_refused hready he ?_ longer
        rw [hz,hown]
        omega
      · have hperm : (d :: ds).Perm (e :: d :: ds.erase e) :=
          ((List.perm_cons_erase he).cons d).trans (List.Perm.swap e d _)
        have hefirst : level zones tables [107] e.zone ≤ e.burst := by
          rw [hz]
          omega
        obtain ⟨hready,hown,-⟩ := admitted_level hp hefirst
        obtain ⟨longer,hstep⟩ := checkZones_admits (v := atOnce [107]) rfl (check_admitted hefirst)
          (d :: ds.erase e) 0
        have hsecond : (checkZones zones (atOnce [107]) 0 tables (e :: d :: ds.erase e)).2 = .reject := by
          rw [hstep]
          refine checkZones_refused hready List.mem_cons_self ?_ longer
          rw [hz] at hown ⊢
          omega
        have hsame := ho _ hperm tables [atOnce [107]]
        simp only [decisions,hsecond,List.cons.injEq,decide_eq_decide,and_true] at hsame
        by_contra hno
        exact (hsame.mpr hno) rfl
    exact not_rolledBack hp hd (by omega) hrej h
  · exact hge

end Necessary

/-- What one request is charged for can be taken back, and the order of the
directives does not show, for exactly the lists where the first alone can refuse. -/
theorem chargedToNone_iff (zones : Bytes → Zone) (ds : List Config.LimitReq) :
    RolledBack zones ds ∧ OrderFree zones ds ↔ FirstRefuses ds := by
  constructor
  · rintro ⟨hr,ho⟩
    cases ds with
    | nil => trivial
    | cons d ds =>
      intro e he
      by_cases hz : e.zone = d.zone
      · have hmin := unlimited_of_shared hr ho he hz
        exact ⟨Nat.le_trans hmin (Nat.min_le_left _ _),fun _ => Nat.le_trans hmin (Nat.min_le_right _ _)⟩
      · exact ⟨unlimited_of_elsewhere hr he hz,fun h => absurd h hz⟩
  · intro h
    exact ⟨rolledBack_of_first h,orderFree_of_first h⟩

section Instance

def twoZones : Bytes → Zone := fun _ => ⟨1000,perSecond.rate_pos,64,0⟩

/-- Zone `b` refuses a second request at once, zone `a` comes first and does not. -/
def refusesLate : List Config.LimitReq := [⟨lit "a",5000,true,0⟩,⟨lit "b",0,true,0⟩]

/-- The tables after a first request. -/
def onceServed : Bytes → Table := (checkZones twoZones (atOnce [107]) 0 (fun _ => Table.new) refusesLate).1

theorem refusesLate_charged : ¬ (RolledBack twoZones refusesLate ∧ OrderFree twoZones refusesLate) := by
  rintro ⟨h,-⟩
  have hrej : (checkZones twoZones (atOnce [107]) 0 onceServed refusesLate).2 = .reject := by decide +kernel
  have hbucket := h onceServed (atOnce [107]) hrej ⟨lit "a",5000,true,0⟩ List.mem_cons_self [107] rfl
  exact absurd hbucket (by decide +kernel)

end Instance

end OxiServe.LimitReq
