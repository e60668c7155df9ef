import OxiServe.Config.Build

/-! # Zone names that mean something

A configuration is closed when every zone named by a setting in effect is
declared, in a server or in a location at any depth. What a block of directives
comes to: its own settings, and the locations of it that are not replaced.
-/
namespace OxiServe.Config

/-- The zone names that are declared. -/
structure Names where
  reqs : List Bytes
  conns : List Bytes
  caches : List Bytes

def Http.names (h : Http) : Names := ⟨h.limitReqZones,h.limitConnZones,h.cacheZones⟩

structure CoreConf.Closed (z : Names) (c : CoreConf) : Prop where
  reqs : ∀ l ∈ c.limitReqs, l.zone ∈ z.reqs
  conns : ∀ l ∈ c.limitConns, l.zone ∈ z.conns
  cache : ∀ n, c.proxyCache.zone = some n → n ∈ z.caches

/-- Every location of a set, of whatever kind. -/
def LocSet.members (s : LocSet Location) : List Location :=
  s.exact ++ s.prefixes ++ s.regex ++ s.named.map Prod.snd

/-- A location of a set, at any depth. -/
inductive Within : LocSet Location → Location → Prop
  | here {s : LocSet Location} {l : Location} : l ∈ s.members → Within s l
  | inside {s t : LocSet Location} {l m : Location} : l ∈ s.members → l.nested = some t → Within t m → Within s m

/-- Every zone in effect anywhere in the servers is declared. -/
def ZonesClosed (h : Http) (servers : List ServerConf) : Prop :=
  ∀ s ∈ servers, s.core.Closed h.names ∧ ∀ l, Within s.locations l → l.core.Closed h.names

section Tree

/-- The name of a named location. -/
def nameOf (d : Directive) : Option Bytes :=
  match d.args with
  | [p] => if p.head? = some 64 then some (p.drop 1) else none
  | _ => none

/-- A later location of the block has the same name. -/
def isReplaced (d : Directive) (ds : List Directive) : Bool :=
  match nameOf d with
  | none => false
  | some n => ds.any (fun e => Builder.isLocation e && nameOf e == some n)

/-- The zone settings of a block itself. -/
def zonesOf (block : Directive → Bool) (ds : List Directive) : ZoneLayer :=
  (ds.filter (fun d => !block d)).foldl (fun lv d =>
    match zoneDirective lv d with
    | some (.ok l) => l
    | _ => lv) .unset

structure ZoneLayer.Declared (z : Names) (lv : ZoneLayer) : Prop where
  reqs : ∀ ls, lv.limitReqs = some ls → ∀ l ∈ ls, l.zone ∈ z.reqs
  conns : ∀ ls, lv.limitConns = some ls → ∀ l ∈ ls, l.zone ∈ z.conns
  cache : ∀ n, lv.cacheZone = some (some n) → n ∈ z.caches

mutual

/-- A location and those within it name declared zones only. -/
def Directive.Declared (z : Names) : Directive → Prop
  | .mk _ _ children _ => (zonesOf Builder.isLocation children).Declared z ∧ AllDeclared z children

/-- The locations of a block do, apart from those that are replaced. -/
def AllDeclared (z : Names) : List Directive → Prop
  | [] => True
  | d :: ds => (Builder.isLocation d = true → isReplaced d ds = false → Directive.Declared z d) ∧ AllDeclared z ds

end

/-- The zones that the definitions of an `http` block declare. -/
def Builder.declared (self : Builder) (ds : List Directive) : ZoneDefs :=
  (ds.filter (fun c => !isServer c)).foldl (fun defs d =>
    match self.zoneDef defs d with
    | some (.ok defs) => defs
    | _ => defs) ⟨[],[],[]⟩

def ZoneDefs.names (defs : ZoneDefs) : Names := ⟨defs.reqs.map Prod.fst,defs.conns.map Prod.fst,defs.caches⟩

end Tree

section Steps
variable {α β σ τ δ : Type}

theorem bind_ok {x : Built α} {f : α → Built β} {b : β} : (x >>= f) = .ok b ↔ ∃ a, x = .ok a ∧ f a = .ok b := by
  cases x with
  | error e => exact ⟨(fun h => nomatch h),(fun ⟨_,ha,_⟩ => nomatch ha)⟩
  | ok a =>
    constructor
    · intro h
      exact ⟨a,rfl,h⟩
    · rintro ⟨a',ha,hf⟩
      cases ha
      exact hf

theorem map_ok {x : Built α} {f : α → β} {b : β} : x.map f = .ok b ↔ ∃ a, x = .ok a ∧ f a = b := by
  cases x with
  | error e => exact ⟨(fun h => nomatch h),(fun ⟨_,ha,_⟩ => nomatch ha)⟩
  | ok a =>
    constructor
    · intro h
      cases h
      exact ⟨a,rfl,rfl⟩
    · rintro ⟨a',ha,rfl⟩
      cases ha
      rfl

/-- A part of the state that every step determines on its own. -/
theorem foldlM_part (part : σ → τ) {f : σ → δ → Built σ} {g : τ → δ → τ}
    (h : ∀ s d t, f s d = .ok t → part t = g (part s) d) {ds : List δ} {s t : σ} (hf : ds.foldlM f s = .ok t) :
    part t = ds.foldl g (part s) := by
  induction ds generalizing s with
  | nil =>
    cases hf
    rfl
  | cons d ds ih =>
    rw [List.foldlM_cons] at hf
    obtain ⟨u,hu,ht⟩ := bind_ok.mp hf
    rw [ih ht,List.foldl_cons,h s d u hu]

theorem forM_ok {f : α → Built Unit} {as : List α} : as.forM f = .ok () ↔ ∀ a ∈ as, f a = .ok () := by
  induction as with
  | nil => exact ⟨(fun _ _ ha => nomatch ha),fun _ => rfl⟩
  | cons a as ih =>
    change (f a >>= fun _ => as.forM f) = .ok () ↔ _
    rw [bind_ok]
    constructor
    · rintro ⟨⟨⟩,ha,has⟩ b hb
      rcases List.mem_cons.mp hb with rfl | hb
      · exact ha
      · exact ih.mp has b hb
    · intro h
      exact ⟨(),h a List.mem_cons_self,ih.mpr fun b hb => h b (List.mem_cons_of_mem _ hb)⟩

theorem mapM_ok {f : α → Built β} {as : List α} {bs : List β} (h : as.mapM f = .ok bs) :
    (∀ a ∈ as, ∃ b ∈ bs, f a = .ok b) ∧ ∀ b ∈ bs, ∃ a ∈ as, f a = .ok b := by
  induction as generalizing bs with
  | nil =>
    cases h
    exact ⟨(fun _ ha => nomatch ha),(fun _ hb => nomatch hb)⟩
  | cons a as ih =>
    rw [List.mapM_cons] at h
    obtain ⟨b,hb,h⟩ := bind_ok.mp h
    obtain ⟨cs,hcs,h⟩ := bind_ok.mp h
    cases h
    obtain ⟨h1,h2⟩ := ih hcs
    constructor
    · intro x hx
      rcases List.mem_cons.mp hx with rfl | hx
      · exact ⟨b,List.mem_cons_self,hb⟩
      · obtain ⟨c,hc,he⟩ := h1 x hx
        exact ⟨c,List.mem_cons_of_mem _ hc,he⟩
    · intro y hy
      rcases List.mem_cons.mp hy with rfl | hy
      · exact ⟨a,List.mem_cons_self,hb⟩
      · obtain ⟨x,hx,he⟩ := h2 y hy
        exact ⟨x,List.mem_cons_of_mem _ hx,he⟩

end Steps

section Levels
variable {self : Builder} {z : Names} {scope : Scope} {block : Directive → Bool} {ds : List Directive}

theorem level_zones {lv : ZoneLayer × self.Layer} (h : self.level scope block ds = .ok lv) :
    lv.1 = zonesOf block ds := by
  refine foldlM_part Prod.fst (fun s d t hs => ?_) h
  simp only [Builder.levelDirective] at hs
  cases hd : zoneDirective s.1 d with
  | none =>
    rw [hd] at hs
    obtain ⟨l,-,rfl⟩ := map_ok.mp hs
    rfl
  | some r =>
    rw [hd] at hs
    obtain ⟨l,rfl,rfl⟩ := map_ok.mp hs
    rfl

/-- Settings on top of closed ones are closed when they name declared zones. -/
theorem resolve_closed {lv : ZoneLayer × self.Layer} {parent : CoreConf} (hp : parent.Closed z) :
    (self.resolve lv parent).Closed z ↔ lv.1.Declared z := by
  rcases lv with ⟨⟨rs,cs,n⟩,other⟩
  constructor
  · intro h
    refine ⟨?_,?_,?_⟩
    · rintro ls hls
      cases hls
      exact h.reqs
    · rintro ls hls
      cases hls
      exact h.conns
    · rintro n hn
      cases hn
      exact h.cache n rfl
  · intro h
    refine ⟨?_,?_,?_⟩
    · cases rs with
      | none => exact hp.reqs
      | some ls => exact h.reqs ls rfl
    · cases cs with
      | none => exact hp.conns
      | some ls => exact h.conns ls rfl
    · cases n with
      | none => exact hp.cache
      | some m =>
        intro k hk
        cases hk
        exact h.cache k rfl

end Levels

section Sets
variable {z : Names} {l m : Location} {ls : List Location}

def Location.name (l : Location) : Option Bytes :=
  match l.matcher with
  | .named n => some n
  | _ => none

def Location.isReplaced (l : Location) (ls : List Location) : Bool :=
  match l.name with
  | none => false
  | some n => ls.any (fun k => k.name == some n)

/-- The locations of a block that end up in its set. -/
def inEffect : List Location → List Location
  | [] => []
  | l :: ls => if l.isReplaced ls then inEffect ls else l :: inEffect ls

theorem inEffect_subset (h : l ∈ inEffect ls) : l ∈ ls := by
  induction ls with
  | nil => cases h
  | cons k ks ih =>
    simp only [inEffect] at h
    split at h
    · exact List.mem_cons_of_mem _ (ih h)
    · rcases List.mem_cons.mp h with rfl | h
      · exact List.mem_cons_self
      · exact List.mem_cons_of_mem _ (ih h)

theorem inEffect_unnamed (hn : l.name = none) : l ∈ inEffect ls ↔ l ∈ ls := by
  refine ⟨inEffect_subset,fun h => ?_⟩
  induction ls with
  | nil => cases h
  | cons k ks ih =>
    simp only [inEffect]
    rcases List.mem_cons.mp h with rfl | h
    · have hr : l.isReplaced ks = false := by simp [Location.isReplaced,hn]
      rw [hr]
      exact List.mem_cons_self
    · split
      · exact ih h
      · exact List.mem_cons_of_mem _ (ih h)

/-- A name in the table belongs to the last location of that name. -/
theorem mem_insertNamed (named : List (Bytes × Location)) (n : Bytes) :
    (n,l) ∈ ls.foldl insertNamed named ↔
      (n,l) ∈ named ∧ (∀ k ∈ ls, k.name ≠ some n) ∨ l ∈ inEffect ls ∧ l.name = some n := by
  induction ls generalizing named with
  | nil => simp [inEffect]
  | cons k ks ih =>
    rw [List.foldl_cons,ih]
    have hrep : k.isReplaced ks = true ↔ ∃ n, k.name = some n ∧ ∃ e ∈ ks, e.name = some n := by
      unfold Location.isReplaced
      cases k.name with
      | none => simp
      | some n => simp
    have hins : (n,l) ∈ insertNamed named k ↔ (k.name = some n ∧ l = k) ∨ ((n,l) ∈ named ∧ k.name ≠ some n) := by
      unfold insertNamed Location.name
      cases k.matcher with
      | named m =>
        simp only [List.mem_cons,List.mem_filter,Prod.mk.injEq,bne_iff_ne,Option.some.injEq,ne_eq]
        constructor
        · rintro (⟨rfl,rfl⟩ | ⟨hm,hne⟩)
          · exact .inl ⟨rfl,rfl⟩
          · exact .inr ⟨hm,fun he => hne he.symm⟩
        · rintro (⟨rfl,rfl⟩ | ⟨hm,hne⟩)
          · exact .inl ⟨rfl,rfl⟩
          · exact .inr ⟨hm,fun he => hne he.symm⟩
      | _ => simp
    have heff : l ∈ inEffect (k :: ks) ↔ (l = k ∧ k.isReplaced ks = false) ∨ l ∈ inEffect ks := by
      simp only [inEffect]
      split
      · rename_i hr
        simp [hr]
      · rename_i hr
        simp [Bool.not_eq_true _ ▸ hr]
    rw [hins,heff]
    constructor
    · rintro (⟨⟨hk,rfl⟩ | ⟨hm,hne⟩,hks⟩ | ⟨he,hn⟩)
      · refine .inr ⟨.inl ⟨rfl,?_⟩,hk⟩
        rw [← Bool.not_eq_true,hrep]
        rintro ⟨n',hn',e,hem,hen⟩
        rw [hk] at hn'
        cases hn'
        exact hks e hem hen
      · refine .inl ⟨hm,fun e he => ?_⟩
        rcases List.mem_cons.mp he with rfl | he
        · exact hne
        · exact hks e he
      · exact .inr ⟨.inr he,hn⟩
    · rintro (⟨hm,hall⟩ | ⟨⟨rfl,hr⟩ | he,hn⟩)
      · exact .inl ⟨.inr ⟨hm,hall k List.mem_cons_self⟩,fun e he => hall e (List.mem_cons_of_mem _ he)⟩
      · refine .inl ⟨.inl ⟨hn,rfl⟩,fun e he hen => ?_⟩
        rw [← Bool.not_eq_true,hrep] at hr
        exact hr ⟨n,hn,e,he,hen⟩
      · exact .inr ⟨he,hn⟩

theorem mem_ofList : l ∈ (LocSet.ofList ls).members ↔ l ∈ inEffect ls := by
  have hnamed : l ∈ (ls.foldl insertNamed []).map Prod.snd ↔ l ∈ inEffect ls ∧ l.name ≠ none := by
    rw [List.mem_map]
    constructor
    · rintro ⟨⟨n,k⟩,hm,rfl⟩
      rcases (mem_insertNamed [] n).mp hm with ⟨h,-⟩ | ⟨h,hn⟩
      · cases h
      · exact ⟨h,by simp [hn]⟩
    · rintro ⟨h,hn⟩
      obtain ⟨n,hn⟩ := Option.ne_none_iff_exists'.mp hn
      exact ⟨(n,l),(mem_insertNamed [] n).mpr (.inr ⟨h,hn⟩),rfl⟩
  simp only [LocSet.members,LocSet.ofList,List.mem_append,List.mem_mergeSort,List.mem_filter,hnamed]
  cases hm : l.matcher with
  | named n =>
    have hn : l.name = some n := by simp [Location.name,hm]
    simp [hn]
  | _ =>
    have hn : l.name = none := by simp [Location.name,hm]
    simp [hn,inEffect_unnamed hn]

/-- A location and everything within it is closed. -/
def Location.TreeClosed (z : Names) (l : Location) : Prop :=
  l.core.Closed z ∧ ∀ t, l.nested = some t → ∀ m, Within t m → m.core.Closed z

theorem within_closed {s : LocSet Location} :
    (∀ m, Within s m → m.core.Closed z) ↔ ∀ l ∈ s.members, l.TreeClosed z := by
  constructor
  · intro h l hl
    exact ⟨h l (.here hl),fun t ht m hm => h m (.inside hl ht hm)⟩
  · intro h m hm
    cases hm with
    | here hl => exact (h m hl).1
    | inside hl ht hm => exact (h _ hl).2 _ ht m hm

end Sets

end OxiServe.Config
