import OxiServe.Server.Ctx

/-! # How deep a template goes

A variable that is defined by others is rendered one level deeper. The levels are counted
for the variables of maps, where they end, and not for `$document_root`, which is rendered
from the location's own root as long as none is recorded.
-/
namespace OxiServe.Server
open Config
variable {env : Env} {ctx : Ctx} {v : Var} {n depth : ℕ}

section Levels

/-- The segments of a template, when all of their variables have a value. -/
def renderRun (src : Var → Option Bytes) : List Seg → Option Bytes
  | [] => some []
  | .text t :: segs => (renderRun src segs).map (t ++ ·)
  | .var v :: segs => (src v).bind (fun b => (renderRun src segs).map (b ++ ·))

/-- The root or alias in force. -/
def Ctx.rootTemplate (ctx : Ctx) : Template := ctx.matchedCore.aliasTo.getD ctx.matchedCore.root

/-- A variable within a number of levels, none when they are not enough. -/
def varRun (env : Env) (ctx : Ctx) : ℕ → Var → ℕ → Option Bytes
  | 0, _, _ => none
  | n + 1, .documentRoot, depth =>
    if ctx.documentRoot ≠ [] then some ctx.documentRoot
    else renderRun (fun v => varRun env ctx n v (depth + 1)) ctx.rootTemplate.segs
  | n + 1, .user name, depth =>
    if 8 < depth then some []
    else
      match ctx.setVars.lookup name with
      | some v => some v
      | none =>
        match ctx.http.maps.find? (fun m => m.target == name) with
        | none => some []
        | some m =>
          (varRun env ctx n m.source (depth + 1)).bind (fun key =>
            match mapLookup m key with
            | none => some []
            | some t => renderRun (fun v => varRun env ctx n v (depth + 1)) t.segs)
  -- the others are read off the request
  | _ + 1, v, depth => some (varDepth env ctx 1 v depth)

def Ctx.renderRun (env : Env) (ctx : Ctx) (n : ℕ) (t : Template) : Option Bytes :=
  OxiServe.Server.renderRun (fun v => varRun env ctx n v 0) t.segs

/-- Every template is done within a number of levels. -/
def RendersWithin (env : Env) (ctx : Ctx) (n : ℕ) : Prop := ∀ t : Template, (ctx.renderRun env n t).isSome = true

/-- The root or alias in force names `$document_root` while none is recorded. -/
def Ctx.Circular (ctx : Ctx) : Prop := ctx.documentRoot = [] ∧ Seg.var .documentRoot ∈ ctx.rootTemplate.segs

/-- Nine levels of variables, a root at the last of them, and what it names. -/
def maxLevels : ℕ := 11

end Levels

section Runs

theorem renderRun_some {src : Var → Option Bytes} {src' : Var → Bytes} {t : Template} {b : Bytes}
    (hs : ∀ v b, src v = some b → src' v = b) (h : renderRun src t.segs = some b) : t.render src' = b := by
  obtain ⟨segs⟩ := t
  induction segs generalizing b with
  | nil =>
    cases h
    rfl
  | cons s segs ih =>
    cases s with
    | text t =>
      obtain ⟨c,hc,rfl⟩ := Option.map_eq_some_iff.mp h
      exact congrArg (t ++ ·) (ih hc)
    | var v =>
      obtain ⟨a,ha,h⟩ := Option.bind_eq_some_iff.mp h
      obtain ⟨c,hc,rfl⟩ := Option.map_eq_some_iff.mp h
      have hv : (Template.mk (.var v :: segs)).render src' = src' v ++ (Template.mk segs).render src' := rfl
      rw [hv,hs v a ha,ih hc]

theorem isSome_renderRun {src : Var → Option Bytes} {segs : List Seg}
    (h : ∀ v, Seg.var v ∈ segs → (src v).isSome = true) : (renderRun src segs).isSome = true := by
  induction segs with
  | nil => rfl
  | cons s segs ih =>
    have ih := ih (fun v hv => h v (List.mem_cons_of_mem _ hv))
    obtain ⟨b,hb⟩ := Option.isSome_iff_exists.mp ih
    cases s with
    | text t => simp [renderRun,hb]
    | var v =>
      obtain ⟨a,ha⟩ := Option.isSome_iff_exists.mp (h v List.mem_cons_self)
      simp [renderRun,hb,ha]

theorem renderRun_none {src : Var → Option Bytes} {segs : List Seg} (hv : Seg.var v ∈ segs) (h : src v = none) :
    renderRun src segs = none := by
  induction segs with
  | nil => cases hv
  | cons s segs ih =>
    rcases List.mem_cons.mp hv with rfl | hin
    · simp [renderRun,h]
    · cases s with
      | text t => simp [renderRun,ih hin]
      | var w => simp [renderRun,ih hin]

/-- Variables without levels of their own. -/
def isPlain : Var → Bool
  | .documentRoot | .user _ => false
  | _ => true

theorem varRun_plain (h : isPlain v = true) (n depth : ℕ) :
    varRun env ctx (n + 1) v depth = some (varDepth env ctx (n + 1) v depth) := by
  cases v <;> first | rfl | cases h

/-- What is done within the levels is what is rendered. -/
theorem varRun_varDepth {b : Bytes} (h : varRun env ctx n v depth = some b) : varDepth env ctx n v depth = b := by
  induction n generalizing v depth b with
  | zero => cases h
  | succ n ih =>
    cases hp : isPlain v with
    | true =>
      rw [varRun_plain hp] at h
      exact Option.some.inj h
    | false =>
      cases v with
      | documentRoot =>
        rw [varRun] at h
        rw [varDepth]
        by_cases hd : ctx.documentRoot ≠ []
        · rw [if_pos hd] at h ⊢
          exact Option.some.inj h
        · rw [if_neg hd] at h ⊢
          exact renderRun_some (fun w c hw => ih hw) h
      | user name =>
        rw [varRun] at h
        rw [varDepth]
        split at h
        · rename_i hd
          rw [if_pos hd]
          exact Option.some.inj h
        · rename_i hd
          rw [if_neg hd]
          cases hset : ctx.setVars.lookup name with
          | some w =>
            rw [hset] at h
            exact Option.some.inj h
          | none =>
            rw [hset] at h
            dsimp only at h ⊢
            cases hm : ctx.http.maps.find? (fun m => m.target == name) with
            | none =>
              rw [hm] at h
              exact Option.some.inj h
            | some m =>
              rw [hm] at h
              obtain ⟨key,hkey,h⟩ := Option.bind_eq_some_iff.mp h
              dsimp only
              rw [ih hkey]
              cases ht : mapLookup m key with
              | none =>
                rw [ht] at h
                exact Option.some.inj h
              | some t =>
                rw [ht] at h
                exact renderRun_some (fun w c hw => ih hw) h
      | _ => cases hp

end Runs

section Bound

/-- A map's levels end at the ninth; a root that does not name itself takes one more. -/
theorem varRun_isSome (hc : ¬ ctx.Circular) (h1 : 1 ≤ n) (h2 : v = .documentRoot → 2 ≤ n)
    (hd : depth ≤ 8 → maxLevels ≤ n + depth) : (varRun env ctx n v depth).isSome = true := by
  induction n generalizing v depth with
  | zero => omega
  | succ n ih =>
    cases hp : isPlain v with
    | true =>
      rw [varRun_plain hp]
      rfl
    | false =>
      cases v with
      | documentRoot =>
        rw [varRun]
        by_cases hroot : ctx.documentRoot ≠ []
        · rw [if_pos hroot]
          rfl
        · rw [if_neg hroot]
          have hn := h2 rfl
          refine isSome_renderRun (fun w hw => ih (by omega) ?_ (by omega))
          rintro rfl
          exact absurd ⟨not_not.mp hroot,hw⟩ hc
      | user name =>
        rw [varRun]
        split
        · rfl
        · rename_i hdepth
          have hlevels := hd (by omega)
          unfold maxLevels at hlevels hd ih
          split
          · rfl
          · split
            · rfl
            · rename_i m _
              obtain ⟨key,hkey⟩ := Option.isSome_iff_exists.mp
                (@ih m.source (depth + 1) (by omega) (by omega) (by omega))
              rw [hkey,Option.bind_some]
              split
              · rfl
              · exact isSome_renderRun (fun w hw => ih (by omega) (by omega) (by omega))
      | _ => cases hp

/-- A root that names itself is never done. -/
theorem varRun_circular (hc : ctx.Circular) (n depth : ℕ) : varRun env ctx n .documentRoot depth = none := by
  induction n generalizing depth with
  | zero => rfl
  | succ n ih =>
    rw [varRun,if_neg (not_not.mpr hc.1)]
    exact renderRun_none hc.2 (ih (depth + 1))

theorem not_rendersWithin (hc : ctx.Circular) (n : ℕ) : ¬ RendersWithin env ctx n := by
  intro h
  have h := h ⟨[.var .documentRoot]⟩
  rw [Ctx.renderRun,renderRun_none List.mem_cons_self (varRun_circular hc n 0)] at h
  cases h

theorem rendersWithin_of_le (hc : ¬ ctx.Circular) (hn : maxLevels ≤ n) : RendersWithin env ctx n := by
  unfold maxLevels at hn
  intro t
  exact isSome_renderRun (fun v _ => varRun_isSome hc (by omega) (by omega) (by unfold maxLevels; omega))

/-- Rendering ends for every template, and then within a constant number of levels, unless
the root or alias in force names `$document_root` while none is recorded. -/
theorem rendersWithin_iff (env : Env) (ctx : Ctx) :
    (RendersWithin env ctx maxLevels ↔ (ctx.documentRoot ≠ [] ∨ Seg.var .documentRoot ∉ ctx.rootTemplate.segs)) ∧
      ((∃ n, RendersWithin env ctx n) ↔
        (ctx.documentRoot ≠ [] ∨ Seg.var .documentRoot ∉ ctx.rootTemplate.segs)) := by
  have hcases : (ctx.documentRoot ≠ [] ∨ Seg.var .documentRoot ∉ ctx.rootTemplate.segs) ↔ ¬ ctx.Circular :=
    not_and_or.symm
  rw [hcases]
  refine ⟨⟨fun h hc => not_rendersWithin hc _ h,fun hc => rendersWithin_of_le hc (Nat.le_refl _)⟩,?_,?_⟩
  · rintro ⟨n,h⟩ hc
    exact not_rendersWithin hc n h
  · exact fun hc => ⟨maxLevels,rendersWithin_of_le hc (Nat.le_refl _)⟩

/-- What is rendered then is what rendering comes to. -/
theorem renderRun_render (hc : ¬ ctx.Circular) (t : Template) :
    ctx.renderRun env varFuel t = some (ctx.render env t) := by
  obtain ⟨b,hb⟩ := Option.isSome_iff_exists.mp (@rendersWithin_of_le env _ _ hc (by decide : maxLevels ≤ varFuel) t)
  rw [hb,Ctx.render]
  exact congrArg some (renderRun_some (fun v c hv => varRun_varDepth hv) hb).symm

/-- `root $document_root` in a server without locations. -/
def selfRooted : Ctx :=
  { getCtx (lit "/") with
    server := { ServerConf.bare with core := { defaultCore with root := ⟨[.var .documentRoot]⟩ } } }

theorem selfRooted_endless : ¬ ∃ n, RendersWithin Env.idle selfRooted n := by
  rintro ⟨n,h⟩
  exact not_rendersWithin ⟨rfl,List.mem_singleton.mpr rfl⟩ n h

end Bound

end OxiServe.Server
