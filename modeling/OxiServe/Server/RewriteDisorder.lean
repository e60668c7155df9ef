import OxiServe.Server.RewriteProbes

/-! # Orders that the passes over a level do not keep

For each form of a level outside the orders that are kept there is a level of the form
and a request that tell the passes from the directives as written.
-/
namespace OxiServe.Server
open Config

section Levels
variable {env : Env} {p : Place} {c d : Ctx} {x : Bytes}

def markDirective : Form → PhaseDirective
  | .rewrite f => .rewrite (probeRule f)
  | .ifBlock as => .ifBlock ⟨.always,leadActions markAction as⟩
  | .set => .set [118] (.literal [122])
  | .ret => .ret 418 none
  | .handler => .handler (.stubStatus false)

def spoilDirective : Form → PhaseDirective
  | .ifBlock as => .ifBlock ⟨.always,leadActions spoilAction as⟩
  | .set => .set [118] ⟨[]⟩
  | f => quietDirective f

def breakDirective : Form → PhaseDirective
  | .rewrite f => .rewrite (rootRule f)
  | .ifBlock as => .ifBlock ⟨.always,if ActionForm.leaks as then leakActions as else as.map quietAction⟩
  | f => quietDirective f

def dirtyDirective : Form → PhaseDirective
  | .ifBlock as => .ifBlock ⟨.always,dirtyActions as⟩
  | f => quietDirective f

theorem form_mark (f : Form) : form (markDirective f) = f := by
  cases f with
  | ifBlock as => exact congrArg Form.ifBlock (actionForms_lead actionForm_mark as)
  | rewrite f => rfl
  | set => rfl
  | ret => rfl
  | handler => rfl

theorem form_spoil (f : Form) : form (spoilDirective f) = f := by
  cases f with
  | ifBlock as => exact congrArg Form.ifBlock (actionForms_lead actionForm_spoil as)
  | rewrite f => rfl
  | set => rfl
  | ret => rfl
  | handler => rfl

theorem form_break (f : Form) : form (breakDirective f) = f := by
  cases f with
  | ifBlock as =>
    refine congrArg Form.ifBlock ?_
    dsimp only
    split
    · exact actionForms_leak as
    · exact actionForms_quiet as
  | rewrite f => rfl
  | set => rfl
  | ret => rfl
  | handler => rfl

theorem form_dirty (f : Form) : form (dirtyDirective f) = f := by
  cases f with
  | ifBlock as => exact congrArg Form.ifBlock (actionForms_dirty as)
  | rewrite f => rfl
  | set => rfl
  | ret => rfl
  | handler => rfl

/-- The two passes over a level. -/
def passes (p : Place) (env : Env) (ds : List PhaseDirective) (c : Ctx) : Ctx × Option Step :=
  phase p env (ds.filterMap (·.rule)) (ds.filterMap (·.block)) c

/-- Its directives as written. -/
def written (p : Place) (env : Env) (ds : List PhaseDirective) (c : Ctx) : Ctx × Option Step :=
  close p (ended (inTurn (runDirective env) ds c))

/-- The request is marked, or its reply is. -/
def Shown (q : Ctx × Option Step) : Prop :=
  Marks q.1 ∨ ∃ r k, q.2 = some (.done r k) ∧ r.resp.status = 418

/-- Neither is. -/
structure Calm (q : Ctx × Option Step) : Prop where
  ctx : Untouched q.1
  step : ∀ s, q.2 = some s → PlainStep s

theorem shown_ended {q : Ctx × Option PhaseEnd} (h : MarksEnd q) : Shown (ended q) := by
  rcases q with ⟨c,_ | _ | s⟩
  · rcases h with h | ⟨r,k,h,-⟩
    · exact Or.inl h
    · cases h
  · rcases h with h | ⟨r,k,h,-⟩
    · exact Or.inl h
    · cases h
  · rcases h with h | ⟨r,k,h,hs⟩
    · exact Or.inl h
    · cases h
      exact Or.inr ⟨r,k,rfl,hs⟩

theorem close_cases (p : Place) (q : Ctx × Option Step) :
    close p q = q ∨ ∃ uri, close p q = ({ q.1 with uri := uri },none) ∧ ∀ r k, q.2 ≠ some (.done r k) := by
  cases p with
  | location tries => exact Or.inl rfl
  | server =>
    rcases q with ⟨c,_ | s⟩
    · exact Or.inl rfl
    · cases s with
      | done r k => exact Or.inl rfl
      | fail code => exact Or.inl rfl
      | internal uri => exact Or.inr ⟨uri,rfl,fun r k h => nomatch h⟩
      | named n => exact Or.inr ⟨c.uri,rfl,fun r k h => nomatch h⟩

theorem shown_close {q : Ctx × Option Step} (h : Shown q) : Shown (close p q) := by
  rcases close_cases p q with he | ⟨uri,he,hn⟩
  · rw [he]
    exact h
  · rw [he]
    rcases h with h | ⟨r,k,h,-⟩
    · exact Or.inl ⟨h.vars,h.mark⟩
    · exact absurd h (hn r k)

theorem calm_close {q : Ctx × Option PhaseEnd} (hc : Untouched q.1) (hp : Plain q.2) : Calm (close p (ended q)) := by
  have he : Calm (ended q) := by
    rcases q with ⟨c,_ | _ | s⟩
    · exact ⟨hc,fun s h => nomatch h⟩
    · exact ⟨hc,fun s h => nomatch h⟩
    · refine ⟨hc,fun t h => ?_⟩
      cases h
      exact hp
  rcases close_cases p (ended q) with h | ⟨uri,h,-⟩
  · rw [h]
    exact he
  · rw [h]
    exact ⟨⟨he.ctx.args,he.ctx.vars⟩,fun s hn => nomatch hn⟩

theorem rules_quietly (fs : List Form) (ds : List PhaseDirective) (c : Ctx) :
    inTurn (runRule env) ((quiet fs ++ ds).filterMap (·.rule)) c =
      inTurn (runRule env) (ds.filterMap (·.rule)) c := by
  rw [List.filterMap_append,inTurn_append_goes (inTurn_idle rules_quiet)]

theorem passes_quietly (h : Vars x c) (fs : List Form) (ds : List PhaseDirective) :
    inTurn (passBlock env) ((quiet fs ++ ds).filterMap (·.block)) c =
      inTurn (passBlock env) (ds.filterMap (·.block)) c := by
  rw [List.filterMap_append,inTurn_append_goes (inTurn_idle (blocks_quietly h))]

/-- Without an outcome of the rules the conditions decide. -/
theorem passes_blocks {ds : List PhaseDirective} {e : Ctx}
    (h : close p (ended (inTurn (runRule env) (ds.filterMap (·.rule)) c)) = (e,none)) :
    passes p env ds c = close p (ended (inTurn (passBlock env) (ds.filterMap (·.block)) e)) := by
  unfold passes phase
  rw [runRewrites_inTurn,h]
  dsimp only
  rw [runIfs_inTurn]

/-- A rule that marks the request, whatever comes after it as long as that leads no
further. -/
theorem passes_probe {ds : List PhaseDirective} {f : RewriteFlag} (hu : c.uri = [47]) (hv : Vars [109] c)
    (hr : inTurn (runRule env) (ds.filterMap (·.rule)) c = runRule env (probeRule f) c)
    (hb : ∀ b ∈ ds.filterMap (·.block), ∀ e : Ctx, Passed e → Passed (passBlock env b e).1) :
    Shown (passes p env ds c) := by
  have hend : ∀ e : Ctx, Passed e →
      Shown (close p (ended (inTurn (passBlock env) (ds.filterMap (·.block)) e))) := fun e he =>
    shown_close (shown_ended (Or.inl (inTurn_keeps hb he).marks))
  rw [runRule_probe hu hv] at hr
  have hv' : Vars [109] { c with captures := [], args := [109] } := hv
  have hpassed : Passed { c with captures := [], args := [109], uri := [47,120] } :=
    ⟨rfl,⟨_,hv'⟩,by simp⟩
  have hmarks : Marks { c with captures := [], args := [109] } := ⟨⟨_,hv'⟩,Or.inl rfl⟩
  cases f with
  | none =>
    rw [passes_blocks (e := { c with captures := [], args := [109], uri := [47,120] }) (by
      rw [hr]
      exact close_none _)]
    exact hend _ hpassed
  | brk =>
    rw [passes_blocks (e := { c with captures := [], args := [109], uri := [47,120] }) (by
      rw [hr]
      exact close_none _)]
    exact hend _ hpassed
  | last =>
    cases p with
    | server =>
      rw [passes_blocks (e := { c with captures := [], args := [109], uri := [47,120] }) (by
        rw [hr]
        rfl)]
      exact hend _ hpassed
    | location tries =>
      unfold passes phase
      rw [runRewrites_inTurn,hr]
      exact Or.inl hpassed.marks
  | redirect =>
    unfold passes phase
    rw [runRewrites_inTurn,hr]
    have hc : close p (ended (hit .redirect { c with captures := [], args := [109] } [47,120])) =
      ended (hit .redirect { c with captures := [], args := [109] } [47,120]) := close_done _ _ _
    rw [hc]
    exact Or.inl hmarks
  | permanent =>
    unfold passes phase
    rw [runRewrites_inTurn,hr]
    have hc : close p (ended (hit .permanent { c with captures := [], args := [109] } [47,120])) =
      ended (hit .permanent { c with captures := [], args := [109] } [47,120]) := close_done _ _ _
    rw [hc]
    exact Or.inl hmarks

theorem passBlock_quiet_passed {fs : List Form} (b : IfBlock) (hb : b ∈ (quiet fs).filterMap (·.block)) (e : Ctx)
    (he : Passed e) : Passed (passBlock env b e).1 := by
  obtain ⟨x,hv⟩ := he.vars
  rw [blocks_quietly hv b hb]
  exact he

theorem passBlock_spoil_passed {f : Form} {b : IfBlock} (hb : (spoilDirective f).block = some b) {e : Ctx}
    (he : Passed e) : Passed (passBlock env b e).1 := by
  cases f with
  | rewrite f => cases hb
  | ret => cases hb
  | handler => cases hb
  | set =>
    cases hb
    obtain ⟨x,hv⟩ := he.vars
    rw [passBlock_set]
    exact ⟨he.args,⟨_,hv.set_other []⟩,he.uri⟩
  | ifBlock as =>
    cases hb
    refine inTurn_keeps (fun a ha s hs => ?_) he
    obtain ⟨k,rfl | rfl⟩ := mem_leadActions ha
    · exact hs.quiet k
    · exact hs.spoil k

/-- A condition that marks the request, the rules over. -/
theorem passes_mark {ds : List PhaseDirective} {e : Form} (gs : List Form) (hv : Vars x c) (he : e.acts)
    (hr : close p (ended (inTurn (runRule env) (ds.filterMap (·.rule)) c)) = (c,none))
    (hb : inTurn (passBlock env) (ds.filterMap (·.block)) c =
      inTurn (passBlock env) ((markDirective e :: quiet gs).filterMap (·.block)) c) :
    Shown (passes p env ds c) := by
  have hmark : ∃ b, (markDirective e).block = some b ∧ MarksEnd (passBlock env b c) := by
    cases e with
    | rewrite f => cases he
    | ret => cases he
    | handler => cases he
    | set =>
      refine ⟨_,rfl,Or.inl ?_⟩
      rw [passBlock_set]
      exact ⟨⟨_,hv.set_other [122]⟩,Or.inr (hv.set_other [122])⟩
    | ifBlock as => exact ⟨_,rfl,pass_markActions hv he⟩
  obtain ⟨b,hbe,hm⟩ := hmark
  rw [passes_blocks hr,hb]
  refine shown_close (shown_ended ?_)
  rw [List.filterMap_cons_some hbe]
  rcases hq : passBlock env b c with ⟨d,_ | k⟩
  · rw [hq] at hm
    have hd : Marks d := hm.resolve_right (fun ⟨_,_,hn,_⟩ => nomatch hn)
    obtain ⟨y,hy⟩ := hd.vars
    rw [inTurn_cons_goes hq,inTurn_idle (blocks_quietly hy)]
    exact Or.inl hd
  · rw [hq] at hm
    rw [inTurn_cons_ends hq]
    exact hm

section Pairs
variable {xs ys zs : List Form} {f : Form} {e : Form}

/-- Something is done or ended before a rule, and the rule runs first. -/
theorem spoils (h : Start c) (hf : ¬ f.isRule) (hi : ¬ f.inert) (hr : f ≠ .ret) (hx : .ret ∉ xs) (hy : .ret ∉ ys)
    (flag : RewriteFlag) :
    Shown (passes p env
      (quiet xs ++ spoilDirective f :: (quiet ys ++ markDirective (.rewrite flag) :: quiet zs)) c) ∧
    Calm (written p env
      (quiet xs ++ spoilDirective f :: (quiet ys ++ markDirective (.rewrite flag) :: quiet zs)) c) := by
  have hrule : (spoilDirective f).rule = none := by
    cases f with
    | rewrite k => exact absurd rfl hf
    | ifBlock as => rfl
    | set => rfl
    | ret => rfl
    | handler => rfl
  constructor
  · refine passes_probe (f := flag) h.uri h.vars ?_ (fun b hb e he => ?_)
    · have hm : (markDirective (.rewrite flag)).rule = some (probeRule flag) := rfl
      rw [rules_quietly,List.filterMap_cons_none hrule,rules_quietly,List.filterMap_cons_some hm]
      rcases hq : runRule env (probeRule flag) c with ⟨d,_ | k⟩
      · rw [inTurn_cons_goes hq]
        exact inTurn_idle rules_quiet
      · exact inTurn_cons_ends hq
    · rw [List.filterMap_append] at hb
      rcases List.mem_append.mp hb with hb | hb
      · exact passBlock_quiet_passed b hb e he
      · obtain ⟨d,hd,hdb⟩ := List.mem_filterMap.mp hb
        rcases List.mem_cons.mp hd with rfl | hd
        · exact passBlock_spoil_passed hdb he
        · rcases List.mem_append.mp hd with hd | hd
          · exact passBlock_quiet_passed b (List.mem_filterMap.mpr ⟨d,hd,hdb⟩) e he
          · rcases List.mem_cons.mp hd with rfl | hd
            · cases hdb
            · exact passBlock_quiet_passed b (List.mem_filterMap.mpr ⟨d,hd,hdb⟩) e he
  · have hspoil : Untouched (runDirective env (spoilDirective f) c).1 ∧ Plain (runDirective env (spoilDirective f) c).2 ∧
        ((runDirective env (spoilDirective f) c).2 = none → Spoiled (runDirective env (spoilDirective f) c).1) := by
      cases f with
      | rewrite k => exact absurd rfl hf
      | ret => exact absurd rfl hr
      | handler => exact absurd rfl hi
      | set =>
        have hs : Spoiled (c.set [118] []) := ⟨h.args,Or.inl (h.vars.set_other [])⟩
        exact ⟨hs.clean,trivial,fun _ => hs⟩
      | ifBlock as => exact run_spoilActions h (fun hl => hi (Option.isNone_iff_eq_none.mpr hl))
    have hrest : ∀ d : Ctx, Spoiled d →
        Untouched (inTurn (runDirective env) (quiet ys ++ markDirective (.rewrite flag) :: quiet zs) d).1 ∧
        Plain (inTurn (runDirective env) (quiet ys ++ markDirective (.rewrite flag) :: quiet zs) d).2 := by
      intro d hd
      obtain ⟨y,hvy⟩ : ∃ y, Vars y d := hd.vars.elim (fun hv => ⟨_,hv⟩) (fun hv => ⟨_,hv.1⟩)
      rw [run_quiet hvy hy]
      have hprobe : Untouched (runRule env (probeRule flag) d).1 ∧ Plain (runRule env (probeRule flag) d).2 := by
        by_cases hu : d.uri = [47]
        · have hv : Vars [] d := hd.vars.resolve_right (fun hn => hn.2 hu)
          rw [runRule_probe hu hv]
          obtain ⟨ha,hs,-⟩ := hit_args flag { d with captures := [], args := [] } [47,120]
          exact ⟨⟨ha,Or.inl (hs.trans hv)⟩,hit_plain _ _ _⟩
        · rw [runRule_probe_miss hu]
          exact ⟨hd.clean,trivial⟩
      have hrun : runDirective env (markDirective (.rewrite flag)) d = runRule env (probeRule flag) d := rfl
      rcases hq : runRule env (probeRule flag) d with ⟨g,_ | k⟩
      · rw [hq] at hprobe hrun
        obtain ⟨z,hvz⟩ : ∃ z, Vars z g := hprobe.1.vars.elim (fun hv => ⟨_,hv⟩) (fun hv => ⟨_,hv⟩)
        rw [inTurn_cons_goes hrun,(run_quiets hvz zs).1]
        exact ⟨hprobe.1,(run_quiets hvz zs).2⟩
      · rw [hq] at hprobe hrun
        rw [inTurn_cons_ends hrun]
        exact hprobe
    unfold written
    rw [run_quiet h.vars hx]
    rcases hq : runDirective env (spoilDirective f) c with ⟨d,_ | k⟩
    · rw [hq] at hspoil
      rw [inTurn_cons_goes hq]
      obtain ⟨hc,hp⟩ := hrest d (hspoil.2.2 rfl)
      exact calm_close hc hp
    · rw [hq] at hspoil
      rw [inTurn_cons_ends hq]
      exact calm_close hspoil.1 hspoil.2.1

/-- As written the phase is over, and the request as it was. -/
theorem run_break (h : Start c) (hf : f.runsOn p ∨ f.halts) :
    ∃ k, runDirective env (breakDirective f) c = (c,some k) ∧ close p (ended (c,some k)) = (c,none) := by
  cases f with
  | set => exact absurd hf (by simp [Form.runsOn,Form.halts])
  | ret => exact absurd hf (by simp [Form.runsOn,Form.halts])
  | handler => exact absurd hf (by simp [Form.runsOn,Form.halts])
  | rewrite flag =>
    have hr : runDirective env (breakDirective (.rewrite flag)) c = hit flag c [47] :=
      (runRule_root flag).trans (hit_root h flag)
    have hu := start_uri h
    cases flag with
    | brk => exact ⟨.stops,hr.trans (Prod.ext hu rfl),close_none c⟩
    | last =>
      cases p with
      | server => exact ⟨.step (.internal [47]),hr.trans (Prod.ext hu rfl),Prod.ext hu rfl⟩
      | location tries => exact absurd hf (by simp [Form.runsOn,Form.halts])
    | none => exact absurd hf (by simp [Form.runsOn,Form.halts])
    | redirect => exact absurd hf (by simp [Form.runsOn,Form.halts])
    | permanent => exact absurd hf (by simp [Form.runsOn,Form.halts])
  | ifBlock as =>
    refine ⟨.stops,?_,close_none c⟩
    change inTurn (runAction env) (if ActionForm.leaks as then leakActions as else as.map quietAction) c = _
    split
    · rename_i hl
      exact (run_leakActions h hl).1
    · rename_i hl
      exact run_quiet_halts h.vars (hf.resolve_left hl)

theorem rules_break (h : Start c) (hf : f.runsOn p ∨ f.halts) (ds : List PhaseDirective)
    (hds : inTurn (runRule env) (ds.filterMap (·.rule)) c = (c,none)) :
    close p (ended (inTurn (runRule env) ((breakDirective f :: ds).filterMap (·.rule)) c)) = (c,none) := by
  cases f with
  | rewrite flag =>
    obtain ⟨k,hk,hc⟩ := @run_break env p c (.rewrite flag) h hf
    have hr : runRule env (rootRule flag) c = (c,some k) := hk
    have hb : (breakDirective (.rewrite flag)).rule = some (rootRule flag) := rfl
    rw [List.filterMap_cons_some hb,inTurn_cons_ends hr]
    exact hc
  | ifBlock as =>
    rw [List.filterMap_cons_none rfl,hds]
    exact close_none c
  | set => exact absurd hf (by simp [Form.runsOn,Form.halts])
  | ret => exact absurd hf (by simp [Form.runsOn,Form.halts])
  | handler => exact absurd hf (by simp [Form.runsOn,Form.halts])

theorem blocks_break (h : Start c) (hf : f.runsOn p) (ds : List PhaseDirective) :
    inTurn (passBlock env) ((breakDirective f :: ds).filterMap (·.block)) c =
      inTurn (passBlock env) (ds.filterMap (·.block)) c := by
  cases f with
  | rewrite flag => rw [List.filterMap_cons_none rfl]
  | ifBlock as =>
    have hl : ActionForm.leaks as := hf
    have hp : passBlock env ⟨.always,if ActionForm.leaks as then leakActions as else as.map quietAction⟩ c =
        (c,none) := by
      rw [if_pos hl]
      exact (run_leakActions h hl).2
    exact inTurn_cons_goes hp
  | set => cases hf
  | ret => cases hf
  | handler => cases hf

theorem rules_marked (hm : (markDirective e).rule = none) :
    inTurn (runRule env) ((quiet ys ++ markDirective e :: quiet zs).filterMap (·.rule)) c = (c,none) := by
  rw [rules_quietly,List.filterMap_cons_none hm]
  exact inTurn_idle rules_quiet

theorem rule_mark_none (he : e.acts ∨ e = .ret) : (markDirective e).rule = none := by
  cases e with
  | rewrite flag => rcases he with he | he <;> cases he
  | ifBlock as => rfl
  | set => rfl
  | ret => rfl
  | handler => rfl

/-- The phase is over and the passes go on to a condition that does something. -/
theorem runs_on (h : Start c) (hf : f.runsOn p) (he : e.acts) (hx : .ret ∉ xs) :
    Shown (passes p env (quiet xs ++ breakDirective f :: (quiet ys ++ markDirective e :: quiet zs)) c) ∧
    Calm (written p env (quiet xs ++ breakDirective f :: (quiet ys ++ markDirective e :: quiet zs)) c) := by
  constructor
  · refine passes_mark zs h.vars he ?_ ?_
    · rw [rules_quietly]
      exact rules_break h (Or.inl hf) _ (rules_marked (rule_mark_none (Or.inl he)))
    · rw [passes_quietly h.vars,blocks_break h hf,passes_quietly h.vars]
  · obtain ⟨k,hk,hc⟩ := @run_break env p c f h (Or.inl hf)
    unfold written
    rw [run_quiet h.vars hx,inTurn_cons_ends hk,hc]
    exact ⟨h.clean,fun s hn => nomatch hn⟩

/-- A block does something after a rule with `break`. -/
theorem runs_on_within (h : Start c) (hf : ¬ f.whole) (hx : .ret ∉ xs) :
    Shown (passes p env (quiet xs ++ dirtyDirective f :: quiet zs) c) ∧
    Calm (written p env (quiet xs ++ dirtyDirective f :: quiet zs) c) := by
  cases f with
  | rewrite flag => exact absurd rfl hf
  | set => exact absurd rfl hf
  | ret => exact absurd rfl hf
  | handler => exact absurd rfl hf
  | ifBlock as =>
    obtain ⟨hrun,hpass⟩ := @run_dirtyActions env c h as hf
    constructor
    · rw [passes_blocks (e := c) (by
        rw [rules_quietly,List.filterMap_cons_none rfl,inTurn_idle rules_quiet]
        exact close_none c)]
      refine shown_close (shown_ended ?_)
      rw [passes_quietly h.vars]
      change MarksEnd (inTurn (passBlock env) (⟨.always,dirtyActions as⟩ :: (quiet zs).filterMap (·.block)) c)
      have hp : passBlock env ⟨.always,dirtyActions as⟩ c = inTurn (passAction env) (dirtyActions as) c := rfl
      rcases hq : inTurn (passAction env) (dirtyActions as) c with ⟨d,_ | k⟩
      · rw [hq] at hp hpass
        have hd : Marks d := hpass.resolve_right (fun ⟨_,_,hn,_⟩ => nomatch hn)
        obtain ⟨y,hy⟩ := hd.vars
        rw [inTurn_cons_goes hp,inTurn_idle (blocks_quietly hy)]
        exact Or.inl hd
      · rw [hq] at hp hpass
        rw [inTurn_cons_ends hp]
        exact hpass
    · have hr : runDirective env (dirtyDirective (.ifBlock as)) c = (c,some .stops) := hrun
      unfold written
      rw [run_quiet h.vars hx,inTurn_cons_ends hr]
      exact calm_close h.clean trivial

/-- A `return` as written ends the phase; the passes run what comes after it. -/
theorem runs_after_return (h : Start c) (he : e.isRule ∨ e.acts) (hx : .ret ∉ xs) :
    Shown (passes p env (quiet (xs ++ .ret :: ys) ++ markDirective e :: quiet zs) c) ∧
    Calm (written p env (quiet (xs ++ .ret :: ys) ++ markDirective e :: quiet zs) c) := by
  constructor
  · rcases he with he | he
    · cases e with
      | rewrite flag =>
        refine passes_probe (f := flag) h.uri h.vars ?_ (fun b hb e he => ?_)
        · have hm : (markDirective (.rewrite flag)).rule = some (probeRule flag) := rfl
          rw [rules_quietly,List.filterMap_cons_some hm]
          rcases hq : runRule env (probeRule flag) c with ⟨d,_ | k⟩
          · rw [inTurn_cons_goes hq]
            exact inTurn_idle rules_quiet
          · exact inTurn_cons_ends hq
        · rw [List.filterMap_append] at hb
          rcases List.mem_append.mp hb with hb | hb
          · exact passBlock_quiet_passed b hb e he
          · rw [List.filterMap_cons_none rfl] at hb
            exact passBlock_quiet_passed b hb e he
      | ifBlock as => cases he
      | set => cases he
      | ret => cases he
      | handler => cases he
    · refine passes_mark zs h.vars he ?_ (passes_quietly h.vars _ _)
      rw [rules_marked (rule_mark_none (Or.inl he))]
      exact close_none c
  · have hq : quiet (xs ++ .ret :: ys) ++ markDirective e :: quiet zs =
        quiet xs ++ quietDirective .ret :: (quiet ys ++ markDirective e :: quiet zs) := by
      simp [quiet]
    have hr : runDirective env (quietDirective .ret) c =
        (c,some (.step (.done (returnReply env c 200 none) .page))) := rfl
    unfold written
    rw [hq,run_quiet h.vars hx,inTurn_cons_ends hr]
    refine calm_close h.clean ?_
    change (returnReply env c 200 none).resp.status ≠ 418
    rw [returnReply_status]
    decide

/-- The phase is over before a `return`; the passes leave that to the end. -/
theorem stops_before_return (h : Start c) (hf : f.runsOn p ∨ f.halts) (hx : .ret ∉ xs) :
    passes p env (quiet xs ++ breakDirective f :: (quiet ys ++ markDirective .ret :: quiet zs)) c = (c,none) ∧
    written p env (quiet xs ++ breakDirective f :: (quiet ys ++ markDirective .ret :: quiet zs)) c = (c,none) := by
  constructor
  · rw [passes_blocks (e := c) (by
      rw [rules_quietly]
      exact rules_break h hf _ (rules_marked rfl)),passes_quietly h.vars]
    by_cases ho : f.runsOn p
    · rw [blocks_break h ho,passes_quietly h.vars,List.filterMap_cons_none rfl,inTurn_idle (blocks_quietly h.vars)]
      exact close_none c
    · cases f with
      | rewrite flag => exact absurd hf (fun hn => hn.elim ho (fun hh => nomatch hh))
      | set => exact absurd hf (fun hn => hn.elim ho (fun hh => nomatch hh))
      | ret => exact absurd hf (fun hn => hn.elim ho (fun hh => nomatch hh))
      | handler => exact absurd hf (fun hn => hn.elim ho (fun hh => nomatch hh))
      | ifBlock as =>
        have hl : ¬ ActionForm.leaks as := ho
        have hp : passBlock env ⟨.always,if ActionForm.leaks as then leakActions as else as.map quietAction⟩ c =
            (c,some .stops) := by
          rw [if_neg hl]
          exact (inTurn_quietActions h.vars as).2.2.trans (run_quiet_halts h.vars (hf.resolve_left ho))
        change close p (ended (inTurn (passBlock env)
          (⟨.always,if ActionForm.leaks as then leakActions as else as.map quietAction⟩ ::
            (quiet ys ++ markDirective .ret :: quiet zs).filterMap (·.block)) c)) = _
        rw [inTurn_cons_ends hp]
        exact close_none c
  · obtain ⟨k,hk,hc⟩ := @run_break env p c f h hf
    unfold written
    rw [run_quiet h.vars hx,inTurn_cons_ends hk,hc]

/-- Nothing is left to the passes but a `return`. -/
theorem return_alone (h : Start c) (hx : .ret ∉ xs) :
    passes p env (quiet xs ++ markDirective .ret :: quiet zs) c = (c,none) ∧
    written p env (quiet xs ++ markDirective .ret :: quiet zs) c =
      (c,some (.done (returnReply env c 418 none) .page)) := by
  constructor
  · rw [passes_blocks (e := c) (by
      rw [rules_marked rfl]
      exact close_none c),passes_quietly h.vars,List.filterMap_cons_none rfl,inTurn_idle (blocks_quietly h.vars)]
    exact close_none c
  · have hr : runDirective env (markDirective .ret) c =
        (c,some (.step (.done (returnReply env c 418 none) .page))) := rfl
    unfold written
    rw [run_quiet h.vars hx,inTurn_cons_ends hr]
    exact close_done _ _ _

end Pairs

end Levels

end OxiServe.Server
