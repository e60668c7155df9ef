import OxiServe.Server.RewriteOrder

/-! # The passes over the directives of a level

The code runs the rules of a level, then its conditions, then its action. When the
order of the directives is kept this does what they do as written.
-/
namespace OxiServe.Server
open Config

section Passes
variable {env : Env}

/-- As a pass runs an action: a rule with `break` does not end the block. -/
def passAction (env : Env) (a : IfAction) (ctx : Ctx) : Ctx × Option PhaseEnd :=
  match a with
  | .rewrite r =>
    match runRewrites env [r] ctx with
    | (c,some s) => (c,some (.step s))
    | (c,none) => (c,none)
  | a => runAction env a ctx

def passBlock (env : Env) (b : IfBlock) (ctx : Ctx) : Ctx × Option PhaseEnd :=
  if evalCond env ctx b.cond then inTurn (passAction env) b.actions ctx else (ctx,none)

theorem runRewrites_cons (r : Rewrite) (rs : List Rewrite) (ctx : Ctx) : runRewrites env (r :: rs) ctx =
    match runRule env r ctx with
    | (c,none) => runRewrites env rs c
    | (c,some .stops) => (c,none)
    | (c,some (.step s)) => (c,some s) := by
  cases hm : r.re.captures ctx.uri with
  | none => simp [runRule,runRewrites,Regex.isMatch,hm]
  | some caps =>
    have hcases := Bool.eq_false_or_eq_true
      (isAbsolute (takeArgs (ctx.setCaptures caps) ((ctx.setCaptures caps).render env r.replacement)).2)
    cases hf : r.flag with
    | none => rcases hcases with h | h <;> simp [runRule,runRewrites,Regex.isMatch,hm,hf,h]
    | last => rcases hcases with h | h <;> simp [runRule,runRewrites,hm,hf,h]
    | brk => rcases hcases with h | h <;> simp [runRule,runRewrites,Regex.isMatch,hm,hf,h]
    | redirect => simp [runRule,runRewrites,hm,hf]
    | permanent => simp [runRule,runRewrites,hm,hf]

theorem runRewrites_inTurn (rs : List Rewrite) (ctx : Ctx) :
    runRewrites env rs ctx = ended (inTurn (runRule env) rs ctx) := by
  induction rs generalizing ctx with
  | nil => rfl
  | cons r rs ih =>
    rw [runRewrites_cons,inTurn]
    rcases runRule env r ctx with ⟨c,_ | _ | s⟩
    · exact ih c
    · rfl
    · rfl

theorem runActions_inTurn (as : List IfAction) (ctx : Ctx) : runActions env as ctx =
    match inTurn (passAction env) as ctx with
    | (c,none) => (c,.goes)
    | (c,some .stops) => (c,.stops)
    | (c,some (.step s)) => (c,.step s) := by
  induction as generalizing ctx with
  | nil => rfl
  | cons a as ih =>
    cases a with
    | ret status body => rfl
    | set name value => exact ih _
    | rewrite r =>
      rw [inTurn,passAction,runActions]
      rcases runRewrites env [r] ctx with ⟨c,_ | s⟩
      · exact ih c
      · rfl
    | addHeader h => exact ih ctx
    | brk => rfl

theorem runIfs_inTurn (bs : List IfBlock) (ctx : Ctx) :
    runIfs env bs ctx = ended (inTurn (passBlock env) bs ctx) := by
  induction bs generalizing ctx with
  | nil => rfl
  | cons b bs ih =>
    rw [runIfs,inTurn,passBlock,runActions_inTurn]
    split
    · rcases inTurn (passAction env) b.actions ctx with ⟨c,_ | _ | s⟩
      · exact ih c
      · rfl
      · rfl
    · exact ih ctx

/-- Only a rule with `last` jumps. -/
theorem runRule_step {r : Rewrite} {ctx c : Ctx} {s : Step} (h : runRule env r ctx = (c,some (.step s))) :
    (∃ reply, s = .done reply .page) ∨ r.flag = .last ∧ ∃ uri, s = .internal uri := by
  unfold runRule at h
  simp only [runRewrites] at h
  split at h
  · rename_i d t heq
    cases h
    split at heq
    · cases heq
    · split at heq
      · cases heq
        exact Or.inl ⟨_,rfl⟩
      · cases heq
        exact Or.inl ⟨_,rfl⟩
      · rename_i hf
        split at heq
        · cases heq
          exact Or.inl ⟨_,rfl⟩
        · cases heq
          exact Or.inr ⟨hf,_,rfl⟩
      · split at heq
        · cases heq
          exact Or.inl ⟨_,rfl⟩
        · cases heq
      · split at heq
        · cases heq
          exact Or.inl ⟨_,rfl⟩
        · cases heq
  · split at h
    · cases h
    · cases h

/-- Only a rule with `break` stops. -/
theorem runRule_stops {r : Rewrite} {ctx c : Ctx} (h : runRule env r ctx = (c,some .stops)) : r.flag = .brk := by
  unfold runRule at h
  split at h
  · cases h
  · split at h
    · rename_i hf
      exact hf.1
    · cases h

theorem passAction_rewrite (r : Rewrite) (ctx : Ctx) : passAction env (.rewrite r) ctx =
    match runRule env r ctx with
    | (c,some .stops) => (c,none)
    | out => out := by
  unfold passAction runRule
  dsimp only
  rcases runRewrites env [r] ctx with ⟨c,_ | s⟩
  · dsimp only
    split
    · rename_i heq
      split at heq
      · cases heq
        rfl
      · cases heq
    · rename_i h
      split
      · rename_i hs
        rw [if_pos hs] at h
        exact absurd rfl (h _)
      · rfl
  · rfl

/-- A block that does nothing goes on or, at a `break`, stops. -/
theorem passActions_quiet {as : List IfAction} (h : ActionForm.acts (as.map actionForm) = false) (ctx : Ctx) :
    ActionForm.lead (as.map actionForm) = none ∧ inTurn (passAction env) as ctx = (ctx,none) ∨
    ActionForm.lead (as.map actionForm) = some .brk ∧ inTurn (passAction env) as ctx = (ctx,some .stops) := by
  induction as with
  | nil => exact Or.inl ⟨rfl,rfl⟩
  | cons a as ih =>
    cases a with
    | ret status body => cases h
    | rewrite r => cases h
    | set name value => cases h
    | addHeader header => exact ih h
    | brk => exact Or.inr ⟨rfl,rfl⟩

theorem halts_of_lead {as : List ActionForm} (h : ActionForm.lead as = some .brk) : ActionForm.halts as := by
  induction as with
  | nil => cases h
  | cons a as ih =>
    cases a with
    | ret => cases h
    | rewrite f => cases h
    | set => cases h
    | addHeader => exact ih h
    | brk => rfl

theorem whole_of_rewrite {f : RewriteFlag} {as : List ActionForm} (h : ActionForm.whole (.rewrite f :: as)) :
    ActionForm.whole as := by
  cases f with
  | brk => exact (Bool.and_eq_true_iff.mp h).2
  | none => exact h
  | last => exact h
  | redirect => exact h
  | permanent => exact h

theorem leaks_of_rewrite {f : RewriteFlag} {as : List ActionForm} (h : ActionForm.leaks as) :
    ActionForm.leaks (.rewrite f :: as) := by
  cases f with
  | brk => exact Bool.or_eq_true_iff.mpr (Or.inr h)
  | none => exact h
  | last => exact h
  | redirect => exact h
  | permanent => exact h

/-- The pass over a whole block differs from the block as written only when that ends
on a rule with `break` after which the block goes on to its end. -/
theorem passActions_cases {as : List IfAction} (h : ActionForm.whole (as.map actionForm)) (ctx : Ctx) :
    inTurn (passAction env) as ctx = inTurn (runAction env) as ctx ∨
    ActionForm.leaks (as.map actionForm) ∧ ∃ c, inTurn (runAction env) as ctx = (c,some .stops) ∧
      inTurn (passAction env) as ctx = (c,none) := by
  induction as generalizing ctx with
  | nil => exact Or.inl rfl
  | cons a as ih =>
    cases a with
    | ret status body => exact Or.inl rfl
    | set name value => exact ih h _
    | addHeader header => exact ih h _
    | brk => exact Or.inl rfl
    | rewrite r =>
      have hr : runAction env (.rewrite r) ctx = runRule env r ctx := rfl
      have hp := @passAction_rewrite env r ctx
      rcases hc : runRule env r ctx with ⟨c,_ | _ | s⟩
      · rw [hc] at hr hp
        rw [inTurn_cons_goes hr,inTurn_cons_goes hp]
        rcases ih (whole_of_rewrite h) c with he | ⟨hl,he⟩
        · exact Or.inl he
        · exact Or.inr ⟨leaks_of_rewrite hl,he⟩
      · have hf := runRule_stops hc
        rw [hc] at hr hp
        simp only [List.map_cons,actionForm,hf,ActionForm.whole,Bool.and_eq_true,Bool.not_eq_true'] at h
        rw [inTurn_cons_ends hr,inTurn_cons_goes hp]
        rcases passActions_quiet h.1 c with ⟨hl,he⟩ | ⟨-,he⟩
        · refine Or.inr ⟨?_,c,rfl,he⟩
          simp [actionForm,hf,ActionForm.leaks,hl]
        · exact Or.inl he
      · rw [hc] at hr hp
        rw [inTurn_cons_ends hr,inTurn_cons_ends hp]
        exact Or.inl rfl

/-- A whole block that stops has a `break` in reach, its own or that of a rule. -/
theorem runActions_stops {as : List IfAction} (h : ActionForm.whole (as.map actionForm)) {ctx c : Ctx}
    (hs : inTurn (runAction env) as ctx = (c,some .stops)) :
    ActionForm.halts (as.map actionForm) ∨ ActionForm.leaks (as.map actionForm) := by
  induction as generalizing ctx with
  | nil => cases hs
  | cons a as ih =>
    cases a with
    | ret status body => cases hs
    | set name value => exact ih h hs
    | addHeader header => exact ih h hs
    | brk => exact Or.inl rfl
    | rewrite r =>
      have hr : runAction env (.rewrite r) ctx = runRule env r ctx := rfl
      rcases hc : runRule env r ctx with ⟨d,_ | _ | s⟩
      · rw [hc] at hr
        rw [inTurn_cons_goes hr] at hs
        exact (ih (whole_of_rewrite h) hs).imp (fun hh => hh) leaks_of_rewrite
      · have hf := runRule_stops hc
        simp only [List.map_cons,actionForm,hf,ActionForm.whole,Bool.and_eq_true,Bool.not_eq_true'] at h
        rcases @passActions_quiet env _ h.1 d with ⟨hl,-⟩ | ⟨hl,-⟩
        · refine Or.inr ?_
          simp [actionForm,hf,ActionForm.leaks,hl]
        · have hh := halts_of_lead hl
          exact Or.inl hh
      · rw [hc] at hr
        rw [inTurn_cons_ends hr] at hs
        cases hs

end Passes

section Phase
variable {env : Env} {p : Place}

/-- A jump at a server only sets the URI. -/
def close (p : Place) (q : Ctx × Option Step) : Ctx × Option Step :=
  match p, q with
  | .server, (c,some (.internal uri)) => ({ c with uri := uri },none)
  | .server, (c,some (.named _)) => (c,none)
  | _, q => q

@[simp] theorem close_none (c : Ctx) : close p (c,none) = (c,none) := by
  cases p with
  | server => rfl
  | location tries => rfl

@[simp] theorem close_done (c : Ctx) (r : Reply) (k : Producer) :
    close p (c,some (.done r k)) = (c,some (.done r k)) := by
  cases p with
  | server => rfl
  | location tries => rfl

@[simp] theorem close_location (tries : Bool) (q : Ctx × Option Step) : close (.location tries) q = q := rfl

/-- The pass over the rules of a level, then that over its conditions. -/
def phase (p : Place) (env : Env) (rs : List Rewrite) (bs : List IfBlock) (ctx : Ctx) : Ctx × Option Step :=
  match close p (runRewrites env rs ctx) with
  | (c,some s) => (c,some s)
  | (c,none) => close p (runIfs env bs c)

def isQuiet (b : IfBlock) : Prop := ActionForm.acts (b.actions.map actionForm) = false

theorem passBlock_quiet {b : IfBlock} (h : isQuiet b) (ctx : Ctx) :
    passBlock env b ctx = (ctx,none) ∨ passBlock env b ctx = (ctx,some .stops) := by
  unfold passBlock
  split
  · exact (passActions_quiet h ctx).imp And.right And.right
  · exact Or.inl rfl

/-- Conditions that do nothing may be left out at the end. -/
theorem passBlocks_quiet {bs qs : List IfBlock} (h : ∀ b ∈ qs, isQuiet b) (ctx : Ctx) :
    ended (inTurn (passBlock env) (bs ++ qs) ctx) = ended (inTurn (passBlock env) bs ctx) := by
  have hq : ∀ c : Ctx, ended (inTurn (passBlock env) qs c) = (c,none) := by
    intro c
    induction qs with
    | nil => rfl
    | cons b qs ih =>
      rcases @passBlock_quiet env b (h b List.mem_cons_self) c with hb | hb
      · rw [inTurn_cons_goes hb]
        exact ih (fun d hd => h d (List.mem_cons_of_mem _ hd))
      · rw [inTurn_cons_ends hb]
        rfl
  rcases he : inTurn (passBlock env) bs ctx with ⟨c,_ | e⟩
  · rw [inTurn_append_goes he]
    exact hq c
  · rw [inTurn_append_ends he]

theorem runIfs_quiet {bs : List IfBlock} (h : ∀ b ∈ bs, isQuiet b) (ctx : Ctx) :
    runIfs env bs ctx = (ctx,none) := by
  rw [runIfs_inTurn,← List.nil_append bs,passBlocks_quiet h]
  rfl

theorem blocks_quiet {ds : List PhaseDirective} (h : ∀ e ∈ ds.map form, ¬ e.acts) :
    ∀ b ∈ ds.filterMap (·.block), isQuiet b := by
  intro b hb
  obtain ⟨d,hd,he⟩ := List.mem_filterMap.mp hb
  have hf := h (form d) (List.mem_map_of_mem hd)
  cases d with
  | ifBlock a =>
    cases he
    exact Bool.eq_false_iff.mpr hf
  | set name value => exact absurd rfl hf
  | rewrite r => cases he
  | ret status body => cases he
  | handler a => cases he

theorem rules_nil {ds : List PhaseDirective} (h : ∀ e ∈ ds.map form, ¬ e.isRule) :
    ds.filterMap (·.rule) = [] := by
  refine List.filterMap_eq_nil_iff.mpr (fun d hd => ?_)
  have hf := h (form d) (List.mem_map_of_mem hd)
  cases d with
  | rewrite r => exact absurd rfl hf
  | ifBlock a => rfl
  | set name value => rfl
  | ret status body => rfl
  | handler a => rfl

theorem passBlock_set (name : Bytes) (value : Template) (ctx : Ctx) :
    passBlock env ⟨.always,[.set name value]⟩ ctx = (ctx.set name (ctx.render env value),none) := rfl

theorem runBlock_inert {b : IfBlock} (h : ActionForm.lead (b.actions.map actionForm) = none) (ctx : Ctx) :
    runBlock env b ctx = (ctx,none) ∧ passBlock env b ctx = (ctx,none) := by
  have hall : ∀ a ∈ b.actions, ∃ header, a = .addHeader header := by
    intro a ha
    have hf := List.find?_eq_none.mp h (actionForm a) (List.mem_map_of_mem ha)
    cases a with
    | addHeader header => exact ⟨header,rfl⟩
    | ret status body => exact absurd rfl hf
    | rewrite r => exact absurd rfl hf
    | set name value => exact absurd rfl hf
    | brk => exact absurd rfl hf
  have hr : inTurn (runAction env) b.actions ctx = (ctx,none) := inTurn_idle (fun a ha => by
    obtain ⟨header,rfl⟩ := hall a ha
    rfl)
  have hp : inTurn (passAction env) b.actions ctx = (ctx,none) := inTurn_idle (fun a ha => by
    obtain ⟨header,rfl⟩ := hall a ha
    rfl)
  unfold runBlock passBlock
  rw [hr,hp]
  exact ⟨ite_self _,ite_self _⟩

/-- The two passes over a level without a `return` do what its directives do as
written, when their order is kept. -/
theorem phase_eq {ds : List PhaseDirective} (hb : (ds.map form).Pairwise (Form.Before p))
    (hw : ∀ f ∈ ds.map form, f.whole) (hr : .ret ∉ ds.map form) (ctx : Ctx) :
    phase p env (ds.filterMap (·.rule)) (ds.filterMap (·.block)) ctx =
      close p (ended (inTurn (runDirective env) ds ctx)) := by
  induction ds generalizing ctx with
  | nil =>
    have hn : close p (runRewrites env [] ctx) = (ctx,none) := close_none ctx
    unfold phase
    rw [List.filterMap_nil,List.filterMap_nil,hn]
    rfl
  | cons d ds ih =>
    rw [List.map_cons,List.pairwise_cons] at hb
    have hih := ih hb.2 (fun f hf => hw f (List.mem_cons_of_mem _ hf)) (fun hm => hr (List.mem_cons_of_mem _ hm))
    have hquiet : (form d).runsOn p → ∀ b ∈ ds.filterMap (·.block), isQuiet b := fun ho =>
      blocks_quiet (fun e he ha => (hb.1 e he).acts ha |>.1 ho)
    cases d with
    | rewrite r =>
      have hd : runDirective env (.rewrite r) ctx = runRule env r ctx := rfl
      change phase p env (r :: ds.filterMap (·.rule)) (ds.filterMap (·.block)) ctx = _
      unfold phase
      rw [runRewrites_cons]
      rcases hc : runRule env r ctx with ⟨c,_ | _ | s⟩
      · rw [hc] at hd
        rw [inTurn_cons_goes hd]
        exact hih c
      · rw [hc] at hd
        have hq := hquiet (by rw [form,runRule_stops hc]; rfl)
        rw [inTurn_cons_ends hd]
        simp only [close_none,runIfs_quiet hq,ended]
      · rw [hc] at hd
        rw [inTurn_cons_ends hd]
        simp only [ended]
        rcases runRule_step hc with ⟨reply,rfl⟩ | ⟨hf,uri,rfl⟩
        · simp only [close_done]
        · cases p with
          | location tries => rfl
          | server =>
            have hq := hquiet (by rw [form,hf]; rfl)
            simp only [close,runIfs_quiet hq]
    | ifBlock b =>
      have hd : runDirective env (.ifBlock b) ctx = runBlock env b ctx := rfl
      change phase p env (ds.filterMap (·.rule)) (b :: ds.filterMap (·.block)) ctx = _
      by_cases hi : ActionForm.lead (b.actions.map actionForm) = none
      · rw [(runBlock_inert hi ctx).1] at hd
        rw [inTurn_cons_goes hd,← hih ctx]
        unfold phase
        split
        · rfl
        · rw [runIfs_inTurn,runIfs_inTurn,inTurn_cons_goes (runBlock_inert hi _).2]
      · have hnil : ds.filterMap (·.rule) = [] := rules_nil (fun e he hrule =>
          ((hb.1 e he).rule hrule).elim (by intro h; cases h) (fun h => hi (Option.isNone_iff_eq_none.mp h)))
        have hih' := hih
        unfold phase at hih' ⊢
        rw [hnil] at hih' ⊢
        simp only [runRewrites,close_none,runIfs_inTurn] at hih' ⊢
        have hcases : passBlock env b ctx = runBlock env b ctx ∨ (form (.ifBlock b)).runsOn p ∧
            ∃ c, runBlock env b ctx = (c,some .stops) ∧ passBlock env b ctx = (c,none) := by
          unfold passBlock runBlock
          split
          · exact passActions_cases (hw _ List.mem_cons_self) ctx
          · exact Or.inl rfl
        rcases hcases with he | ⟨ho,c,hrun,hpass⟩
        · rcases hc : runBlock env b ctx with ⟨c,_ | e⟩
          · rw [hc] at hd he
            rw [inTurn_cons_goes hd,inTurn_cons_goes he]
            exact hih' c
          · rw [hc] at hd he
            rw [inTurn_cons_ends hd,inTurn_cons_ends he]
        · rw [hrun] at hd
          rw [inTurn_cons_ends hd,inTurn_cons_goes hpass,← runIfs_inTurn,runIfs_quiet (hquiet ho)]
          rfl
    | set name value =>
      have hd : runDirective env (.set name value) ctx = (ctx.set name (ctx.render env value),none) := rfl
      have hnil : ds.filterMap (·.rule) = [] := rules_nil (fun e he hrule =>
        ((hb.1 e he).rule hrule).elim (by intro h; cases h) (by intro h; cases h))
      change phase p env (ds.filterMap (·.rule)) (⟨.always,[.set name value]⟩ :: ds.filterMap (·.block)) ctx = _
      rw [inTurn_cons_goes hd]
      have hih' := hih (ctx.set name (ctx.render env value))
      unfold phase at hih' ⊢
      rw [hnil] at hih' ⊢
      simp only [runRewrites,close_none,runIfs_inTurn] at hih' ⊢
      rw [inTurn_cons_goes (passBlock_set name value ctx)]
      exact hih'
    | ret status body => exact absurd List.mem_cons_self hr
    | handler a =>
      have hd : runDirective env (.handler a) ctx = (ctx,none) := rfl
      rw [List.filterMap_cons_none rfl,List.filterMap_cons_none rfl,inTurn_cons_goes hd]
      exact hih ctx

end Phase

section Orders
variable {env : Env} {p : Place} {ds : List PhaseDirective}

theorem runDirective_stops {d : PhaseDirective} {ctx c : Ctx} (hw : (form d).whole)
    (h : runDirective env d ctx = (c,some .stops)) : (form d).halts ∨ (form d).runsOn p := by
  cases d with
  | rewrite r =>
    have hf := @runRule_stops env r ctx c h
    refine Or.inr ?_
    rw [form,hf]
    rfl
  | ifBlock b =>
    simp only [runDirective,runBlock] at h
    split at h
    · exact runActions_stops hw h
    · cases h
  | set name value => cases h
  | ret status body => cases h
  | handler a => cases h

theorem content_phase (tries : Bool) (ctx : Ctx) (loc : Location) : content env ctx loc =
    match phase (.location tries) env loc.rewrites loc.ifs ctx with
    | (c,some s) => (c,s)
    | (c,none) => afterPhase env c loc := by
  unfold content phase afterPhase
  simp only [close_location]
  rcases runRewrites env loc.rewrites ctx with ⟨c,_ | s⟩
  · rfl
  · rfl

theorem mem_ret (h : Form.ret ∈ ds.map form) : ∃ as status body cs, ds = as ++ .ret status body :: cs ∧
    .ret ∉ as.map form := by
  induction ds with
  | nil => cases h
  | cons d ds ih =>
    by_cases hd : form d = .ret
    · cases d with
      | ret status body => exact ⟨[],status,body,ds,rfl,List.not_mem_nil⟩
      | rewrite r => cases hd
      | ifBlock b => cases hd
      | set name value => cases hd
      | handler a => cases hd
    · obtain ⟨as,status,body,cs,rfl,has⟩ := ih ((List.mem_cons.mp h).resolve_left (Ne.symm hd))
      exact ⟨d :: as,status,body,cs,rfl,fun hm => (List.mem_cons.mp hm).elim (Ne.symm hd) has⟩

theorem action_eq (h : .ret ∉ ds.map form) : ds.foldl (fun a d => d.action.or a) none = contentAction ds := by
  refine List.foldl_ext _ _ _ (fun a d hd => ?_)
  cases d with
  | ret status body => exact absurd (List.mem_map_of_mem (f := form) hd) h
  | rewrite r => rfl
  | ifBlock b => rfl
  | set name value => rfl
  | handler a => rfl

theorem action_ret {as cs : List PhaseDirective} {status : ℕ} {body : Option Template}
    (h : ∀ e ∈ cs.map form, e ≠ .ret ∧ e ≠ .handler) :
    (as ++ .ret status body :: cs).foldl (fun a d => d.action.or a) none = some (.ret status body) := by
  rw [List.foldl_append,List.foldl_cons]
  change cs.foldl (fun a d => d.action.or a) (some (.ret status body)) = _
  induction cs with
  | nil => rfl
  | cons d cs ih =>
    have hd := h (form d) List.mem_cons_self
    rw [List.foldl_cons]
    cases d with
    | ret s b => exact absurd rfl hd.1
    | handler a => exact absurd rfl hd.2
    | rewrite r => exact ih (fun e he => h e (List.mem_cons_of_mem _ he))
    | ifBlock b => exact ih (fun e he => h e (List.mem_cons_of_mem _ he))
    | set name value => exact ih (fun e he => h e (List.mem_cons_of_mem _ he))

/-- A location whose order is kept does what its directives do as written. -/
theorem content_asWritten {tries : Bool} (h : (Place.location tries).Ordered (ds.map form)) (base : Location)
    (hb : base.tryFiles.isSome = tries) (ctx : Ctx) :
    content env ctx ((Level.of ds).location base) = contentAsWritten env ctx base ds := by
  have hrw : ((Level.of ds).location base).rewrites = ds.filterMap (·.rule) := by
    rw [Level.of_eq]
    rfl
  have hifs : ((Level.of ds).location base).ifs = ds.filterMap (·.block) := by
    rw [Level.of_eq]
    rfl
  have hact : ((Level.of ds).location base).action = (ds.foldl (fun a d => d.action.or a) none).getD .static := by
    rw [Level.of_eq]
    rfl
  rw [content_phase tries,hrw,hifs]
  unfold contentAsWritten
  by_cases hr : Form.ret ∈ ds.map form
  · obtain ⟨as,status,body,cs,rfl,has⟩ := mem_ret hr
    have hbefore := h.before
    rw [List.map_append,List.map_cons,List.pairwise_append,List.pairwise_cons] at hbefore
    obtain ⟨hpa,⟨hret,-⟩,hpre⟩ := hbefore
    have hwhole : ∀ f ∈ as.map form, f.whole := fun f hf =>
      h.whole f (by rw [List.map_append]; exact List.mem_append_left _ hf)
    -- nothing before the `return` ends the phase without a step
    have hgo : ∀ c, inTurn (runDirective env) as ctx ≠ (c,some .stops) := by
      intro c hc
      refine inTurn_end (P := fun e => e ≠ .stops) (fun d hd s t e hrun he => ?_) hc rfl
      subst he
      have hf := (hpre (form d) (List.mem_map_of_mem hd) .ret List.mem_cons_self).ret rfl
      rcases runDirective_stops (p := .location tries) (hwhole _ (List.mem_map_of_mem hd)) hrun with hh | ho
      · exact hf.2.1 hh
      · exact hf.1 ho
    have hquiet := @blocks_quiet cs (fun e he ha => ((hret e he).acts ha).2 rfl)
    have hrules : cs.filterMap (·.rule) = [] := rules_nil (fun e he hrule =>
      ((hret e he).rule hrule).elim (fun h => nomatch h) (fun h => nomatch h))
    have haction := @action_ret as cs status body (fun e he =>
      ⟨fun hn => ((hret e he).ret hn).2.2 rfl,fun hn => (hret e he).handler hn rfl⟩)
    have hphase : phase (.location tries) env ((as ++ .ret status body :: cs).filterMap (·.rule))
        ((as ++ .ret status body :: cs).filterMap (·.block)) ctx =
        ended (inTurn (runDirective env) as ctx) := by
      have has' := @phase_eq env _ _ hpa hwhole has ctx
      rw [close_location] at has'
      rw [← has',List.filterMap_append,List.filterMap_append]
      change phase _ env (as.filterMap (·.rule) ++ cs.filterMap (·.rule))
        (as.filterMap (·.block) ++ cs.filterMap (·.block)) ctx = _
      rw [hrules,List.append_nil]
      unfold phase
      simp only [runIfs_inTurn,passBlocks_quiet hquiet]
    rw [hphase]
    rcases hin : inTurn (runDirective env) as ctx with ⟨c,_ | _ | s⟩
    · rw [inTurn_append_goes hin]
      have htf : ((Level.of (as ++ .ret status body :: cs)).location base).tryFiles = none := by
        have ht := h.returns hr
        injection ht with ht
        rw [ht] at hb
        exact Option.isNone_iff_eq_none.mp (Option.isSome_eq_false_iff.mp hb)
      rw [haction] at hact
      simp only [ended,afterPhase,htf,act,hact,Option.getD_some]
      rfl
    · exact absurd hin (hgo c)
    · rw [inTurn_append_ends hin]
      rfl
  · rw [phase_eq h.before h.whole hr]
    have ha : ((Level.of ds).location base).action = (contentAction ds).getD .static := by
      rw [hact,action_eq hr]
    change (match ended (inTurn (runDirective env) ds ctx) with
      | (c,some s) => (c,s)
      | (c,none) => afterPhase env c ((Level.of ds).location base)) = _
    rw [← ha]
    rfl

theorem finish_close (q : Ctx × Option Step) : finish (close .server q) = finish q := by
  rcases q with ⟨c,_ | s⟩
  · rfl
  · cases s with
    | done r k => rfl
    | fail code => rfl
    | internal uri => rfl
    | named n => rfl

theorem serverPhase_phase (ctx : Ctx) :
    serverPhase env ctx = finish (phase .server env ctx.server.rewrites ctx.server.ifs ctx) := by
  have hk := (@runRewrites_rephrased env ctx ctx.server.rewrites).same.keeps.server
  unfold serverPhase phase
  rcases hr : runRewrites env ctx.server.rewrites ctx with ⟨c,_ | s⟩
  · rw [hr] at hk
    have hc : c.server = ctx.server := hk
    change finish (runIfs env c.server.ifs c) = finish (close .server (runIfs env ctx.server.ifs c))
    rw [finish_close,hc]
  · rw [hr] at hk
    have hc : c.server = ctx.server := hk
    cases s with
    | done r k => rfl
    | fail code => rfl
    | internal uri =>
      change finish (runIfs env c.server.ifs { c with uri := uri }) =
        finish (close .server (runIfs env ctx.server.ifs { c with uri := uri }))
      rw [finish_close,hc]
    | named n =>
      change finish (runIfs env c.server.ifs c) = finish (close .server (runIfs env ctx.server.ifs c))
      rw [finish_close,hc]

/-- A server whose order is kept does what its directives do as written. -/
theorem handle_asWritten (h : Place.server.Ordered (ds.map form)) (base : ServerConf) (sub : Ctx → Reply)
    (ctx : Ctx) : handleInner env sub (atServer ctx base ds) = handleAsWritten env sub ctx base ds := by
  have hr : Form.ret ∉ ds.map form := fun hm => nomatch h.returns hm
  have hp := @phase_eq env _ _ h.before h.whole hr (atServer ctx base ds)
  have hserver : (atServer ctx base ds).server = (Level.of ds).server base := rfl
  have hrw : (atServer ctx base ds).server.rewrites = ds.filterMap (·.rule) := by
    rw [hserver,Level.of_eq]
    rfl
  have hifs : (atServer ctx base ds).server.ifs = ds.filterMap (·.block) := by
    rw [hserver,Level.of_eq]
    rfl
  have hact : (atServer ctx base ds).server.action = (contentAction ds).getD .none := by
    rw [hserver,Level.of_eq,← action_eq hr]
    rfl
  have hk := (@serverPhase_rephrased env (atServer ctx base ds)).same.keeps.server
  have hs := @serverPhase_phase env (atServer ctx base ds)
  rw [hrw,hifs,hp,finish_close] at hs
  unfold handleInner handleAsWritten
  rw [hs] at hk ⊢
  rcases hf : finish (ended (inTurn (runDirective env) ds (atServer ctx base ds))) with ⟨c,_ | r⟩
  · rw [hf] at hk
    rw [← hk] at hact
    simp only
    rw [← hact]
  · rfl

/-- A block of the file does what its directives do as written when their order is
kept, in a location and in a server. -/
theorem block_asWritten {c : Compiler} {block : List Directive} {lv : Level}
    (h : block.foldlM (levelDirective c) .empty = .ok lv) : ∃ ds, phaseDirectives c block = .ok ds ∧
    (∀ (base : Location) (ctx : Ctx), (Place.location base.tryFiles.isSome).Ordered (ds.map form) →
      content env ctx (lv.location base) = contentAsWritten env ctx base ds) ∧
    ∀ (base : ServerConf) (sub : Ctx → Reply) (ctx : Ctx), Place.server.Ordered (ds.map form) →
      handleInner env sub { ctx with server := lv.server base } = handleAsWritten env sub ctx base ds := by
  obtain ⟨ds,hds,rfl⟩ := levelDirective_foldlM h
  exact ⟨ds,hds,fun base ctx ho => content_asWritten ho base rfl ctx,fun base sub ctx ho =>
    handle_asWritten ho base sub ctx⟩

end Orders

end OxiServe.Server
