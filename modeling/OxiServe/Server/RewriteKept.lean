import OxiServe.Server.RewriteDisorder

/-! # Which orders of rewrite-phase directives are kept

The rest of a request after the phase keeps the marks. So the levels of a form all do
what their directives do as written exactly when the order of the form is one of those
the passes keep.
-/
namespace OxiServe.Server
open Config

section Rephrased
variable {env : Env} {ctx : Ctx}

theorem runRule_rephrased (r : Rewrite) : ctx.Rephrased (runRule env r ctx).1 := by
  have hr := @runRewrites_rephrased env ctx [r]
  unfold runRule
  split
  · rename_i heq
    rw [heq] at hr
    exact hr
  · rename_i heq
    rw [heq] at hr
    exact hr

theorem runAction_rephrased (a : IfAction) : ctx.Rephrased (runAction env a ctx).1 := by
  cases a with
  | ret status body => exact .refl _
  | set name value => rfl
  | rewrite r => exact runRule_rephrased r
  | addHeader h => exact .refl _
  | brk => exact .refl _

theorem runDirective_rephrased (d : PhaseDirective) : ctx.Rephrased (runDirective env d ctx).1 := by
  cases d with
  | rewrite r => exact runRule_rephrased r
  | set name value => rfl
  | ret status body => exact .refl _
  | handler h => exact .refl _
  | ifBlock b =>
    change ctx.Rephrased (runBlock env b ctx).1
    unfold runBlock
    split
    · exact inTurn_keeps (fun a _ c hc => hc.trans (runAction_rephrased a)) (.refl _)
    · exact .refl _

theorem close_rephrased (p : Place) (q : Ctx × Option Step) : q.1.Rephrased (close p q).1 := by
  rcases close_cases p q with he | ⟨uri,he,-⟩
  · rw [he]
    exact .refl _
  · rw [he]
    rfl

theorem ended_ctx (q : Ctx × Option PhaseEnd) : (ended q).1 = q.1 := by
  rcases q with ⟨c,_ | _ | s⟩
  · rfl
  · rfl
  · rfl

theorem written_rephrased (p : Place) (ds : List PhaseDirective) : ctx.Rephrased (written p env ds ctx).1 := by
  have hr : ctx.Rephrased (inTurn (runDirective env) ds ctx).1 :=
    inTurn_keeps (fun d _ c hc => hc.trans (runDirective_rephrased d)) (.refl _)
  rw [← ended_ctx] at hr
  exact hr.trans (close_rephrased p _)

theorem passes_rephrased (p : Place) (ds : List PhaseDirective) : ctx.Rephrased (passes p env ds ctx).1 := by
  have hr := (@runRewrites_rephrased env ctx (ds.filterMap (·.rule))).trans (close_rephrased p _)
  unfold passes phase
  split
  · rename_i heq
    rw [heq] at hr
    exact hr
  · rename_i heq
    rw [heq] at hr
    exact (hr.trans runIfs_rephrased).trans (close_rephrased p _)

end Rephrased

section Ends
variable {p : Place} {c : Ctx} {ds : List PhaseDirective}

def plainLocation (tries : Bool) : Location :=
  { Location.bare (.pfx [47]) .static with tryFiles := if tries then some ⟨[],.status 404⟩ else none }

def anywhere : Location := .bare (.regex matchAll) .static

def openServer : ServerConf := { ServerConf.bare with locations := ⟨[],[],[anywhere],[]⟩ }

def startCtx : Ctx := { getCtx [47] with args := [], setVars := [([113],[]),([118],[109])] }

def noSub : Ctx → Reply := fun _ => ⟨Response.Resp.new,.empty⟩

def Place.start (p : Place) (ds : List PhaseDirective) : Ctx :=
  match p with
  | .location _ => startCtx
  | .server => atServer startCtx openServer ds

theorem start_ok (p : Place) (ds : List PhaseDirective) : Start (p.start ds) := by
  cases p with
  | server => exact ⟨rfl,rfl,rfl,rfl⟩
  | location tries => exact ⟨rfl,rfl,rfl,rfl⟩

/-- What becomes of the request as the code runs the level. -/
def Place.code (p : Place) (ds : List PhaseDirective) : Ctx × Step :=
  match p with
  | .location tries => content Env.idle startCtx ((Level.of ds).location (plainLocation tries))
  | .server => (handleInner Env.idle noSub (atServer startCtx openServer ds)).outcome

/-- What becomes of it as written. -/
def Place.reference (p : Place) (ds : List PhaseDirective) : Ctx × Step :=
  match p with
  | .location tries => contentAsWritten Env.idle startCtx (plainLocation tries) ds
  | .server => (handleAsWritten Env.idle noSub startCtx openServer ds).outcome

theorem Place.AsWritten.alike {fs : List Form} (h : p.AsWritten fs) (hf : ds.map form = fs) :
    Alike (p.code ds) (p.reference ds) := by
  cases p with
  | server => exact h ds openServer Env.idle noSub startCtx hf
  | location tries =>
    refine h ds (plainLocation tries) Env.idle startCtx hf ?_
    cases tries with
    | true => rfl
    | false => rfl

def setAction (a : Action) (c : Ctx) : Ctx := { c with server := { c.server with action := a } }

theorem setAction_self {a : Action} (h : c.server.action = a) : setAction a c = c := by
  subst h
  rfl

/-- The rest of a request at a server after the phase. -/
def routed (q : Ctx × Option Handled) : Ctx × Step :=
  match q with
  | (_,some h) => h.outcome
  | (c,none) => (Routing.run Env.idle noSub maxInternalRedirects (.start c)).outcome

/-- The rest of a request in a location. -/
def located (loc : Location) (q : Ctx × Option Step) : Ctx × Step :=
  match q with
  | (c,some s) => (c,s)
  | (c,none) => afterPhase Env.idle c loc

/-- The rest of the request after the phase, with this action. -/
def conclude (p : Place) (ds : List PhaseDirective) (a : Option Action) (q : Ctx × Option Step) : Ctx × Step :=
  match p with
  | .location tries => located { (Level.of ds).location (plainLocation tries) with action := a.getD .static } q
  | .server => routed (setAction (a.getD .none) (finish q).1,(finish q).2)

def lastAction (ds : List PhaseDirective) : Option Action := ds.foldl (fun a d => d.action.or a) none

theorem code_eq (p : Place) (ds : List PhaseDirective) :
    p.code ds = conclude p ds (lastAction ds) (passes p Env.idle ds (p.start ds)) := by
  cases p with
  | location tries =>
    have hrw : ((Level.of ds).location (plainLocation tries)).rewrites = ds.filterMap (·.rule) := by
      rw [Level.of_eq]
      rfl
    have hifs : ((Level.of ds).location (plainLocation tries)).ifs = ds.filterMap (·.block) := by
      rw [Level.of_eq]
      rfl
    have hact : ((Level.of ds).location (plainLocation tries)).action = (lastAction ds).getD .static := by
      rw [Level.of_eq]
      rfl
    change content Env.idle startCtx ((Level.of ds).location (plainLocation tries)) =
      located { (Level.of ds).location (plainLocation tries) with action := (lastAction ds).getD .static }
        (passes (.location tries) Env.idle ds startCtx)
    rw [content_phase tries,hrw,hifs,← hact]
    unfold located passes
    rcases phase (.location tries) Env.idle (ds.filterMap (·.rule)) (ds.filterMap (·.block)) startCtx with ⟨c,_ | s⟩
    · rfl
    · rfl
  | server =>
    have hserver : (atServer startCtx openServer ds).server =
        { (Level.of ds).server openServer with
          action := (lastAction ds).getD .none
          rewrites := ds.filterMap (·.rule)
          ifs := ds.filterMap (·.block) } := by
      change (Level.of ds).server openServer = _
      rw [Level.of_eq]
      rfl
    have hs := @serverPhase_phase Env.idle (atServer startCtx openServer ds)
    have hk := (@serverPhase_rephrased Env.idle (atServer startCtx openServer ds)).same.keeps.server
    have hact : (serverPhase Env.idle (atServer startCtx openServer ds)).1.server.action =
        (lastAction ds).getD .none := by rw [hk,hserver]
    have hrouted : (handleInner Env.idle noSub (atServer startCtx openServer ds)).outcome =
        routed (serverPhase Env.idle (atServer startCtx openServer ds)) := by
      unfold handleInner routed
      rcases serverPhase Env.idle (atServer startCtx openServer ds) with ⟨c,_ | r⟩
      · rfl
      · rfl
    have hphase : serverPhase Env.idle (atServer startCtx openServer ds) =
        finish (passes .server Env.idle ds (atServer startCtx openServer ds)) := by
      rw [hs,hserver]
      rfl
    change (handleInner Env.idle noSub (atServer startCtx openServer ds)).outcome =
      routed (setAction ((lastAction ds).getD .none)
        (finish (passes .server Env.idle ds (atServer startCtx openServer ds))).1,
        (finish (passes .server Env.idle ds (atServer startCtx openServer ds))).2)
    rw [hrouted,← hphase,setAction_self hact]

theorem reference_eq (p : Place) (ds : List PhaseDirective) :
    p.reference ds = conclude p ds (contentAction ds) (written p Env.idle ds (p.start ds)) := by
  cases p with
  | location tries => rfl
  | server =>
    change (handleAsWritten Env.idle noSub startCtx openServer ds).outcome =
      routed (setAction ((contentAction ds).getD .none)
        (finish (written .server Env.idle ds (atServer startCtx openServer ds))).1,
        (finish (written .server Env.idle ds (atServer startCtx openServer ds))).2)
    unfold handleAsWritten written routed
    rw [finish_close]
    rcases finish (ended (inTurn (runDirective Env.idle) ds (atServer startCtx openServer ds))) with ⟨c,_ | r⟩
    · rfl
    · rfl

/-- A mark that can be seen from outside. -/
def Marked (o : Ctx × Step) : Prop :=
  o.1.args = [109] ∨ o.1.setVars.lookup [118] = some [122] ∨ ∃ r k, o.2 = .done r k ∧ r.resp.status = 418

theorem Alike.marked {o q : Ctx × Step} (h : Alike o q) (hm : Marked o) : Marked q := by
  rcases hm with hm | hm | ⟨r,k,hs,hr⟩
  · exact Or.inl (h.args.symm.trans hm)
  · exact Or.inr (Or.inl ((h.vars [118]).symm.trans hm))
  · exact Or.inr (Or.inr ⟨r,k,h.step.symm.trans hs,hr⟩)

theorem Alike.symm {o q : Ctx × Step} (h : Alike o q) : Alike q o :=
  ⟨h.uri.symm,h.args.symm,fun name => (h.vars name).symm,h.step.symm⟩

/-- The arguments and variables at the end are those after the phase. -/
structure Rest (c : Ctx) (o : Ctx × Step) : Prop where
  args : o.1.args = c.args
  vars : o.1.setVars = c.setVars

theorem Rest.marked {o : Ctx × Step} (h : Rest c o) (hm : Marks c) : Marked o := by
  rcases hm.mark with ha | hv
  · exact Or.inl (h.args.trans ha)
  · refine Or.inr (Or.inl ?_)
    unfold Vars at hv
    rw [h.vars,hv]
    rfl

theorem Rest.unmarked {o : Ctx × Step} (h : Rest c o) (hc : Untouched c)
    (hs : ∀ r k, o.2 = .done r k → r.resp.status ≠ 418) : ¬ Marked o := by
  rintro (hm | hm | ⟨r,k,hm,hr⟩)
  · rw [h.args,hc.args] at hm
    cases hm
  · rw [h.vars] at hm
    rcases hc.vars with hv | hv
    · unfold Vars at hv
      rw [hv] at hm
      exact absurd hm (by decide)
    · unfold Vars at hv
      rw [hv] at hm
      exact absurd hm (by decide)
  · exact hs r k hm hr

/-- An action that gives no mark. -/
def QuietAct (a : Option Action) : Prop :=
  a = none ∨ a = some (.stubStatus false) ∨ a = some (.ret 200 none)

theorem Acted.rest {d : Ctx} {s : Step} (h : c.Acted d) : Rest c (d,s) :=
  ⟨(congrArg Ctx.args h).trans rfl,(congrArg Ctx.setVars h).trans rfl⟩

theorem afterPhase_rest (ds : List PhaseDirective) (tries : Bool) (a : Action) :
    Rest c (afterPhase Env.idle c { (Level.of ds).location (plainLocation tries) with action := a }) := by
  cases tries with
  | true => exact ⟨rfl,rfl⟩
  | false => exact Acted.rest act_acted

theorem afterPhase_quiet (ds : List PhaseDirective) (tries : Bool) {a : Option Action}
    (ha : tries = false → QuietAct a) (r : Reply) (k : Producer)
    (hs : (afterPhase Env.idle c
      { (Level.of ds).location (plainLocation tries) with action := a.getD .static }).2 = .done r k) :
    r.resp.status ≠ 418 := by
  cases tries with
  | true => cases hs
  | false =>
    rcases ha rfl with rfl | rfl | rfl
    · cases hs
    · cases hs
      change 200 ≠ 418
      decide
    · cases hs
      rw [returnReply_status]
      decide

/-- Routing ends in the location that takes every request, which has no file for it. -/
theorem run_anywhere (hl : c.server.locations = openServer.locations) (he : c.server.errorPages = [])
    (ha : c.authDepth = 0) :
    Rest c (Routing.run Env.idle noSub maxInternalRedirects (.start c)).outcome ∧
    (Routing.run Env.idle noSub maxInternalRedirects (.start c)).made.resp.status = 404 := by
  have hloc : c.server.locate c.uri = some (anywhere,some []) := by
    unfold ServerConf.locate
    rw [hl]
    exact congrArg some (Location.descend_leaf rfl c.uri _)
  have hi : decide (0 < c.authDepth) = false := by
    rw [ha]
    rfl
  have hpass : (Routing.start c).pass Env.idle noSub =
      ⟨(serve Env.idle { c with captures := [], matched := some anywhere } (some anywhere)).1,none,.fail 404⟩ := by
    unfold Routing.start Routing.pass route
    simp only [hloc,hi]
    rfl
  have hnext : (Routing.start c).next Env.idle noSub =
      .finished (.error (serve Env.idle { c with captures := [], matched := some anywhere } (some anywhere)).1 404) := by
    unfold Routing.next
    rw [hpass]
    unfold Routing.after errorPageFor Server.errorPages
    have hm : (serve Env.idle { c with captures := [], matched := some anywhere } (some anywhere)).1.matched =
      some anywhere := rfl
    have hs : (serve Env.idle { c with captures := [], matched := some anywhere } (some anywhere)).1.server =
      c.server := rfl
    simp only [hm,hs,he]
    rfl
  have hrun : Routing.run Env.idle noSub maxInternalRedirects (.start c) =
      .error (serve Env.idle { c with captures := [], matched := some anywhere } (some anywhere)).1 404 := by
    unfold maxInternalRedirects Routing.run
    rw [hnext]
  rw [hrun]
  exact ⟨⟨rfl,rfl⟩,errorBody_status _ _⟩

/-- A request of this level, at any point of the phase. -/
def During (p : Place) (ds : List PhaseDirective) (c : Ctx) : Prop := (p.start ds).Rephrased c

theorem During.start (p : Place) (ds : List PhaseDirective) : During p ds (p.start ds) := Ctx.Rephrased.refl _

theorem Start.calm (h : Start c) : Calm (c,none) := ⟨h.clean,fun _ hn => nomatch hn⟩

theorem During.uri (h : During p ds c) (uri : Bytes) : During p ds { c with uri := uri } :=
  Ctx.Rephrased.trans h rfl

theorem routed_rest (h : During .server ds c) (a : Action) : Rest c (routed (setAction a c,none)) ∧
    ∀ r k, (routed (setAction a c,none)).2 = .done r k → r.resp.status ≠ 418 := by
  have hk := (Ctx.Rephrased.same h).keeps
  have hserver : c.server = (Level.of ds).server openServer := hk.server
  have hl : (setAction a c).server.locations = openServer.locations := by
    change c.server.locations = _
    rw [hserver]
    rfl
  have he : (setAction a c).server.errorPages = [] := by
    change c.server.errorPages = _
    rw [hserver]
    rfl
  obtain ⟨hr,hs⟩ := @run_anywhere (setAction a c) hl he hk.authDepth
  refine ⟨⟨hr.args,hr.vars⟩,fun r k hd => ?_⟩
  cases hd
  rw [hs]
  decide

/-- A mark left in the phase is there at the end. -/
theorem conclude_marked {q : Ctx × Option Step} (hq : Shown q) (hd : During p ds q.1) (a : Option Action) :
    Marked (conclude p ds a q) := by
  rcases q with ⟨c,_ | s⟩
  · have hm : Marks c := hq.resolve_right (fun ⟨_,_,hn,_⟩ => nomatch hn)
    cases p with
    | location tries => exact (afterPhase_rest ds tries _).marked hm
    | server => exact (routed_rest hd _).1.marked hm
  · have hs : Marked (c,s) := by
      rcases hq with hm | ⟨r,k,he,hr⟩
      · exact Rest.marked ⟨rfl,rfl⟩ hm
      · cases he
        exact Or.inr (Or.inr ⟨r,k,rfl,hr⟩)
    cases p with
    | location tries => exact hs
    | server =>
      cases s with
      | done r k => exact hs
      | fail code =>
        have hm : Marks c := hq.resolve_right (fun ⟨_,_,hn,_⟩ => nomatch hn)
        exact Rest.marked ⟨rfl,rfl⟩ hm
      | internal uri =>
        have hm : Marks c := hq.resolve_right (fun ⟨_,_,hn,_⟩ => nomatch hn)
        exact (routed_rest (hd.uri uri) _).1.marked ⟨hm.vars,hm.mark⟩
      | named n =>
        have hm : Marks c := hq.resolve_right (fun ⟨_,_,hn,_⟩ => nomatch hn)
        exact (routed_rest hd _).1.marked hm

/-- Without one there is none at the end, unless the action leaves it. -/
theorem conclude_unmarked {q : Ctx × Option Step} (hq : Calm q) (hd : During p ds q.1) {a : Option Action}
    (ha : p = .location false → QuietAct a) : ¬ Marked (conclude p ds a q) := by
  rcases q with ⟨c,_ | s⟩
  · cases p with
    | location tries =>
      exact (afterPhase_rest ds tries _).unmarked hq.ctx
        (afterPhase_quiet ds tries (fun ht => ha (congrArg Place.location ht)))
    | server => exact (routed_rest hd _).1.unmarked hq.ctx (routed_rest hd _).2
  · have hp := hq.step s rfl
    cases p with
    | location tries =>
      refine Rest.unmarked ⟨rfl,rfl⟩ hq.ctx (fun r k he => ?_)
      have hs : s = .done r k := he
      subst hs
      exact hp
    | server =>
      cases s with
      | done r k =>
        refine Rest.unmarked ⟨rfl,rfl⟩ hq.ctx (fun r' k' he => ?_)
        cases he
        exact hp
      | fail code => exact absurd hp id
      | internal uri =>
        exact (routed_rest (hd.uri uri) _).1.unmarked ⟨hq.ctx.args,hq.ctx.vars⟩ (routed_rest (hd.uri uri) _).2
      | named n => exact (routed_rest hd _).1.unmarked hq.ctx (routed_rest hd _).2

/-- A level that the passes mark and its directives do not. -/
theorem not_alike {fs : List Form} (h : p.AsWritten fs) (hf : ds.map form = fs)
    (hs : Shown (passes p Env.idle ds (p.start ds))) (hc : Calm (written p Env.idle ds (p.start ds)))
    (ha : QuietAct (contentAction ds)) : False := by
  have hal := h.alike hf
  rw [code_eq,reference_eq] at hal
  exact conclude_unmarked hc (written_rephrased p ds) (fun _ => ha)
    (hal.marked (conclude_marked hs (passes_rephrased p ds) _))

end Ends

section Orders
variable {p : Place} {fs xs zs : List Form}

/-- The only handler of these levels is a status page. -/
def Stubbed (d : PhaseDirective) : Prop := ∀ a, d = .handler a → a = .stubStatus false

/-- A directive of each form is stubbed when its handler is. -/
theorem stubbed_of_form {g : Form → PhaseDirective} (hg : ∀ f, form (g f) = f)
    (hh : g .handler = .handler (.stubStatus false)) (f : Form) : Stubbed (g f) := by
  intro a ha
  have hf := hg f
  rw [ha] at hf
  rw [← hf] at ha
  exact (PhaseDirective.handler.inj (hh.symm.trans ha)).symm

theorem stubbed_quiet (fs : List Form) : ∀ d ∈ quiet fs, Stubbed d := by
  intro d hd
  obtain ⟨f,-,rfl⟩ := List.mem_map.mp hd
  exact stubbed_of_form formOf_quiet rfl f

theorem stubbed_mark (f : Form) : Stubbed (markDirective f) := stubbed_of_form form_mark rfl f

theorem stubbed_spoil (f : Form) : Stubbed (spoilDirective f) := stubbed_of_form form_spoil rfl f

theorem stubbed_break (f : Form) : Stubbed (breakDirective f) := stubbed_of_form form_break rfl f

theorem stubbed_dirty (f : Form) : Stubbed (dirtyDirective f) := stubbed_of_form form_dirty rfl f

theorem contentAction_quiet {ds : List PhaseDirective} (h : ∀ d ∈ ds, Stubbed d) : QuietAct (contentAction ds) := by
  unfold contentAction
  have hq : QuietAct none := Or.inl rfl
  revert hq
  generalize (none : Option Action) = a
  intro hq
  induction ds generalizing a with
  | nil => exact hq
  | cons d ds ih =>
    refine ih (fun e he => h e (List.mem_cons_of_mem _ he)) _ ?_
    cases d with
    | handler k =>
      rw [h _ List.mem_cons_self k rfl]
      exact Or.inr (Or.inl rfl)
    | rewrite r => exact hq
    | ifBlock b => exact hq
    | set name value => exact hq
    | ret status body => exact hq

/-- A later action takes the place of an earlier one. -/
theorem lastAction_quiet {f : Form} (hf : f ∈ zs) (ha : f = .ret ∨ f = .handler) (a : Option Action) :
    QuietAct ((quiet zs).foldl (fun a d => d.action.or a) a) := by
  have hkeep : ∀ (gs : List Form) (a : Option Action), QuietAct a →
      QuietAct ((quiet gs).foldl (fun a d => d.action.or a) a) := by
    intro gs
    induction gs with
    | nil => exact fun _ h => h
    | cons g gs ih =>
      intro a hq
      refine ih _ ?_
      cases g with
      | handler => exact Or.inr (Or.inl rfl)
      | ret => exact Or.inr (Or.inr rfl)
      | rewrite k => exact hq
      | ifBlock as => exact hq
      | set => exact hq
  obtain ⟨ys,gs,rfl⟩ := List.append_of_mem hf
  have hq : quiet (ys ++ f :: gs) = quiet ys ++ quietDirective f :: quiet gs := by simp [quiet]
  rw [hq,List.foldl_append,List.foldl_cons]
  refine hkeep gs _ ?_
  rcases ha with rfl | rfl
  · exact Or.inr (Or.inr rfl)
  · exact Or.inr (Or.inl rfl)

theorem form_around (f : PhaseDirective) : (quiet xs ++ f :: quiet zs).map form = xs ++ form f :: zs := by
  rw [List.map_append,List.map_cons,form_quiet,form_quiet]

theorem form_around_two (ys : List Form) (f g : PhaseDirective) :
    (quiet xs ++ f :: (quiet ys ++ g :: quiet zs)).map form = xs ++ form f :: (ys ++ form g :: zs) := by
  rw [List.map_append,List.map_cons,form_quiet,form_around]

/-- A `return` is the action of a location without `try_files`. -/
theorem return_acts (h : p.AsWritten (xs ++ .ret :: zs)) (hx : .ret ∉ xs) :
    p = .location false ∧ ∀ f ∈ zs, f ≠ .ret ∧ f ≠ .handler := by
  have hstart := start_ok p (quiet xs ++ markDirective .ret :: quiet zs)
  obtain ⟨hpass,hwritten⟩ := @return_alone Env.idle p _ xs zs hstart hx
  have hal := h.alike (form_around (markDirective .ret))
  rw [code_eq,reference_eq,hpass,hwritten] at hal
  have hshown : Shown (p.start (quiet xs ++ markDirective .ret :: quiet zs),some (Step.done (returnReply Env.idle
      (p.start (quiet xs ++ markDirective .ret :: quiet zs)) 418 none) .page)) :=
    Or.inr ⟨_,_,rfl,returnReply_status 418⟩
  have hm := hal.symm.marked (conclude_marked hshown (During.start _ _) _)
  have hno : ¬ (p = .location false → QuietAct (lastAction (quiet xs ++ markDirective .ret :: quiet zs))) := fun ha =>
    conclude_unmarked hstart.calm (During.start _ _) ha hm
  obtain ⟨hp,hq⟩ := Classical.not_imp.mp hno
  have hlast : ∀ f ∈ zs, ¬ (f = .ret ∨ f = .handler) := by
    intro f hf ha
    refine hq ?_
    unfold lastAction
    rw [List.foldl_append,List.foldl_cons]
    exact lastAction_quiet hf ha _
  exact ⟨hp,fun f hf => not_or.mp (hlast f hf)⟩

/-- Nothing after a `return` takes part in the phase or names an action. -/
theorem no_return_before {e : Form} (h : p.AsWritten (xs ++ e :: zs))
    (he : (e.isRule ∨ e.acts) ∨ e = .ret ∨ e = .handler) : .ret ∉ xs := by
  intro hr
  obtain ⟨ws,ys,rfl,hw⟩ := List.eq_append_cons_of_mem hr
  rcases he with he | he
  · obtain ⟨hs,hc⟩ := @runs_after_return Env.idle p _ ws ys zs e
      (start_ok p (quiet (ws ++ .ret :: ys) ++ markDirective e :: quiet zs)) he hw
    refine not_alike h ?_ hs hc (contentAction_quiet (List.forall_mem_append.mpr
      ⟨stubbed_quiet _,List.forall_mem_cons.mpr ⟨stubbed_mark e,stubbed_quiet _⟩⟩))
    rw [form_around,form_mark]
  · have hfs : (ws ++ .ret :: ys) ++ e :: zs = ws ++ .ret :: (ys ++ e :: zs) := by
      rw [List.append_assoc,List.cons_append]
    rw [hfs] at h
    have hn := (return_acts h hw).2 e (List.mem_append_right _ List.mem_cons_self)
    exact he.elim hn.1 hn.2

theorem pairwise_of_splits {α : Type} {R : α → α → Prop} {l : List α}
    (h : ∀ xs a ys b zs, l = xs ++ a :: (ys ++ b :: zs) → R a b) : l.Pairwise R := by
  induction l with
  | nil => exact .nil
  | cons a l ih =>
    refine .cons (fun b hb => ?_) (ih (fun xs c ys d zs he => h (a :: xs) c ys d zs (by rw [he]; rfl)))
    obtain ⟨ys,zs,rfl⟩ := List.append_of_mem hb
    exact h [] a ys b zs rfl

theorem before_of_asWritten {f e : Form} {ys : List Form} (h : p.AsWritten (xs ++ f :: (ys ++ e :: zs))) :
    Form.Before p f e := by
  have hno : (e.isRule ∨ e.acts) ∨ e = .ret ∨ e = .handler → .ret ∉ xs ∧ f ≠ .ret ∧ .ret ∉ ys := by
    intro he
    have hfs : xs ++ f :: (ys ++ e :: zs) = (xs ++ f :: ys) ++ e :: zs := by
      rw [List.append_assoc,List.cons_append]
    have hn := no_return_before (hfs ▸ h) he
    rw [List.mem_append,List.mem_cons,not_or,not_or] at hn
    exact ⟨hn.1,Ne.symm hn.2.1,hn.2.2⟩
  have hstub : ∀ d k : PhaseDirective, Stubbed d → Stubbed k →
      QuietAct (contentAction (quiet xs ++ d :: (quiet ys ++ k :: quiet zs))) := fun d k hd hk =>
    contentAction_quiet (List.forall_mem_append.mpr ⟨stubbed_quiet _,List.forall_mem_cons.mpr ⟨hd,
      List.forall_mem_append.mpr ⟨stubbed_quiet _,List.forall_mem_cons.mpr ⟨hk,stubbed_quiet _⟩⟩⟩⟩)
  constructor
  · intro he
    obtain ⟨hx,hf,hy⟩ := hno (Or.inl (Or.inl he))
    by_contra hn
    obtain ⟨hr,hi⟩ := not_or.mp hn
    cases e with
    | rewrite flag =>
      obtain ⟨hs,hc⟩ := @spoils Env.idle p _ xs ys zs f (start_ok p _) hr hi hf hx hy flag
      refine not_alike h ?_ hs hc (hstub _ _ (stubbed_spoil f) (stubbed_mark _))
      rw [form_around_two,form_spoil,form_mark]
    | ifBlock as => cases he
    | set => cases he
    | ret => cases he
    | handler => cases he
  · intro he
    obtain ⟨hx,hf,hy⟩ := hno (Or.inl (Or.inr he))
    refine ⟨fun ho => ?_,hf⟩
    obtain ⟨hs,hc⟩ := @runs_on Env.idle p _ xs ys zs f e (start_ok p _) ho he hx
    refine not_alike h ?_ hs hc (hstub _ _ (stubbed_break f) (stubbed_mark _))
    rw [form_around_two,form_break,form_mark]
  · rintro rfl
    obtain ⟨hx,hf,hy⟩ := hno (Or.inr (Or.inl rfl))
    have hbreak : ¬ (f.runsOn p ∨ f.halts) := by
      intro hb
      have hfs : xs ++ f :: (ys ++ .ret :: zs) = (xs ++ f :: ys) ++ .ret :: zs := by
        rw [List.append_assoc,List.cons_append]
      have hmem : .ret ∉ xs ++ f :: ys := by
        rw [List.mem_append,List.mem_cons,not_or,not_or]
        exact ⟨hx,Ne.symm hf,hy⟩
      obtain ⟨rfl,hlast⟩ := return_acts (hfs ▸ h) hmem
      have hstart := start_ok (.location false)
        (quiet xs ++ breakDirective f :: (quiet ys ++ markDirective .ret :: quiet zs))
      obtain ⟨hpass,hwritten⟩ := @stops_before_return Env.idle _ _ xs ys zs f hstart hb hx
      have hform : (quiet xs ++ breakDirective f :: (quiet ys ++ markDirective .ret :: quiet zs)).map form =
          xs ++ f :: (ys ++ .ret :: zs) := by
        rw [form_around_two,form_break,form_mark]
      have hal := h.alike hform
      rw [code_eq,reference_eq,hpass,hwritten] at hal
      have hact : lastAction (quiet xs ++ breakDirective f :: (quiet ys ++ markDirective .ret :: quiet zs)) =
          some (.ret 418 none) := by
        have hsplit : quiet xs ++ breakDirective f :: (quiet ys ++ markDirective .ret :: quiet zs) =
            (quiet xs ++ breakDirective f :: quiet ys) ++ .ret 418 none :: quiet zs := by
          rw [List.append_assoc,List.cons_append]
          rfl
        rw [hsplit]
        exact action_ret (fun e he => hlast e (by rw [form_quiet] at he; exact he))
      rw [hact] at hal
      refine conclude_unmarked hstart.calm (During.start _ _)
        (fun _ => hstub _ _ (stubbed_break f) (stubbed_mark _)) (hal.marked ?_)
      exact Or.inr (Or.inr ⟨_,_,rfl,returnReply_status 418⟩)
    exact ⟨fun ho => hbreak (Or.inl ho),fun hh => hbreak (Or.inr hh),hf⟩
  · rintro rfl
    exact (hno (Or.inr (Or.inr rfl))).2.1

theorem acts_of_not_whole {as : List ActionForm} (h : ¬ ActionForm.whole as) : ActionForm.acts as := by
  induction as with
  | nil => exact absurd rfl h
  | cons a as ih =>
    cases a with
    | ret => exact absurd rfl h
    | brk => exact absurd rfl h
    | addHeader => exact ih h
    | set => rfl
    | rewrite f => rfl

/-- Exactly in these orders is every level of a form run as written. -/
theorem Place.asWritten_iff (p : Place) (fs : List Form) : p.AsWritten fs ↔ p.Ordered fs := by
  constructor
  · intro h
    refine ⟨pairwise_of_splits (fun xs f ys e zs hfs => before_of_asWritten (hfs ▸ h)),fun f hf => ?_,fun hr => ?_⟩
    · by_contra hw
      obtain ⟨xs,zs,rfl⟩ := List.append_of_mem hf
      have ha : f.acts := by
        cases f with
        | ifBlock as => exact acts_of_not_whole hw
        | rewrite k => exact absurd rfl hw
        | set => exact absurd rfl hw
        | ret => exact absurd rfl hw
        | handler => exact absurd rfl hw
      have hx := no_return_before h (Or.inl (Or.inr ha))
      obtain ⟨hs,hc⟩ := @runs_on_within Env.idle p _ xs zs f
        (start_ok p (quiet xs ++ dirtyDirective f :: quiet zs)) hw hx
      refine not_alike h ?_ hs hc (contentAction_quiet (List.forall_mem_append.mpr
        ⟨stubbed_quiet _,List.forall_mem_cons.mpr ⟨stubbed_dirty f,stubbed_quiet _⟩⟩))
      rw [form_around,form_dirty]
    · obtain ⟨xs,zs,rfl,hx⟩ := List.eq_append_cons_of_mem hr
      exact (return_acts h hx).1
  · intro h
    cases p with
    | server =>
      intro ds base env sub ctx hf
      subst hf
      exact .of_eq (congrArg Handled.outcome (handle_asWritten h base sub ctx))
    | location tries =>
      intro ds base env ctx hf hb
      subst hf
      exact .of_eq (content_asWritten h base hb ctx)

/-- `return 403; proxy_pass http://app;` in a location. -/
def returnThenPass : List PhaseDirective :=
  [.ret 403 none,.handler (.proxy ⟨.upstream (lit "app"),none,false⟩)]

theorem returnThenPass_proxied : ¬ (Place.location false).AsWritten (returnThenPass.map form) := by
  intro h
  have hs := (h returnThenPass (plainLocation false) Env.idle startCtx rfl rfl).step
  have hc : (content Env.idle startCtx ((Level.of returnThenPass).location (plainLocation false))).2 = .fail 502 := rfl
  rw [hc] at hs
  cases hs

end Orders

end OxiServe.Server
