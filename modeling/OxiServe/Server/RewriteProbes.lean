import OxiServe.Server.RewritePasses

/-! # Directives that leave a mark

Fillings for the forms of directives: quiet ones that do nothing, some that leave a mark
on the arguments, on a variable or on the status of the reply, and some that end the
phase or keep another directive from leaving its mark.
-/
namespace OxiServe.Server
open Config

section Filling

def matchAll : Regex := ⟨fun _ => some []⟩

def matchNone : Regex := ⟨fun _ => none⟩

def matchRoot : Regex := ⟨fun s => if s = [47] then some [] else none⟩

/-- Actions that leave a request alone, as far as their form allows. -/
def quietAction : ActionForm → IfAction
  | .ret => .ret 200 none
  | .rewrite f => .rewrite ⟨matchNone,⟨[]⟩,f⟩
  | .set => .set [113] ⟨[]⟩
  | .addHeader => .addHeader ⟨[],⟨[]⟩,false⟩
  | .brk => .brk

/-- Never holds. -/
def quietCond : Cond := .ne .uri ⟨[.var .uri]⟩

def quietDirective : Form → PhaseDirective
  | .rewrite f => .rewrite ⟨matchNone,⟨[]⟩,f⟩
  | .ifBlock as => .ifBlock ⟨quietCond,as.map quietAction⟩
  | .set => .set [113] ⟨[]⟩
  | .ret => .ret 200 none
  | .handler => .handler (.stubStatus false)

def quiet (fs : List Form) : List PhaseDirective := fs.map quietDirective

theorem actionForm_quiet (a : ActionForm) : actionForm (quietAction a) = a := by
  cases a with
  | ret => rfl
  | rewrite f => rfl
  | set => rfl
  | addHeader => rfl
  | brk => rfl

theorem actionForms_quiet (as : List ActionForm) : (as.map quietAction).map actionForm = as := by
  rw [List.map_map]
  exact (List.map_congr_left (fun a _ => actionForm_quiet a)).trans (List.map_id as)

theorem formOf_quiet (f : Form) : form (quietDirective f) = f := by
  cases f with
  | ifBlock as => exact congrArg Form.ifBlock (actionForms_quiet as)
  | rewrite f => rfl
  | set => rfl
  | ret => rfl
  | handler => rfl

theorem form_quiet (fs : List Form) : (quiet fs).map form = fs := by
  unfold quiet
  rw [List.map_map]
  exact (List.map_congr_left (fun f _ => formOf_quiet f)).trans (List.map_id fs)

end Filling

section Quiet
variable {env : Env} {c d : Ctx} {x : Bytes}

/-- The variable that quiet directives set is empty, the other one has this value. -/
def Vars (x : Bytes) (c : Ctx) : Prop := c.setVars = [([113],[]),([118],x)]

theorem Vars.set_quiet (h : Vars x c) : c.set [113] [] = c := by
  have hs : (c.set [113] []).setVars = c.setVars := by
    unfold Vars at h
    simp [Ctx.set,h]
  have he : c.set [113] [] = { c with setVars := (c.set [113] []).setVars } := rfl
  rw [he,hs]

theorem Vars.set_other (h : Vars x c) (y : Bytes) : Vars y (c.set [118] y) := by
  unfold Vars at h ⊢
  simp [Ctx.set,h]

theorem Vars.var (h : Vars x c) : c.var env (.user [118]) = x := by
  have hl : c.setVars.lookup [118] = some x := by
    rw [h]
    rfl
  unfold Ctx.var varFuel
  rw [varDepth,if_neg (Nat.not_lt_zero 8),hl]

/-- Not the mark on a status. -/
def PlainStep : Step → Prop
  | .done r _ => r.resp.status ≠ 418
  | .fail _ => False
  | _ => True

def Plain : Option PhaseEnd → Prop
  | some (.step s) => PlainStep s
  | _ => True

theorem runRule_miss {r : Rewrite} (h : r.re.captures c.uri = none) : runRule env r c = (c,none) := by
  simp [runRule,runRewrites,Regex.isMatch,h]

theorem errorBody_status (resp : Response.Resp) (code : ℕ) : (errorBody c resp code).resp.status = resp.status := by
  unfold errorBody
  split
  · rfl
  · dsimp only
    split
    · rfl
    · rfl

theorem redirect_status (code : ℕ) (target : Bytes) : (redirect c code target).resp.status = code :=
  errorBody_status _ _

theorem returnReply_status (status : ℕ) : (returnReply env c status none).resp.status = status := by
  unfold returnReply
  dsimp only [Option.map_none]
  split
  · rfl
  · split
    · rfl
    · exact errorBody_status _ _

theorem runAction_quiet (h : Vars x c) (a : ActionForm) : (runAction env (quietAction a) c).1 = c ∧
    Plain (runAction env (quietAction a) c).2 ∧
    (a ≠ .ret → a ≠ .brk → (runAction env (quietAction a) c).2 = none) ∧
    passAction env (quietAction a) c = runAction env (quietAction a) c := by
  cases a with
  | ret =>
    refine ⟨rfl,?_,fun hn => absurd rfl hn,rfl⟩
    change (returnReply env c 200 none).resp.status ≠ 418
    rw [returnReply_status]
    decide
  | rewrite f =>
    have hr : runRule env ⟨matchNone,⟨[]⟩,f⟩ c = (c,none) := runRule_miss rfl
    have hp := @passAction_rewrite env ⟨matchNone,⟨[]⟩,f⟩ c
    rw [hr] at hp
    change (runRule env ⟨matchNone,⟨[]⟩,f⟩ c).1 = c ∧ Plain (runRule env ⟨matchNone,⟨[]⟩,f⟩ c).2 ∧
      (_ → _ → (runRule env ⟨matchNone,⟨[]⟩,f⟩ c).2 = none) ∧
      passAction env (.rewrite ⟨matchNone,⟨[]⟩,f⟩) c = runRule env ⟨matchNone,⟨[]⟩,f⟩ c
    rw [hr,hp]
    exact ⟨rfl,trivial,fun _ _ => rfl,rfl⟩
  | set => exact ⟨h.set_quiet,trivial,fun _ _ => rfl,rfl⟩
  | addHeader => exact ⟨rfl,trivial,fun _ _ => rfl,rfl⟩
  | brk => exact ⟨rfl,trivial,fun _ hn => absurd rfl hn,rfl⟩

/-- Quiet actions before others make no difference. -/
theorem inTurn_quietAction {a : ActionForm} (h : Vars x c) (hr : a ≠ .ret) (hb : a ≠ .brk)
    (as : List IfAction) :
    inTurn (runAction env) (quietAction a :: as) c = inTurn (runAction env) as c ∧
    inTurn (passAction env) (quietAction a :: as) c = inTurn (passAction env) as c := by
  obtain ⟨h₁,-,h₂,h₃⟩ := @runAction_quiet env c x h a
  have hg : runAction env (quietAction a) c = (c,none) := Prod.ext h₁ (h₂ hr hb)
  exact ⟨inTurn_cons_goes hg,inTurn_cons_goes (h₃.trans hg)⟩

/-- Quiet actions to the end leave the request as it is and no mark. -/
theorem inTurn_quietActions (h : Vars x c) (as : List ActionForm) :
    (inTurn (runAction env) (as.map quietAction) c).1 = c ∧
    Plain (inTurn (runAction env) (as.map quietAction) c).2 ∧
    inTurn (passAction env) (as.map quietAction) c = inTurn (runAction env) (as.map quietAction) c := by
  induction as with
  | nil => exact ⟨rfl,trivial,rfl⟩
  | cons a as ih =>
    obtain ⟨h₁,h₂,-,h₃⟩ := @runAction_quiet env c x h a
    rw [List.map_cons]
    rcases hr : runAction env (quietAction a) c with ⟨d,_ | e⟩
    · rw [hr] at h₁ h₂ h₃
      cases h₁
      rw [inTurn_cons_goes hr,inTurn_cons_goes h₃]
      exact ih
    · rw [hr] at h₁ h₂ h₃
      rw [inTurn_cons_ends hr,inTurn_cons_ends h₃]
      exact ⟨h₁,h₂,rfl⟩

theorem evalCond_quiet : evalCond env c quietCond = false := by
  change (c.var env .uri != c.render env ⟨[.var .uri]⟩) = false
  rw [Ctx.render_uri]
  exact bne_self_eq_false _

theorem runDirective_quiet (h : Vars x c) {f : Form} (hf : f ≠ .ret) :
    runDirective env (quietDirective f) c = (c,none) := by
  cases f with
  | rewrite f => exact @runRule_miss env c ⟨matchNone,⟨[]⟩,f⟩ rfl
  | ifBlock as =>
    change runBlock env ⟨quietCond,as.map quietAction⟩ c = (c,none)
    unfold runBlock
    rw [evalCond_quiet]
    exact if_neg Bool.false_ne_true
  | set => exact Prod.ext h.set_quiet rfl
  | ret => exact absurd rfl hf
  | handler => rfl

/-- The directives as written, up to the first that is not quiet. -/
theorem run_quiet (h : Vars x c) {fs : List Form} (hr : .ret ∉ fs) (ds : List PhaseDirective) :
    inTurn (runDirective env) (quiet fs ++ ds) c = inTurn (runDirective env) ds c := by
  refine inTurn_append_goes (inTurn_idle (fun d hd => ?_))
  obtain ⟨f,hf,rfl⟩ := List.mem_map.mp hd
  exact runDirective_quiet h (fun he => hr (he ▸ hf))

/-- Quiet directives to the end. -/
theorem run_quiets (h : Vars x c) (fs : List Form) : (inTurn (runDirective env) (quiet fs) c).1 = c ∧
    Plain (inTurn (runDirective env) (quiet fs) c).2 := by
  induction fs with
  | nil => exact ⟨rfl,trivial⟩
  | cons f fs ih =>
    change (inTurn (runDirective env) (quietDirective f :: quiet fs) c).1 = c ∧
      Plain (inTurn (runDirective env) (quietDirective f :: quiet fs) c).2
    by_cases hf : f = .ret
    · subst hf
      refine ⟨rfl,?_⟩
      change (returnReply env c 200 none).resp.status ≠ 418
      rw [returnReply_status]
      decide
    · rw [inTurn_cons_goes (runDirective_quiet h hf)]
      exact ih

theorem rules_quiet {fs : List Form} : ∀ r ∈ (quiet fs).filterMap (·.rule), runRule env r c = (c,none) := by
  intro r hr
  obtain ⟨d,hd,he⟩ := List.mem_filterMap.mp hr
  obtain ⟨f,-,rfl⟩ := List.mem_map.mp hd
  cases f with
  | rewrite f =>
    cases he
    exact runRule_miss rfl
  | ifBlock as => cases he
  | set => cases he
  | ret => cases he
  | handler => cases he

theorem blocks_quietly (h : Vars x c) {fs : List Form} :
    ∀ b ∈ (quiet fs).filterMap (·.block), passBlock env b c = (c,none) := by
  intro b hb
  obtain ⟨d,hd,he⟩ := List.mem_filterMap.mp hb
  obtain ⟨f,-,rfl⟩ := List.mem_map.mp hd
  cases f with
  | rewrite f => cases he
  | ifBlock as =>
    cases he
    unfold passBlock
    rw [evalCond_quiet]
    exact if_neg Bool.false_ne_true
  | set =>
    cases he
    exact (passBlock_set [113] ⟨[]⟩ c).trans (Prod.ext h.set_quiet rfl)
  | ret => cases he
  | handler => cases he

end Quiet

section Hits
variable {env : Env} {c d : Ctx} {x : Bytes}

/-- What a rule that matched does, by its flag. -/
def hit (f : RewriteFlag) (d : Ctx) (target : Bytes) : Ctx × Option PhaseEnd :=
  match f with
  | .none => ({ d with uri := target },none)
  | .last => ({ d with uri := target },some (.step (.internal target)))
  | .brk => ({ d with uri := target },some .stops)
  | .redirect => (d,some (.step (.done (redirect d 302 target) .page)))
  | .permanent => (d,some (.step (.done (redirect d 301 target) .page)))

theorem runRule_hit {r : Rewrite} {caps : List Bytes} {target : Bytes} (hm : r.re.captures c.uri = some caps)
    (ht : takeArgs (c.setCaptures caps) ((c.setCaptures caps).render env r.replacement) = (d,target))
    (ha : isAbsolute target = false) : runRule env r c = hit r.flag d target := by
  unfold runRule hit
  cases hf : r.flag with
  | none => simp [runRewrites,hm,ht,ha,hf]
  | last => simp [runRewrites,hm,ht,ha,hf]
  | brk => simp [runRewrites,hm,ht,ha,hf,Regex.isMatch]
  | redirect => simp [runRewrites,hm,ht,hf]
  | permanent => simp [runRewrites,hm,ht,hf]

theorem hit_args (f : RewriteFlag) (d : Ctx) (target : Bytes) :
    (hit f d target).1.args = d.args ∧ (hit f d target).1.setVars = d.setVars ∧
    (hit f d target).1.captures = d.captures := by
  cases f with
  | none => exact ⟨rfl,rfl,rfl⟩
  | last => exact ⟨rfl,rfl,rfl⟩
  | brk => exact ⟨rfl,rfl,rfl⟩
  | redirect => exact ⟨rfl,rfl,rfl⟩
  | permanent => exact ⟨rfl,rfl,rfl⟩

theorem hit_plain (f : RewriteFlag) (d : Ctx) (target : Bytes) : Plain (hit f d target).2 := by
  cases f with
  | none => trivial
  | last => trivial
  | brk => trivial
  | redirect =>
    change (redirect d 302 target).resp.status ≠ 418
    rw [redirect_status]
    decide
  | permanent =>
    change (redirect d 301 target).resp.status ≠ 418
    rw [redirect_status]
    decide

/-- Goes on only at the target. -/
theorem hit_uri {f : RewriteFlag} {target : Bytes} (h : (hit f d target).2 = none) :
    (hit f d target).1.uri = target := by
  cases f with
  | none => rfl
  | last => cases h
  | brk => cases h
  | redirect => cases h
  | permanent => cases h

/-- `/` alone is sent to `/x`, with the variable for arguments. -/
def probeRule (f : RewriteFlag) : Rewrite := ⟨matchRoot,⟨[.text [47,120,63],.var (.user [118])]⟩,f⟩

/-- Everything is sent to `/x`, with the mark for arguments. -/
def markRule (f : RewriteFlag) : Rewrite := ⟨matchAll,.literal [47,120,63,109],f⟩

/-- `/` alone is sent to `/a`. -/
def divertRule (f : RewriteFlag) : Rewrite := ⟨matchRoot,.literal [47,97],f⟩

/-- Everything is sent to `/`. -/
def rootRule (f : RewriteFlag) : Rewrite := ⟨matchAll,.literal [47],f⟩

theorem takeArgs_query (c : Ctx) (x : Bytes) : takeArgs c ([47,120,63] ++ x) = ({ c with args := x },[47,120]) := by
  have hs : splitOnce 63 ([47,120,63] ++ x) = some ([47,120],x) := rfl
  unfold takeArgs
  rw [hs]

theorem runRule_probe (hu : c.uri = [47]) (hv : Vars x c) (f : RewriteFlag) :
    runRule env (probeRule f) c = hit f { c with captures := [], args := x } [47,120] := by
  refine @runRule_hit env c _ _ [] _ (by rw [hu]; rfl) ?_ rfl
  have hr : (c.setCaptures []).render env (probeRule f).replacement =
      [47,120,63] ++ ((c.setCaptures []).var env (.user [118]) ++ []) := rfl
  have hv' : Vars x (c.setCaptures []) := hv
  rw [hr,List.append_nil,hv'.var,takeArgs_query]
  rfl

theorem runRule_probe_miss (hu : c.uri ≠ [47]) (f : RewriteFlag) : runRule env (probeRule f) c = (c,none) :=
  runRule_miss (if_neg hu)

theorem runRule_mark (f : RewriteFlag) :
    runRule env (markRule f) c = hit f { c with captures := [], args := [109] } [47,120] := by
  refine @runRule_hit env c _ _ [] _ rfl ?_ rfl
  have hr : (c.setCaptures []).render env (markRule f).replacement = [47,120,63] ++ [109] := rfl
  rw [hr,takeArgs_query]
  rfl

theorem runRule_divert (hu : c.uri = [47]) (f : RewriteFlag) :
    runRule env (divertRule f) c = hit f { c with captures := [] } [47,97] :=
  @runRule_hit env c _ _ [] _ (by rw [hu]; rfl) rfl rfl

theorem runRule_root (f : RewriteFlag) : runRule env (rootRule f) c = hit f { c with captures := [] } [47] :=
  @runRule_hit env c _ _ [] _ rfl rfl rfl

end Hits

section Live
variable {env : Env} {c d : Ctx} {x : Bytes}

/-- A request before any directive has done anything. -/
structure Start (c : Ctx) : Prop where
  uri : c.uri = [47]
  args : c.args = []
  captures : c.captures = []
  vars : Vars [109] c

/-- The mark is on the arguments or on the variable. -/
structure Marks (c : Ctx) : Prop where
  vars : ∃ x, Vars x c
  mark : c.args = [109] ∨ Vars [122] c

/-- The request is marked, or its reply is. -/
def MarksEnd (q : Ctx × Option PhaseEnd) : Prop :=
  Marks q.1 ∨ ∃ r k, q.2 = some (.step (.done r k)) ∧ r.resp.status = 418

def markAction : ActionForm → IfAction
  | .ret => .ret 418 none
  | .rewrite f => .rewrite (markRule f)
  | .set => .set [118] (.literal [122])
  | .addHeader => .addHeader ⟨[],⟨[]⟩,false⟩
  | .brk => .brk

/-- The first action that takes part is filled in one way, the others quietly. -/
def leadActions (g : ActionForm → IfAction) : List ActionForm → List IfAction
  | [] => []
  | .addHeader :: as => quietAction .addHeader :: leadActions g as
  | a :: as => g a :: as.map quietAction

theorem actionForms_lead {g : ActionForm → IfAction} (hg : ∀ a, actionForm (g a) = a) (as : List ActionForm) :
    (leadActions g as).map actionForm = as := by
  induction as with
  | nil => rfl
  | cons a as ih =>
    have hq : (g a :: as.map quietAction).map actionForm = a :: as := by
      rw [List.map_cons,actionForms_quiet,hg]
    cases a with
    | addHeader => exact congrArg (ActionForm.addHeader :: ·) ih
    | ret => exact hq
    | rewrite f => exact hq
    | set => exact hq
    | brk => exact hq

theorem actionForm_mark (a : ActionForm) : actionForm (markAction a) = a := by
  cases a with
  | ret => rfl
  | rewrite f => rfl
  | set => rfl
  | addHeader => rfl
  | brk => rfl

/-- A mark on a request stays through quiet actions. -/
theorem pass_quietActions_marks (hm : Marks c) (as : List ActionForm) :
    MarksEnd (inTurn (passAction env) (as.map quietAction) c) := by
  obtain ⟨y,hv⟩ := hm.vars
  obtain ⟨h₁,-,h₂⟩ := @inTurn_quietActions env c y hv as
  rw [h₂]
  refine Or.inl ?_
  rw [h₁]
  exact hm

theorem pass_markActions (hv : Vars x c) {as : List ActionForm} (h : ActionForm.acts as) :
    MarksEnd (inTurn (passAction env) (leadActions markAction as) c) := by
  induction as with
  | nil => cases h
  | cons a as ih =>
    cases a with
    | addHeader => exact ih h
    | brk => cases h
    | ret =>
      have hp : passAction env (markAction .ret) c = (c,some (.step (.done (returnReply env c 418 none) .page))) := rfl
      change MarksEnd (inTurn (passAction env) (markAction .ret :: as.map quietAction) c)
      rw [inTurn_cons_ends hp]
      exact Or.inr ⟨_,_,rfl,returnReply_status 418⟩
    | set =>
      have hp : passAction env (markAction .set) c = (c.set [118] [122],none) := rfl
      change MarksEnd (inTurn (passAction env) (markAction .set :: as.map quietAction) c)
      rw [inTurn_cons_goes hp]
      exact pass_quietActions_marks ⟨⟨_,hv.set_other [122]⟩,Or.inr (hv.set_other [122])⟩ as
    | rewrite f =>
      have hp := @passAction_rewrite env (markRule f) c
      rw [runRule_mark] at hp
      obtain ⟨ha,hs,-⟩ := hit_args f { c with captures := [], args := [109] } [47,120]
      change MarksEnd (inTurn (passAction env) (.rewrite (markRule f) :: as.map quietAction) c)
      have hm : Marks (hit f { c with captures := [], args := [109] } [47,120]).1 := ⟨⟨x,hs.trans hv⟩,Or.inl ha⟩
      rcases hh : hit f { c with captures := [], args := [109] } [47,120] with ⟨d,_ | _ | s⟩
      · rw [hh] at hp hm
        rw [inTurn_cons_goes hp]
        exact pass_quietActions_marks hm as
      · rw [hh] at hp hm
        rw [inTurn_cons_goes hp]
        exact pass_quietActions_marks hm as
      · rw [hh] at hp hm
        rw [inTurn_cons_ends hp]
        exact Or.inl hm

/-- The last rule with `break` after which a block has nothing to do takes effect. -/
def leakActions : List ActionForm → List IfAction
  | [] => []
  | a :: as =>
    if a = .rewrite .brk ∧ ActionForm.lead as = none then .rewrite (rootRule .brk) :: as.map quietAction
    else quietAction a :: leakActions as

theorem actionForms_leak (as : List ActionForm) : (leakActions as).map actionForm = as := by
  induction as with
  | nil => rfl
  | cons a as ih =>
    unfold leakActions
    split
    · rename_i ha
      rw [List.map_cons,actionForms_quiet,ha.1]
      rfl
    · rw [List.map_cons,actionForm_quiet,ih]

/-- The rule that sends everything to `/` changes nothing at the start. -/
theorem hit_root (h : Start c) (f : RewriteFlag) : hit f { c with captures := [] } [47] = hit f c [47] := by
  have hc : { c with captures := [] } = c := by
    rw [← h.captures]
  rw [hc]

theorem start_uri (h : Start c) : { c with uri := [47] } = c := by
  rw [← h.uri]

theorem run_root_brk (h : Start c) : runAction env (.rewrite (rootRule .brk)) c = (c,some .stops) ∧
    passAction env (.rewrite (rootRule .brk)) c = (c,none) := by
  have hr : runRule env (rootRule .brk) c = (c,some .stops) := by
    rw [runRule_root,hit_root h]
    exact Prod.ext (start_uri h) rfl
  have hp := @passAction_rewrite env (rootRule .brk) c
  rw [hr] at hp
  exact ⟨hr,hp⟩

theorem run_leakActions (h : Start c) {as : List ActionForm} (hl : ActionForm.leaks as) :
    inTurn (runAction env) (leakActions as) c = (c,some .stops) ∧
    inTurn (passAction env) (leakActions as) c = (c,none) := by
  induction as with
  | nil => cases hl
  | cons a as ih =>
    obtain ⟨hr,hp⟩ := @run_root_brk env c h
    unfold leakActions
    split
    · rename_i ha
      rw [inTurn_cons_ends hr,inTurn_cons_goes hp]
      refine ⟨rfl,inTurn_idle (fun b hb => ?_)⟩
      obtain ⟨k,hk,rfl⟩ := List.mem_map.mp hb
      have hn := List.find?_eq_none.mp ha.2 k hk
      cases k with
      | addHeader => rfl
      | ret => exact absurd rfl hn
      | rewrite f => exact absurd rfl hn
      | set => exact absurd rfl hn
      | brk => exact absurd rfl hn
    · rename_i ha
      have hl' : a ≠ .ret ∧ a ≠ .brk ∧ ActionForm.leaks as := by
        unfold ActionForm.leaks at hl
        split at hl <;> grind [Option.isNone_iff_eq_none]
      obtain ⟨hq₁,hq₂⟩ := @inTurn_quietAction env c _ a h.vars hl'.1 hl'.2.1 (leakActions as)
      rw [hq₁,hq₂]
      exact ih hl'.2.2

/-- A rule with `break` after which a block has something to do takes effect. -/
def dirtyActions : List ActionForm → List IfAction
  | [] => []
  | a :: as =>
    if a = .rewrite .brk ∧ ActionForm.acts as then .rewrite (rootRule .brk) :: leadActions markAction as
    else quietAction a :: dirtyActions as

theorem actionForms_dirty (as : List ActionForm) : (dirtyActions as).map actionForm = as := by
  induction as with
  | nil => rfl
  | cons a as ih =>
    unfold dirtyActions
    split
    · rename_i ha
      rw [List.map_cons,actionForms_lead actionForm_mark,ha.1]
      rfl
    · rw [List.map_cons,actionForm_quiet,ih]

theorem run_dirtyActions (h : Start c) {as : List ActionForm} (hw : ¬ ActionForm.whole as) :
    inTurn (runAction env) (dirtyActions as) c = (c,some .stops) ∧
    MarksEnd (inTurn (passAction env) (dirtyActions as) c) := by
  induction as with
  | nil => exact absurd rfl hw
  | cons a as ih =>
    obtain ⟨hr,hp⟩ := @run_root_brk env c h
    unfold dirtyActions
    split
    · rename_i ha
      rw [inTurn_cons_ends hr,inTurn_cons_goes hp]
      exact ⟨rfl,pass_markActions h.vars ha.2⟩
    · rename_i ha
      have hw' : a ≠ .ret ∧ a ≠ .brk ∧ ¬ ActionForm.whole as := by
        unfold ActionForm.whole at hw
        split at hw <;> grind
      obtain ⟨hq₁,hq₂⟩ := @inTurn_quietAction env c _ a h.vars hw'.1 hw'.2.1 (dirtyActions as)
      rw [hq₁,hq₂]
      exact ih hw'.2.2

/-- Quiet actions reach the first `break`. -/
theorem run_quiet_halts (h : Vars x c) {as : List ActionForm} (hh : ActionForm.halts as) :
    inTurn (runAction env) (as.map quietAction) c = (c,some .stops) := by
  induction as with
  | nil => cases hh
  | cons a as ih =>
    by_cases hb : a = .brk
    · subst hb
      rfl
    · have hh' : a ≠ .ret ∧ ActionForm.halts as := by
        unfold ActionForm.halts at hh
        split at hh <;> grind
      rw [List.map_cons,(@inTurn_quietAction env c x a h hh'.1 hb _).1]
      exact ih hh'.2

/-- Not marked, whatever the variable. -/
structure Untouched (c : Ctx) : Prop where
  args : c.args = []
  vars : Vars [] c ∨ Vars [109] c

/-- A rule that would mark the request no longer does. -/
structure Spoiled (c : Ctx) : Prop where
  args : c.args = []
  vars : Vars [] c ∨ Vars [109] c ∧ c.uri ≠ [47]

theorem Spoiled.clean (h : Spoiled c) : Untouched c := ⟨h.args,h.vars.imp (fun hv => hv) And.left⟩

theorem Start.clean (h : Start c) : Untouched c := ⟨h.args,Or.inr h.vars⟩

/-- Ends the block, clears the variable, or leads away from `/`. -/
def spoilAction : ActionForm → IfAction
  | .ret => .ret 200 none
  | .rewrite f => .rewrite (divertRule f)
  | .set => .set [118] ⟨[]⟩
  | .addHeader => .addHeader ⟨[],⟨[]⟩,false⟩
  | .brk => .brk

theorem actionForm_spoil (a : ActionForm) : actionForm (spoilAction a) = a := by
  cases a with
  | ret => rfl
  | rewrite f => rfl
  | set => rfl
  | addHeader => rfl
  | brk => rfl

theorem run_quietActions_spoiled (h : Spoiled c) (as : List ActionForm) :
    Spoiled (inTurn (runAction env) (as.map quietAction) c).1 ∧
    Plain (inTurn (runAction env) (as.map quietAction) c).2 := by
  rcases h.vars with hv | ⟨hv,-⟩
  · obtain ⟨h₁,h₂,-⟩ := @inTurn_quietActions env c _ hv as
    rw [h₁]
    exact ⟨h,h₂⟩
  · obtain ⟨h₁,h₂,-⟩ := @inTurn_quietActions env c _ hv as
    rw [h₁]
    exact ⟨h,h₂⟩

theorem run_spoilActions (h : Start c) {as : List ActionForm} (hl : ActionForm.lead as ≠ none) :
    Untouched (inTurn (runAction env) (leadActions spoilAction as) c).1 ∧
    Plain (inTurn (runAction env) (leadActions spoilAction as) c).2 ∧
    ((inTurn (runAction env) (leadActions spoilAction as) c).2 = none →
      Spoiled (inTurn (runAction env) (leadActions spoilAction as) c).1) := by
  induction as with
  | nil => exact absurd rfl hl
  | cons a as ih =>
    cases a with
    | addHeader => exact ih hl
    | brk => exact ⟨h.clean,trivial,fun hn => nomatch hn⟩
    | ret =>
      refine ⟨h.clean,?_,fun hn => nomatch hn⟩
      change (returnReply env c 200 none).resp.status ≠ 418
      rw [returnReply_status]
      decide
    | set =>
      have hr : runAction env (spoilAction .set) c = (c.set [118] [],none) := rfl
      have hs : Spoiled (c.set [118] []) := ⟨h.args,Or.inl (h.vars.set_other [])⟩
      obtain ⟨h₁,h₂⟩ := @run_quietActions_spoiled env _ hs as
      have he : inTurn (runAction env) (leadActions spoilAction (.set :: as)) c =
          inTurn (runAction env) (as.map quietAction) (c.set [118] []) := inTurn_cons_goes hr
      rw [he]
      exact ⟨h₁.clean,h₂,fun _ => h₁⟩
    | rewrite f =>
      have hr : runAction env (spoilAction (.rewrite f)) c = hit f { c with captures := [] } [47,97] :=
        runRule_divert h.uri f
      obtain ⟨ha,hs,-⟩ := hit_args f { c with captures := [] } [47,97]
      have hp := hit_plain f { c with captures := [] } [47,97]
      have hu := @hit_uri { c with captures := [] } f [47,97]
      have hv : Vars [109] (hit f { c with captures := [] } [47,97]).1 := hs.trans h.vars
      have hc : (hit f { c with captures := [] } [47,97]).1.args = [] := ha.trans h.args
      change Untouched (inTurn (runAction env) (spoilAction (.rewrite f) :: as.map quietAction) c).1 ∧
        Plain (inTurn (runAction env) (spoilAction (.rewrite f) :: as.map quietAction) c).2 ∧
        ((inTurn (runAction env) (spoilAction (.rewrite f) :: as.map quietAction) c).2 = none →
          Spoiled (inTurn (runAction env) (spoilAction (.rewrite f) :: as.map quietAction) c).1)
      rcases hh : hit f { c with captures := [] } [47,97] with ⟨d,_ | e⟩
      · rw [hh] at hr hv hc hu
        have hs' : Spoiled d := ⟨hc,Or.inr ⟨hv,by rw [hu rfl]; decide⟩⟩
        obtain ⟨h₁,h₂⟩ := @run_quietActions_spoiled env d hs' as
        rw [inTurn_cons_goes hr]
        exact ⟨h₁.clean,h₂,fun _ => h₁⟩
      · rw [hh] at hr hv hc hp
        rw [inTurn_cons_ends hr]
        exact ⟨⟨hc,Or.inr hv⟩,hp,fun hn => nomatch hn⟩

/-- A request that a rule has marked is led no further. -/
structure Passed (c : Ctx) : Prop where
  args : c.args = [109]
  vars : ∃ x, Vars x c
  uri : c.uri ≠ [47]

theorem Passed.marks (h : Passed c) : Marks c := ⟨h.vars,Or.inl h.args⟩

theorem Passed.quiet (h : Passed c) (a : ActionForm) : Passed (passAction env (quietAction a) c).1 := by
  obtain ⟨x,hv⟩ := h.vars
  obtain ⟨h₁,-,-,h₂⟩ := @runAction_quiet env c x hv a
  rw [h₂,h₁]
  exact h

theorem Passed.spoil (h : Passed c) (a : ActionForm) : Passed (passAction env (spoilAction a) c).1 := by
  obtain ⟨x,hv⟩ := h.vars
  cases a with
  | ret => exact h
  | set => exact ⟨h.args,⟨_,hv.set_other []⟩,h.uri⟩
  | addHeader => exact h
  | brk => exact h
  | rewrite f =>
    have hr : runRule env (divertRule f) c = (c,none) := runRule_miss (if_neg h.uri)
    have hp := @passAction_rewrite env (divertRule f) c
    rw [hr] at hp
    change Passed (passAction env (.rewrite (divertRule f)) c).1
    rw [hp]
    exact h

theorem mem_leadActions {g : ActionForm → IfAction} {as : List ActionForm} {b : IfAction}
    (h : b ∈ leadActions g as) : ∃ a, b = quietAction a ∨ b = g a := by
  induction as with
  | nil => cases h
  | cons a as ih =>
    have hq : b ∈ g a :: as.map quietAction → ∃ a, b = quietAction a ∨ b = g a := by
      intro hb
      rcases List.mem_cons.mp hb with hb | hb
      · exact ⟨a,Or.inr hb⟩
      · obtain ⟨k,-,hk⟩ := List.mem_map.mp hb
        exact ⟨k,Or.inl hk.symm⟩
    cases a with
    | addHeader =>
      rcases List.mem_cons.mp h with hb | hb
      · exact ⟨.addHeader,Or.inl hb⟩
      · exact ih hb
    | ret => exact hq h
    | rewrite f => exact hq h
    | set => exact hq h
    | brk => exact hq h

end Live

end OxiServe.Server
