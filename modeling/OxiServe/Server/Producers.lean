import OxiServe.Server.Handler

/-! # What every reply is made from

Pages the server makes itself and file replies leave the framing open and hold
their body; a proxied or cached reply comes with the framing its producer chose.
The relation is kept by every stage of a routing pass and so by every run.
-/
namespace OxiServe.Server
open Config Response

/-- A body in memory or in a file. -/
def Body.isStored : Body → Bool
  | .empty | .bytes _ | .mmap _ | .inline _ _ _ | .file _ _ _ => true
  | .stream _ _ _ | .upgraded _ _ => false

/-- A reply with a stored body whose framing is still open. -/
structure Reply.Open (r : Reply) : Prop where
  framing : r.resp.framing = .none
  stored : r.body.isStored = true

/-- How a reply relates to what it was made from; the flag is set for `HEAD`. -/
def Producer.Makes (head : Bool) : Producer → Reply → Prop
  | .page, r => r.Open
  | .files, r => r.body.isStored = true ∧ (head = false → r.resp.framing = .none)
  | .cache e, r => r.resp.framing = .length e.body.length ∧ r.body = .bytes e.body
  | .upstream a, r => r.body.isUpgraded = true ∨
      ∃ resp, r.resp.framing = (frameAnswer resp a).resp.framing ∧ r.body = (frameAnswer resp a).body
  | .application s, r => r.resp.framing = .none ∧ r.body.isUpgraded = false ∧ r.body.streamed = s

def Step.Makes (head : Bool) : Step → Prop
  | .done r p => p.Makes head r
  | _ => True

/-- A step that answers, if it does, with a page of the server's own. -/
def Step.Local : Step → Prop
  | .done r p => p = .page ∧ r.Open
  | _ => True

theorem Step.Local.makes {s : Step} (h : s.Local) (head : Bool) : s.Makes head := by
  cases s with
  | done r p =>
    obtain ⟨rfl,ho⟩ := h
    exact ho
  | fail code => exact h
  | internal uri => exact h
  | named n => exact h

section Pages
variable {env : Env} {ctx : Ctx}

theorem errorBody_open {resp : Resp} {code : ℕ} (h : resp.framing = .none) :
    (errorBody ctx resp code).Open := by
  unfold errorBody
  split
  · exact ⟨h,rfl⟩
  · constructor
    · dsimp only
      split
      · exact h
      · exact h
    · rfl

theorem errorReply_open (ctx : Ctx) (code : ℕ) : (errorReply ctx code).Open := errorBody_open rfl

theorem redirect_open (code : ℕ) (target : Bytes) : (redirect ctx code target).Open := errorBody_open rfl

theorem returnReply_open (code : ℕ) (body : Option Template) : (returnReply env ctx code body).Open := by
  unfold returnReply
  dsimp only
  split
  · split
    · exact ⟨rfl,rfl⟩
    · exact ⟨rfl,rfl⟩
  · split
    · exact ⟨rfl,rfl⟩
    · split
      · exact ⟨rfl,rfl⟩
      · exact errorReply_open _ _

/-- A `return` or a redirect. -/
inductive IsPage (env : Env) : Reply → Prop
  | ret (ctx : Ctx) (code : ℕ) (body : Option Template) : IsPage env (returnReply env ctx code body)
  | redirect (ctx : Ctx) (code : ℕ) (target : Bytes) : code = 301 ∨ code = 302 → IsPage env (redirect ctx code target)

theorem IsPage.open {r : Reply} (h : IsPage env r) : r.Open := by
  cases h with
  | ret ctx code body => exact returnReply_open code body
  | redirect ctx code target _ => exact redirect_open code target

/-- A step that answers, if it does, with a `return` or a redirect. -/
def Step.FromPage (env : Env) : Step → Prop
  | .done r p => p = .page ∧ IsPage env r
  | _ => True

theorem Step.FromPage.local {s : Step} (h : s.FromPage env) : s.Local := by
  cases s with
  | done r p => exact ⟨h.1,h.2.open⟩
  | fail code => exact h
  | internal uri => exact h
  | named n => exact h

theorem runRewrites_fromPage {rs : List Rewrite} {s : Step} (h : (runRewrites env rs ctx).2 = some s) :
    s.FromPage env := by
  induction rs generalizing ctx with
  | nil => cases h
  | cons r rs ih =>
    simp only [runRewrites] at h
    split at h
    · exact ih h
    · split at h
      · cases h
        exact ⟨rfl,.redirect _ _ _ (.inr rfl)⟩
      · cases h
        exact ⟨rfl,.redirect _ _ _ (.inl rfl)⟩
      · split at h
        · cases h
          exact ⟨rfl,.redirect _ _ _ (.inr rfl)⟩
        · cases h
          trivial
      · split at h
        · cases h
          exact ⟨rfl,.redirect _ _ _ (.inr rfl)⟩
        · cases h
      · split at h
        · cases h
          exact ⟨rfl,.redirect _ _ _ (.inr rfl)⟩
        · exact ih h

theorem runActions_fromPage {as : List IfAction} {s : Step} (h : (runActions env as ctx).2 = .step s) :
    s.FromPage env := by
  induction as generalizing ctx with
  | nil => cases h
  | cons a as ih =>
    cases a with
    | ret status body =>
      cases h
      exact ⟨rfl,.ret _ _ _⟩
    | set name value => exact ih h
    | rewrite r =>
      have hr := @runRewrites_fromPage env ctx [r]
      simp only [runActions] at h
      split at h
      · rename_i heq
        rw [heq] at hr
        cases h
        exact hr rfl
      · exact ih h
    | addHeader f => exact ih h
    | brk => cases h

theorem runIfs_fromPage {bs : List IfBlock} {s : Step} (h : (runIfs env bs ctx).2 = some s) : s.FromPage env := by
  induction bs generalizing ctx with
  | nil => cases h
  | cons b bs ih =>
    have ha := @runActions_fromPage env ctx b.actions
    simp only [runIfs] at h
    split at h
    · split at h
      · rename_i heq
        rw [heq] at ha
        cases h
        exact ha rfl
      · cases h
      · exact ih h
    · exact ih h

theorem runTryFiles_fromPage {loc : Location} {tf : TryFiles} {s : Step}
    (h : (runTryFiles env ctx loc tf).2 = some s) : s.FromPage env := by
  unfold runTryFiles at h
  split at h
  · split at h
    · cases h
    · cases h
      trivial
  · split at h
    · cases h
      trivial
    · cases h
      trivial
    · cases h
      trivial

end Pages

section Content
variable {env : Env} {sub : Ctx → Reply} {ctx : Ctx}

theorem makeBody_stored {path : Bytes} {f : File} {start len : ℕ} {sendfile : Bool} :
    (makeBody env ctx path f start len sendfile).isStored = true := by
  unfold makeBody
  split
  · rfl
  · split
    · rfl
    · split
      · split
        · rfl
        · split
          · rfl
          · rfl
      · rfl

theorem fileReply_makes {core : CoreConf} {path : Bytes} {f : File} {resp : Resp} {start len : ℕ}
    (h : resp.framing = .none) :
    Producer.files.Makes (ctx.req.method == .head) (fileReply env ctx core path f resp start len) := by
  unfold fileReply
  split
  · rename_i hm
    refine ⟨rfl,?_⟩
    intro hh
    rw [hm] at hh
    cases hh
  · exact ⟨makeBody_stored,fun _ => h⟩

theorem serveFile_makes {core : CoreConf} {path : Bytes} {f : File} {size : ℕ} {mtime : Int} {r : Reply}
    (h : serveFile env ctx core path f size mtime = .ok r) :
    Producer.files.Makes (ctx.req.method == .head) r := by
  unfold serveFile at h
  split at h
  · cases h
  · dsimp only at h
    split at h
    · cases h
      exact ⟨rfl,fun _ => rfl⟩
    · split at h
      · cases h
        exact fileReply_makes rfl
      · cases h
        exact ⟨rfl,fun _ => rfl⟩
      · cases h
        exact fileReply_makes rfl

theorem serveDirectory_makes {core : CoreConf} {dir : Bytes} {r : Reply}
    (h : serveDirectory env ctx core dir = .reply r) : r.Open := by
  unfold serveDirectory at h
  split at h
  · cases h
  · split at h
    · unfold autoindex at h
      split at h
      · rename_i heq
        cases h
        split at heq
        · cases heq
        · cases heq
          exact ⟨rfl,rfl⟩
      · cases h
    · cases h

theorem serve_makes {loc : Option Location} :
    (servedToStep (serve env ctx loc).2).Makes (ctx.req.method == .head) := by
  have hopen : ∀ {r : Reply}, r.Open → Producer.files.Makes (ctx.req.method == .head) r :=
    fun ho => ⟨ho.stored,fun _ => ho.framing⟩
  unfold serve
  dsimp only
  split
  · trivial
  · split
    · exact hopen ⟨rfl,rfl⟩
    · dsimp only
      cases hs : serveDirectory env _ _ _ with
      | reply r => exact hopen (serveDirectory_makes hs)
      | internal uri => trivial
      | status c => trivial
  · split
    · rename_i heq
      exact serveFile_makes heq
    · trivial

theorem proxied_makes {loc : Location} {pp : ProxyPass} {c : Ctx} {r : Proxied}
    (h : proxy env ctx loc pp = (c,.ok r)) (head : Bool) : r.producer.Makes head r.reply := by
  cases r with
  | cached e => exact ⟨rfl,rfl⟩
  | answered a reply =>
    obtain ⟨d,hd⟩ := proxy_answered h
    unfold answerReply at hd
    split at hd
    · unfold switchProtocols at hd
      split at hd
      · cases hd
      · cases hd
        exact Or.inl rfl
    · cases hd
      exact Or.inr ⟨_,rfl,rfl⟩

theorem act_makes {loc : Location} : (act env ctx loc).2.Makes (ctx.req.method == .head) := by
  unfold act
  split
  · exact returnReply_open _ _
  · trivial
  · split
    · rename_i heq
      exact proxied_makes heq _
    · trivial
  · split
    · rename_i heq
      obtain ⟨hf,hu⟩ := fastcgi_reply heq
      exact ⟨hf,hu,rfl⟩
    · trivial
  · unfold statusPage
    split
    exact ⟨rfl,rfl⟩
  · exact serve_makes

/-- Rewrites and conditions leave the method alone, so the action sees it. -/
theorem content_makes {loc : Location} : (content env ctx loc).2.Makes (ctx.req.method == .head) := by
  have hact : ∀ c : Ctx, ctx.Keeps c → (act env c loc).2.Makes (ctx.req.method == .head) := by
    intro c hc
    rw [← hc.req]
    exact act_makes
  have hr := (@runRewrites_rephrased env ctx loc.rewrites).same.keeps
  have hrl := fun s => @runRewrites_fromPage env ctx loc.rewrites s
  unfold content
  split
  · rename_i heq
    rw [heq] at hrl
    exact (hrl _ rfl).local.makes _
  · rename_i c heq
    rw [heq] at hr
    have hi := (@runIfs_rephrased env c loc.ifs).same.keeps
    have hil := fun s => @runIfs_fromPage env c loc.ifs s
    split
    · rename_i heq
      rw [heq] at hil
      exact (hil _ rfl).local.makes _
    · rename_i d heq
      rw [heq] at hi
      split
      · exact hact d (hr.trans hi)
      · rename_i tf _
        have ht := (@runTryFiles_rephrased env d loc tf).same.keeps
        have htl := fun s => @runTryFiles_fromPage env d loc tf s
        split
        · rename_i heq
          rw [heq] at htl
          exact (htl _ rfl).local.makes _
        · rename_i heq
          rw [heq] at ht
          exact hact _ ((hr.trans hi).trans ht)

theorem dispatch_makes {loc : Location} {internal : Bool} :
    (dispatch env sub ctx loc internal).step.Makes (ctx.req.method == .head) := by
  have ha := (@authorise_rephrased env sub ctx loc.core).same.keeps
  unfold dispatch
  split
  · trivial
  · split
    · trivial
    · split
      · trivial
      · split
        · trivial
        · rename_i heq
          rw [heq] at ha
          rw [← ha.req]
          exact content_makes

theorem fallback_makes {internal : Bool} :
    (fallback env ctx internal).step.Makes (ctx.req.method == .head) := by
  have hs := @serve_makes env ctx none
  unfold fallback
  split
  · trivial
  · split
    · exact returnReply_open _ _
    · exact hs

theorem pass_makes (r : Routing) : (r.pass env sub).step.Makes (r.ctx.req.method == .head) := by
  unfold Routing.pass
  split
  · unfold route
    split
    · rename_i loc caps _
      exact @dispatch_makes env sub { r.ctx with captures := caps.getD r.ctx.captures, matched := some loc } loc
        r.internal
    · exact @fallback_makes env { r.ctx with matched := none } r.internal
  · split
    · rename_i loc _
      exact @dispatch_makes env sub { r.ctx with matched := some loc } loc true
    · trivial

end Content

section Runs
variable {env : Env} {sub : Ctx → Reply} {ctx : Ctx}

/-- The status is no part of the relation. -/
theorem Producer.Makes.withStatus {head : Bool} {p : Producer} {r : Reply} (h : p.Makes head r)
    (status : Option ℕ) : p.Makes head (withStatus r status) := by
  cases p with
  | page => exact ⟨h.framing,h.stored⟩
  | files => exact h
  | cache e => exact h
  | upstream a => exact h
  | application s => exact h

/-- What a pass ends with is what it produced, or a page. -/
theorem next_finished {r : Routing} {h : Handled} (hn : r.next env sub = .finished h) :
    h.producer.Makes (r.ctx.req.method == .head) h.made ∧
      (h.producer.isContent = true → ∃ reply, (r.pass env sub).step = .done reply h.producer) := by
  have hm := @pass_makes env sub r
  unfold Routing.next Routing.after at hn
  split at hn
  · rename_i reply producer heq
    rw [heq] at hm
    cases hn
    exact ⟨Producer.Makes.withStatus hm _,fun _ => ⟨reply,heq⟩⟩
  · cases hn
  · cases hn
  · split at hn
    · cases hn
    · cases hn
    · cases hn
      refine ⟨⟨rfl,rfl⟩,?_⟩
      intro hc
      cases hc
    · cases hn
      refine ⟨errorReply_open _ _,?_⟩
      intro hc
      cases hc

theorem run_makes {left : ℕ} {r : Routing} :
    (r.run env sub left).producer.Makes (r.ctx.req.method == .head) (r.run env sub left).made := by
  induction left generalizing r with
  | zero =>
    simp only [Routing.run]
    split
    · rename_i heq
      exact (next_finished heq).1
    · rename_i c _ _
      have ho : (Handled.error c 500).made.Open := errorReply_open c 500
      exact ho
  | succ left ih =>
    simp only [Routing.run]
    split
    · rename_i heq
      exact (next_finished heq).1
    · rename_i heq
      rw [← (next_same heq).keeps.req]
      exact ih

/-- Content leaves the loop only through one of its passes. -/
theorem run_content {left : ℕ} {r : Routing} (h : (r.run env sub left).producer.isContent = true) :
    ∃ s ∈ r.passes env sub left, ∃ reply, (s.pass env sub).step = .done reply (r.run env sub left).producer := by
  induction left generalizing r with
  | zero =>
    simp only [Routing.run,Routing.passes] at h ⊢
    split at h
    · rename_i heq
      exact ⟨r,List.mem_singleton.mpr rfl,(next_finished heq).2 h⟩
    · cases h
  | succ left ih =>
    simp only [Routing.run,Routing.passes] at h ⊢
    split at h
    · rename_i heq
      exact ⟨r,List.mem_singleton.mpr rfl,(next_finished heq).2 h⟩
    · obtain ⟨s,hs,hr⟩ := ih h
      exact ⟨s,List.mem_cons_of_mem _ hs,hr⟩

theorem finish_page {p : Ctx × Option Step} {c : Ctx} {h : Handled} (hl : ∀ s, p.2 = some s → s.Local)
    (hf : finish p = (c,some h)) : h.producer = .page ∧ h.made.Open := by
  rcases p with ⟨d,_ | s⟩
  · cases hf
  · have hs := hl s rfl
    cases s with
    | done r producer =>
      cases hf
      exact hs
    | fail code =>
      cases hf
      exact ⟨rfl,errorReply_open _ _⟩
    | internal uri => cases hf
    | named n => cases hf

/-- The server's own phase answers with pages only. -/
theorem serverPhase_page {c : Ctx} {h : Handled} (hp : serverPhase env ctx = (c,some h)) :
    h.producer = .page ∧ h.made.Open := by
  unfold serverPhase at hp
  split at hp
  · rename_i heq
    cases hp
    exact finish_page (fun s h => (runRewrites_fromPage h).local) heq
  · exact finish_page (fun s h => (runIfs_fromPage h).local) hp

/-- Every reply of the handler is one its producer makes. -/
theorem handleInner_makes :
    (handleInner env sub ctx).producer.Makes (ctx.req.method == .head) (handleInner env sub ctx).made := by
  have hk := (@serverPhase_rephrased env ctx).same.keeps
  unfold handleInner
  split
  · rename_i heq
    obtain ⟨h1,h2⟩ := serverPhase_page heq
    rw [h1]
    exact h2
  · rename_i c heq
    rw [heq] at hk
    rw [← hk.req]
    exact run_makes

end Runs

end OxiServe.Server
