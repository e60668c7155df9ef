import OxiServe.Server.CacheStore

/-! # What is answered from the cache

Whatever the order of requests, a page answered from the cache is one that an
earlier request kept under the same key. It is the full representation of that key
as long as only such answers are kept, which the directives do not see to.
-/
namespace OxiServe.Server.Cache
open Config Response

section Served
variable {env : Env} {sub : Ctx → Reply} {ctx c : Ctx} {loc : Location} {pp : ProxyPass} {e : Decoded}

/-- A page the cache has given to a request. -/
def Found (env : Env) (ctx : Ctx) (cc : CacheCtx) (e : Decoded) : Prop :=
  (∃ st, env.cacheLoad ctx.clock cc.zone cc.key = some (e,st)) ∨ env.cacheWait ctx.clock cc.zone cc.key = some e

end Served

section Kept
variable {Path : Type} [DecidableEq Path]

/-- An answer that stands for the whole of its key, whoever asked for it, and
that the directives name or that is kept by default. -/
structure Visit.Keepable (v : Visit) (a : Answer) : Prop where
  notPartial : answerStatus a ≠ 206
  notUnmodified : answerStatus a ≠ 304
  complete : a.fields.len = some a.pre.length
  allowed : ∃ d ∈ v.valid, d.Keeps (answerStatus a)

/-- The page is the full representation of `key` that a request of the run has kept. -/
def Represents (ls : List (Act Path)) (key : Bytes) (p : Decoded) : Prop :=
  ∃ v uses now k ctx a, Act.store v uses now ∈ ls ∧ v.keeps uses = some k ∧ k.key = key ∧
    v.answer = some (ctx,a) ∧ v.Keepable a ∧ p.status = answerStatus a ∧ p.body = a.pre

/-- What an answer has to be where the directives cover its status: neither a part
nor an empty confirmation, of a status that they mean to keep, without bytes past
its length, and such that its entry fits the length fields. -/
structure Visit.Harmless (v : Visit) (cc : CacheCtx) (ctx : Ctx) (a : Answer) : Prop where
  notPartial : answerStatus a ≠ 206
  notUnmodified : answerStatus a ≠ 304
  meant : ∃ d ∈ v.valid, d.Keeps (answerStatus a)
  noMore : ∀ n, a.fields.len = some n → a.pre.length ≤ n
  status : answerStatus a < 2 ^ 16
  fits : Fits cc.key (Visit.page ctx a).headers a.pre

/-- The end of a fetch whose answer is harmless, if it is covered at all. -/
def Act.Sound : Act Path → Prop
  | .store v _ _ => ∀ cc ctx a, cacheContext v.env v.ctx v.loc = some cc → v.answer = some (ctx,a) →
      (∃ d ∈ v.valid, d.Covers (answerStatus a)) → v.Harmless cc ctx a
  | _ => True

/-- Every page the run has found or could find represents its key. -/
structure AllWhole (ls : List (Act Path)) (files : KeyMap Path Bytes) : Prop where
  files : ∀ p buf key d, files.get? p = some buf → decodeEntry buf key = some (.ok d) →
    Represents ls key d.toDecoded
  found : ∀ zone key now e st, Act.load zone key now (some (e,st)) ∈ ls → Represents ls key e

variable {pathOf : Bytes → Bytes → Path} {ls ks : List (Act Path)} {files : KeyMap Path Bytes} {l : Act Path}

omit [DecidableEq Path] in
theorem Represents.mono {key : Bytes} {p : Decoded} (h : Represents ls key p) (hs : ls ⊆ ks) : Represents ks key p := by
  obtain ⟨v,uses,now,k,ctx,a,hm,hr⟩ := h
  exact ⟨v,uses,now,k,ctx,a,hs hm,hr⟩

theorem load_some {p : Path} {key : Bytes} {now : ℕ} {e : Decoded} {st : CacheStatus}
    (h : load files p key now = some (e,st)) :
    ∃ buf d, files.get? p = some buf ∧ decodeEntry buf key = some (.ok d) ∧ d.toDecoded = e := by
  unfold load at h
  split at h
  · cases h
  · rename_i buf hb
    split at h
    · rename_i d hd
      cases h
      exact ⟨buf,d,hb,hd,rfl⟩
    · cases h

theorem mapM_covers {ds : List Directive} {vs : List CacheValid} {v : CacheValid} {status : ℕ}
    (h : ds.mapM cacheValid = .ok vs) (hv : v ∈ vs) (hs : status ∈ v.codes ∨ v.codes = []) :
    ∃ d ∈ ds, d.Covers status := by
  induction ds generalizing vs with
  | nil =>
    cases h
    cases hv
  | cons d ds ih =>
    rw [List.mapM_cons] at h
    obtain ⟨w,hw,h⟩ := bind_ok.mp h
    obtain ⟨ws,hws,h⟩ := bind_ok.mp h
    cases h
    rcases List.mem_cons.mp hv with rfl | hv
    · exact ⟨d,List.mem_cons_self,covers_of_valid hw hs⟩
    · obtain ⟨d',hd,hc⟩ := ih hws hv
      exact ⟨d',List.mem_cons_of_mem _ hd,hc⟩

theorem cacheableTtl_some {cc : CacheCtx} {status uses ttl : ℕ} {env : Env} {ctx : Ctx}
    (h : cacheableTtl env ctx cc status uses = some ttl) :
    ∃ v ∈ cc.conf.valid, status ∈ v.codes ∨ v.codes = [] := by
  unfold cacheableTtl at h
  split at h
  · cases h
  · split at h
    · cases h
    · obtain ⟨v,hv,-⟩ := Option.map_eq_some_iff.mp h
      rcases Option.or_eq_some_iff.mp hv with hf | ⟨-,hf⟩
      · exact ⟨v,List.mem_of_find?_eq_some hf,.inl (by simpa using List.find?_some hf)⟩
      · exact ⟨v,List.mem_of_find?_eq_some hf,.inr (by simpa using List.find?_some hf)⟩

/-- Only an answer that the directives cover is written, and not before as many
bytes as its length says have come. -/
theorem keeps_some {v : Visit} {uses : ℕ} {k : Kept} (h : v.keeps uses = some k) :
    ∃ cc ctx a n, cacheContext v.env v.ctx v.loc = some cc ∧ v.answer = some (ctx,a) ∧ k.key = cc.key ∧
      k.page = Visit.page ctx a ∧ a.fields.len = some n ∧ n ≤ a.pre.length ∧
      ∃ d ∈ v.valid, d.Covers (answerStatus a) := by
  unfold Visit.keeps at h
  split at h
  · rename_i cc ctx a hcc ha
    split at h
    · cases h
    · split at h
      · cases h
      · rename_i ttl httl
        split at h
        · cases h
        · split at h
          · cases h
          · rename_i n hn
            split at h
            · rename_i hle
              cases h
              obtain ⟨w,hw,hs⟩ := cacheableTtl_some httl
              rw [(cacheContext_some hcc).1] at hw
              exact ⟨cc,ctx,a,n,hcc,ha,rfl,rfl,hn,Nat.le_of_sub_eq_zero hle,mapM_covers v.parsed hw hs⟩
            · cases h
  · cases h

/-- What is written of a harmless answer is keepable. -/
theorem Visit.Harmless.keepable {v : Visit} {cc : CacheCtx} {ctx : Ctx} {a : Answer} {n : ℕ}
    (h : v.Harmless cc ctx a) (hn : a.fields.len = some n) (hl : n ≤ a.pre.length) : v.Keepable a where
  notPartial := h.notPartial
  notUnmodified := h.notUnmodified
  complete := by rw [hn,Nat.le_antisymm hl (h.noMore n hn)]
  allowed := h.meant

theorem get?_of_retain {f : Path → Bytes → Bool} {p : Path} {buf : Bytes} (h : (files.retain f).get? p = some buf) :
    files.get? p = some buf := by
  rw [KeyMap.get?_retain] at h
  exact (Option.filter_eq_some_iff.mp h).1

theorem get?_of_afterLoad {q p : Path} {key buf : Bytes} (h : (afterLoad files q key).get? p = some buf) :
    files.get? p = some buf := by
  unfold afterLoad at h
  split at h
  · exact h
  · split at h
    · exact h
    · exact get?_of_retain h

theorem AllWhole.grow {files' : KeyMap Path Bytes} (h : AllWhole ls files)
    (hg : ∀ p buf, files'.get? p = some buf → files.get? p = some buf)
    (hf : ∀ zone key now e st, l = .load zone key now (some (e,st)) → Represents ls key e) :
    AllWhole (ls ++ [l]) files' where
  files := fun p buf key d hp hd => (h.files p buf key d (hg p buf hp) hd).mono (List.subset_append_left _ _)
  found := by
    intro zone key now e st hm
    rcases List.mem_append.mp hm with hm | hm
    · exact (h.found zone key now e st hm).mono (List.subset_append_left _ _)
    · exact (hf zone key now e st (List.mem_singleton.mp hm).symm).mono (List.subset_append_left _ _)

theorem AllWhole.step {files' : KeyMap Path Bytes} (h : AllWhole ls files) (hs : l.Sound)
    (hn : next pathOf files l = some files') : AllWhole (ls ++ [l]) files' := by
  cases l with
  | load zone key now found =>
    simp only [next] at hn
    split at hn
    · rename_i hl
      cases hn
      refine h.grow (fun p buf hp => get?_of_afterLoad hp) ?_
      intro zone' key' now' e st he
      cases he
      obtain ⟨buf,d,hb,hd,rfl⟩ := load_some hl.symm
      exact h.files _ buf key d hb hd
    · cases hn
  | remove p =>
    cases hn
    exact h.grow (fun q buf hq => get?_of_retain hq) (fun _ _ _ _ _ he => nomatch he)
  | store v uses now =>
    simp only [next] at hn
    split at hn
    · cases hn
      exact h.grow (fun p buf hp => hp) (fun _ _ _ _ _ he => nomatch he)
    · rename_i k hk
      cases hn
      refine ⟨?_,?_⟩
      · intro p buf key d hp hd
        rw [KeyMap.get?_insert] at hp
        split at hp
        · cases hp
          obtain ⟨cc,ctx,a,n,hcc,ha,hkey,hpage,hn,hl,hcov⟩ := keeps_some hk
          have hh : v.Harmless cc ctx a := hs cc ctx a hcc ha hcov
          have hfits : Fits k.key k.page.headers k.page.body := by
            rw [hkey,hpage]
            exact hh.fits
          obtain ⟨rfl,rfl⟩ := hfits.decodeEntry_iff.mp hd
          have hst : answerStatus a % 256 ^ 2 = answerStatus a := Nat.mod_eq_of_lt hh.status
          refine ⟨v,uses,now,k,ctx,a,by simp,hk,rfl,ha,hh.keepable hn hl,?_,?_⟩
          · rw [hpage]
            exact hst
          · rw [hpage]
            rfl
        · exact (h.files p buf key d hp hd).mono (List.subset_append_left _ _)
      · intro zone key now' e st hm
        rcases List.mem_append.mp hm with hm | hm
        · exact (h.found zone key now' e st hm).mono (List.subset_append_left _ _)
        · cases List.mem_singleton.mp hm

end Kept

section Example

/-- The head of an upstream's answer of two bytes. -/
def replyHead (code : ℕ) : Bytes := lit "HTTP/1.1 " ++ decimal code ++ lit " X\r\nContent-Length: 2\r\n\r\n"

/-- An upstream that answers everything with the same two bytes. -/
def answering (code : ℕ) : Env :=
  { Env.idle with
    peer := fun _ _ _ => ⟨true,true,true,true,[.data (replyHead code ++ lit "ab")],false,false⟩
    parseResponse := fun _ =>
      .ok (some ⟨(replyHead code).length,some code,[(lit "Content-Length",lit "2")]⟩) }

def rangeHead : Bytes := lit "GET / HTTP/1.1\r\nRange: bytes=0-1\r\n\r\n"

end Example

end OxiServe.Server.Cache
