import OxiServe.Server.ConnGuards
import Mathlib.Data.Set.Function

/-! # How many guards one key can hold

A key's limit is kept on the slot that carries its tag, so it bounds the live
guards exactly as long as the tag stands in one slot. Claims of empty slots
keep that up, because a probe passes only filled slots; a takeover does when no
other slot of the window carries the tag.
-/
namespace OxiServe.LimitConn
open Runs

section Table
variable (z : Zone) (limitOf : ℕ → ℕ) (words : ℕ → ℕ)

/-- No slot of the window of `tag` is empty. -/
def Full (tag : ℕ) : Prop := ∀ q < probe, words (z.slotAt tag q) ≠ 0

/-- Slot `i` is where a probe for `tag` can arrive. -/
def Placed (i tag : ℕ) : Prop := ∃ p < probe, i = z.slotAt tag p ∧ ∀ q < p, words (z.slotAt tag q) ≠ 0

/-- A probe for `tag` has gone past its first `p` positions. -/
def Passed (tag p : ℕ) : Prop :=
  ∀ q < p, words (z.slotAt tag q) ≠ 0 ∧ (tagOf (words (z.slotAt tag q)) = tag → Full z words tag)

/-- Every tag stands in one slot of its window, with a count within its limit. -/
structure Table : Prop where
  placed {i : ℕ} : words i ≠ 0 → Placed z words i (tagOf (words i))
  unique {i j : ℕ} : words i ≠ 0 → words j ≠ 0 → tagOf (words i) = tagOf (words j) → i = j
  bounded {i : ℕ} : words i ≠ 0 → countOf (words i) ≤ limitOf (tagOf (words i))

/-- What a step may store, so that the table keeps its shape. -/
inductive Stores : (ℕ → ℕ) → Prop
  | keep : Stores words
  | put {i tag count : ℕ} : 0 < tag → tag < 2 ^ 48 → count < 2 ^ 16 → count ≤ limitOf tag → Placed z words i tag →
      (∀ j, j ≠ i → words j ≠ 0 → tagOf (words j) ≠ tag) →
      (words i = 0 ∨ tagOf (words i) = tag ∨ Full z words tag) → Stores (write words i (pack tag count))

/-- What a task knows of the words. -/
def Task.Fits : Task → Prop
  | .probing tag limit p r => 0 < tag ∧ 0 < limit ∧ limit ≤ limitOf tag ∧ p < probe ∧ Passed z words tag p ∧
      ∀ i, r = some i → ∃ q < probe, i = z.slotAt tag q
  | .claiming tag limit p r => 0 < tag ∧ 0 < limit ∧ limit ≤ limitOf tag ∧ p < probe ∧ Passed z words tag p ∧
      ∀ i, r = some i → ∃ q < probe, i = z.slotAt tag q
  | .reloading tag i => 0 < tag ∧ 0 < limitOf tag ∧ Full z words tag ∧ ∃ q < probe, i = z.slotAt tag q
  | .takingOver tag i _ => 0 < tag ∧ 0 < limitOf tag ∧ Full z words tag ∧ ∃ q < probe, i = z.slotAt tag q
  | .counting tag limit i => 0 < tag ∧ limit ≤ limitOf tag ∧ words i ≠ 0
  | .bumping tag limit i _ => 0 < tag ∧ limit ≤ limitOf tag ∧ words i ≠ 0
  | .held tag _ => 0 < tag
  | .releasing tag _ => 0 < tag
  | .lowering tag _ _ => 0 < tag
  | .finished => True

variable {z limitOf words} {words' : ℕ → ℕ}

theorem pack_ne_zero {tag count : ℕ} (h0 : 0 < tag) (ht : tag < 2 ^ 48) (hc : count < 2 ^ 16) : pack tag count ≠ 0 := by
  intro hp
  have htag := tagOf_pack ht hc
  rw [hp,tagOf_zero] at htag
  omega

theorem Stores.filled (h : Stores z limitOf words words') {i : ℕ} (hi : words i ≠ 0) : words' i ≠ 0 := by
  cases h with
  | keep => exact hi
  | put h0 ht hc _ _ _ _ =>
    unfold write
    split
    · exact pack_ne_zero h0 ht hc
    · exact hi

theorem Stores.full (h : Stores z limitOf words words') {tag : ℕ} (hf : Full z words tag) : Full z words' tag :=
  fun q hq => h.filled (hf q hq)

theorem Stores.placed (h : Stores z limitOf words words') {i tag : ℕ} (hp : Placed z words i tag) :
    Placed z words' i tag := by
  obtain ⟨p,hp,hi,hq⟩ := hp
  exact ⟨p,hp,hi,fun q hlt => h.filled (hq q hlt)⟩

/-- A slot behind a probe takes the probe's tag only when the window is full. -/
theorem Stores.passed (h : Stores z limitOf words words') {tag p : ℕ} (hp : Passed z words tag p) :
    Passed z words' tag p := by
  intro q hq
  obtain ⟨hne,hfull⟩ := hp q hq
  refine ⟨h.filled hne,fun htag => ?_⟩
  cases h with
  | keep => exact hfull htag
  | @put i tag' count h0 ht hc hl hpl hu hcase =>
    have hs : Stores z limitOf words (write words i (pack tag' count)) := .put h0 ht hc hl hpl hu hcase
    rw [tags_write ht hc] at htag
    split at htag
    · next hi =>
      subst htag
      rcases hcase with hzero | hsame | hf
      · exact absurd (hi ▸ hzero) hne
      · exact hs.full (hfull (hi ▸ hsame))
      · exact hs.full hf
    · exact hs.full (hfull htag)

theorem Stores.table (h : Stores z limitOf words words') (ht : Table z limitOf words) : Table z limitOf words' := by
  have hs := h
  cases h with
  | keep => exact ht
  | @put i tag count h0 htag hc hl hpl hu hcase =>
    refine ⟨fun {j} hj => ?_,fun {j k} hj hk heq => ?_,fun {j} hj => ?_⟩
    · rw [tags_write htag hc]
      split
      · next hji => exact hs.placed (hji ▸ hpl)
      · next hji =>
        rw [write_other _ _ hji] at hj
        exact hs.placed (ht.placed hj)
    · rw [tags_write htag hc,tags_write htag hc] at heq
      split at heq <;> split at heq
      · next hji hki => rw [hji,hki]
      · next hki =>
        rw [write_other _ _ hki] at hk
        exact absurd heq.symm (hu k hki hk)
      · next hji _ =>
        rw [write_other _ _ hji] at hj
        exact absurd heq (hu j hji hj)
      · next hji hki =>
        rw [write_other _ _ hji] at hj
        rw [write_other _ _ hki] at hk
        exact ht.unique hj hk heq
    · rw [tags_write htag hc,counts_write htag hc]
      split
      · exact hl
      · next hji =>
        rw [write_other _ _ hji] at hj
        exact ht.bounded hj

theorem Stores.fits (h : Stores z limitOf words words') {k : Task} (hk : k.Fits z limitOf words) :
    k.Fits z limitOf words' := by
  cases k with
  | probing tag limit p r =>
    obtain ⟨h0,hpos,hl,hp,hpass,hr⟩ := hk
    exact ⟨h0,hpos,hl,hp,h.passed hpass,hr⟩
  | claiming tag limit p r =>
    obtain ⟨h0,hpos,hl,hp,hpass,hr⟩ := hk
    exact ⟨h0,hpos,hl,hp,h.passed hpass,hr⟩
  | reloading tag i =>
    obtain ⟨h0,hl,hf,hr⟩ := hk
    exact ⟨h0,hl,h.full hf,hr⟩
  | takingOver tag i w =>
    obtain ⟨h0,hl,hf,hr⟩ := hk
    exact ⟨h0,hl,h.full hf,hr⟩
  | counting tag limit i =>
    obtain ⟨h0,hl,hi⟩ := hk
    exact ⟨h0,hl,h.filled hi⟩
  | bumping tag limit i w =>
    obtain ⟨h0,hl,hi⟩ := hk
    exact ⟨h0,hl,h.filled hi⟩
  | held tag i => exact hk
  | releasing tag i => exact hk
  | lowering tag i w => exact hk
  | finished => trivial

end Table

section Advance
variable {z : Zone} {limitOf words words' : ℕ → ℕ} {k k' : Task}

/-- The exchange of a takeover of a slot while another slot of the window has the tag. -/
def Doubles (z : Zone) (words : ℕ → ℕ) : Task → Prop
  | .takingOver tag i w => words i = w ∧ ∃ p < probe, z.slotAt tag p ≠ i ∧ tagOf (words (z.slotAt tag p)) = tag
  | _ => False

theorem onward_fits {tag limit p : ℕ} {r : Option ℕ} (h0 : 0 < tag) (hpos : 0 < limit) (hl : limit ≤ limitOf tag)
    (hp : p ≤ probe) (hpass : Passed z words tag p) (hr : ∀ i, r = some i → ∃ q < probe, i = z.slotAt tag q) :
    (onward tag limit p r).Fits z limitOf words := by
  unfold onward
  split
  · next hlt => exact ⟨h0,hpos,hl,hlt,hpass,hr⟩
  · next hge =>
    cases r with
    | none => trivial
    | some i => exact ⟨h0,Nat.lt_of_lt_of_le hpos hl,fun q hq => (hpass q (by omega)).1,hr i rfl⟩

theorem Passed.succ {tag p : ℕ} (h : Passed z words tag p) (hne : words (z.slotAt tag p) ≠ 0)
    (htag : tagOf (words (z.slotAt tag p)) ≠ tag) : Passed z words tag (p + 1) := by
  intro q hq
  rcases Nat.lt_succ_iff_lt_or_eq.mp hq with hlt | rfl
  · exact h q hlt
  · exact ⟨hne,fun heq => absurd heq htag⟩

/-- A claimed slot is the only one with its tag: any other would have been met or filled the window. -/
theorem Table.claim (ht : Table z limitOf words) {tag p : ℕ} (hp : p < probe) (hpass : Passed z words tag p)
    (hzero : words (z.slotAt tag p) = 0) (j : ℕ) (hj : j ≠ z.slotAt tag p) (hne : words j ≠ 0) :
    tagOf (words j) ≠ tag := by
  rintro rfl
  obtain ⟨q,hq,hslot,hbefore⟩ := ht.placed hne
  rcases Nat.lt_trichotomy q p with hlt | rfl | hgt
  · obtain ⟨_,hfull⟩ := hpass q hlt
    rw [← hslot] at hfull
    exact hfull rfl p hp hzero
  · exact hj hslot
  · exact hbefore p hgt hzero

/-- One atomic step keeps the shape of the table, unless it doubles a tag. -/
theorem advance_fits (ht : Table z limitOf words) (hs : k.Sound) (hk : k.Fits z limitOf words)
    (hsole : ¬ Doubles z words k) (h : z.advance words k = some (words',k')) :
    Stores z limitOf words words' ∧ k'.Fits z limitOf words' := by
  cases k with
  | probing tag limit p r =>
    obtain ⟨h0,hpos,hl,hp,hpass,hr⟩ := hk
    simp only [Zone.advance] at h
    split at h
    · cases h; exact ⟨.keep,h0,hpos,hl,hp,hpass,hr⟩
    · next hne =>
      split at h
      · cases h; exact ⟨.keep,h0,hl,hne⟩
      · next htag =>
        cases h
        refine ⟨.keep,onward_fits h0 hpos hl hp (hpass.succ hne htag) fun i hi => ?_⟩
        split at hi
        · cases hi; exact ⟨p,hp,rfl⟩
        · exact hr i hi
  | claiming tag limit p r =>
    obtain ⟨h0,hpos,hl,hp,hpass,hr⟩ := hk
    simp only [Zone.advance] at h
    split at h
    · next hzero =>
      cases h
      exact ⟨.put h0 hs (by omega) (by omega) ⟨p,hp,rfl,fun q hq => (hpass q hq).1⟩ (ht.claim hp hpass hzero)
        (.inl hzero),h0⟩
    · next hne =>
      split at h
      · cases h; exact ⟨.keep,h0,hl,hne⟩
      · next htag =>
        cases h
        exact ⟨.keep,onward_fits h0 hpos hl hp (hpass.succ hne htag) hr⟩
  | reloading tag i =>
    simp only [Zone.advance] at h
    split at h
    · cases h; exact ⟨.keep,hk⟩
    · cases h; exact ⟨.keep,trivial⟩
  | takingOver tag i w =>
    obtain ⟨h0,hl,hf,q,hq,hi⟩ := hk
    simp only [Zone.advance] at h
    split at h
    · next hw =>
      cases h
      refine ⟨.put h0 hs.1 (by omega) hl ⟨q,hq,hi,fun a ha => hf a (by omega)⟩ (fun j hj hne htag => ?_)
        (.inr (.inr hf)),h0⟩
      obtain ⟨a,ha,hslot,_⟩ := ht.placed hne
      rw [htag] at hslot
      exact hsole ⟨hw,a,ha,by rw [← hslot]; exact hj,by rw [← hslot]; exact htag⟩
    · cases h; exact ⟨.keep,trivial⟩
  | counting tag limit i =>
    obtain ⟨h0,hl,hne⟩ := hk
    simp only [Zone.advance] at h
    split at h
    · cases h; exact ⟨.keep,trivial⟩
    · split at h
      · cases h; exact ⟨.keep,trivial⟩
      · cases h; exact ⟨.keep,h0,hl,hne⟩
  | bumping tag limit i w =>
    obtain ⟨h0,hl,hne⟩ := hk
    obtain ⟨h48,hcase,hlim,hmask⟩ := hs
    simp only [Zone.advance] at h
    split at h
    · next hw =>
      cases h
      subst hw
      have htag : tagOf (words i) = tag := hcase.resolve_left hne
      have hc : countOf (words i) + 1 < 2 ^ 16 := by
        unfold countMask countBits at hmask
        omega
      exact ⟨.put h0 h48 hc (by omega) (htag ▸ ht.placed hne)
        (fun j hj hjne heq => hj (ht.unique hjne hne (heq.trans htag.symm))) (.inr (.inl htag)),h0⟩
    · cases h; exact ⟨.keep,h0,hl,hne⟩
  | held tag i => cases h
  | releasing tag i =>
    simp only [Zone.advance] at h
    split at h
    · cases h; exact ⟨.keep,trivial⟩
    · cases h; exact ⟨.keep,hk⟩
  | lowering tag i w =>
    obtain ⟨h48,htag,hpos⟩ := hs
    have h0 : 0 < tag := hk
    simp only [Zone.advance] at h
    split at h
    · next hw =>
      cases h
      subst hw
      have hne : words i ≠ 0 := by
        intro hz
        rw [hz] at hpos
        exact Nat.lt_irrefl 0 hpos
      have hle : countOf (words i) ≤ countMask := Nat.and_le_right
      have hbound := ht.bounded hne
      rw [htag] at hbound
      have hc : countOf (words i) - 1 < 2 ^ 16 := by
        unfold countMask countBits at hle
        omega
      exact ⟨.put h0 h48 hc (by omega) (htag ▸ ht.placed hne)
        (fun j hj hjne heq => hj (ht.unique hjne hne (heq.trans htag.symm))) (.inr (.inl htag)),trivial⟩
    · cases h; exact ⟨.keep,h0⟩
  | finished => cases h

end Advance

section Admission
variable {z : Zone} {limitOf : ℕ → ℕ} {s s' : State}

structure Admitted (z : Zone) (limitOf : ℕ → ℕ) (s : State) : Prop where
  balanced : Balanced s
  table : Table z limitOf s.words
  fits {k : Task} : k ∈ s.tasks → k.Fits z limitOf s.words

theorem admitted_new : Admitted z limitOf State.new where
  balanced := balanced_new
  table := ⟨fun h => absurd rfl h,fun h _ _ => absurd rfl h,fun h => absurd rfl h⟩
  fits h := by cases h

/-- The next step is no takeover that puts a key's tag into a second slot. -/
def SoleTakeover (z : Zone) (s : State) : Event → Prop
  | .step t => ∀ k, s.tasks[t]? = some k → ¬ Doubles z s.words k
  | _ => True

instance (words : ℕ → ℕ) (k : Task) : Decidable (Doubles z words k) := by
  cases k <;> unfold Doubles <;> infer_instance

instance (e : Event) : Decidable (SoleTakeover z s e) :=
  match e with
  | .acquire _ _ => .isTrue trivial
  | .drop _ => .isTrue trivial
  | .step t => inferInstanceAs (Decidable (∀ k ∈ s.tasks[t]?, ¬ Doubles z s.words k))

/-- A call of `acquire` asks for at least one and at most the key's limit. -/
def WithinLimit (z : Zone) (limitOf : ℕ → ℕ) : Event → Prop
  | .acquire key limit => 0 < limit ∧ limit ≤ limitOf (z.tag key)
  | _ => True

theorem Admitted.next (ha : Admitted z limitOf s) {e : Event} (hw : WithinLimit z limitOf e) (hsole : SoleTakeover z s e)
    (h : z.next s e = some s') : Admitted z limitOf s' := by
  have hb := (ha.balanced.next h).1
  cases e with
  | acquire key limit =>
    cases h
    refine ⟨hb,ha.table,fun hk => ?_⟩
    rcases List.mem_append.mp hk with hold | hnew
    · exact ha.fits hold
    · rw [List.mem_singleton.mp hnew]
      exact onward_fits (z.tag_pos key) (Nat.lt_min.mpr ⟨hw.1,by decide⟩) ((Nat.min_le_left _ _).trans hw.2)
        (Nat.zero_le _) (fun q hq => absurd hq (Nat.not_lt_zero q)) (fun i hi => by cases hi)
  | drop t =>
    simp only [Zone.next] at h
    cases hk : s.tasks[t]? with
    | none => simp [hk] at h
    | some k =>
      cases k with
      | held tag i =>
        simp only [hk] at h
        cases h
        refine ⟨hb,ha.table,fun hmem => ?_⟩
        rcases mem_of_set hmem with hold | rfl
        · exact ha.fits hold
        · have hheld := ha.fits (List.mem_of_getElem? hk)
          exact hheld
      | _ => simp [hk] at h
  | step t =>
    obtain ⟨k,k',hk,hset,hadv,_,_⟩ := next_step_cases ha.balanced h
    have hmem := List.mem_of_getElem? hk
    obtain ⟨hstores,hfits⟩ := advance_fits ha.table (ha.balanced.sound hmem) (ha.fits hmem) (hsole k hk) hadv
    refine ⟨hb,hstores.table ha.table,fun hmem' => ?_⟩
    rw [hset] at hmem'
    rcases mem_of_set hmem' with hold | rfl
    · exact hstores.fits (ha.fits hold)
    · exact hfits

theorem Task.Fits.live_pos {words : ℕ → ℕ} {k : Task} {tag i : ℕ} (h : k.Fits z limitOf words)
    (hlive : k.live = some (tag,i)) : 0 < tag := by
  cases k <;> cases hlive <;> exact h

/-- The live guards of a tag are all on the slot that carries it. -/
theorem Admitted.liveFor_le (ha : Admitted z limitOf s) (tag : ℕ) : s.liveFor tag ≤ limitOf tag := by
  rcases Nat.eq_zero_or_pos (s.liveFor tag) with hzero | hpos
  · omega
  obtain ⟨k,hk,htest⟩ := List.countP_pos_iff.mp hpos
  obtain ⟨⟨ta,i⟩,hlive,heq⟩ := (Option.any_eq_true _ _).mp htest
  have hta : ta = tag := by simpa using heq
  subst hta
  have hat {a : Task} {j : ℕ} (hmem : a ∈ s.tasks) (hl : a.live = some (ta,j)) :
      s.words j ≠ 0 ∧ tagOf (s.words j) = ta := by
    have htag := ha.balanced.tags hmem hl
    refine ⟨fun hz => ?_,htag⟩
    rw [hz,tagOf_zero] at htag
    exact absurd ((ha.fits hmem).live_pos hl) (by omega)
  obtain ⟨hne,htag⟩ := hat hk hlive
  have hle : s.liveFor ta ≤ s.liveOn i := by
    refine List.countP_mono_left fun a hmem htrue => ?_
    obtain ⟨⟨tb,j⟩,hl,hb⟩ := (Option.any_eq_true _ _).mp htrue
    have htb : tb = ta := by simpa using hb
    subst htb
    obtain ⟨hjne,hjtag⟩ := hat hmem hl
    have hji : j = i := ha.table.unique hjne hne (hjtag.trans htag.symm)
    simp [hl,hji]
  have hcount := ha.balanced.counts i
  have hbound := ha.table.bounded hne
  rw [htag] at hbound
  omega

/-- The keys a run asks for. -/
def keysOf (es : List Event) : List Bytes :=
  es.filterMap fun e => match e with
    | .acquire key _ => some key
    | _ => none

theorem mem_keysOf {es : List Event} {key : Bytes} : key ∈ keysOf es ↔ ∃ limit, Event.acquire key limit ∈ es := by
  simp only [keysOf,List.mem_filterMap]
  constructor
  · rintro ⟨e,he,heq⟩
    cases e with
    | acquire key' limit => cases heq; exact ⟨limit,he⟩
    | drop t => cases heq
    | step t => cases heq
  · rintro ⟨limit,he⟩
    exact ⟨.acquire key limit,he,rfl⟩

theorem run_admittedFrom {es : List Event} (hr : Runs (guarded (stepRel z.next) (SoleTakeover z)) State.new es s)
    (hw : ∀ e ∈ es, WithinLimit z limitOf e) : Admitted z limitOf s := by
  induction hr with
  | nil => exact admitted_new
  | snoc _ hl ih =>
    exact (ih fun e he => hw e (List.mem_append_left _ he)).next (hw _ (by simp)) hl.1 hl.2

/-- In every run whose takeovers leave each tag in one slot, a key's live guards stay within its limit. -/
theorem run_admitted (z : Zone) (limit : Bytes → ℕ) (es : List Event) (s : State)
    (hdistinct : Set.InjOn z.tag {key | key ∈ keysOf es})
    (hlimit : ∀ key n, .acquire key n ∈ es → 0 < n ∧ n ≤ limit key)
    (hr : Runs (guarded (stepRel z.next) (SoleTakeover z)) State.new es s) (key : Bytes) (hkey : key ∈ keysOf es) :
    s.liveFor (z.tag key) ≤ limit key := by
  classical
  let limitOf : ℕ → ℕ := fun tag => if h : ∃ a ∈ keysOf es, z.tag a = tag then limit h.choose else 0
  have hof {a : Bytes} (ha : a ∈ keysOf es) : limitOf (z.tag a) = limit a := by
    have hex : ∃ b ∈ keysOf es, z.tag b = z.tag a := ⟨a,ha,rfl⟩
    have hsame : hex.choose = a := hdistinct hex.choose_spec.1 ha hex.choose_spec.2
    simp only [limitOf]
    rw [dif_pos hex,hsame]
  have hwithin : ∀ e ∈ es, WithinLimit z limitOf e := by
    intro e he
    cases e with
    | acquire a n =>
      obtain ⟨hpos,hle⟩ := hlimit a n he
      exact ⟨hpos,by rw [hof (mem_keysOf.mpr ⟨n,he⟩)]; exact hle⟩
    | drop t => trivial
    | step t => trivial
  have hbound := (run_admittedFrom hr hwithin).liveFor_le (z.tag key)
  rwa [hof hkey] at hbound

def asksOne : Event → Bool
  | .acquire _ n => n == 1
  | _ => true

/-- A zone of 64 slots in which the keys of `fillers` start where the window of `hotKey` has its slots. -/
def sampleZone : Zone := ⟨1,58⟩

def fillers : List Bytes := (lit "RtHCkpuWz5afNIDb").map fun b => [b]

def hotKey : Bytes := lit "o"

/-- Task `t` takes `n` steps. -/
def steps (t n : ℕ) : List Event := List.replicate n (.step t)

/-- The window is filled and slot 7 of it set free; a first request for the hot
key probes past the busy slot 3 before that one is free too, a second request
takes slot 3 and then the first takes slot 7. -/
def doubleTakeover : List Event :=
  (fillers.zipIdx.flatMap fun f => .acquire f.1 1 :: steps f.2 2) ++ .drop 7 :: steps 7 2 ++
    .acquire hotKey 1 :: steps 16 16 ++ .drop 3 :: steps 3 2 ++ .acquire hotKey 1 :: steps 17 18 ++ steps 16 2

/-- The same window, and one request that takes the free slot over. -/
def soleTakeover : List Event :=
  (fillers.zipIdx.flatMap fun f => .acquire f.1 1 :: steps f.2 2) ++ .drop 7 :: steps 7 2 ++
    .acquire hotKey 1 :: steps 16 18

theorem doubleTakeover_exceeds : ∃ s, Runs (stepRel sampleZone.next) State.new doubleTakeover s ∧
    Set.InjOn sampleZone.tag {key | key ∈ keysOf doubleTakeover} ∧
    (∀ key n, .acquire key n ∈ doubleTakeover → n = 1) ∧ hotKey ∈ keysOf doubleTakeover ∧
    s.liveFor (sampleZone.tag hotKey) = 2 := by
  have hrun : ((runList sampleZone.next State.new doubleTakeover).map
      fun s => s.liveFor (sampleZone.tag hotKey)) = some 2 := by decide +kernel
  obtain ⟨s,hs,hlive⟩ := Option.map_eq_some_iff.mp hrun
  have hinj : ∀ a ∈ keysOf doubleTakeover, ∀ b ∈ keysOf doubleTakeover,
      sampleZone.tag a = sampleZone.tag b → a = b := by decide +kernel
  have hone : ∀ e ∈ doubleTakeover, asksOne e = true := by decide +kernel
  exact ⟨s,.of_runList hs,fun a ha b hb => hinj a ha b hb,fun key n he => by simpa [asksOne] using hone _ he,
    by decide +kernel,hlive⟩

theorem soleTakeover_admitted : ∃ s, Runs (guarded (stepRel sampleZone.next) (SoleTakeover sampleZone)) State.new
      soleTakeover s ∧ 0 < s.liveFor (sampleZone.tag hotKey) ∧ s.liveFor (sampleZone.tag hotKey) ≤ 1 := by
  have hrun : ((runList (fun s e => if SoleTakeover sampleZone s e then sampleZone.next s e else none) State.new
      soleTakeover).map fun s => decide (0 < s.liveFor (sampleZone.tag hotKey))) = some true := by decide +kernel
  obtain ⟨s,hs,hlive⟩ := Option.map_eq_some_iff.mp hrun
  have hr := Runs.guarded_of_runList hs
  have hinj : ∀ a ∈ keysOf soleTakeover, ∀ b ∈ keysOf soleTakeover,
      sampleZone.tag a = sampleZone.tag b → a = b := by decide +kernel
  have hone : ∀ e ∈ soleTakeover, asksOne e = true := by decide +kernel
  exact ⟨s,hr,of_decide_eq_true hlive,run_admitted sampleZone (fun _ => 1) soleTakeover s
    (fun a ha b hb => hinj a ha b hb) (fun key n he => by
      have hn : n = 1 := by simpa [asksOne] using hone _ he
      subst hn
      exact ⟨Nat.one_pos,Nat.le_refl 1⟩) hr hotKey (by decide +kernel)⟩

end Admission

end OxiServe.LimitConn
