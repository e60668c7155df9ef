import OxiServe.Lib.Counting
import OxiServe.Server.LimitConn
import Mathlib.Data.List.Basic

/-! # Guards are counted exactly

In every state that any interleaving of atomic steps reaches, the count of a
slot is the number of its live guards and its tag is theirs. The exchange that
makes a guard adds one to its slot, the exchange that ends it takes that one
back, and no other step writes.
-/
namespace OxiServe.LimitConn
open Runs

section Counting

theorem mem_of_set {α : Type*} {l : List α} {t : ℕ} {a b : α} (h : b ∈ l.set t a) : b ∈ l ∨ b = a :=
  List.mem_or_eq_of_mem_set h

end Counting

/-- Every slot counts its live guards, and they carry its tag. -/
structure Exact (s : State) : Prop where
  counts (i : ℕ) : countOf (s.words i) = s.liveOn i
  tags {k : Task} {tag i : ℕ} : k ∈ s.tasks → k.live = some (tag,i) → tagOf (s.words i) = tag

/-- What a step does to the guards and the words between `s` and `s'`. -/
structure Faithful (s s' : State) : Prop where
  gains {t tag i : ℕ} {k k' : Task} : s.tasks[t]? = some k → s'.tasks[t]? = some k' → k.live = none →
    k'.live = some (tag,i) → s'.words = write s.words i (pack tag (countOf (s.words i) + 1))
  loses {t tag i : ℕ} {k k' : Task} : s.tasks[t]? = some k → s'.tasks[t]? = some k' → k.live = some (tag,i) →
    k'.live = none → tagOf (s.words i) = tag ∧ 0 < countOf (s.words i) ∧
      s'.words = write s.words i (pack tag (countOf (s.words i) - 1))
  stays {t : ℕ} {k k' : Task} {g g' : ℕ × ℕ} : s.tasks[t]? = some k → s'.tasks[t]? = some k' →
    k.live = some g → k'.live = some g' → g' = g
  retains {i : ℕ} : 0 < s.liveOn i → tagOf (s'.words i) = tagOf (s.words i)

/-- Exactness with what the tasks carry along. -/
structure Balanced (s : State) : Prop extends Exact s where
  sound {k : Task} : k ∈ s.tasks → k.Sound

theorem balanced_new : Balanced State.new where
  counts _ := by simp [State.new,State.liveOn]
  tags h := by cases h
  sound h := by cases h

variable {z : Zone} {s s' : State}

theorem Balanced.live_pos (hb : Balanced s) {k : Task} {tag i : ℕ} (hk : k ∈ s.tasks)
    (hlive : k.live = some (tag,i)) : 0 < countOf (s.words i) := by
  rw [hb.counts]
  exact List.countP_pos_iff.mpr ⟨k,hk,by simp [hlive]⟩

/-- A step of one task, seen from the whole state. -/
theorem next_step_cases (hb : Balanced s) {t : ℕ} (h : z.next s (.step t) = some s') :
    ∃ k k', s.tasks[t]? = some k ∧ s'.tasks = s.tasks.set t k' ∧ z.advance s.words k = some (s'.words,k') ∧
      k'.Sound ∧ Moves s.words k s'.words k' := by
  simp only [Zone.next] at h
  cases hk : s.tasks[t]? with
  | none => simp [hk] at h
  | some k =>
    simp only [hk] at h
    obtain ⟨⟨words',k'⟩,hadv,hs'⟩ := Option.map_eq_some_iff.mp h
    cases hs'
    obtain ⟨hsound,hmoves⟩ := advance_cases (hb.sound (List.mem_of_getElem? hk)) hadv
    exact ⟨k,k',rfl,rfl,hadv,hsound,hmoves⟩

section Step
variable {t : ℕ} {k k' : Task}

theorem liveOn_step (hk : s.tasks[t]? = some k) (hset : s'.tasks = s.tasks.set t k') (i : ℕ) :
    s'.liveOn i + (if k.live.any (fun g => g.2 == i) then 1 else 0) =
      s.liveOn i + (if k'.live.any (fun g => g.2 == i) then 1 else 0) := by
  unfold State.liveOn
  rw [hset]
  exact countP_set _ k' hk

theorem counts_write {words : ℕ → ℕ} {i tag count : ℕ} (ht : tag < 2 ^ 48) (hc : count < 2 ^ 16) (j : ℕ) :
    countOf (write words i (pack tag count) j) = if j = i then count else countOf (words j) := by
  unfold write
  split
  · exact countOf_pack ht hc
  · rfl

theorem tags_write {words : ℕ → ℕ} {i tag count : ℕ} (ht : tag < 2 ^ 48) (hc : count < 2 ^ 16) (j : ℕ) :
    tagOf (write words i (pack tag count) j) = if j = i then tag else tagOf (words j) := by
  unfold write
  split
  · exact tagOf_pack ht hc
  · rfl

/-- On a slot with a live guard, a word written by a sound step keeps the tag. -/
theorem tags_keep {words : ℕ → ℕ} {i j tag count : ℕ} (ht : tag < 2 ^ 48) (hc : count < 2 ^ 16)
    (hsame : j = i → tagOf (words j) = tag) :
    tagOf (write words i (pack tag count) j) = tagOf (words j) := by
  rw [tags_write ht hc]
  split
  · next hj => exact (hsame hj).symm
  · rfl

/-- Only the task that steps can gain or lose a guard. -/
theorem faithful_set (hk : s.tasks[t]? = some k) (hset : s'.tasks = s.tasks.set t k')
    (hg : ∀ tag i, k.live = none → k'.live = some (tag,i) →
      s'.words = write s.words i (pack tag (countOf (s.words i) + 1)))
    (hl : ∀ tag i, k.live = some (tag,i) → k'.live = none → tagOf (s.words i) = tag ∧ 0 < countOf (s.words i) ∧
      s'.words = write s.words i (pack tag (countOf (s.words i) - 1)))
    (hs : ∀ g g', k.live = some g → k'.live = some g' → g' = g)
    (hr : ∀ i, 0 < s.liveOn i → tagOf (s'.words i) = tagOf (s.words i)) : Faithful s s' := by
  have hat {u : ℕ} {a b : Task} (ha : s.tasks[u]? = some a) (hu : s'.tasks[u]? = some b) :
      b = a ∨ a = k ∧ b = k' := by
    rw [hset] at hu
    by_cases hut : u = t
    · subst hut
      rw [List.getElem?_set_self (List.getElem?_eq_some_iff.mp hk).1] at hu
      exact .inr ⟨Option.some.inj (ha.symm.trans hk),(Option.some.inj hu).symm⟩
    · rw [List.getElem?_set_ne (Ne.symm hut),ha] at hu
      exact .inl (Option.some.inj hu).symm
  refine ⟨fun ha hb hna hsb => ?_,fun ha hb hsa hnb => ?_,fun ha hb hsa hsb => ?_,fun h => hr _ h⟩
  · rcases hat ha hb with rfl | ⟨rfl,rfl⟩
    · rw [hna] at hsb; cases hsb
    · exact hg _ _ hna hsb
  · rcases hat ha hb with rfl | ⟨rfl,rfl⟩
    · rw [hnb] at hsa; cases hsa
    · exact hl _ _ hsa hnb
  · rcases hat ha hb with rfl | ⟨rfl,rfl⟩
    · exact Option.some.inj (hsb.symm.trans hsa)
    · exact hs _ _ hsa hsb

theorem Balanced.quiet (hb : Balanced s) (hk : s.tasks[t]? = some k) (hset : s'.tasks = s.tasks.set t k')
    (hsound : k'.Sound) (hw : s'.words = s.words) (hlive : k'.live = k.live) : Balanced s' ∧ Faithful s s' := by
  have hmem := List.mem_of_getElem? hk
  refine ⟨⟨⟨fun i => ?_,fun ha hla => ?_⟩,fun ha => ?_⟩,faithful_set hk hset ?_ ?_ ?_ ?_⟩
  · have hstep := liveOn_step hk hset i
    have hcount := hb.counts i
    rw [hlive] at hstep
    rw [hw]
    omega
  · rw [hw]
    rw [hset] at ha
    rcases mem_of_set ha with hold | rfl
    · exact hb.tags hold hla
    · exact hb.tags hmem (hlive ▸ hla)
  · rw [hset] at ha
    rcases mem_of_set ha with hold | rfl
    · exact hb.sound hold
    · exact hsound
  · intro tag i hn hs
    rw [hlive,hn] at hs
    cases hs
  · intro tag i hs hn
    rw [hlive,hs] at hn
    cases hn
  · intro g g' hg hg'
    rw [hlive,hg] at hg'
    exact (Option.some.inj hg').symm
  · intro i _
    rw [hw]

/-- The word of one slot is rewritten: its count follows the guard the task gains
or loses, and its tag may change only while nobody holds a guard on it. -/
theorem Balanced.rewrite (hb : Balanced s) (hset : s'.tasks = s.tasks.set t k')
    (hsound : k'.Sound) {tag i count : ℕ} (ht : tag < 2 ^ 48) (hc : count < 2 ^ 16)
    (hw : s'.words = write s.words i (pack tag count)) (htag : tagOf (s.words i) = tag ∨ countOf (s.words i) = 0)
    (hlive : ∀ j, s'.liveOn j = if j = i then count else s.liveOn j)
    (hnew : ∀ g, k'.live = some g → g = (tag,i)) : Balanced s' ∧
      ∀ j, 0 < s.liveOn j → tagOf (s'.words j) = tagOf (s.words j) := by
  have hkeep {j : ℕ} (hpos : 0 < s.liveOn j) : tagOf (s'.words j) = tagOf (s.words j) := by
    rw [hw]
    refine tags_keep ht hc fun hj => ?_
    subst hj
    rcases htag with htag | hzero
    · exact htag
    · rw [← hb.counts,hzero] at hpos
      exact absurd hpos (Nat.lt_irrefl 0)
  refine ⟨⟨⟨fun j => ?_,fun {a ta j} ha hla => ?_⟩,fun ha => ?_⟩,fun j hpos => hkeep hpos⟩
  · rw [hw,counts_write ht hc,hlive j,hb.counts j]
  · rw [hset] at ha
    rcases mem_of_set ha with hold | rfl
    · rw [hkeep (by rw [← hb.counts]; exact hb.live_pos hold hla)]
      exact hb.tags hold hla
    · obtain ⟨rfl,rfl⟩ := Prod.mk.inj (hnew _ hla)
      rw [hw,write_same,tagOf_pack ht hc]
  · rw [hset] at ha
    rcases mem_of_set ha with hold | rfl
    · exact hb.sound hold
    · exact hsound

theorem Balanced.moves (hb : Balanced s) (hk : s.tasks[t]? = some k) (hset : s'.tasks = s.tasks.set t k')
    (hsound : k'.Sound) (hm : Moves s.words k s'.words k') : Balanced s' ∧ Faithful s s' := by
  have hmem := List.mem_of_getElem? hk
  generalize hwords : s'.words = words' at hm
  cases hm with
  | quiet hlive => exact hb.quiet hk hset hsound hwords hlive
  | @gain _ tag i hnone hsome ht htag hmask =>
    have hc : countOf (s.words i) + 1 < 2 ^ 16 := by
      unfold countMask countBits at hmask
      omega
    obtain ⟨hb',hr⟩ := hb.rewrite hset hsound ht hc hwords htag (fun j => by
      have hstep := liveOn_step hk hset j
      have hcount := hb.counts i
      simp only [hnone,hsome,Option.any_none,Option.any_some,beq_iff_eq] at hstep
      by_cases hj : j = i
      · subst hj; simp at hstep ⊢; omega
      · simp [Ne.symm hj,hj] at hstep ⊢; omega) (fun g hg => Option.some.inj (hg.symm.trans hsome))
    refine ⟨hb',faithful_set hk hset (fun ta j _ hs => ?_) (fun ta j hs _ => ?_) (fun g g' hg _ => ?_) hr⟩
    · rw [hsome] at hs
      obtain ⟨rfl,rfl⟩ := Prod.mk.inj (Option.some.inj hs)
      exact hwords
    · rw [hnone] at hs; cases hs
    · rw [hnone] at hg; cases hg
  | @lose _ tag i hsome hnone ht htag hpos =>
    have hc : countOf (s.words i) - 1 < 2 ^ 16 := by
      have hlt : countOf (s.words i) ≤ countMask := Nat.and_le_right
      unfold countMask countBits at hlt
      omega
    obtain ⟨hb',hr⟩ := hb.rewrite hset hsound ht hc hwords (.inl htag) (fun j => by
      have hstep := liveOn_step hk hset j
      have hcount := hb.counts i
      simp only [hnone,hsome,Option.any_none,Option.any_some,beq_iff_eq] at hstep
      by_cases hj : j = i
      · subst hj; simp at hstep ⊢; omega
      · simp [Ne.symm hj,hj] at hstep ⊢; omega) (fun g hg => by rw [hnone] at hg; cases hg)
    refine ⟨hb',faithful_set hk hset (fun ta j hn _ => ?_) (fun ta j hs _ => ?_) (fun g g' _ hg' => ?_) hr⟩
    · rw [hsome] at hn; cases hn
    · rw [hsome] at hs
      obtain ⟨rfl,rfl⟩ := Prod.mk.inj (Option.some.inj hs)
      exact ⟨htag,hpos,hwords⟩
    · rw [hnone] at hg'; cases hg'
  | @slip _ tag i hsome hnone hbad =>
    have htag := hb.tags hmem hsome
    have hpos := hb.live_pos hmem hsome
    rcases hbad with hne | hzero
    · exact absurd htag hne
    · exact absurd hzero (Nat.ne_of_gt hpos)

end Step

section Run

theorem Balanced.acquire (hb : Balanced s) {key : Bytes} {limit : ℕ} (h : z.next s (.acquire key limit) = some s') :
    Balanced s' ∧ Faithful s s' := by
  cases h
  have hlive (i : ℕ) : State.liveOn ⟨s.words,s.tasks ++ [onward (z.tag key) (min limit maxConns) 0 none]⟩ i =
      s.liveOn i := by
    unfold State.liveOn
    simp only [List.countP_append,List.countP_singleton,onward_live,Option.any_none]
    rfl
  have hat {u : ℕ} {a b : Task} (ha : s.tasks[u]? = some a)
      (hu : (s.tasks ++ [onward (z.tag key) (min limit maxConns) 0 none])[u]? = some b) : b = a := by
    rw [List.getElem?_append_left (List.getElem?_eq_some_iff.mp ha).1,ha] at hu
    exact (Option.some.inj hu).symm
  refine ⟨⟨⟨fun i => ?_,fun ha hla => ?_⟩,fun ha => ?_⟩,⟨?_,?_,?_,fun _ => rfl⟩⟩
  · rw [hlive]
    exact hb.counts i
  · rcases List.mem_append.mp ha with hold | hnew
    · exact hb.tags hold hla
    · rw [List.mem_singleton.mp hnew,onward_live] at hla
      cases hla
  · rcases List.mem_append.mp ha with hold | hnew
    · exact hb.sound hold
    · rw [List.mem_singleton.mp hnew]
      exact onward_sound _ _ _ (z.tag_lt key)
  · intro u tag i a b ha hu hn hs
    rw [hat ha hu,hn] at hs
    cases hs
  · intro u tag i a b ha hu hs hn
    rw [hat ha hu,hs] at hn
    cases hn
  · intro u a b g g' ha hu hg hg'
    rw [hat ha hu,hg] at hg'
    exact (Option.some.inj hg').symm

theorem Balanced.drop (hb : Balanced s) {t : ℕ} (h : z.next s (.drop t) = some s') : Balanced s' ∧ Faithful s s' := by
  simp only [Zone.next] at h
  cases hk : s.tasks[t]? with
  | none => simp [hk] at h
  | some k =>
    cases k with
    | held tag i =>
      simp only [hk] at h
      cases h
      have hsound := hb.sound (List.mem_of_getElem? hk)
      exact hb.quiet hk rfl hsound rfl rfl
    | _ => simp [hk] at h

theorem Balanced.next (hb : Balanced s) {e : Event} (h : z.next s e = some s') : Balanced s' ∧ Faithful s s' := by
  cases e with
  | acquire key limit => exact hb.acquire h
  | drop t => exact hb.drop h
  | step t =>
    obtain ⟨k,k',hk,hset,_,hsound,hmoves⟩ := next_step_cases hb h
    exact hb.moves hk hset hsound hmoves

theorem run_balanced {es : List Event} (hr : Runs (stepRel z.next) State.new es s) : Balanced s :=
  hr.invariant (I := fun _ => Balanced) balanced_new fun _ _ _ _ _ hb hn => (hb.next hn).1

/-- In every run the counts are the live guards, and every further step is faithful to them. -/
theorem run_exact (z : Zone) (es : List Event) (s : State) (hr : Runs (stepRel z.next) State.new es s) :
    Exact s ∧ ∀ e s', z.next s e = some s' → Faithful s s' :=
  ⟨(run_balanced hr).toExact,fun _ _ hn => ((run_balanced hr).next hn).2⟩

/-- Two requests for one key, of which the first ends while the second is counted. -/
def sampleEvents : List Event :=
  [.acquire (lit "k") 2,.acquire (lit "k") 2,.step 0,.step 1,.step 0,.step 1,.step 1,.drop 0,.step 0,.step 1,.step 0,
    .step 0,.step 0]

theorem sampleEvents_exact : ∃ s, Runs (stepRel (Zone.mk 1000 7).next) State.new sampleEvents s ∧
    s.liveFor ((Zone.mk 1000 7).tag (lit "k")) = 1 ∧
    (Exact s ∧ ∀ e s', (Zone.mk 1000 7).next s e = some s' → Faithful s s') := by
  have hrun : ((runList (Zone.mk 1000 7).next State.new sampleEvents).map
      fun s => s.liveFor ((Zone.mk 1000 7).tag (lit "k"))) = some 1 := by decide +kernel
  obtain ⟨s,hs,hlive⟩ := Option.map_eq_some_iff.mp hrun
  exact ⟨s,.of_runList hs,hlive,run_exact _ _ _ (.of_runList hs)⟩

end Run

end OxiServe.LimitConn
