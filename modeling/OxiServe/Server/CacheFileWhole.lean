import OxiServe.Server.CacheFile

/-! # Readers of a cache file

What has been renamed into place is sealed: it is complete, it has no other name and nobody
has it open for writing. That holds as long as the threads of a process do not share a
temporary file, and then a reader gets what one store was called with.
-/
namespace OxiServe.Server.CacheFile
open Cache

section Invariant
variable {T P : Type} {proc : T → P} {key : Bytes} {s s' : State T P} {i : ℕ}

/-- A file that nobody can change any more. -/
structure Sealed (s : State T P) (i : ℕ) : Prop where
  lt : i < s.used
  given : s.files i ∈ s.given
  unnamed : ∀ p, s.temp p ≠ some i
  unwritten : ∀ t data off, s.phase t ≠ .writing data i off

structure Writers (proc : T → P) (s : State T P) : Prop where
  lt : ∀ p i, s.temp p = some i → i < s.used
  inj : ∀ p q i, s.temp p = some i → s.temp q = some i → p = q
  writing : ∀ t data i off, s.phase t = .writing data i off →
    i < s.used ∧ data ∈ s.given ∧ s.files i = data.take off
  named : ∀ t data i off, s.phase t = .writing data i off → ∀ p, s.temp p = some i → p = proc t
  names : ∀ t data i off, s.phase t = .writing data i off → ∀ j, s.temp (proc t) = some j → j = i
  apart : ∀ t u data data' i off off', s.phase t = .writing data i off → s.phase u = .writing data' i off' → t = u

/-- What a thread that reads has open is sealed. -/
def Good (s : State T P) : Phase → Prop
  | .reading i got => Sealed s i ∧ got <+: s.files i
  | .touching i len => Sealed s i ∧ len = (s.files i).length
  | _ => True

structure Readers (key : Bytes) (s : State T P) : Prop where
  entry : ∀ i, s.entry = some i → Sealed s i
  phases : ∀ t, Good s (s.phase t)
  whole : Whole key s

/-- No file is written or created, and no name or writer is new. -/
structure Quiet (s s' : State T P) : Prop where
  files : s'.files = s.files
  used : s'.used = s.used
  given : s'.given = s.given
  temp : ∀ p i, s'.temp p = some i → s.temp p = some i
  phase : ∀ t data i off, s'.phase t = .writing data i off → s.phase t = .writing data i off

theorem Sealed.quiet (h : Sealed s i) (q : Quiet s s') : Sealed s' i where
  lt := by
    rw [q.used]
    exact h.lt
  given := by
    rw [q.files,q.given]
    exact h.given
  unnamed p hp := h.unnamed p (q.temp p i hp)
  unwritten t data off hp := h.unwritten t data off (q.phase t data i off hp)

/-- Readers are well as long as sealed files stay sealed and as they are. -/
theorem Good.mono {ph : Phase} (h : Good s ph) (hk : ∀ j, Sealed s j → Sealed s' j ∧ s'.files j = s.files j) :
    Good s' ph := by
  cases ph with
  | reading i got =>
    obtain ⟨hs,hf⟩ := hk i h.1
    exact ⟨hs,hf ▸ h.2⟩
  | touching i len =>
    obtain ⟨hs,hf⟩ := hk i h.1
    exact ⟨hs,hf ▸ h.2⟩
  | idle => trivial
  | writing data i off => trivial
  | removing => trivial
  | loaded => trivial

theorem Good.quiet {ph : Phase} (h : Good s ph) (q : Quiet s s') : Good s' ph :=
  h.mono (fun _ hj => ⟨hj.quiet q,congrFun q.files _⟩)

theorem Writers.quiet (h : Writers proc s) (q : Quiet s s') : Writers proc s' where
  lt p i hp := by
    rw [q.used]
    exact h.lt p i (q.temp p i hp)
  inj p p' i hp hp' := h.inj p p' i (q.temp p i hp) (q.temp p' i hp')
  writing t data i off ht := by
    rw [q.used,q.given,q.files]
    exact h.writing t data i off (q.phase t data i off ht)
  named t data i off ht p hp := h.named t data i off (q.phase t data i off ht) p (q.temp p i hp)
  names t data i off ht j hj := h.names t data i off (q.phase t data i off ht) j (q.temp _ j hj)
  apart t u data data' i off off' ht hu :=
    h.apart t u data data' i off off' (q.phase t data i off ht) (q.phase u data' i off' hu)

theorem Readers.quiet (h : Readers key s) (q : Quiet s s') (he : ∀ i, s'.entry = some i → Sealed s i ∨ Sealed s' i)
    (hp : ∀ t, s'.phase t = s.phase t ∨ Good s' (s'.phase t))
    (hd : ∀ d ∈ s'.returned, d ∈ s.returned ∨ ∃ data ∈ s.given, decodeEntry data key = some (.ok d)) :
    Readers key s' where
  entry i hi := by
    rcases he i hi with hs | hs
    · exact hs.quiet q
    · exact hs
  phases t := by
    rcases hp t with ht | ht
    · rw [ht]
      exact (h.phases t).quiet q
    · exact ht
  whole d hm := by
    rw [q.given]
    rcases hd d hm with ho | hn
    · exact h.whole d ho
    · exact hn

/-- The invariant of the runs in which every writer is alone. -/
structure Inv (proc : T → P) (key : Bytes) (s : State T P) : Prop where
  writers : Writers proc s
  readers : Readers key s

theorem overwrite_take {data : Bytes} {off n : ℕ} (h : off + n ≤ data.length) :
    overwrite (data.take off) off ((data.drop off).take n) = data.take (off + n) := by
  have hl : (data.take off).length = off := by
    rw [List.length_take]
    omega
  unfold overwrite
  rw [hl,Nat.sub_self,List.replicate_zero,List.append_nil,List.take_take,Nat.min_self,
    List.take_add]
  have hd : (data.take off).drop (off + ((data.drop off).take n).length) = [] :=
    List.drop_eq_nil_of_le (by rw [hl]; exact Nat.le_add_right _ _)
  rw [hd,List.append_nil]

theorem resize_length (content : Bytes) : resize content content.length = content := by
  rw [resize,Nat.sub_self,List.replicate_zero,List.append_nil,List.take_length]

variable [DecidableEq T] [DecidableEq P]

omit [DecidableEq P] in
@[simp] theorem to_self (s : State T P) (t : T) (ph : Phase) : (s.to t ph).phase t = ph := by simp [State.to]

omit [DecidableEq P] in
theorem to_of_ne (s : State T P) {t u : T} (h : u ≠ t) (ph : Phase) : (s.to t ph).phase u = s.phase u := by
  simp [State.to,h]

omit [DecidableEq P] in
/-- One thread goes on to something else than writing. -/
theorem quiet_to (s : State T P) (t : T) {ph : Phase} (h : ∀ data i off, ph ≠ .writing data i off) :
    Quiet s (s.to t ph) where
  files := rfl
  used := rfl
  given := rfl
  temp p i hp := hp
  phase u data i off hu := by
    by_cases he : u = t
    · subst he
      exact absurd ((to_self s u ph).symm.trans hu) (h data i off)
    · exact (to_of_ne s he ph).symm.trans hu

omit [DecidableEq P] in
theorem phase_to (s : State T P) (t u : T) {ph : Phase} (h : Good s' ph) :
    (s.to t ph).phase u = s.phase u ∨ Good s' ((s.to t ph).phase u) := by
  by_cases he : u = t
  · subst he
    refine .inr ?_
    rw [to_self]
    exact h
  · exact .inl (to_of_ne s he ph)

omit [DecidableEq P] in
theorem Inv.to (h : Inv proc key s) (t : T) {ph : Phase} (hw : ∀ data i off, ph ≠ .writing data i off)
    (hg : Good s ph) : Inv proc key (s.to t ph) where
  writers := h.writers.quiet (quiet_to s t hw)
  readers := h.readers.quiet (quiet_to s t hw) (fun i hi => .inl (h.readers.entry i hi))
    (fun u => phase_to s t u (hg.quiet (quiet_to s t hw))) (fun _ hd => .inl hd)

omit [DecidableEq T] in
theorem Inv.removeTemp (h : Inv proc key s) (p : P) :
    Inv proc key { s with temp := Function.update s.temp p none } := by
  have q : Quiet s { s with temp := Function.update s.temp p none } := by
    refine ⟨rfl,rfl,rfl,fun r i hr => ?_,fun t data i off ht => ht⟩
    by_cases he : r = p
    · subst he
      cases (Function.update_self r none s.temp).symm.trans hr
    · exact (Function.update_of_ne he none s.temp).symm.trans hr
  exact ⟨h.writers.quiet q,h.readers.quiet q (fun i hi => .inl (h.readers.entry i hi)) (fun t => .inl rfl)
    (fun d hd => .inl hd)⟩

omit [DecidableEq T] [DecidableEq P] in
theorem Inv.removeEntry (h : Inv proc key s) : Inv proc key { s with entry := none } := by
  have q : Quiet s { s with entry := none } := ⟨rfl,rfl,rfl,fun _ _ hr => hr,fun _ _ _ _ ht => ht⟩
  exact ⟨h.writers.quiet q,h.readers.quiet q (fun i hi => nomatch hi) (fun t => .inl rfl) (fun d hd => .inl hd)⟩

omit [DecidableEq P] in
/-- What is decoded at the end of a sealed file is an entry that was stored. -/
theorem Inv.returned (h : Inv proc key s) {t : T} {got : Bytes} {d : Dated} (ht : s.phase t = .reading i got)
    (he : (s.files i).length ≤ got.length) (hd : decodeEntry got key = some (.ok d)) :
    Inv proc key { s.to t .loaded with returned := s.returned ++ [d] } := by
  have hg : Sealed s i ∧ got <+: s.files i := by
    have hg := h.readers.phases t
    rw [ht] at hg
    exact hg
  have hgot : got = s.files i := hg.2.eq_of_length_le he
  have q : Quiet s (s.to t .loaded) := quiet_to s t nofun
  have q' : Quiet s { s.to t .loaded with returned := s.returned ++ [d] } := ⟨rfl,rfl,rfl,q.temp,q.phase⟩
  refine ⟨h.writers.quiet q',h.readers.quiet q' (fun i hi => .inl (h.readers.entry i hi))
    (fun u => phase_to s t u trivial) (fun x hx => ?_)⟩
  rcases List.mem_append.mp hx with hx | hx
  · exact .inl hx
  · rw [List.mem_singleton] at hx
    subst hx
    exact .inr ⟨got,hgot ▸ hg.1.given,hd⟩

omit [DecidableEq P] in
theorem Inv.setLen (h : Inv proc key s) {t : T} {len : ℕ} (ht : s.phase t = .touching i len) :
    Inv proc key { s.to t .idle with files := Function.update s.files i (resize (s.files i) len) } := by
  have hlen : len = (s.files i).length := by
    have hg := h.readers.phases t
    rw [ht] at hg
    exact hg.2
  rw [hlen,resize_length,Function.update_eq_self]
  exact h.to t nofun trivial

/-- What was renamed into place is complete, and no one else's. -/
theorem Inv.rename (h : Inv proc key s) {t : T} {data : Bytes} {off j : ℕ} (ht : s.phase t = .writing data i off)
    (ho : off = data.length) (hj : s.temp (proc t) = some j) :
    Inv proc key { s with
      entry := some j
      temp := Function.update s.temp (proc t) none
      phase := Function.update s.phase t .idle } := by
  obtain rfl := h.writers.names t data i off ht j hj
  obtain ⟨hlt,hdata,hfile⟩ := h.writers.writing t data j off ht
  have q : Quiet s (s.to t .idle) := quiet_to s t nofun
  have htemp : ∀ p i, Function.update s.temp (proc t) none p = some i → p ≠ proc t ∧ s.temp p = some i := by
    intro p i hp
    by_cases he : p = proc t
    · subst he
      cases (Function.update_self (proc t) none s.temp).symm.trans hp
    · exact ⟨he,(Function.update_of_ne he none s.temp).symm.trans hp⟩
  have q' : Quiet s { s with
      entry := some j
      temp := Function.update s.temp (proc t) none
      phase := Function.update s.phase t .idle } := ⟨rfl,rfl,rfl,fun p i hp => (htemp p i hp).2,q.phase⟩
  refine ⟨h.writers.quiet q',h.readers.quiet q' (fun i hi => ?_) (fun u => phase_to s t u trivial)
    (fun d hd => .inl hd)⟩
  cases hi
  refine .inr ⟨hlt,?_,fun p hp => ?_,fun u data' off' hu => ?_⟩
  · rw [ho,List.take_length] at hfile
    exact hfile ▸ hdata
  · obtain ⟨hne,hp⟩ := htemp p j hp
    exact hne (h.writers.named t data j off ht p hp)
  · have hut := h.writers.apart t u data data' j off off' ht (q.phase u data' j off' hu)
    subst hut
    cases (to_self s t .idle).symm.trans hu

omit [DecidableEq P] in
/-- A thread that writes, or begins to. The others are at what they were at. -/
theorem writing_to {t u : T} {data data' : Bytes} {j off off' : ℕ}
    (hu : (s.to t (.writing data i off)).phase u = .writing data' j off') :
    (u = t ∧ data' = data ∧ j = i ∧ off' = off) ∨ (u ≠ t ∧ s.phase u = .writing data' j off') := by
  by_cases he : u = t
  · subst he
    cases (to_self s u _).symm.trans hu
    exact .inl ⟨rfl,rfl,rfl,rfl⟩
  · exact .inr ⟨he,(to_of_ne s he _).symm.trans hu⟩

omit [DecidableEq P] in
/-- The readers are not concerned by what happens to a file that is not sealed. -/
theorem Readers.open {t : T} {data : Bytes} {off used : ℕ} {content : Bytes} {temp : P → Option ℕ}
    {given : List Bytes} (h : Readers key s) (hi : ¬ Sealed s i) (hu : s.used ≤ used) (hg : ∀ x ∈ s.given, x ∈ given)
    (ht : ∀ p j, temp p = some j → s.temp p = some j ∨ j = i) :
    Readers key { s with
      files := Function.update s.files i content
      used := used
      temp := temp
      phase := Function.update s.phase t (.writing data i off)
      given := given } := by
  have hne : ∀ j, Sealed s j → j ≠ i := fun j hj he => hi (he ▸ hj)
  have hkept : ∀ j, Sealed s j → Sealed { s with
      files := Function.update s.files i content
      used := used
      temp := temp
      phase := Function.update s.phase t (.writing data i off)
      given := given } j ∧ Function.update s.files i content j = s.files j := by
    intro j hj
    have hf : Function.update s.files i content j = s.files j := Function.update_of_ne (hne j hj) _ _
    refine ⟨⟨hj.lt.trans_le hu,?_,fun p hp => ?_,fun u data' off' hw => ?_⟩,hf⟩
    · dsimp only
      rw [hf]
      exact hg _ hj.given
    · rcases ht p j hp with hp | rfl
      · exact hj.unnamed p hp
      · exact hi hj
    · rcases writing_to hw with ⟨-,-,rfl,-⟩ | ⟨-,hw⟩
      · exact hi hj
      · exact hj.unwritten u data' off' hw
  refine ⟨fun j hj => (hkept j (h.entry j hj)).1,fun u => ?_,fun d hd => ?_⟩
  · by_cases he : u = t
    · subst he
      simp [Good]
    · simp only [Function.update_of_ne he]
      exact (h.phases u).mono hkept
  · obtain ⟨x,hx,hdec⟩ := h.whole d hd
    exact ⟨x,hg x hx,hdec⟩

omit [DecidableEq P] in
/-- A writer that is alone adds to what it has written. -/
theorem Inv.write (h : Inv proc key s) {t : T} {data : Bytes} {off n : ℕ} (ht : s.phase t = .writing data i off)
    (hn : off + n ≤ data.length) :
    Inv proc key { s with
      files := Function.update s.files i (overwrite (s.files i) off ((data.drop off).take n))
      phase := Function.update s.phase t (.writing data i (off + n)) } := by
  obtain ⟨hlt,hdata,hfile⟩ := h.writers.writing t data i off ht
  rw [hfile,overwrite_take hn]
  -- every writer had the same file open before
  have hopen : ∀ u data' j off', (s.to t (.writing data i (off + n))).phase u = .writing data' j off' →
      ∃ off'', s.phase u = .writing data' j off'' := by
    intro u data' j off' hu
    rcases writing_to hu with ⟨rfl,rfl,rfl,-⟩ | ⟨-,hu⟩
    · exact ⟨off,ht⟩
    · exact ⟨off',hu⟩
  refine ⟨⟨h.writers.lt,h.writers.inj,?_,?_,?_,?_⟩,h.readers.open (fun hs => hs.unwritten t data off ht) le_rfl
    (fun _ hx => hx) (fun _ _ hp => .inl hp)⟩
  · intro u data' j off' hu
    rcases writing_to hu with ⟨rfl,rfl,rfl,rfl⟩ | ⟨hne,hu⟩
    · exact ⟨hlt,hdata,Function.update_self _ _ _⟩
    · have hji : j ≠ i := fun he => hne (h.writers.apart u t data' data i off' off (he ▸ hu) ht)
      obtain ⟨h1,h2,h3⟩ := h.writers.writing u data' j off' hu
      exact ⟨h1,h2,(Function.update_of_ne hji _ _).trans h3⟩
  · intro u data' j off' hu
    obtain ⟨off'',hu⟩ := hopen u data' j off' hu
    exact h.writers.named u data' j off'' hu
  · intro u data' j off' hu
    obtain ⟨off'',hu⟩ := hopen u data' j off' hu
    exact h.writers.names u data' j off'' hu
  · intro u v data' data'' j off' off'' hu hv
    obtain ⟨ou,hu⟩ := hopen u data' j off' hu
    obtain ⟨ov,hv⟩ := hopen v data'' j off'' hv
    exact h.writers.apart u v data' data'' j ou ov hu hv

/-- A writer comes to a process that has none. What it opens is new, or was left behind. -/
theorem Inv.create (h : Inv proc key s) {t : T} (data : Bytes)
    (ha : ∀ u, proc u = proc t → ∀ data i off, s.phase u ≠ .writing data i off)
    (hi : i = (s.temp (proc t)).getD s.used) :
    Inv proc key { s with
      files := Function.update s.files i []
      used := max s.used (i + 1)
      temp := Function.update s.temp (proc t) (some i)
      phase := Function.update s.phase t (.writing data i 0)
      given := s.given ++ [data] } := by
  have hname : s.temp (proc t) = some i ∨ i = s.used := by
    cases ht : s.temp (proc t) with
    | some j =>
      rw [ht] at hi
      exact .inl (congrArg some hi.symm)
    | none =>
      rw [ht] at hi
      exact .inr hi
  have hother : ∀ p, s.temp p = some i → p = proc t := by
    intro p hp
    rcases hname with hn | rfl
    · exact h.writers.inj p (proc t) i hp hn
    · exact absurd (h.writers.lt p _ hp) (lt_irrefl _)
  have hfree : ∀ u data' off', s.phase u ≠ .writing data' i off' := by
    intro u data' off' hu
    rcases hname with hn | rfl
    · exact ha u (h.writers.named u data' i off' hu _ hn).symm _ _ _ hu
    · exact absurd (h.writers.writing u data' _ off' hu).1 (lt_irrefl _)
  have htemp : ∀ p j, Function.update s.temp (proc t) (some i) p = some j →
      (p = proc t ∧ j = i) ∨ (p ≠ proc t ∧ s.temp p = some j) := by
    intro p j hp
    by_cases he : p = proc t
    · subst he
      cases (Function.update_self (proc t) (some i) s.temp).symm.trans hp
      exact .inl ⟨rfl,rfl⟩
    · exact .inr ⟨he,(Function.update_of_ne he (some i) s.temp).symm.trans hp⟩
  refine ⟨⟨?_,?_,?_,?_,?_,?_⟩,h.readers.open (fun hs => ?_) (le_max_left _ _) (fun _ hx => List.mem_append_left _ hx)
    (fun p j hp => ?_)⟩
  · intro p j hp
    rcases htemp p j hp with ⟨-,rfl⟩ | ⟨-,hp⟩
    · exact Nat.lt_of_lt_of_le (Nat.lt_succ_self _) (le_max_right _ _)
    · exact (h.writers.lt p j hp).trans_le (le_max_left _ _)
  · intro p q j hp hq
    rcases htemp p j hp with ⟨rfl,rfl⟩ | ⟨-,hp'⟩
    · rcases htemp q j hq with ⟨rfl,-⟩ | ⟨-,hq'⟩
      · rfl
      · exact (hother q hq').symm
    · rcases htemp q j hq with ⟨rfl,rfl⟩ | ⟨-,hq'⟩
      · exact hother p hp'
      · exact h.writers.inj p q j hp' hq'
  · intro u data' j off' hu
    rcases writing_to hu with ⟨rfl,rfl,rfl,rfl⟩ | ⟨-,hu⟩
    · exact ⟨Nat.lt_of_lt_of_le (Nat.lt_succ_self _) (le_max_right _ _),
        List.mem_append_right _ (List.mem_singleton_self _),Function.update_self _ _ _⟩
    · have hji : j ≠ i := fun he => hfree u data' off' (he ▸ hu)
      obtain ⟨h1,h2,h3⟩ := h.writers.writing u data' j off' hu
      exact ⟨h1.trans_le (le_max_left _ _),List.mem_append_left _ h2,(Function.update_of_ne hji _ _).trans h3⟩
  · intro u data' j off' hu p hp
    rcases writing_to hu with ⟨rfl,-,rfl,-⟩ | ⟨-,hu'⟩
    · rcases htemp p j hp with ⟨rfl,-⟩ | ⟨-,hp'⟩
      · rfl
      · exact hother p hp'
    · rcases htemp p j hp with ⟨-,rfl⟩ | ⟨-,hp'⟩
      · exact absurd hu' (hfree u data' off')
      · exact h.writers.named u data' j off' hu' p hp'
  · intro u data' j off' hu k hk
    rcases writing_to hu with ⟨rfl,-,rfl,-⟩ | ⟨-,hu⟩
    · rcases htemp (proc u) k hk with ⟨-,rfl⟩ | ⟨hne,-⟩
      · rfl
      · exact absurd rfl hne
    · rcases htemp (proc u) k hk with ⟨he,-⟩ | ⟨-,hk⟩
      · exact absurd hu (ha u he data' j off')
      · exact h.writers.names u data' j off' hu k hk
  · intro u v data' data'' j off' off'' hu hv
    rcases writing_to hu with ⟨rfl,-,rfl,-⟩ | ⟨-,hu'⟩
    · rcases writing_to hv with ⟨rfl,-⟩ | ⟨-,hv'⟩
      · rfl
      · exact absurd hv' (hfree v data'' off'')
    · rcases writing_to hv with ⟨rfl,-,rfl,-⟩ | ⟨-,hv'⟩
      · exact absurd hu' (hfree u data' off')
      · exact h.writers.apart u v data' data'' j off' off'' hu' hv'
  · rcases hname with hn | rfl
    · exact hs.unnamed _ hn
    · exact absurd hs.lt (lt_irrefl _)
  · rcases htemp p j hp with ⟨-,rfl⟩ | ⟨-,hp⟩
    · exact .inr rfl
    · exact .inl hp

omit [DecidableEq T] [DecidableEq P] in
theorem inv_init : Inv proc key (State.init : State T P) where
  writers := ⟨nofun,nofun,nofun,nofun,nofun,nofun⟩
  readers := ⟨nofun,fun _ => trivial,nofun⟩

/-- Every step of the threads and of the manager keeps the invariant, as long as writers are
alone. -/
theorem inv_step {a : Act T P} (h : Inv proc key s) (ha : Alone proc s a) (hs : step proc key s a = some s') :
    Inv proc key s' := by
  cases a with
  | create t data =>
    simp only [step,Option.ite_none_right_eq_some,Option.some.injEq] at hs
    obtain ⟨-,rfl⟩ := hs
    refine h.create data (fun u hu data' i off hw => ?_) rfl
    have hno := ha u hu
    rw [hw] at hno
    cases hno
  | write t n =>
    unfold step at hs
    dsimp only at hs
    cases hp : s.phase t with
    | writing data i off =>
      rw [hp] at hs
      simp only [Option.ite_none_right_eq_some,Option.some.injEq] at hs
      obtain ⟨⟨-,hn⟩,rfl⟩ := hs
      exact h.write hp hn
    | _ => simp [hp] at hs
  | fail t =>
    unfold step at hs
    dsimp only at hs
    cases hp : s.phase t with
    | writing data i off =>
      rw [hp] at hs
      cases hs
      exact h.to t nofun trivial
    | _ => simp [hp] at hs
  | rename t =>
    unfold step at hs
    dsimp only at hs
    cases hp : s.phase t with
    | writing data i off =>
      rw [hp] at hs
      simp only [Option.ite_none_right_eq_some] at hs
      obtain ⟨ho,hs⟩ := hs
      cases hj : s.temp (proc t) with
      | some j =>
        rw [hj] at hs
        cases hs
        exact h.rename hp ho hj
      | none =>
        rw [hj] at hs
        cases hs
        exact h.to t nofun trivial
    | _ => simp [hp] at hs
  | openEntry t =>
    simp only [step,Option.ite_none_right_eq_some] at hs
    obtain ⟨-,hs⟩ := hs
    cases he : s.entry with
    | some i =>
      rw [he] at hs
      cases hs
      exact h.to t nofun ⟨h.readers.entry i he,List.nil_prefix⟩
    | none =>
      rw [he] at hs
      cases hs
      exact h
  | read t n =>
    unfold step at hs
    dsimp only at hs
    cases hp : s.phase t with
    | reading i got =>
      rw [hp] at hs
      simp only [Option.ite_none_right_eq_some,Option.some.injEq] at hs
      obtain ⟨-,rfl⟩ := hs
      obtain ⟨hsealed,rest,hrest⟩ : Sealed s i ∧ got <+: s.files i := by
        have hg := h.readers.phases t
        rw [hp] at hg
        exact hg
      refine h.to t nofun ⟨hsealed,?_⟩
      rw [← hrest,List.drop_left]
      exact (List.prefix_append_right_inj got).mpr (List.take_prefix _ _)
    | _ => simp [hp] at hs
  | decode t =>
    unfold step at hs
    dsimp only at hs
    cases hp : s.phase t with
    | reading i got =>
      rw [hp] at hs
      simp only [Option.ite_none_right_eq_some] at hs
      obtain ⟨he,hs⟩ := hs
      obtain ⟨r,hr⟩ := decodeEntry_some got key
      rw [hr] at hs
      cases r with
      | ok d =>
        cases hs
        exact h.returned hp he hr
      | error e =>
        cases hs
        exact h.to t nofun trivial
    | _ => simp [hp] at hs
  | remove t =>
    simp only [step,Option.ite_none_right_eq_some,Option.some.injEq] at hs
    obtain ⟨-,rfl⟩ := hs
    have hto : Inv proc key (s.to t .idle) := h.to t nofun trivial
    exact hto.removeEntry
  | touch t stale =>
    simp only [step,Option.ite_none_right_eq_some] at hs
    obtain ⟨-,hs⟩ := hs
    cases he : s.entry with
    | some i =>
      rw [he] at hs
      dsimp only at hs
      cases stale with
      | true =>
        cases hs
        exact h.to t nofun ⟨h.readers.entry i he,rfl⟩
      | false =>
        cases hs
        exact h.to t nofun trivial
    | none =>
      rw [he] at hs
      cases hs
      exact h.to t nofun trivial
  | setLen t =>
    unfold step at hs
    dsimp only at hs
    cases hp : s.phase t with
    | touching i len =>
      rw [hp] at hs
      cases hs
      exact h.setLen hp
    | _ => simp [hp] at hs
  | removeTemp p =>
    cases hs
    exact h.removeTemp p
  | removeEntry =>
    cases hs
    exact h.removeEntry

/-- However the threads of any processes and the manager interleave, a load returns nothing
but what one store was called with, as long as the threads of a process do not write the
file at the same time. -/
theorem whole_of_alone {acts : List (Act T P)} (h : Runs (Runs.guarded (stepRel (step proc key)) (Alone proc))
    (State.init : State T P) acts s) : Whole key s := by
  refine (h.invariant (I := fun _ s => Inv proc key s) inv_init ?_).readers.whole
  rintro ks u a v - hu ⟨ha,hv⟩
  exact inv_step hu ha hv

end Invariant

section Threads

def keyK : Bytes := [107]

def entryOf (body : Bytes) : Bytes := encodeEntry 0 keyK 200 [] body 60000

/-- A thread stores an entry and loads it. -/
def storedThenLoaded : List (Act Bool Unit) :=
  [.create false (entryOf [97,98]),.write false 40,.rename false,.openEntry false,.read false 40,.decode false]

/-- The second thread opens the file of the first, which completes it and renames it. All but
the last byte of the second entry are written when the file is read. -/
def overlapping : List (Act Bool Unit) :=
  [.create false (entryOf [97,98]),.create true (entryOf [99,100]),.write false 40,.rename false,.write true 39,
    .openEntry false,.read false 40,.decode false]

def reached (acts : List (Act Bool Unit)) : State Bool Unit :=
  (runList (step (fun _ => ()) keyK) .init acts).getD .init

theorem storedThenLoaded_whole : Whole keyK (reached storedThenLoaded) := by
  have hs : (runList (fun s a => if Alone (fun _ => ()) s a then step (fun _ => ()) keyK s a else none)
      (State.init : State Bool Unit) storedThenLoaded).isSome = true := by decide +kernel
  obtain ⟨s,hs⟩ := Option.isSome_iff_exists.mp hs
  have hr := Runs.guarded_of_runList hs
  have he : reached storedThenLoaded = s := by
    rw [reached,hr.forget.runList_eq]
    rfl
  exact he ▸ whole_of_alone hr

example : (reached storedThenLoaded).returned.map (fun d => d.body) = [[97,98]] := by decide +kernel

theorem overlapping_mixes : ¬ ∀ (acts : List (Act Bool Unit)) (s : State Bool Unit),
    Runs (stepRel (step (fun _ => ()) keyK)) .init acts s → Whole keyK s := by
  intro h
  have hs : (runList (step (fun _ => ()) keyK) (State.init : State Bool Unit) overlapping).isSome = true := by
    decide +kernel
  have hw := h overlapping (reached overlapping) (.of_isSome hs)
  have hd : ∃ d ∈ (reached overlapping).returned, ∀ data ∈ (reached overlapping).given,
      decodeEntry data keyK ≠ some (.ok d) := by decide +kernel
  obtain ⟨d,hd,hno⟩ := hd
  obtain ⟨data,hdata,he⟩ := hw d hd
  exact hno data hdata he

end Threads

end OxiServe.Server.CacheFile
