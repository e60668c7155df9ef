import OxiServe.Http2.FlowControl

/-! # The bound on send windows

No window may pass 2^31-1. WINDOW_UPDATE is checked against the bound before it is
stored, and so is the value SETTINGS give the initial window; the difference that
SETTINGS add to the windows of the streams in the table is not.
-/
namespace OxiServe.Http2
open Conn Runs

/-- A pair that SETTINGS are refused for. -/
def badPair (p : ℕ × ℕ) : Bool :=
  if p.1 = Setting.initialWindowSize then maxWindow < p.2
  else if p.1 = Setting.maxFrameSize then p.2 < defaultMaxFrame || maxFrameLimit < p.2
  else p.1 = Setting.enablePush && 1 < p.2

/-- SETTINGS that end the connection. -/
def Conn.refusesSettings (c : Conn) (f : Frame) : Bool :=
  defaultMaxFrame < f.head.len || c.expectContinuation.isSome || f.head.stream ≠ 0 || f.head.len % 6 ≠ 0 ||
    (settingsPairs f.payload).any badPair

/-- The initial window as SETTINGS leave it. -/
def Conn.newInitial (c : Conn) (f : Frame) : ℤ :=
  (settingsPairs f.payload).foldl (fun w p => if p.1 = Setting.initialWindowSize then (p.2 : ℤ) else w)
    c.peerInitialWindow

/-- SETTINGS that are taken leave room in the window of every stream in the table. -/
def Conn.shiftsWithin (c : Conn) (f : Frame) : Prop :=
  f.head.kind = Kind.settings → f.head.has Flag.ack = false → c.refusesSettings f = false →
    ∀ e ∈ c.streams.entries, (c.flows e.1).window + (c.newInitial f - c.peerInitialWindow) ≤ maxWindow

instance (c : Conn) (f : Frame) : Decidable (c.shiftsWithin f) := by unfold Conn.shiftsWithin; infer_instance

def Sys.shiftsWithin (s : Sys) : Act → Prop
  | .frame f _ => s.conn.shiftsWithin f
  | _ => True

instance (s : Sys) (a : Act) : Decidable (s.shiftsWithin a) := by unfold Sys.shiftsWithin; cases a <;> infer_instance

/-- Every window is within the bound. -/
structure Conn.Bounded (c : Conn) : Prop where
  conn : c.connWindow ≤ maxWindow
  initial : c.peerInitialWindow ≤ maxWindow
  streams : ∀ i, (c.flows i).window ≤ maxWindow

section Settings
variable {c d : Conn} {f : Frame} {ps : List (ℕ × ℕ)} {p : ℕ × ℕ}

theorem applySetting_good (c : Conn) (h : badPair p = false) : (c.applySetting p.1 p.2).2 = none := by
  unfold badPair at h
  unfold applySetting
  split
  · rename_i hp
    rw [if_pos hp] at h
    rw [if_neg (by simpa using h)]
  rename_i hw
  rw [if_neg hw] at h
  split
  · rename_i hp
    rw [if_pos hp] at h
    rw [if_neg (by simpa using h)]
  rename_i hm
  rw [if_neg hm] at h
  split
  · rename_i hp
    rw [if_neg (by simpa [hp] using h)]
  split <;> rfl

theorem applySetting_bad (c : Conn) (h : badPair p = true) : ∃ e, c.applySetting p.1 p.2 = (c,some e) := by
  unfold badPair at h
  unfold applySetting
  split
  · rename_i hp
    rw [if_pos hp] at h
    exact ⟨_,if_pos (by simpa using h)⟩
  rename_i hw
  rw [if_neg hw] at h
  split
  · rename_i hp
    rw [if_pos hp] at h
    exact ⟨_,if_pos (by simpa using h)⟩
  rename_i hm
  rw [if_neg hm] at h
  have hb : p.1 = Setting.enablePush ∧ 1 < p.2 := by simpa using h
  rw [if_pos hb.1,if_pos hb.2]
  exact ⟨_,rfl⟩

theorem applySettings_good (c : Conn) (qs : List (ℕ × ℕ)) (h : ∀ p ∈ ps, badPair p = false) :
    c.applySettings (ps ++ qs) = (c.applySettings ps).1.applySettings qs ∧ (c.applySettings ps).2 = none := by
  induction ps generalizing c with
  | nil => exact ⟨rfl,rfl⟩
  | cons p ps ih =>
    have hp := applySetting_good c (h p List.mem_cons_self)
    rcases ha : c.applySetting p.1 p.2 with ⟨d,e⟩
    rw [ha] at hp
    have he : e = none := hp
    subst he
    simp only [List.cons_append,applySettings,ha]
    exact ih d (fun q hq => h q (List.mem_cons_of_mem _ hq))

theorem applySettings_refused (c : Conn) (h : ps.any badPair = true) : ∃ e, (c.applySettings ps).2 = some e := by
  induction ps generalizing c with
  | nil => simp at h
  | cons p ps ih =>
    by_cases hp : badPair p = true
    · obtain ⟨e,he⟩ := applySetting_bad c hp
      exact ⟨e,by simp only [applySettings,he]⟩
    · have hgood := applySetting_good c (by simpa using hp)
      rcases ha : c.applySetting p.1 p.2 with ⟨d,e⟩
      rw [ha] at hgood
      have he : e = none := hgood
      subst he
      obtain ⟨e,he⟩ := ih d (by simpa [hp] using h)
      exact ⟨e,by simp only [applySettings,ha,he]⟩

/-- Also where a later pair is refused, the value kept is one that was checked. -/
theorem initial_applySettings (h : c.peerInitialWindow ≤ maxWindow) (ps : List (ℕ × ℕ)) :
    (c.applySettings ps).1.peerInitialWindow ≤ maxWindow := by
  induction ps generalizing c with
  | nil => exact h
  | cons p ps ih =>
    have hone : (c.applySetting p.1 p.2).1.peerInitialWindow ≤ maxWindow := by
      unfold applySetting
      split
      · split
        · exact h
        · rename_i hle
          exact Int.not_lt.mp hle
      · repeat' split
        all_goals exact h
    rcases ha : c.applySetting p.1 p.2 with ⟨d,e⟩
    rw [ha] at hone
    cases e with
    | none =>
      simp only [applySettings,ha]
      exact ih hone
    | some e =>
      simp only [applySettings,ha]
      exact hone

/-- What a SETTINGS frame in its place comes to. -/
theorem onSettings_bound (hb : c.Bounded) (hs : f.head.kind = Kind.settings) (hlen : f.head.len ≤ defaultMaxFrame)
    (he : c.expectContinuation = none) : (c.onSettings f).1.Bounded ↔ c.shiftsWithin f := by
  have hkeep : (c.refusesSettings f = true ∨ f.head.has Flag.ack = true) → c.shiftsWithin f := by
    intro h _ ha hr
    rcases h with h | h
    · rw [h] at hr
      cases hr
    · rw [h] at ha
      cases ha
  have hpoor : ¬ defaultMaxFrame < f.head.len := by omega
  unfold onSettings
  split
  · rename_i h
    exact ⟨fun _ => hkeep (Or.inl (by simp [refusesSettings,h])),fun _ => hb⟩
  rename_i hstream
  split
  · rename_i ha
    split
    · exact ⟨fun _ => hkeep (Or.inr ha),fun _ => hb⟩
    · exact ⟨fun _ => hkeep (Or.inr ha),fun _ => hb⟩
  rename_i hack
  split
  · rename_i h
    exact ⟨fun _ => hkeep (Or.inl (by simp [refusesSettings,h])),fun _ => hb⟩
  rename_i hsix
  have hinit := initial_applySettings hb.initial (settingsPairs f.payload)
  by_cases hany : (settingsPairs f.payload).any badPair = true
  · obtain ⟨e,hr⟩ := applySettings_refused c hany
    rcases ha : c.applySettings (settingsPairs f.payload) with ⟨d,r⟩
    rw [ha] at hr hinit
    have hr : r = some e := hr
    subst hr
    obtain ⟨dec,mf,w,rfl⟩ := applySettings_eq ha
    exact ⟨fun _ => hkeep (Or.inl (by simp [refusesSettings,hany])),fun _ => ⟨hb.conn,hinit,hb.streams⟩⟩
  · have hgood : ∀ p ∈ settingsPairs f.payload, badPair p = false := by simpa using hany
    have hnone := (applySettings_good c [] hgood).2
    rcases ha : c.applySettings (settingsPairs f.payload) with ⟨d,r⟩
    rw [ha] at hnone hinit
    have hr : r = none := hnone
    subst hr
    have hnew : d.peerInitialWindow = c.newInitial f := (applySettings_values ha).1
    obtain ⟨dec,mf,w,rfl⟩ := applySettings_eq ha
    have hnew : w = c.newInitial f := hnew
    have htaken : c.refusesSettings f = false := by
      simp only [ne_eq,not_not] at hstream hsix
      simp only [refusesSettings,hpoor,he,hstream,hsix,hany]
      rfl
    constructor
    · intro h _ _ _ e hmem
      have hw := h.streams e.1
      have hget : c.streams.get? e.1 = some e.2 := KeyMap.get?_eq_some_iff.mpr hmem
      simpa [shiftWindows,emit,hget,hnew] using hw
    · intro h
      refine ⟨hb.conn,hinit,fun i => ?_⟩
      simp only [shiftWindows,emit,hnew]
      split
      · rename_i hsome
        obtain ⟨st,hst⟩ := Option.isSome_iff_exists.mp hsome
        exact h hs (by simpa using hack) htaken (i,st) (KeyMap.get?_eq_some_iff.mp hst)
      · exact hb.streams i

end Settings

section Frames
variable {c d : Conn} {f : Frame}

theorem Conn.Bounded.level (h : c.Bounded) (hl : Level c d) : d.Bounded where
  conn := by
    rw [hl.conn]
    exact h.conn
  initial := by
    rw [hl.initial]
    exact h.initial
  streams := by
    intro i
    rw [hl.windows]
    exact h.streams i

theorem onWindowUpdate_bound (hb : c.Bounded) : (c.onWindowUpdate f).1.Bounded := by
  unfold onWindowUpdate
  split
  · exact hb
  split
  · exact hb
  split
  · split
    · exact hb
    · exact hb.level (.moves (Moves.resetStream _ _ _))
  split
  · split
    · exact hb
    · rename_i hle
      exact ⟨Int.not_lt.mp hle,hb.initial,hb.streams⟩
  split
  · split
    · exact hb.level (.moves (Moves.resetStream _ _ _))
    · rename_i hle
      refine ⟨hb.conn,hb.initial,fun i => ?_⟩
      simp only [Conn.modifyFlow]
      split
      · rename_i hi
        rw [hi]
        exact Int.not_lt.mp hle
      · exact hb.streams i
  · exact hb

theorem arm_bound (hb : c.Bounded) (hlen : f.head.len ≤ defaultMaxFrame)
    (he : f.head.kind = Kind.settings → c.expectContinuation = none) : (c.arm f).1.Bounded ↔ c.shiftsWithin f := by
  by_cases hs : f.head.kind = Kind.settings
  · rw [arm_settings hs]
    exact onSettings_bound hb hs hlen (he hs)
  refine ⟨fun _ h => absurd h hs,fun _ => ?_⟩
  by_cases hw : f.head.kind = Kind.windowUpdate
  · rw [arm_windowUpdate hw]
    exact onWindowUpdate_bound hb
  obtain ⟨b,hbegin,hm⟩ := arm_moves c hs hw
  refine Conn.Bounded.level ?_ (.moves hm)
  cases hbegin with
  | here => exact hb
  | refused _ => exact ⟨hb.conn,hb.initial,hb.streams⟩
  | opened _ =>
    refine ⟨hb.conn,hb.initial,fun i => ?_⟩
    simp only [insertStream,Conn.modifyFlow]
    split
    · exact hb.initial
    · exact hb.streams i

/-- One frame keeps the bound exactly when the SETTINGS it may be leave room. -/
theorem next_bound {c' : Conn} (hb : c.Bounded) (hn : c.next (.frame f) = some c') :
    c'.Bounded ↔ c.shiftsWithin f := by
  have hres : c.result = none := (next_frame hn).1
  simp only [next,hres,Option.isSome_none,Bool.false_eq_true,if_false,readFrame] at hn
  by_cases hlen : defaultMaxFrame < f.head.len
  · rw [if_pos hlen] at hn
    cases hn
    refine ⟨fun _ _ _ hr => ?_,fun _ => hb.level ⟨rfl,rfl,rfl,fun _ => rfl,fun _ => rfl⟩⟩
    simp [refusesSettings,hlen] at hr
  rw [if_neg hlen] at hn
  by_cases hexp : c.expectContinuation.any (fun i => f.head.kind != Kind.continuation || f.head.stream != i) = true
  · rw [if_pos hexp] at hn
    cases hn
    refine ⟨fun _ _ _ hr => ?_,fun _ => hb.level ⟨rfl,rfl,rfl,fun _ => rfl,fun _ => rfl⟩⟩
    cases he : c.expectContinuation with
    | none => simp [he] at hexp
    | some i => simp [refusesSettings,he] at hr
  rw [if_neg hexp] at hn
  have harm := arm_bound (f := f) hb (by omega) (fun hs => by
    cases he : c.expectContinuation with
    | none => rfl
    | some i => simp [he,hs,Kind.settings,Kind.continuation] at hexp)
  rw [← harm]
  rcases ha : c.arm f with ⟨d,n⟩
  rw [ha] at hn
  cases n with
  | dispatch =>
    cases hn
    have hl := Level.dispatch d
    refine ⟨fun h => h.level ?_,fun h => h.level hl⟩
    exact ⟨hl.conn.symm,hl.initial.symm,hl.size.symm,fun j => (hl.windows j).symm,fun j => (hl.entries j).symm⟩
  | again =>
    cases hn
    exact Iff.rfl
  | ret r =>
    cases hn
    exact ⟨fun h => h.level ⟨rfl,rfl,rfl,fun _ => rfl,fun _ => rfl⟩,
      fun h => h.level ⟨rfl,rfl,rfl,fun _ => rfl,fun _ => rfl⟩⟩
  | panic => cases hn

end Frames

section Run
variable {maxBody : ℕ} {as : List Act} {s s' : Sys} {a : Act}

theorem Conn.Bounded.idle (h : s.conn.Bounded) (hi : Idle s s') : s'.conn.Bounded where
  conn := by
    rw [hi.conn]
    exact h.conn
  initial := by
    rw [hi.initial]
    exact h.initial
  streams := by
    intro i
    rw [hi.windows]
    exact h.streams i

theorem Conn.Bounded.sends {id : ℕ} (h : s.conn.Bounded) (hs : Sends s id s') : s'.conn.Bounded := by
  cases hs with
  | idle hi => exact h.idle hi
  | @data data c hn hi =>
    obtain ⟨-,rfl⟩ := next_send hn
    refine Conn.Bounded.idle ?_ hi
    have hconn := h.conn
    refine ⟨?_,h.initial,fun i => ?_⟩
    · have hle : s.conn.connWindow - data.length ≤ maxWindow := by omega
      exact hle
    · have hw := h.streams i
      simp only [modifyFlow]
      split
      · rename_i hi
        subst hi
        have hle : (s.conn.flows i).window - data.length ≤ maxWindow := by omega
        exact hle
      · exact hw

theorem step_bound (h : s.conn.Bounded) (hg : s.shiftsWithin a) (hs : s.step a = some s') : s'.conn.Bounded := by
  cases Sys.step_cases hs with
  | @reads _ _ c hres he hc h' =>
    have hb : c.Bounded := by
      rcases he with ⟨f,wire,rfl,rfl⟩ | ⟨r,rfl,rfl⟩
      · exact (next_bound h hc).mpr hg
      · simp only [next,hres,Option.isSome_none,Bool.false_eq_true,if_false,Option.some.injEq] at hc
        subst hc
        exact h.level ⟨rfl,rfl,rfl,fun _ => rfl,fun _ => rfl⟩
    rw [h']
    exact ⟨hb.conn,hb.initial,hb.streams⟩
  | turn _ ht => exact h.sends ht.sends
  | reply _ _ ha => exact h.idle ha.idle
  | writerGone h' =>
    rw [h']
    exact h

/-- What would take a window past the bound is answered with FLOW_CONTROL and not stored. -/
structure OverflowRefused (c : Conn) : Prop where
  update : ∀ f st, f.head.kind = Kind.windowUpdate → f.head.len = 4 → c.expectContinuation = none →
    f.head.stream ≠ 0 → c.streams.get? f.head.stream = some st →
      maxWindow < (c.flows f.head.stream).window + Frame.first31 f.payload →
        c.next (.frame f) = some (c.resetStream f.head.stream .flowControl) ∧
          ∀ i, ((c.resetStream f.head.stream .flowControl).flows i).window = (c.flows i).window
  conn : ∀ f, f.head.kind = Kind.windowUpdate → f.head.len = 4 → c.expectContinuation = none →
    f.head.stream = 0 → maxWindow < c.connWindow + Frame.first31 f.payload →
      c.next (.frame f) = some (c.shutdown (.error ⟨.flowControl,lit "connection window overflow"⟩))
  settings : ∀ f (ps qs : List (ℕ × ℕ)) v, f.head.kind = Kind.settings → f.head.has Flag.ack = false → f.head.stream = 0 →
    f.head.len ≤ defaultMaxFrame → f.head.len % 6 = 0 → c.expectContinuation = none →
      settingsPairs f.payload = ps ++ (Setting.initialWindowSize,v) :: qs → (∀ p ∈ ps, badPair p = false) →
        maxWindow < v → ∃ d : Conn, d.flows = c.flows ∧
          c.next (.frame f) = some (d.shutdown (.error ⟨.flowControl,lit "window too large"⟩))

theorem overflowRefused {c : Conn} (hres : c.result = none) (hb : c.Bounded) : OverflowRefused c where
  update := by
    intro f st hk hlen he h0 hst hover
    have hb := hb.streams f.head.stream
    have hinc : Frame.first31 f.payload ≠ 0 := by
      intro h
      rw [h] at hover
      omega
    have hidle : c.stateOf f.head.stream ≠ .idle := by
      intro h
      rw [(stateOf_idle h).1] at hst
      cases hst
    have harm : c.arm f = (c.resetStream f.head.stream .flowControl,.again) := by
      rw [arm_windowUpdate hk,onWindowUpdate,if_neg (not_not.mpr hlen),if_neg (fun h => hidle h.2),if_neg hinc,
        if_neg h0]
      simp only [hst,if_pos hover]
    refine ⟨?_,(Level.moves (Moves.resetStream c _ _)).windows⟩
    simp [next,hres,readFrame,hlen,he,harm,defaultMaxFrame]
  conn := by
    intro f hk hlen he h0 hover
    have hb := hb.conn
    have hinc : Frame.first31 f.payload ≠ 0 := by
      intro h
      rw [h] at hover
      omega
    have harm : c.arm f = c.fail .flowControl "connection window overflow" := by
      rw [arm_windowUpdate hk,onWindowUpdate,if_neg (not_not.mpr hlen),if_neg (fun h => h.1 h0),if_neg hinc,
        if_pos h0,if_pos hover]
    simp [next,hres,readFrame,hlen,he,harm,defaultMaxFrame,fail]
  settings := by
    intro f ps qs v hk hack h0 hlen hsix he hps hgood hv
    have hpoor : ¬ defaultMaxFrame < f.head.len := by omega
    obtain ⟨happ,hnone⟩ := applySettings_good c ((Setting.initialWindowSize,v) :: qs) hgood
    have hbad : (c.applySettings ps).1.applySettings ((Setting.initialWindowSize,v) :: qs) =
        ((c.applySettings ps).1,some ⟨.flowControl,lit "window too large"⟩) := by
      simp [applySettings,applySetting,hv]
    have htaken : c.applySettings ps = ((c.applySettings ps).1,none) := Prod.ext rfl hnone
    obtain ⟨dec,mf,w,hd⟩ := applySettings_eq htaken
    refine ⟨(c.applySettings ps).1,by rw [hd],?_⟩
    have harm : c.arm f = ((c.applySettings ps).1,.ret (.error ⟨.flowControl,lit "window too large"⟩)) := by
      rw [arm_settings hk,onSettings,if_neg (not_not.mpr h0),if_neg (by simp [hack]),if_neg (not_not.mpr hsix),
        hps,happ,hbad]
    simp only [next,hres,Option.isSome_none,Bool.false_eq_true,if_false,readFrame,hpoor,he,Option.any_none,harm]

/-- As long as the SETTINGS taken leave room, every window is bounded. -/
theorem run_overflowRefused (maxBody : ℕ) (as : List Act) (s : Sys)
    (hr : Runs (guarded (stepRel Sys.step) Sys.shiftsWithin) (Sys.new maxBody) as s) :
    s.conn.Bounded ∧ (s.conn.result = none → OverflowRefused s.conn) := by
  have hb : s.conn.Bounded := by
    refine hr.invariant (I := fun _ s => s.conn.Bounded) ?_ ?_
    · have hdefault : defaultWindow ≤ maxWindow := by decide
      have hzero : 0 ≤ maxWindow := by decide
      exact ⟨hdefault,hdefault,fun _ => hzero⟩
    · intro _ s a s' _ hb ⟨hg,hs⟩
      exact step_bound hb hg hs
  exact ⟨hb,fun hres => overflowRefused hres hb⟩

/-- A stream is opened and its window filled up. -/
def fullWindow : List Act :=
  [.frame (.of Kind.headers Flag.endHeaders 1 [0x82]) (by decide),
    .frame (.of Kind.windowUpdate 0 1 (toBe 4 (2 ^ 31 - 1 - 65535))) (by decide)]

/-- SETTINGS with one value for the initial window. -/
def initialSettings (v : ℕ) : Act := .frame (.of Kind.settings 0 0 (toBe 2 Setting.initialWindowSize ++ toBe 4 v))
  (Nat.two_pow_pos 31)

example : maxWindow = 2 ^ 31 - 1 := by decide +kernel

theorem fullWindow_overflowRefused : ∃ s,
    Runs (guarded (stepRel Sys.step) Sys.shiftsWithin) (Sys.new 1) (fullWindow ++ [initialSettings 0,initialSettings 65535])
      s ∧ (s.conn.flows 1).window = maxWindow ∧ s.conn.Bounded ∧ OverflowRefused s.conn := by
  have h : (runList (fun s a => if s.shiftsWithin a then s.step a else none) (Sys.new 1)
      (fullWindow ++ [initialSettings 0,initialSettings 65535])).map
        (fun s => (s.conn.result.isNone,(s.conn.flows 1).window)) = some (true,maxWindow) := by
    decide +kernel
  obtain ⟨s,hs,hv⟩ := Option.map_eq_some_iff.mp h
  simp only [Prod.mk.injEq,Option.isNone_iff_eq_none] at hv
  have hr := Runs.guarded_of_runList hs
  obtain ⟨hb,ho⟩ := run_overflowRefused 1 _ s hr
  exact ⟨s,hr,hv.2,hb,ho hv.1⟩

/-- The initial window grows by one over a full window. -/
theorem grownWindow_overflows : ∃ s, Runs (stepRel Sys.step) (Sys.new 1) (fullWindow ++ [initialSettings 65536]) s ∧
    s.conn.result = none ∧ maxWindow < (s.conn.flows 1).window := by
  have h : (runList Sys.step (Sys.new 1) (fullWindow ++ [initialSettings 65536])).map
      (fun s => (s.conn.result.isNone,decide (maxWindow < (s.conn.flows 1).window))) = some (true,true) := by
    decide +kernel
  obtain ⟨s,hs,hv⟩ := Option.map_eq_some_iff.mp h
  simp only [Prod.mk.injEq,Option.isNone_iff_eq_none,decide_eq_true_eq] at hv
  exact ⟨s,.of_runList hs,hv⟩

end Run

end OxiServe.Http2
