import OxiServe.Http2.Anchored

/-! # Flow control towards the peer

What the queued DATA frames add up to, against the windows the peer granted: its
WINDOW_UPDATE increments and the initial window and frame size it announced last.
The sums are taken from the frames alone and compared with the cells the tasks
share.
-/
namespace OxiServe.Http2
open Conn

section Sums

/-- A queued frame carries body bytes of the stream. -/
def isDataOf (i : ℕ) (b : Bytes) : Bool := kindOf b == Kind.data && streamOf b == i

/-- The DATA bytes queued on a stream. -/
def sentOn (out : List Bytes) (i : ℕ) : ℕ := ((out.filter (isDataOf i)).map (fun b => (payloadOf b).length)).sum

/-- The DATA bytes queued on the connection. -/
def sentTotal (out : List Bytes) : ℕ :=
  ((out.filter (fun b => kindOf b == Kind.data)).map (fun b => (payloadOf b).length)).sum

/-- The body bytes a stretch of the queue carries for a stream. -/
def carried (out : List Bytes) (i : ℕ) : Bytes := ((out.filter (isDataOf i)).map payloadOf).flatten

/-- What a WINDOW_UPDATE adds to a window: nothing if it is refused or answered. -/
def Conn.credit (c : Conn) (i : ℕ) (f : Frame) : ℕ :=
  if f.head.kind = Kind.windowUpdate ∧ f.head.stream = i ∧ c.expectContinuation = none ∧
    (c.onWindowUpdate f).2 = .dispatch then Frame.first31 f.payload else 0

def Sys.credit (i : ℕ) (s : Sys) : Act → ℕ
  | .frame f _ => s.conn.credit i f
  | _ => 0

/-- The increments accepted for a stream, for the connection under id 0. -/
def granted (maxBody : ℕ) (as : List Act) (i : ℕ) : ℕ := tally Sys.step (Sys.credit i) (Sys.new maxBody) as

/-- The last value SETTINGS frames give a setting. -/
def lastValue (id : ℕ) (w : ℕ) (ps : List (ℕ × ℕ)) : ℕ := ps.foldl (fun w p => if p.1 = id then p.2 else w) w

def Act.announces (id : ℕ) (w : ℕ) : Act → ℕ
  | .frame f _ =>
    if f.head.kind = Kind.settings ∧ f.head.has Flag.ack = false then lastValue id w (settingsPairs f.payload) else w
  | _ => w

def announced (id w : ℕ) (as : List Act) : ℕ := as.foldl (Act.announces id) w

/-- INITIAL_WINDOW_SIZE and MAX_FRAME_SIZE as the peer announced them. -/
def initialWindow (as : List Act) : ℕ := announced Setting.initialWindowSize 65535 as

def frameSize (as : List Act) : ℕ := announced Setting.maxFrameSize defaultMaxFrame as

/-- The window of a stream: the initial one as it is now, with the increments, less
what was sent. A changed initial window moves it by the difference. -/
def streamWindow (maxBody : ℕ) (as : List Act) (out : List Bytes) (i : ℕ) : ℤ :=
  initialWindow as + granted maxBody as i - sentOn out i

variable (out : List Bytes) (b : Bytes) (i : ℕ)

theorem sentOn_snoc : sentOn (out ++ [b]) i = sentOn out i + if isDataOf i b then (payloadOf b).length else 0 := by
  unfold sentOn
  by_cases h : isDataOf i b = true
  · simp [List.filter_append,h]
  · simp [List.filter_append,h]

theorem sentTotal_snoc : sentTotal (out ++ [b]) =
    sentTotal out + if kindOf b = Kind.data then (payloadOf b).length else 0 := by
  unfold sentTotal
  by_cases h : kindOf b = Kind.data
  · simp [List.filter_append,h]
  · simp [List.filter_append,h]

theorem carried_append (as bs : List Bytes) : carried (as ++ bs) i = carried as i ++ carried bs i := by
  simp [carried,List.filter_append]

/-- Frames without body bytes count for nothing. -/
theorem sums_append {new : List Bytes} (h : ∀ b ∈ new, kindOf b ≠ Kind.data ∨ payloadOf b = []) :
    sentOn (out ++ new) i = sentOn out i ∧ sentTotal (out ++ new) = sentTotal out ∧
      carried (out ++ new) i = carried out i := by
  induction new using List.reverseRecOn with
  | nil => simp
  | append_singleton new b ih =>
    obtain ⟨h1,h2,h3⟩ := ih (fun b hb => h b (List.mem_append_left _ hb))
    rw [← List.append_assoc,sentOn_snoc,sentTotal_snoc,carried_append,h1,h2,h3]
    rcases h b (List.mem_append_right _ (List.mem_singleton.mpr rfl)) with hk | hp
    · have hd : isDataOf i b = false := by simp [isDataOf,hk]
      simp [hk,hd,carried]
    · refine ⟨?_,?_,?_⟩
      · simp [hp]
      · simp [hp]
      · by_cases hd : isDataOf i b = true
        · simp [carried,hd,hp]
        · simp [carried,hd]

end Sums

section Arms
variable {c d e : Conn} {f : Frame} {i : ℕ}

/-- The same windows, over the same entries. -/
structure Level (c d : Conn) : Prop where
  conn : d.connWindow = c.connWindow
  initial : d.peerInitialWindow = c.peerInitialWindow
  size : d.maxFrame = c.maxFrame
  windows : ∀ j, (d.flows j).window = (c.flows j).window
  entries : ∀ j, (d.streams.get? j).isSome = (c.streams.get? j).isSome

theorem Level.refl (c : Conn) : Level c c := ⟨rfl,rfl,rfl,fun _ => rfl,fun _ => rfl⟩

theorem Level.trans (h : Level c d) (h' : Level d e) : Level c e :=
  ⟨h'.conn.trans h.conn,h'.initial.trans h.initial,h'.size.trans h.size,
    fun j => (h'.windows j).trans (h.windows j),fun j => (h'.entries j).trans (h.entries j)⟩

theorem isSome_modify (m : KeyMap ℕ Stream) (i j : ℕ) (g : Stream → Stream) :
    ((m.modify i g).get? j).isSome = (m.get? j).isSome := by
  rw [KeyMap.get?_modify]
  split <;> simp

theorem Level.modifyFlow (c : Conn) (i : ℕ) {g : StreamFlow → StreamFlow} (hg : ∀ w, (g w).window = w.window) :
    Level c (c.modifyFlow i g) := by
  refine ⟨rfl,rfl,rfl,fun j => ?_,fun _ => rfl⟩
  simp only [Conn.modifyFlow]
  split
  · exact hg _
  · rfl

theorem Level.move (h : Move i c d) : Level c d := by
  cases h with
  | rest dec recvWindow out fed => exact ⟨rfl,rfl,rfl,fun _ => rfl,fun _ => rfl⟩
  | expect e he => exact ⟨rfl,rfl,rfl,fun _ => rfl,fun _ => rfl⟩
  | stream g => exact ⟨rfl,rfl,rfl,fun _ => rfl,fun j => isSome_modify _ _ _ _⟩
  | resetByServer => exact .modifyFlow c i (fun _ => rfl)
  | resetByPeer => exact .modifyFlow c i (fun _ => rfl)

theorem Level.moves (h : Moves i c d) : Level c d :=
  h.keep (P := fun d => Level c d) (.refl c) (fun _ _ hd hm => hd.trans (.move hm))

theorem Level.dispatchOne {st : Stream} (hst : c.streams.get? i = some st) : Level c (c.dispatchOne i) := by
  have hm : Level c (c.modifyStream i (fun s => { s with dispatched := true })) :=
    ⟨rfl,rfl,rfl,fun _ => rfl,fun j => isSome_modify _ _ _ _⟩
  have hspawn : Level c ((c.modifyStream i (fun s => { s with dispatched := true })).spawnStream i st) :=
    hm.trans ⟨rfl,rfl,rfl,fun _ => rfl,fun j => isSome_modify _ _ _ _⟩
  unfold Conn.dispatchOne
  simp only [hst]
  split
  · split
    · have hf := Level.modifyFlow (c.modifyStream i (fun s => { s with dispatched := true })) i
        (g := fun w => { w with done := true }) (fun _ => rfl)
      exact (hm.trans hf).trans (.moves (Moves.resetStream _ i _))
    · exact hspawn
  · exact hspawn

theorem Level.dispatch (c : Conn) : Level c c.dispatch :=
  dispatch_induction (P := fun d => Level c d) (.refl c) (fun _ _ _ hd hst _ => hd.trans (.dispatchOne hst))

/-- What a frame that is taken does to the windows. -/
structure Tides (c d : Conn) (f : Frame) : Prop where
  initial : d.peerInitialWindow = if f.head.kind = Kind.settings ∧ f.head.has Flag.ack = false then
    ((settingsPairs f.payload).foldl (fun w p => if p.1 = Setting.initialWindowSize then (p.2 : ℤ) else w)
      c.peerInitialWindow) else c.peerInitialWindow
  size : d.maxFrame = if f.head.kind = Kind.settings ∧ f.head.has Flag.ack = false then
    lastValue Setting.maxFrameSize c.maxFrame (settingsPairs f.payload) else c.maxFrame
  streams : ∀ j st, d.streams.get? j = some st →
    ((c.streams.get? j).isSome = true ∧ (d.flows j).window =
      (c.flows j).window + (d.peerInitialWindow - c.peerInitialWindow) + c.credit j f) ∨
    (c.stateOf j = .idle ∧ (d.flows j).window = d.peerInitialWindow)

theorem applySettings_values {ps : List (ℕ × ℕ)} (h : c.applySettings ps = (d,none)) :
    d.peerInitialWindow =
      ps.foldl (fun w p => if p.1 = Setting.initialWindowSize then (p.2 : ℤ) else w) c.peerInitialWindow ∧
      d.maxFrame = lastValue Setting.maxFrameSize c.maxFrame ps := by
  induction ps generalizing c with
  | nil =>
    cases h
    exact ⟨rfl,rfl⟩
  | cons p ps ih =>
    obtain ⟨k,v⟩ := p
    unfold applySettings at h
    split at h
    · cases h
    · rename_i e he
      obtain ⟨h1,h2⟩ := ih h
      have hone : e.peerInitialWindow = (if k = Setting.initialWindowSize then (v : ℤ) else c.peerInitialWindow) ∧
          e.maxFrame = if k = Setting.maxFrameSize then v else c.maxFrame := by
        have hk : Setting.initialWindowSize ≠ Setting.maxFrameSize := by decide
        unfold applySetting at he
        repeat' split at he
        all_goals
          cases he
        all_goals simp_all
      simp only [lastValue,List.foldl_cons] at h2 ⊢
      rw [h1,h2,hone.1,hone.2]
      exact ⟨rfl,rfl⟩

theorem credit_other (h : f.head.kind ≠ Kind.windowUpdate) (j : ℕ) : c.credit j f = 0 := by
  rw [credit,if_neg (fun hk => h hk.1)]

theorem tides_level (hk : f.head.kind ≠ Kind.settings) (h : Level c d)
    (hc : ∀ j, (c.streams.get? j).isSome = true → c.credit j f = 0) : Tides c d f where
  initial := by
    rw [if_neg (fun hs => hk hs.1)]
    exact h.initial
  size := by
    rw [if_neg (fun hs => hk hs.1)]
    exact h.size
  streams := by
    intro j st hj
    have hs : (c.streams.get? j).isSome = true := by rw [← h.entries j,hj]; rfl
    refine Or.inl ⟨hs,?_⟩
    rw [h.windows,h.initial,hc j hs]
    omega

theorem arm_connWindow (he : f.head.kind = Kind.windowUpdate → c.expectContinuation = none) :
    (c.arm f).1.connWindow = c.connWindow + c.credit 0 f := by
  by_cases hs : f.head.kind = Kind.settings
  · have hw : f.head.kind ≠ Kind.windowUpdate := by rw [hs]; decide
    rw [arm_settings hs,credit_other hw]
    rcases onSettings_cases c f with ⟨h,-⟩ | ⟨e,h,-⟩ | ⟨-,new,h,h'⟩
    · rw [h]
      simp
    · obtain ⟨dec,mf,w,h⟩ := applySettings_eq h
      rw [h]
      simp
    · obtain ⟨dec,mf,w,rfl⟩ := applySettings_eq h
      rw [h']
      simp [shiftWindows,emit]
  by_cases hw : f.head.kind = Kind.windowUpdate
  · rw [arm_windowUpdate hw]
    rcases onWindowUpdate_moves c f with ⟨h,hn⟩ | ⟨hn,⟨h0,h⟩ | ⟨h0,h⟩ | ⟨h0,h,-⟩⟩
    · rw [(Level.moves h).conn,credit,if_neg (fun hk => hn hk.2.2.2)]
      simp
    · rw [h,credit,if_pos ⟨hw,h0,he hw,hn⟩]
    · rw [h,credit,if_neg (fun hk => h0 hk.2.1)]
      simp [Conn.modifyFlow]
    · rw [h,credit,if_neg (fun hk => h0 hk.2.1)]
      simp
  · obtain ⟨b,hb,hm⟩ := arm_moves c hs hw
    rw [(Level.moves hm).conn,credit_other hw]
    cases hb with
    | here => simp
    | refused _ => simp [aim,reap]
    | opened _ => simp [aim,reap,insertStream,Conn.modifyFlow]

theorem onSettings_tides (hn : (c.onSettings f).2.goesOn) (hs : f.head.kind = Kind.settings) :
    Tides c (c.onSettings f).1 f := by
  have hw : f.head.kind ≠ Kind.windowUpdate := by rw [hs]; decide
  rcases onSettings_cases c f with ⟨h,ha⟩ | ⟨e,-,h⟩ | ⟨ha,new,h,h'⟩
  · rw [h]
    refine ⟨?_,?_,fun j st hj => Or.inl ⟨by rw [hj]; rfl,?_⟩⟩
    · simp [ha hn]
    · simp [ha hn]
    · rw [credit_other hw]
      omega
  · exact absurd hn h
  · obtain ⟨h1,h2⟩ := applySettings_values h
    obtain ⟨dec,mf,w,rfl⟩ := applySettings_eq h
    rw [h']
    refine ⟨?_,?_,fun j st hj => Or.inl ⟨?_,?_⟩⟩
    · rw [if_pos ⟨hs,ha⟩]
      exact h1
    · rw [if_pos ⟨hs,ha⟩]
      exact h2
    · have hj : c.streams.get? j = some st := hj
      rw [hj]
      rfl
    · have hj : c.streams.get? j = some st := hj
      simp [shiftWindows,emit,hj,credit_other hw]

theorem onWindowUpdate_tides (hw : f.head.kind = Kind.windowUpdate) (h0 : c.streams.get? 0 = none)
    (he : c.expectContinuation = none) : Tides c (c.onWindowUpdate f).1 f := by
  have hs : f.head.kind ≠ Kind.settings := by rw [hw]; decide
  rcases onWindowUpdate_moves c f with ⟨h,hn⟩ | ⟨hn,⟨hz,h⟩ | ⟨hz,h⟩ | ⟨hz,h,hnone⟩⟩
  · exact tides_level hs (.moves h) (fun j _ => by rw [credit,if_neg (fun hk => hn hk.2.2.2)])
  · rw [h]
    refine ⟨by simp [hs],by simp [hs],fun j st hj => Or.inl ⟨by rw [hj]; rfl,?_⟩⟩
    have hj : c.streams.get? j = some st := hj
    have hne : ¬ f.head.stream = j := by
      intro hfj
      rw [← hfj,hz,h0] at hj
      cases hj
    simp [credit,hne]
  · rw [h]
    refine ⟨by simp [hs,Conn.modifyFlow],by simp [hs,Conn.modifyFlow],fun j st hj => Or.inl ⟨?_,?_⟩⟩
    · have hj : c.streams.get? j = some st := hj
      rw [hj]
      rfl
    · by_cases hfj : j = f.head.stream
      · rw [credit,if_pos ⟨hw,hfj.symm,he,hn⟩]
        simp [Conn.modifyFlow,hfj]
      · rw [credit,if_neg (fun hk => hfj hk.2.1.symm)]
        simp [Conn.modifyFlow,hfj]
  · rw [h]
    refine tides_level hs (.refl c) (fun j hj => ?_)
    rw [credit,if_neg]
    rintro ⟨-,hfj,-,-⟩
    rw [← hfj,hnone] at hj
    cases hj

theorem arm_tides (hn : (c.arm f).2.goesOn) (h0 : c.streams.get? 0 = none)
    (he : f.head.kind = Kind.windowUpdate → c.expectContinuation = none) : Tides c (c.arm f).1 f := by
  by_cases hs : f.head.kind = Kind.settings
  · rw [arm_settings hs] at hn ⊢
    exact onSettings_tides hn hs
  by_cases hw : f.head.kind = Kind.windowUpdate
  · rw [arm_windowUpdate hw]
    exact onWindowUpdate_tides hw h0 (he hw)
  obtain ⟨b,hb,hm⟩ := arm_moves c hs hw
  have hl := Level.moves hm
  have hback : b.peerInitialWindow = c.peerInitialWindow ∧ b.maxFrame = c.maxFrame ∧
      ∀ j, (b.streams.get? j).isSome = true →
        ((c.streams.get? j).isSome = true ∧ (b.flows j).window = (c.flows j).window) ∨
          (c.stateOf j = .idle ∧ (b.flows j).window = c.peerInitialWindow) := by
    have haim {j : ℕ} (hj : ((aim c f).streams.get? j).isSome = true) : (c.streams.get? j).isSome = true := by
      obtain ⟨st,hst⟩ := Option.isSome_iff_exists.mp hj
      rw [(get?_aim hst).1]
      rfl
    cases hb with
    | here => exact ⟨rfl,rfl,fun j hj => Or.inl ⟨hj,rfl⟩⟩
    | refused _ => exact ⟨rfl,rfl,fun j hj => Or.inl ⟨haim hj,rfl⟩⟩
    | @opened block hi =>
      refine ⟨rfl,rfl,fun j hj => ?_⟩
      by_cases hfj : j = f.head.stream
      · exact Or.inr ⟨hfj ▸ hi,by simp [insertStream,Conn.modifyFlow,hfj,aim,reap]⟩
      · refine Or.inl ⟨haim ?_,by simp [insertStream,Conn.modifyFlow,hfj,aim,reap]⟩
        simpa [insertStream,KeyMap.get?_insert,hfj] using hj
  obtain ⟨h1,h2,h3⟩ := hback
  refine ⟨?_,?_,fun j st hj => ?_⟩
  · rw [if_neg (fun h => hs h.1),hl.initial,h1]
  · rw [if_neg (fun h => hs h.1),hl.size,h2]
  · rw [hl.windows,hl.initial,h1,credit_other hw]
    rcases h3 j (by rw [← hl.entries,hj]; rfl) with ⟨hsome,hw'⟩ | ⟨hi,hw'⟩
    · exact Or.inl ⟨hsome,by rw [hw']; omega⟩
    · exact Or.inr ⟨hi,hw'⟩

end Arms

section Run
variable {maxBody : ℕ} {as : List Act} {s s' : Sys} {a : Act} {i : ℕ}

/-- The cells hold what the frames add up to. -/
structure Windows (maxBody : ℕ) (as : List Act) (s : Sys) : Prop where
  conn : s.conn.connWindow = 65535 + granted maxBody as 0 - sentTotal s.conn.out
  nonneg : 0 ≤ s.conn.connWindow
  zero : s.conn.streams.get? 0 = none
  initial : s.conn.result = none → s.conn.peerInitialWindow = initialWindow as
  size : s.conn.result = none → s.conn.maxFrame = frameSize as
  streams : s.conn.result = none → ∀ i st, s.conn.streams.get? i = some st →
    (s.conn.flows i).window = streamWindow maxBody as s.conn.out i
  fresh : s.conn.result = none → ∀ i, s.conn.highestClientStream < i →
    granted maxBody as i = 0 ∧ sentOn s.conn.out i = 0

theorem granted_snoc (hr : Runs (stepRel Sys.step) (Sys.new maxBody) as s) (a : Act) (i : ℕ) :
    granted maxBody (as ++ [a]) i = granted maxBody as i + s.credit i a := tally_snoc (Sys.credit i) hr a

theorem announced_snoc (id w : ℕ) (as : List Act) (a : Act) :
    announced id w (as ++ [a]) = a.announces id (announced id w as) := by
  simp [announced,List.foldl_append]

theorem lastValue_cast (ps : List (ℕ × ℕ)) (id w : ℕ) :
    ps.foldl (fun w p => if p.1 = id then (p.2 : ℤ) else w) (w : ℤ) = (lastValue id w ps : ℤ) := by
  induction ps generalizing w with
  | nil => rfl
  | cons p ps ih =>
    simp only [lastValue,List.foldl_cons] at ih ⊢
    by_cases hp : p.1 = id
    · simp only [hp,if_true]
      exact ih p.2
    · simp only [hp,if_false]
      exact ih w

theorem credit_idle {c : Conn} {f : Frame} (hi : c.stateOf i = .idle) (h0 : i ≠ 0) : c.credit i f = 0 := by
  rw [Conn.credit,if_neg]
  rintro ⟨-,rfl,-,hd⟩
  unfold onWindowUpdate at hd
  split at hd
  · cases hd
  · simp [h0,hi,fail] at hd

/-- An increment that counts is read without an error. -/
theorem credit_readsOn {c : Conn} {f : Frame} (hres : c.result = none) (h : c.credit i f ≠ 0) : c.readsOn f := by
  unfold Conn.credit at h
  split at h
  · rename_i hk
    obtain ⟨hw,-,he,hd⟩ := hk
    have hlen : f.head.len = 4 := by
      by_contra hne
      rw [onWindowUpdate,if_pos hne] at hd
      cases hd
    refine (readsOn_iff hres ?_ (Or.inl he)).mpr (Or.inl ?_)
    · rw [hlen]
      decide
    · rw [arm_windowUpdate hw]
      exact hd
  · exact absurd rfl h

theorem sums_silent {c c' : Conn} (h : Silently c c') :
    sentTotal c'.out = sentTotal c.out ∧ ∀ i, sentOn c'.out i = sentOn c.out i := by
  obtain ⟨new,ho,hn⟩ := h
  rw [ho]
  have hs (i : ℕ) := sums_append c.out i (fun b (hb : b ∈ new) => Or.inl (hn b hb).1)
  exact ⟨(hs 0).2.1,fun i => (hs i).1⟩

theorem Windows.new (maxBody : ℕ) : Windows maxBody [] (Sys.new maxBody) where
  conn := by
    have h := (sums_append [] 0 (fun b hb => Or.inl (by
      have := control_new maxBody b hb
      simp only [isControl,Bool.and_eq_true,bne_iff_ne] at this
      exact this.1.1))).2.1
    rw [List.nil_append] at h
    have h' : sentTotal (Sys.new maxBody).conn.out = 0 := h
    rw [h']
    rfl
  nonneg := by
    have h : (Sys.new maxBody).conn.connWindow = 65535 := rfl
    rw [h]
    decide
  zero := rfl
  initial := fun _ => rfl
  size := fun _ => rfl
  streams := by
    intro _ i st h
    cases h
  fresh := by
    intro _ i _
    have h := (sums_append [] i (fun b hb => Or.inl (by
      have := control_new maxBody b hb
      simp only [isControl,Bool.and_eq_true,bne_iff_ne] at this
      exact this.1.1))).1
    rw [List.nil_append] at h
    exact ⟨rfl,h⟩

theorem Tides.level {c d e : Conn} {f : Frame} (h : Tides c d f) (hl : Level d e) : Tides c e f where
  initial := hl.initial.trans h.initial
  size := hl.size.trans h.size
  streams := by
    intro j st hj
    have hs : (d.streams.get? j).isSome = true := by rw [← hl.entries,hj]; rfl
    obtain ⟨st',hst'⟩ := Option.isSome_iff_exists.mp hs
    rw [hl.windows,hl.initial]
    exact h.streams j st' hst'

theorem get?_zero_arm {c d : Conn} {f : Frame} {n : Next} (h0 : c.streams.get? 0 = none) (ha : c.arm f = (d,n)) :
    d.streams.get? 0 = none := by
  cases hd : d.streams.get? 0 with
  | none => rfl
  | some st =>
    rcases arm_cases ha with hf | ⟨hi,ho⟩
    · obtain ⟨φ,ht⟩ := hf.touch
      obtain ⟨st',hst',-⟩ := ht.get? hd
      rw [h0] at hst'
      cases hst'
    · have hne : 0 ≠ f.head.stream := by
        have := (stateOf_idle hi).2
        omega
      have honly := Only.arm c f
      rw [ha] at honly
      have := honly.others 0 st hne hd
      rw [h0] at this
      cases this

/-- What a frame does to the windows, whichever way it ends. -/
theorem next_tides {c c' : Conn} {f : Frame} (h0 : c.streams.get? 0 = none) (hn : c.next (.frame f) = some c') :
    c'.connWindow = c.connWindow + c.credit 0 f ∧ c'.streams.get? 0 = none ∧
      c.highestClientStream ≤ c'.highestClientStream ∧ (c'.result = none → Tides c c' f) := by
  obtain ⟨hres,⟨e,rfl⟩ | ⟨hexp,d,n,ha,hcase⟩⟩ := next_frame hn
  · refine ⟨?_,h0,Nat.le_refl _,(by intro hres; cases hres)⟩
    have hc : c.credit 0 f = 0 := by
      by_contra hne
      obtain ⟨c',hc',hnone⟩ := credit_readsOn hres hne
      rw [hn] at hc'
      cases hc'
      cases hnone
    rw [hc]
    exact (Int.add_zero _).symm
  have he : f.head.kind = Kind.windowUpdate → c.expectContinuation = none := by
    intro hk
    rcases hexp with he | hc
    · exact he
    · rw [hk] at hc
      cases hc
  have hconn := arm_connWindow he
  have hhigh := (Only.arm c f).highest
  have hzero := get?_zero_arm h0 ha
  have htides := fun hn => arm_tides (c := c) (f := f) hn h0 he
  rw [ha] at hconn hhigh htides
  rcases hcase with ⟨rfl,rfl⟩ | ⟨rfl,rfl⟩ | ⟨r,-,rfl⟩
  · have hl := Level.dispatch d
    refine ⟨hl.conn.trans hconn,?_,?_,fun _ => (htides (Or.inl rfl)).level hl⟩
    · have hs := hl.entries 0
      rw [hzero] at hs
      simpa using hs
    · rw [highest_dispatch]
      exact hhigh
  · exact ⟨hconn,hzero,hhigh,fun _ => htides (Or.inr rfl)⟩
  · exact ⟨hconn,hzero,hhigh,(by intro hres; cases hres)⟩

/-- What the reader loop does to the windows. -/
theorem Windows.frame {c : Conn} {f : Frame} {wire : f.head.stream < 2 ^ 31} (h : Windows maxBody as s)
    (hr : Runs (stepRel Sys.step) (Sys.new maxBody) as s) (hl : Ledger s.conn)
    (hn : s.conn.next (.frame f) = some c) {out : List Bytes} (hto : sentTotal out = sentTotal s.conn.out)
    (hon : ∀ i, sentOn out i = sentOn s.conn.out i) :
    Windows maxBody (as ++ [.frame f wire]) { s with conn := { c with out := out } } := by
  have hres : s.conn.result = none := (next_frame hn).1
  obtain ⟨hconn,hzero,hhigh,htides⟩ := next_tides h.zero hn
  have hinit : c.result = none → c.peerInitialWindow = initialWindow (as ++ [.frame f wire]) := by
    intro hc
    rw [(htides hc).initial,h.initial hres,initialWindow,initialWindow,announced_snoc,Act.announces]
    by_cases hk : f.head.kind = Kind.settings ∧ f.head.has Flag.ack = false
    · rw [if_pos hk,if_pos hk,lastValue_cast]
    · rw [if_neg hk,if_neg hk]
  have hgrant (i : ℕ) : granted maxBody (as ++ [.frame f wire]) i = granted maxBody as i + s.conn.credit i f :=
    granted_snoc hr _ i
  have hidle {i : ℕ} (hi : s.conn.highestClientStream < i) : s.conn.credit i f = 0 := by
    refine credit_idle ?_ (by omega)
    unfold stateOf
    cases hg : s.conn.streams.get? i with
    | none => simp only [if_neg (by omega : ¬ i ≤ s.conn.highestClientStream)]
    | some st =>
      have := hl.known i st hg
      omega
  refine ⟨?_,?_,hzero,hinit,?_,?_,?_⟩
  · have hc : c.connWindow = 65535 + (granted maxBody (as ++ [.frame f wire]) 0 : ℕ) - sentTotal out := by
      rw [hconn,h.conn,hgrant,hto]
      push_cast
      omega
    exact hc
  · have hc : 0 ≤ c.connWindow := by
      have := h.nonneg
      rw [hconn]
      omega
    exact hc
  · intro hc
    have hsize : c.maxFrame = frameSize (as ++ [.frame f wire]) := by
      rw [(htides hc).size,h.size hres,frameSize,frameSize,announced_snoc,Act.announces]
    exact hsize
  · intro hc i st hi
    have hcell : (c.flows i).window = streamWindow maxBody (as ++ [.frame f wire]) out i := by
      rw [streamWindow,← hinit hc,hgrant,hon]
      rcases (htides hc).streams i st hi with ⟨hsome,hw⟩ | ⟨hstate,hw⟩
      · obtain ⟨st',hst'⟩ := Option.isSome_iff_exists.mp hsome
        rw [hw,h.streams hres i st' hst',streamWindow,← h.initial hres]
        push_cast
        omega
      · have hlt := (stateOf_idle hstate).2
        obtain ⟨hg,hs⟩ := h.fresh hres i hlt
        rw [hw,hg,hs,hidle hlt]
        simp
    exact hcell
  · intro hc i hi
    have hlt : s.conn.highestClientStream < i := Nat.lt_of_le_of_lt hhigh hi
    obtain ⟨hg,hs⟩ := h.fresh hres i hlt
    exact ⟨by rw [hgrant,hg,hidle hlt],by rw [hon]; exact hs⟩

/-- A step that queues no body bytes and reads no frame. -/
theorem Windows.idle {q : Sys} (h : Windows maxBody as s) (hr : Runs (stepRel Sys.step) (Sys.new maxBody) as q)
    (hi : Idle s s') (hst : s'.conn.streams = s.conn.streams)
    (hh : s'.conn.highestClientStream = s.conn.highestClientStream)
    (hres : s'.conn.result = none → s.conn.result = none) (ha : ∀ f w, a ≠ .frame f w) :
    Windows maxBody (as ++ [a]) s' := by
  obtain ⟨new,ho,hn⟩ := hi.out
  have hsum (i : ℕ) := sums_append s.conn.out i hn
  have hgrant (i : ℕ) : granted maxBody (as ++ [a]) i = granted maxBody as i := by
    rw [granted_snoc hr]
    cases a with
    | frame f w => exact absurd rfl (ha f w)
    | _ => rfl
  have hannounced (id w : ℕ) : announced id w (as ++ [a]) = announced id w as := by
    rw [announced_snoc]
    cases a with
    | frame f w => exact absurd rfl (ha f w)
    | _ => rfl
  refine ⟨?_,?_,?_,?_,?_,?_,?_⟩
  · rw [hi.conn,h.conn,hgrant,ho,(hsum 0).2.1]
  · rw [hi.conn]
    exact h.nonneg
  · rw [hst]
    exact h.zero
  · intro hr'
    rw [hi.initial,h.initial (hres hr'),initialWindow,initialWindow,hannounced]
  · intro hr'
    rw [hi.size,h.size (hres hr'),frameSize,frameSize,hannounced]
  · intro hr' i st hget
    rw [hst] at hget
    rw [hi.windows,h.streams (hres hr') i st hget,streamWindow,streamWindow,initialWindow,initialWindow,hannounced,
      hgrant,ho,(hsum i).1]
  · intro hr' i hlt
    rw [hh] at hlt
    obtain ⟨h1,h2⟩ := h.fresh (hres hr') i hlt
    exact ⟨by rw [hgrant]; exact h1,by rw [ho,(hsum i).1]; exact h2⟩

/-- A DATA frame is paid for by both windows. -/
theorem Windows.send {c : Conn} {data : Bytes} {id : ℕ} (h : Windows maxBody as s)
    (hid : id < 2 ^ 31) (hle : id ≤ s.conn.highestClientStream) (hn : s.conn.next (.send id data) = some c) : Windows maxBody as { s with conn := c } := by
  obtain ⟨hcan,rfl⟩ := next_send hn
  simp only [canSend,Bool.and_eq_true,decide_eq_true_eq] at hcan
  obtain ⟨⟨⟨⟨⟨⟨-,-⟩,hres⟩,-⟩,hconn⟩,-⟩,-⟩ := hcan
  have hres : s.conn.result = none := by simpa using hres
  have hmod : id % 2 ^ 31 = id := Nat.mod_eq_of_lt hid
  have hdata (i : ℕ) : isDataOf i (writeFrame Kind.data 0 id data) = decide (id = i) := by
    simp only [isDataOf,kindOf_writeFrame,streamOf_writeFrame,hmod,beq_self_eq_true,Bool.true_and]
    rfl
  have hto : sentTotal (s.conn.out ++ [writeFrame Kind.data 0 id data]) = sentTotal s.conn.out + data.length := by
    rw [sentTotal_snoc,kindOf_writeFrame,if_pos rfl,payloadOf_writeFrame]
  have hon (i : ℕ) : sentOn (s.conn.out ++ [writeFrame Kind.data 0 id data]) i =
      sentOn s.conn.out i + if id = i then data.length else 0 := by
    rw [sentOn_snoc,hdata,payloadOf_writeFrame]
    simp
  refine ⟨?_,?_,h.zero,h.initial,h.size,?_,?_⟩
  · have hc : s.conn.connWindow - data.length = 65535 + (granted maxBody as 0 : ℕ) -
        (sentTotal (s.conn.out ++ [writeFrame Kind.data 0 id data]) : ℕ) := by
      rw [hto,h.conn]
      push_cast
      omega
    exact hc
  · have hc : 0 ≤ s.conn.connWindow - data.length := by omega
    exact hc
  · intro _ i st hget
    have hc : (if i = id then { s.conn.flows i with window := (s.conn.flows i).window - data.length }
        else s.conn.flows i).window =
          streamWindow maxBody as (s.conn.out ++ [writeFrame Kind.data 0 id data]) i := by
      have hcell := h.streams hres i st hget
      rw [streamWindow,hon]
      rw [streamWindow] at hcell
      by_cases hi : i = id
      · subst hi
        simp only [if_true,hcell]
        push_cast
        omega
      · have hi' : ¬ id = i := fun he => hi he.symm
        simp only [if_neg hi,if_neg hi',hcell]
        omega
    exact hc
  · intro _ i hlt
    have hlt : s.conn.highestClientStream < i := hlt
    obtain ⟨h1,h2⟩ := h.fresh hres i hlt
    have hi : ¬ id = i := by omega
    refine ⟨h1,?_⟩
    have hc : sentOn (s.conn.out ++ [writeFrame Kind.data 0 id data]) i = 0 := by
      rw [hon,if_neg hi,h2]
    exact hc

theorem run_windows (hr : Runs (stepRel Sys.step) (Sys.new maxBody) as s) : Windows maxBody as s := by
  refine (hr.invariant (I := fun as s => Runs (stepRel Sys.step) (Sys.new maxBody) as s ∧ Windows maxBody as s)
    ⟨.nil,.new maxBody⟩ ?_).2
  rintro as s a s' _ ⟨hr,h⟩ hstep
  refine ⟨hr.snoc hstep,?_⟩
  obtain ⟨hl,-⟩ := run_anchored hr
  have hw := run_wired hr
  have hsend {id : ℕ} {ks : List UInt8} (hid : id ∈ s.conn.running) (ho : Own s s' id ks) (hs : Sends s id s')
      (ha : ∀ f w, a ≠ .frame f w) : Windows maxBody (as ++ [a]) s' := by
    have hres : s'.conn.result = none → s.conn.result = none := fun hr => ho.result ▸ hr
    cases hs with
    | idle hi => exact h.idle hr hi ho.streams ho.highest hres ha
    | @data data c hn hi =>
      have hle := hl.tasksKnown id hid
      have hs := h.send (Nat.lt_of_le_of_lt hle hw) hle hn
      have hsend := Own.send hn
      refine hs.idle hr hi ?_ ?_ ?_ ha
      · exact ho.streams.trans hsend.streams.symm
      · exact ho.highest.trans hsend.highest.symm
      · intro hr'
        exact hsend.result.trans (hres hr')
  cases Sys.step_cases hstep with
  | @reads _ _ c hres he hc h' =>
    rw [h']
    obtain ⟨hto,hon⟩ := sums_silent (next_silently (he.imp (by rintro ⟨f,_,_,h⟩; exact ⟨f,h⟩) (by rintro ⟨r,_,h⟩; exact ⟨r,h⟩)) hc)
    have hto' : sentTotal (if s.gone = true then s.conn.out else c.out) = sentTotal s.conn.out := by
      split
      · rfl
      · exact hto
    have hon' (i : ℕ) : sentOn (if s.gone = true then s.conn.out else c.out) i = sentOn s.conn.out i := by
      split
      · rfl
      · exact hon i
    rcases he with ⟨f,wire,rfl,rfl⟩ | ⟨r,rfl,rfl⟩
    · exact h.frame hr hl hc hto' hon'
    · simp only [next,hres,Option.isSome_none,Bool.false_eq_true,if_false,Option.some.injEq] at hc
      subst hc
      refine h.idle hr ⟨?_,rfl,rfl,rfl,fun _ => rfl⟩ rfl rfl (by intro hr'; cases hr') (by intro _ _ he; cases he)
      cases hg : s.gone with
      | true => exact ⟨[],by simp,by simp⟩
      | false =>
        obtain ⟨new,ho,hn⟩ := (Quietly.shutdown s.conn r).silently
        exact ⟨new,by simpa using ho,fun b hb => Or.inl (hn b hb).1⟩
  | turn hid ht => exact hsend hid ht.own ht.sends (by intro _ _ he; cases he)
  | reply hid _ ha => exact hsend hid ha.own (.idle ha.idle) (by intro _ _ he; cases he)
  | writerGone hg =>
    rw [hg]
    exact h.idle hr (.same rfl) rfl rfl (fun hr => hr) (by intro _ _ he; cases he)

end Run

end OxiServe.Http2
