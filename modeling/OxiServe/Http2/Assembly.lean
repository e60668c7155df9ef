import OxiServe.Http2.HpackSync
import OxiServe.Http2.Moves

/-! # How a request is assembled

The history of a connection says what was received on each stream: the data,
the header blocks and the end of the request. An entry of the stream table that
was neither handed over nor reset holds exactly that.
-/
namespace OxiServe.Http2
open Conn Hpack

section History

def Event.isOn (i : ℕ) : Event → Bool
  | .frame f => f.head.stream = i
  | _ => false

/-- The data a frame carries for a stream, without its padding. -/
def Frame.dataOn (i : ℕ) (f : Frame) : Bytes :=
  if f.head.kind = Kind.data ∧ f.head.stream = i then (unpad f.payload (f.head.has Flag.padded)).getD [] else []

def Event.dataOn (i : ℕ) : Event → Bytes
  | .frame f => f.dataOn i
  | _ => []

/-- The data received on a stream, in the order it arrived. -/
def dataOf (i : ℕ) (es : List Event) : Bytes := es.flatMap (Event.dataOn i)

/-- The header blocks received on a stream. -/
def collectOn (i : ℕ) (es : List Event) : Collected := collect (es.filter (Event.isOn i))

/-- The frames that carry END_STREAM for a stream. -/
def Frame.endsOn (i : ℕ) (f : Frame) : Bool :=
  f.head.stream = i && (f.head.kind = Kind.data || f.head.kind = Kind.headers) && f.head.has Flag.endStream

def EndSeen (i : ℕ) (es : List Event) : Prop := ∃ f, .frame f ∈ es ∧ f.endsOn i = true

/-- A frame with END_HEADERS completed a header block of the stream, which the
decoder, as it stood then, read as `hs`. -/
def HeadersOf (maxBody i : ℕ) (es : List Event) (hs : List Header) : Prop :=
  ∃ ks g ls c block, es = ks ++ .frame g :: ls ∧ Runs (stepRel Conn.next) (Conn.new maxBody) ks c ∧
    g.head.stream = i ∧ (g.head.kind = Kind.headers ∨ g.head.kind = Kind.continuation) ∧
    g.head.has Flag.endHeaders = true ∧ (collectOn i (ks ++ [.frame g])).complete.getLast? = some block ∧
    (c.dec.decode block maxHeaderList).2 = (hs,.ok ())

variable {maxBody i : ℕ} {es : List Event} {e : Event} {f : Frame}

theorem dataOf_snoc (i : ℕ) (es : List Event) (e : Event) : dataOf i (es ++ [e]) = dataOf i es ++ e.dataOn i := by
  simp [dataOf]

theorem collectOn_snoc (i : ℕ) (es : List Event) (e : Event) :
    collectOn i (es ++ [e]) = if e.isOn i = true then (collectOn i es).event e else collectOn i es := by
  unfold collectOn
  rw [List.filter_append]
  by_cases h : e.isOn i = true
  · rw [if_pos h,← collect_snoc]
    simp [h]
  · rw [if_neg h]
    simp [h]

theorem EndSeen.snoc (h : EndSeen i es) (e : Event) : EndSeen i (es ++ [e]) := by
  obtain ⟨f,hf,he⟩ := h
  exact ⟨f,List.mem_append_left _ hf,he⟩

theorem endSeen_last (es : List Event) (h : f.endsOn i = true) : EndSeen i (es ++ [.frame f]) :=
  ⟨f,List.mem_append_right _ (List.mem_singleton.mpr rfl),h⟩

theorem HeadersOf.snoc {hs : List Header} (h : HeadersOf maxBody i es hs) (e : Event) :
    HeadersOf maxBody i (es ++ [e]) hs := by
  obtain ⟨ks,g,ls,c,block,rfl,hrest⟩ := h
  exact ⟨ks,g,ls ++ [e],c,block,by simp,hrest⟩

theorem dataOn_of_kind (hk : f.head.kind ≠ Kind.data) : (Event.frame f).dataOn i = [] := by
  simp [Event.dataOn,Frame.dataOn,hk]

theorem dataOn_of_ne (hi : i ≠ f.head.stream) : (Event.frame f).dataOn i = [] := by
  simp [Event.dataOn,Frame.dataOn,Ne.symm hi]

/-- Events that carry nothing for the stream: no header block and no data. -/
structure Passes (i : ℕ) (e : Event) : Prop where
  data : e.dataOn i = []
  block : ∀ s : Collected, e.isOn i = true → (s.event e).pending = s.pending

theorem passes_of_ne (hi : i ≠ f.head.stream) : Passes i (.frame f) where
  data := dataOn_of_ne hi
  block := by
    intro s hs
    simp only [Event.isOn,decide_eq_true_eq] at hs
    exact absurd hs.symm hi

theorem passes_of_kind (hd : f.head.kind ≠ Kind.data) (hh : f.head.kind ≠ Kind.headers)
    (hc : f.head.kind ≠ Kind.continuation) : Passes i (.frame f) where
  data := dataOn_of_kind hd
  block := by
    intro s _
    simp [Collected.event,Collected.frame,hh,hc]

theorem Passes.pending (h : Passes i e) (es : List Event) :
    (collectOn i (es ++ [e])).pending = (collectOn i es).pending := by
  rw [collectOn_snoc]
  split
  · rename_i hi
    exact h.block _ hi
  · rfl

end History

section Entries

/-- The declared length of a header list: its first content-length, if it is a number. -/
def declaredLength (hs : List Header) : Option ℕ :=
  (hs.find? (fun h => h.name == lit "content-length")).bind (fun h => parseUnsigned 64 h.value)

/-- A request that was neither handed over nor reset. -/
def Stream.isPending (st : Stream) : Bool := !st.dispatched && st.state != .reset

/-- An entry holds what was received on its stream; `waits` says that its header
block is still open. -/
structure Heard (maxBody : ℕ) (es : List Event) (i : ℕ) (waits : Prop) (st : Stream) : Prop where
  body : st.body = dataOf i es
  ended : st.state = .halfClosedRemote → EndSeen i es
  headers : st.headersDone = true → HeadersOf maxBody i es st.headers ∧ st.contentLength = declaredLength st.headers
  block : waits → st.pending = (collectOn i es).pending
  fits : st.body.length ≤ maxBody

/-- Every pending entry of the table is heard, and nothing was received on an
idle id. -/
structure Assembled (maxBody : ℕ) (es : List Event) (c : Conn) : Prop where
  heard : ∀ i st, c.streams.get? i = some st → st.isPending = true →
    Heard maxBody es i (c.expectContinuation = some i) st
  fresh : ∀ i, c.highestClientStream < i → dataOf i es = []
  limit : c.clientMaxBodySize = maxBody

variable {maxBody i : ℕ} {es : List Event} {e : Event} {p q : Prop} {st : Stream}

theorem not_pending_of_reset (h : st.state = .reset) : st.isPending ≠ true := by
  simp [Stream.isPending,h]

theorem not_pending_of_dispatched (h : st.dispatched = true) : st.isPending ≠ true := by
  simp [Stream.isPending,h]

theorem Heard.passes (h : Heard maxBody es i p st) (he : Passes i e) (hq : q → p) :
    Heard maxBody (es ++ [e]) i q st where
  body := by
    rw [dataOf_snoc,he.data,List.append_nil]
    exact h.body
  ended := fun hs => (h.ended hs).snoc e
  headers := fun hd => ⟨(h.headers hd).1.snoc e,(h.headers hd).2⟩
  block := fun hp => (h.block (hq hp)).trans (he.pending es).symm
  fits := h.fits

/-- A header block frame leaves the body of its stream alone. -/
theorem Heard.blockFrame (h : Heard maxBody es i p st) {f : Frame} (hk : f.head.kind ≠ Kind.data) :
    Heard maxBody (es ++ [.frame f]) i False st where
  body := by
    rw [dataOf_snoc,dataOn_of_kind hk,List.append_nil]
    exact h.body
  ended := fun hs => (h.ended hs).snoc _
  headers := fun hd => ⟨(h.headers hd).1.snoc _,(h.headers hd).2⟩
  block := False.elim
  fits := h.fits

end Entries

section Blocks
variable {maxBody i : ℕ} {es : List Event} {c b d : Conn} {f : Frame} {st st' : Stream}

theorem collectOn_complete (hs : f.head.stream = i) (he : f.head.has Flag.endHeaders = true) {s : Collected}
    {block : Bytes} (hb : s.frame f = s.add f block) (hc : collectOn i es = s) :
    (collectOn i (es ++ [.frame f])).complete.getLast? = some block := by
  have hon : (Event.frame f).isOn i = true := by simp [Event.isOn,hs]
  rw [collectOn_snoc,if_pos hon,hc]
  simp [Collected.event,hb,Collected.add,he]

/-- The end of a header block: the entry takes the list the decoder read. -/
theorem finishBlock_heard (hr : Runs (stepRel Conn.next) (Conn.new maxBody) es c) (hdec : b.dec = c.dec)
    (hexp : b.expectContinuation = none) (hst : b.streams.get? f.head.stream = some st)
    (hh : st.isPending = true → Heard maxBody (es ++ [.frame f]) f.head.stream False st)
    (hk : f.head.kind = Kind.headers ∨ f.head.kind = Kind.continuation) (hend : f.head.has Flag.endHeaders = true)
    (hblock : st.isPending = true → (collectOn f.head.stream (es ++ [.frame f])).complete.getLast? = some st.pending)
    (hf : b.finishBlock f.head.stream = (d,none)) (hst' : d.streams.get? f.head.stream = some st')
    (hp : st'.isPending = true) :
    Heard maxBody (es ++ [.frame f]) f.head.stream (d.expectContinuation = some f.head.stream) st' := by
  have hwait : ¬ d.expectContinuation = some f.head.stream := by
    rw [(finishBlock_blocks hst hf).1.expect]
    simp [feed,modifyStream,hexp]
  have hfed : (b.feed f.head.stream st.pending).streams.get? f.head.stream = some { st with pending := [] } := by
    simp [feed,modifyStream,KeyMap.get?_modify,hst]
  simp only [finishBlock,hst] at hf
  cases hres : (b.dec.decode st.pending maxHeaderList).2.2 with
  | error e =>
    rw [hres] at hf
    cases e with
    | compression => cases hf
    | tooLarge =>
      cases hf
      rw [get?_resetStream,hfed] at hst'
      cases hst'
      exact absurd hp (not_pending_of_reset rfl)
  | ok u =>
    rw [hres] at hf
    dsimp only at hf
    split at hf
    · split at hf
      · cases hf
        rw [get?_resetStream,hfed] at hst'
        cases hst'
        exact absurd hp (not_pending_of_reset rfl)
      · cases hf
        rw [hfed] at hst'
        cases hst'
        have h := hh hp
        exact ⟨h.body,h.ended,h.headers,fun hw => absurd hw hwait,h.fits⟩
    · cases hf
      simp only [modifyStream,KeyMap.get?_modify,if_true,hfed,Option.map_some,Option.some.injEq] at hst'
      subst hst'
      have h := hh hp
      refine ⟨h.body,h.ended,?_,fun hw => absurd hw hwait,h.fits⟩
      intro _
      refine ⟨⟨es,f,[],c,st.pending,rfl,hr,rfl,hk,hend,hblock hp,?_⟩,rfl⟩
      rw [← hdec,Prod.ext_iff]
      exact ⟨rfl,hres⟩

theorem closeBlock_none {n : Next} (hn : n = .dispatch ∨ n = .again) (h : b.closeBlock f = (d,n)) :
    b.finishBlock f.head.stream = (d,none) := by
  unfold closeBlock at h
  split at h
  · cases h
    rcases hn with hn | hn <;> cases hn
  · rename_i hf
    cases h
    exact hf

/-- A HEADERS frame that carries on with its fragment. -/
theorem openBlock_heard {n : Next} (hr : Runs (stepRel Conn.next) (Conn.new maxBody) es c)
    (hst : b.streams.get? f.head.stream = some st) (hdec : b.dec = c.dec) (hexp : b.expectContinuation = none)
    (hh : st.isPending = true → Heard maxBody (es ++ [.frame f]) f.head.stream False st)
    (hk : f.head.kind = Kind.headers) (hpend : st.pending = fragment f)
    (hn : n = .dispatch ∨ n = .again) (ho : b.openBlock f = (d,n)) (hst' : d.streams.get? f.head.stream = some st')
    (hp : st'.isPending = true) :
    Heard maxBody (es ++ [.frame f]) f.head.stream (d.expectContinuation = some f.head.stream) st' := by
  have hadd (s : Collected) : s.frame f = s.add f (fragment f) := by
    rw [Collected.frame,if_pos hk]
  unfold openBlock at ho
  split at ho
  · rename_i hend
    refine finishBlock_heard hr hdec hexp hst hh (Or.inl hk) hend ?_ (closeBlock_none hn ho) hst' hp
    intro _
    rw [hpend]
    exact collectOn_complete rfl hend (hadd _) rfl
  · rename_i hend
    cases ho
    dsimp only at hst'
    rw [hst] at hst'
    cases hst'
    have h := hh hp
    refine ⟨h.body,h.ended,h.headers,fun _ => ?_,h.fits⟩
    have hon : (Event.frame f).isOn f.head.stream = true := by simp [Event.isOn]
    rw [collectOn_snoc,if_pos hon,Collected.event,hadd,Collected.add,if_neg hend]
    exact hpend

theorem onTrailers_heard {n : Next} (hr : Runs (stepRel Conn.next) (Conn.new maxBody) es c)
    (ha : Assembled maxBody es c) (hexp : c.expectContinuation = none) (hk : f.head.kind = Kind.headers)
    (hw : c.stateOf f.head.stream = .opened ∨ c.stateOf f.head.stream = .halfClosed)
    (hn : n = .dispatch ∨ n = .again) (h : c.onTrailers f (fragment f) = (d,n))
    (hst' : d.streams.get? f.head.stream = some st') (hp : st'.isPending = true) :
    Heard maxBody (es ++ [.frame f]) f.head.stream (d.expectContinuation = some f.head.stream) st' := by
  have hkd : f.head.kind ≠ Kind.data := by rw [hk]; decide
  unfold onTrailers at h
  split at h
  · cases h
    rw [get?_resetStream] at hst'
    obtain ⟨st,-,rfl⟩ := Option.map_eq_some_iff.mp hst'
    exact absurd hp (not_pending_of_reset rfl)
  rename_i hend
  simp only [Bool.not_eq_true,Bool.not_eq_false'] at hend
  split at h
  · cases h
    rcases hn with hn | hn <;> cases hn
  rename_i st hst
  have hmod : (c.modifyStream f.head.stream (fun s =>
      { s with pending := fragment f, pendingIsTrailers := true, state := .halfClosedRemote })).streams.get?
        f.head.stream = some { st with pending := fragment f, pendingIsTrailers := true, state := .halfClosedRemote } := by
    simp [modifyStream,KeyMap.get?_modify,hst]
  have hlive : st.state ≠ .reset := by
    intro hreset
    simp [stateOf,hst,hreset] at hw
  refine openBlock_heard hr hmod rfl hexp ?_ hk rfl hn h hst' hp
  intro hpm
  have hps : st.isPending = true := by
    simp only [Stream.isPending,Bool.and_eq_true,Bool.not_eq_true',bne_iff_ne] at hpm ⊢
    exact ⟨hpm.1,hlive⟩
  have hh := (ha.heard f.head.stream st hst hps).blockFrame hkd
  refine ⟨hh.body,fun _ => ?_,hh.headers,False.elim,hh.fits⟩
  exact endSeen_last es (by simp [Frame.endsOn,hk,hend])

theorem onNewStream_heard {n : Next} (hr : Runs (stepRel Conn.next) (Conn.new maxBody) es c)
    (ha : Assembled maxBody es c) (hexp : c.expectContinuation = none) (hk : f.head.kind = Kind.headers)
    (hw : c.stateOf f.head.stream = .idle)
    (hn : n = .dispatch ∨ n = .again) (h : c.onNewStream f (fragment f) = (d,n))
    (hst' : d.streams.get? f.head.stream = some st') (hp : st'.isPending = true) :
    Heard maxBody (es ++ [.frame f]) f.head.stream (d.expectContinuation = some f.head.stream) st' := by
  have hkd : f.head.kind ≠ Kind.data := by rw [hk]; decide
  obtain ⟨hnone,hlt⟩ := stateOf_idle hw
  rw [onNewStream,if_neg (Nat.not_le.mpr hlt)] at h
  simp only at h
  split at h
  · cases h
    have := (get?_aim (c := c) (f := f) hst').1
    rw [hnone] at this
    cases this
  have hget : ((aim c f).insertStream f (fragment f)).streams.get? f.head.stream =
      some { Stream.new with
        state := if f.head.has Flag.endStream then .halfClosedRemote else .opened
        pending := fragment f } := by
    simp [insertStream,KeyMap.get?_insert]
  refine openBlock_heard hr hget rfl hexp ?_ hk rfl hn h hst' hp
  intro _
  refine ⟨?_,?_,?_,False.elim,Nat.zero_le _⟩
  · rw [dataOf_snoc,dataOn_of_kind hkd,ha.fresh _ hlt]
    rfl
  · intro hs
    by_cases hend : f.head.has Flag.endStream = true
    · exact endSeen_last es (by simp [Frame.endsOn,hk,hend])
    · simp [hend] at hs
  · intro hd
    cases hd

theorem onHeaders_heard {n : Next} (hr : Runs (stepRel Conn.next) (Conn.new maxBody) es c)
    (ha : Assembled maxBody es c) (hexp : c.expectContinuation = none) (hk : f.head.kind = Kind.headers)
    (hn : n = .dispatch ∨ n = .again) (h : c.onHeaders f = (d,n))
    (hst' : d.streams.get? f.head.stream = some st') (hp : st'.isPending = true) :
    Heard maxBody (es ++ [.frame f]) f.head.stream (d.expectContinuation = some f.head.stream) st' := by
  have hkd : f.head.kind ≠ Kind.data := by rw [hk]; decide
  have hfail {code : Code} {why : String} (h : c.fail code why = (d,n)) : False := by
    cases h
    rcases hn with hn | hn <;> cases hn
  rcases onHeaders_cases h with h1 | ⟨-,-,rfl⟩ | ⟨-,e,rfl⟩
  · unfold onBlock at h1
    split at h1
    · rename_i hw
      exact onTrailers_heard hr ha hexp hk (Or.inl hw) hn h1 hst' hp
    · rename_i hw
      exact onTrailers_heard hr ha hexp hk (Or.inr hw) hn h1 hst' hp
    · exact (hfail h1).elim
    · exact (hfail h1).elim
    · rename_i hw
      exact onNewStream_heard hr ha hexp hk hw hn h1 hst' hp
  · have hh := (ha.heard f.head.stream st' hst' hp).blockFrame hkd
    refine ⟨hh.body,hh.ended,hh.headers,fun hwait => ?_,hh.fits⟩
    have hwait : c.expectContinuation = some f.head.stream := hwait
    rw [hexp] at hwait
    cases hwait
  · rcases hn with hn | hn <;> cases hn

theorem onContinuation_heard {n : Next} (hr : Runs (stepRel Conn.next) (Conn.new maxBody) es c)
    (ha : Assembled maxBody es c) (hk : f.head.kind = Kind.continuation)
    (hn : n = .dispatch ∨ n = .again) (h : c.onContinuation f = (d,n))
    (hst' : d.streams.get? f.head.stream = some st') (hp : st'.isPending = true) :
    Heard maxBody (es ++ [.frame f]) f.head.stream (d.expectContinuation = some f.head.stream) st' := by
  have hkd : f.head.kind ≠ Kind.data := by rw [hk]; decide
  have hkh : f.head.kind ≠ Kind.headers := by rw [hk]; decide
  have hfail {code : Code} {why : String} (h : c.fail code why = (d,n)) : False := by
    cases h
    rcases hn with hn | hn <;> cases hn
  have hadd (s : Collected) : s.frame f = s.add f (s.pending ++ f.payload) := by
    rw [Collected.frame,if_neg hkh,if_pos hk]
  unfold onContinuation at h
  split at h
  · exact (hfail h).elim
  rename_i hexp
  simp only [ne_eq,Decidable.not_not] at hexp
  split at h
  · cases h
    rcases hn with hn | hn <;> cases hn
  rename_i st hst
  split at h
  · exact (hfail h).elim
  have hmod : (c.modifyStream f.head.stream (fun s => { s with pending := s.pending ++ f.payload })).streams.get?
      f.head.stream = some { st with pending := st.pending ++ f.payload } := by
    simp [modifyStream,KeyMap.get?_modify,hst]
  have hold (hps : st.isPending = true) : Heard maxBody (es ++ [.frame f]) f.head.stream False
      { st with pending := st.pending ++ f.payload } := by
    have hh := (ha.heard f.head.stream st hst hps).blockFrame hkd
    exact ⟨hh.body,hh.ended,hh.headers,False.elim,hh.fits⟩
  dsimp only at h
  split at h
  · rename_i hend
    refine finishBlock_heard (b := { c.modifyStream f.head.stream (fun s =>
      { s with pending := s.pending ++ f.payload }) with expectContinuation := none }) hr rfl rfl hmod
      hold (Or.inr hk) hend ?_ (closeBlock_none hn h) hst' hp
    intro hps
    have hpend := (ha.heard f.head.stream st hst hps).block hexp
    rw [hpend]
    exact collectOn_complete rfl hend (hadd _) rfl
  · rename_i hend
    cases h
    rw [hmod] at hst'
    cases hst'
    have hh := hold hp
    refine ⟨hh.body,hh.ended,hh.headers,fun _ => ?_,hh.fits⟩
    have hon : (Event.frame f).isOn f.head.stream = true := by simp [Event.isOn]
    rw [collectOn_snoc,if_pos hon,Collected.event,hadd,Collected.add,if_neg hend]
    dsimp only
    rw [(ha.heard f.head.stream st hst hp).block hexp]

theorem onData_heard {n : Next} (ha : Assembled maxBody es c) (hl : Ledger c) (hk : f.head.kind = Kind.data)
    (hn : n = .dispatch ∨ n = .again) (h : c.onData f = (d,n)) :
    f.head.stream ≤ c.highestClientStream ∧ ∀ st', d.streams.get? f.head.stream = some st' → st'.isPending = true →
      Heard maxBody (es ++ [.frame f]) f.head.stream (d.expectContinuation = some f.head.stream) st' := by
  have hfail {c : Conn} {code : Code} {why : String} (h : c.fail code why = (d,n)) : False := by
    cases h
    rcases hn with hn | hn <;> cases hn
  have hreset (b : Conn) (code : Code) (hd : b.resetStream f.head.stream code = d) :
      ∀ st', d.streams.get? f.head.stream = some st' → st'.isPending = true →
        Heard maxBody (es ++ [.frame f]) f.head.stream (d.expectContinuation = some f.head.stream) st' := by
    intro st' hst' hp
    rw [← hd,get?_resetStream] at hst'
    obtain ⟨st,-,rfl⟩ := Option.map_eq_some_iff.mp hst'
    exact absurd hp (not_pending_of_reset rfl)
  unfold onData at h
  split at h
  · exact (hfail h).elim
  obtain ⟨out,w,he⟩ := replenish_eq { c with recvWindow := c.recvWindow - f.head.len }
  cases hu : unpad f.payload (f.head.has Flag.padded) with
  | none =>
    simp only [hu] at h
    exact (hfail h).elim
  | some data =>
    simp only [hu,he] at h
    have hst : ({ c with out := out, recvWindow := w } : Conn).stateOf f.head.stream = c.stateOf f.head.stream :=
      rfl
    rw [hst] at h
    cases hs : c.stateOf f.head.stream with
    | idle =>
      simp only [hs] at h
      exact (hfail h).elim
    | closed =>
      simp only [hs] at h
      exact (hfail h).elim
    | reset =>
      obtain ⟨st,hget,-⟩ := stateOf_entry hs (by simp) (by simp)
      simp only [hs] at h
      cases h
      exact ⟨hl.known _ st hget,hreset _ _ rfl⟩
    | halfClosed =>
      obtain ⟨st,hget,-⟩ := stateOf_entry hs (by simp) (by simp)
      simp only [hs] at h
      cases h
      exact ⟨hl.known _ st hget,hreset _ _ rfl⟩
    | opened =>
      obtain ⟨st,hget,hop⟩ := stateOf_entry hs (by simp) (by simp)
      simp only [reduceCtorEq,false_and,or_false,true_and] at hop
      refine ⟨hl.known _ st hget,?_⟩
      simp only [hs,hget] at h
      split at h
      · cases h
        exact hreset _ _ rfl
      · rename_i hlong
        cases h
        intro st' hst' hp
        simp only [modifyStream,KeyMap.get?_modify,if_true,hget,Option.map_some,Option.some.injEq] at hst'
        subst hst'
        have hps : st.isPending = true := by
          simp only [Stream.isPending,Bool.and_eq_true,Bool.not_eq_true',bne_iff_ne] at hp ⊢
          exact ⟨hp.1,by simp [hop]⟩
        have hh := ha.heard f.head.stream st hget hps
        refine ⟨?_,?_,?_,?_,?_⟩
        · rw [dataOf_snoc,← hh.body]
          simp [Event.dataOn,Frame.dataOn,hk,hu]
        · intro hs'
          by_cases hend : f.head.has Flag.endStream = true
          · exact endSeen_last es (by simp [Frame.endsOn,hk,hend])
          · simp [hend,hop] at hs'
        · intro hd
          exact ⟨(hh.headers hd).1.snoc _,(hh.headers hd).2⟩
        · intro hwait
          rw [collectOn_snoc]
          simp only [Event.isOn,decide_true,if_true,Collected.event,Collected.frame,hk]
          exact hh.block hwait
        · dsimp only at hlong ⊢
          rw [ha.limit] at hlong
          rw [List.length_append]
          omega

end Blocks

section Steps
variable {maxBody : ℕ} {es : List Event} {c d : Conn} {f : Frame}

/-- The arms that carry neither data nor a header block keep a pending entry or
reset it. -/
theorem arm_pending {st' : Stream} (hd : f.head.kind ≠ Kind.data) (hh : f.head.kind ≠ Kind.headers)
    (hc : f.head.kind ≠ Kind.continuation) (hst' : (c.arm f).1.streams.get? f.head.stream = some st')
    (hp : st'.isPending = true) :
    c.streams.get? f.head.stream = some st' ∧ (c.arm f).1.expectContinuation = c.expectContinuation := by
  have hreset (code : Code) (hs : (c.resetStream f.head.stream code).streams.get? f.head.stream = some st') :
      False := by
    rw [get?_resetStream] at hs
    obtain ⟨st,-,rfl⟩ := Option.map_eq_some_iff.mp hs
    exact not_pending_of_reset rfl hp
  revert hst'
  unfold arm
  rw [if_neg hd,if_neg hh,if_neg hc]
  split
  · unfold onPriority
    repeat' split
    all_goals exact fun hs => ⟨hs,rfl⟩
  split
  · unfold onRstStream
    split
    · exact fun hs => ⟨hs,rfl⟩
    split
    · exact fun hs => ⟨hs,rfl⟩
    split
    · exact fun hs => ⟨hs,rfl⟩
    split
    · intro hs
      simp only [modifyFlow,modifyStream,KeyMap.get?_modify,if_true] at hs
      obtain ⟨st,-,rfl⟩ := Option.map_eq_some_iff.mp hs
      exact absurd hp (not_pending_of_reset rfl)
    · exact fun hs => ⟨hs,rfl⟩
  split
  · unfold onSettings
    split
    · exact fun hs => ⟨hs,rfl⟩
    split
    · split <;> exact fun hs => ⟨hs,rfl⟩
    split
    · exact fun hs => ⟨hs,rfl⟩
    split
    · rename_i hap
      obtain ⟨dec,mf,w,rfl⟩ := applySettings_eq hap
      exact fun hs => ⟨hs,rfl⟩
    · rename_i hap
      obtain ⟨dec,mf,w,rfl⟩ := applySettings_eq hap
      exact fun hs => ⟨hs,rfl⟩
  split
  · unfold onPing
    repeat' split
    all_goals exact fun hs => ⟨hs,rfl⟩
  split
  · unfold onWindowUpdate
    repeat' split
    all_goals first
      | exact fun hs => ⟨hs,rfl⟩
      | exact fun hs => (hreset _ hs).elim
  · repeat' split
    all_goals exact fun hs => ⟨hs,rfl⟩

theorem Assembled.arm {n : Next} (h : Assembled maxBody es c) (hl : Ledger c)
    (hr : Runs (stepRel Conn.next) (Conn.new maxBody) es c)
    (hexp : c.expectContinuation = none ∨ f.head.kind = Kind.continuation) (hn : n = .dispatch ∨ n = .again)
    (ha : c.arm f = (d,n)) : Assembled maxBody (es ++ [.frame f]) d := by
  have honly := Only.arm c f
  rw [ha] at honly
  dsimp only at honly
  have hfirst (hk : f.head.kind ≠ Kind.continuation) : c.expectContinuation = none :=
    hexp.resolve_right hk
  constructor
  · intro i st' hst' hp
    by_cases hi : i = f.head.stream
    · subst hi
      by_cases hkd : f.head.kind = Kind.data
      · rw [Conn.arm,if_pos hkd] at ha
        exact (onData_heard h hl hkd hn ha).2 st' hst' hp
      by_cases hkh : f.head.kind = Kind.headers
      · rw [Conn.arm,if_neg hkd,if_pos hkh] at ha
        exact onHeaders_heard hr h (hfirst (by rw [hkh]; decide)) hkh hn ha hst' hp
      by_cases hkc : f.head.kind = Kind.continuation
      · rw [Conn.arm,if_neg hkd,if_neg hkh,if_pos hkc] at ha
        exact onContinuation_heard hr h hkc hn ha hst' hp
      have hst'' : (c.arm f).1.streams.get? f.head.stream = some st' := by
        rw [ha]
        exact hst'
      have hkeep := arm_pending hkd hkh hkc hst'' hp
      rw [ha] at hkeep
      refine (h.heard _ st' hkeep.1 hp).passes (passes_of_kind hkd hkh hkc) ?_
      rw [hkeep.2]
      exact fun hw => hw
    · exact (h.heard i st' (honly.others i st' hi hst') hp).passes (passes_of_ne hi) (honly.expect i hi)
  · intro i hi
    have hlow := Nat.lt_of_le_of_lt honly.highest hi
    rw [dataOf_snoc,h.fresh i hlow,List.nil_append]
    by_cases hkd : f.head.kind = Kind.data
    · rw [Conn.arm,if_pos hkd] at ha
      have hle := (onData_heard h hl hkd hn ha).1
      exact dataOn_of_ne (by omega)
    · exact dataOn_of_kind hkd
  · rw [honly.limit]
    exact h.limit

end Steps

end OxiServe.Http2
