import OxiServe.Http2.HpackSync

/-! # The limit on the peer's dynamic table

A decoder never lets a header block take its table past the limit set from
outside. The limit of a connection starts at the default the server keeps to;
the SETTINGS of the peer are the only thing that moves it.
-/
namespace OxiServe.Hpack
open BoundedFifo

/-- The size is counted exactly and both limits are kept. -/
structure Decoder.Bounded (d : Decoder) : Prop where
  size : d.size = total entrySize d.dynamic
  fits : total entrySize d.dynamic ≤ d.maxSize
  capped : d.maxSize ≤ d.settingsMax

/-- What a header block may change: the table and its size, under the same limit. -/
structure Decoder.Follows (d d' : Decoder) : Prop where
  limit : d'.settingsMax = d.settingsMax
  bounded : d.Bounded → d'.Bounded

namespace Decoder
variable {d d' : Decoder}

theorem bounded_new (n : ℕ) : (Decoder.new n).Bounded := ⟨rfl,Nat.zero_le n,Nat.le_refl n⟩

theorem Follows.refl (d : Decoder) : d.Follows d := ⟨rfl,fun h => h⟩

theorem Follows.trans {e : Decoder} (h : d.Follows d') (h' : d'.Follows e) : d.Follows e :=
  ⟨h'.limit.trans h.limit,fun hb => h'.bounded (h.bounded hb)⟩

theorem evict_bounded (hs : d.size = total entrySize d.dynamic) (hc : d.maxSize ≤ d.settingsMax) :
    d.evict.Bounded := by
  obtain ⟨hdyn,hsize⟩ := evict_dynamic hs
  refine ⟨?_,?_,hc⟩
  · rw [hsize,hdyn]
  · rw [hdyn]
    exact total_fit_le entrySize _ _

theorem Follows.insert (d : Decoder) (h : Header) : d.Follows (d.insert h) := by
  unfold Decoder.insert
  split
  · exact ⟨rfl,fun hb => ⟨rfl,Nat.zero_le _,hb.capped⟩⟩
  · refine ⟨rfl,fun hb => evict_bounded ?_ hb.capped⟩
    simp [hb.size,Nat.add_comm]

theorem Follows.resize (d : Decoder) {n : ℕ} (hn : n ≤ d.settingsMax) : d.Follows { d with maxSize := n }.evict :=
  ⟨rfl,fun hb => evict_bounded hb.size hn⟩

/-- The limit it already has changes nothing in a decoder. -/
theorem setMaxSize_same (hc : d.maxSize ≤ d.settingsMax) : d.setMaxSize d.settingsMax = d := by
  simp only [setMaxSize]
  rw [if_neg (Nat.not_lt.mpr hc)]

theorem bind_eq_ok {ε α β : Type} {x : Except ε α} {g : α → Except ε β} {b : β} :
    x >>= g = .ok b ↔ ∃ a, x = .ok a ∧ g a = .ok b := by
  cases x with
  | error e => simp [bind,Except.bind]
  | ok a => simp [bind,Except.bind]

theorem field_follows {maxList : ℕ} {p q : Progress} {first : UInt8} (h : field maxList p first = .ok q) :
    p.dec.Follows q.dec := by
  unfold field at h
  split at h
  · obtain ⟨r,-,h⟩ := bind_eq_ok.mp h
    obtain ⟨f,-,h⟩ := bind_eq_ok.mp h
    obtain ⟨n,-,h⟩ := bind_eq_ok.mp h
    cases h
    exact .refl _
  split at h
  · obtain ⟨r,-,h⟩ := bind_eq_ok.mp h
    obtain ⟨f,-,h⟩ := bind_eq_ok.mp h
    obtain ⟨n,-,h⟩ := bind_eq_ok.mp h
    cases h
    exact .insert _ _
  split at h
  · split at h
    · cases h
    obtain ⟨r,-,h⟩ := bind_eq_ok.mp h
    dsimp only at h
    split at h
    · cases h
    rename_i hn
    cases h
    exact .resize _ (Nat.not_lt.mp hn)
  · obtain ⟨r,-,h⟩ := bind_eq_ok.mp h
    obtain ⟨f,-,h⟩ := bind_eq_ok.mp h
    obtain ⟨n,-,h⟩ := bind_eq_ok.mp h
    cases h
    exact .refl _

theorem decodeLoop_follows (maxList fuel : ℕ) (p : Progress) : p.dec.Follows (decodeLoop maxList fuel p).1.dec := by
  induction fuel generalizing p with
  | zero => exact .refl _
  | succ fuel ih =>
    unfold decodeLoop
    split
    · exact .refl _
    · rename_i first rest _
      cases hf : field maxList p first with
      | error e => exact .refl _
      | ok q => exact (field_follows hf).trans (ih q)

/-- Whatever a block says, and also when it is refused. -/
theorem decode_follows (d : Decoder) (block : Bytes) (maxList : ℕ) : d.Follows (d.decode block maxList).1 :=
  decodeLoop_follows maxList block.length ⟨d,block,0,false,[]⟩

end Decoder

end OxiServe.Hpack

namespace OxiServe.Http2
open Conn Hpack

section Arms

theorem resetStream_dec (c : Conn) (i : ℕ) (code : Code) : (c.resetStream i code).dec = c.dec :=
  (Aside.resetStream c i code).sameBlocks.dec

theorem finishBlock_follows (c : Conn) (i : ℕ) : c.dec.Follows (c.finishBlock i).1.dec := by
  unfold finishBlock
  cases hst : c.streams.get? i with
  | none => exact .refl _
  | some st =>
    have hd := c.dec.decode_follows st.pending maxHeaderList
    dsimp only
    repeat' split
    all_goals first
      | exact hd
      | (rw [resetStream_dec]; exact hd)

theorem closeBlock_follows {c : Conn} {d : Decoder} (hd : c.dec = d) (f : Frame) :
    d.Follows (c.closeBlock f).1.dec := by
  subst hd
  have h := finishBlock_follows c f.head.stream
  unfold closeBlock
  split
  · rename_i hf
    rwa [hf] at h
  · rename_i hf
    rwa [hf] at h

theorem openBlock_follows {c : Conn} {d : Decoder} (hd : c.dec = d) (f : Frame) :
    d.Follows (c.openBlock f).1.dec := by
  subst hd
  unfold openBlock
  split
  · apply closeBlock_follows
    rfl
  · exact .refl _

theorem onBlock_follows (c : Conn) (f : Frame) (block : Bytes) : c.dec.Follows (c.onBlock f block).1.dec := by
  have htrailers : c.dec.Follows (c.onTrailers f block).1.dec := by
    unfold onTrailers
    split
    · rw [resetStream_dec]
      exact .refl _
    · split
      · exact .refl _
      · apply openBlock_follows
        rfl
  unfold onBlock
  split
  · exact htrailers
  · exact htrailers
  · exact .refl _
  · exact .refl _
  · unfold onNewStream
    dsimp only
    split
    · exact .refl _
    split
    · exact .refl _
    · apply openBlock_follows
      rfl

theorem onHeaders_follows (c : Conn) (f : Frame) : c.dec.Follows (c.onHeaders f).1.dec := by
  have hh : c.onHeaders f = ((c.onHeaders f).1,(c.onHeaders f).2) := rfl
  rcases onHeaders_cases hh with h | ⟨-,-,h⟩ | ⟨h,-⟩
  · have hb := onBlock_follows c f (fragment f)
    rwa [h] at hb
  · rw [h]
    exact .refl _
  · rw [h]
    exact .refl _

theorem onContinuation_follows (c : Conn) (f : Frame) : c.dec.Follows (c.onContinuation f).1.dec := by
  unfold onContinuation
  split
  · exact .refl _
  split
  · exact .refl _
  split
  · exact .refl _
  · dsimp only
    split
    · apply closeBlock_follows
      rfl
    · exact .refl _

end Arms

section Settings

/-- The peer names no other table size than the one this server keeps to. -/
def keepsTableSize (ps : List (ℕ × ℕ)) : Bool :=
  ps.all (fun p => p.1 != Setting.headerTableSize || p.2 == tableLimit)

theorem applySetting_dec {c : Conn} (hb : c.dec.Bounded) (hl : c.dec.settingsMax = tableLimit) {i v : ℕ}
    (hv : i = Setting.headerTableSize → v = tableLimit) : (c.applySetting i v).1.dec = c.dec := by
  unfold applySetting
  repeat' split
  all_goals try rfl
  rename_i hi
  rw [hv hi,← hl]
  exact Decoder.setMaxSize_same hb.capped

theorem applySettings_dec {c : Conn} (hb : c.dec.Bounded) (hl : c.dec.settingsMax = tableLimit)
    {ps : List (ℕ × ℕ)} (hk : keepsTableSize ps = true) : (c.applySettings ps).1.dec = c.dec := by
  induction ps generalizing c with
  | nil => rfl
  | cons p ps ih =>
    obtain ⟨i,v⟩ := p
    simp only [keepsTableSize,List.all_cons,Bool.and_eq_true,Bool.or_eq_true,bne_iff_ne,beq_iff_eq] at hk
    have hone := applySetting_dec hb hl (i := i) (v := v) (fun hi => hk.1.resolve_left (fun hn => hn hi))
    unfold applySettings
    split
    · rename_i d e hd
      rw [hd] at hone
      exact hone
    · rename_i d hd
      rw [hd] at hone
      dsimp only at hone
      rw [ih (c := d) (hone ▸ hb) (hone ▸ hl) hk.2,hone]

theorem onSettings_dec {c : Conn} (hb : c.dec.Bounded) (hl : c.dec.settingsMax = tableLimit) {f : Frame}
    (hk : keepsTableSize (settingsPairs f.payload) = true) : (c.onSettings f).1.dec = c.dec := by
  have hps := applySettings_dec hb hl hk
  unfold onSettings
  split
  · rfl
  split
  · split <;> rfl
  split
  · rfl
  split
  · rename_i hd
    rwa [hd] at hps
  · rename_i hd
    rwa [hd] at hps

end Settings

section Runs

/-- The server's own limit is in force and the table within it. -/
structure Enforced (c : Conn) : Prop where
  bounded : c.dec.Bounded
  limit : c.dec.settingsMax = tableLimit

theorem Enforced.total_le {c : Conn} (h : Enforced c) : BoundedFifo.total entrySize c.dec.dynamic ≤ tableLimit := by
  have h1 := h.bounded.fits
  have h2 := h.bounded.capped
  rw [h.limit] at h2
  omega

theorem Enforced.follows {c c' : Conn} (h : Enforced c) (hf : c.dec.Follows c'.dec) : Enforced c' :=
  ⟨hf.bounded h.bounded,hf.limit.trans h.limit⟩

theorem dispatch_dec (c : Conn) : c.dispatch.dec = c.dec := by
  refine dispatch_induction (P := fun d => d.dec = c.dec) rfl ?_
  intro d i _ hd _ _
  rw [(dispatchOne_blocks d i).1.dec,hd]

/-- The steps that name no other table size. -/
def KeepsTableSize (_ : Conn) : Event → Prop
  | .frame f => f.head.kind = Kind.settings → keepsTableSize (settingsPairs f.payload) = true
  | _ => True

/-- An arm leaves the decoder to the header block it completes; SETTINGS leave
it as it is. -/
theorem arm_dec {c : Conn} {f : Frame} (h : Enforced c) (hg : KeepsTableSize c (.frame f)) :
    c.dec.Follows (c.arm f).1.dec ∧ (f.head.kind = Kind.settings → (c.arm f).1.dec = c.dec) := by
  have hside {d : Conn} (hd : Aside c d) : c.dec.Follows d.dec := by
    rw [hd.sameBlocks.dec]
    exact .refl _
  unfold arm
  split
  · rename_i hk
    exact ⟨hside (onData_aside c f),fun hs => absurd (hk.symm.trans hs) (by decide)⟩
  split
  · rename_i hk
    exact ⟨onHeaders_follows c f,fun hs => absurd (hk.symm.trans hs) (by decide)⟩
  split
  · rename_i hk
    exact ⟨onContinuation_follows c f,fun hs => absurd (hk.symm.trans hs) (by decide)⟩
  split
  · rename_i hk
    exact ⟨hside (onPriority_aside c f),fun hs => absurd (hk.symm.trans hs) (by decide)⟩
  split
  · rename_i hk
    exact ⟨hside (onRstStream_aside c f),fun hs => absurd (hk.symm.trans hs) (by decide)⟩
  split
  · rename_i hk
    have hd := onSettings_dec h.bounded h.limit (hg hk)
    refine ⟨?_,fun _ => hd⟩
    rw [hd]
    exact .refl _
  rename_i hk
  repeat' split
  · exact ⟨hside (onPing_aside c f),fun hs => absurd hs hk⟩
  · exact ⟨hside (onWindowUpdate_aside c f),fun hs => absurd hs hk⟩
  · exact ⟨.refl _,fun hs => absurd hs hk⟩
  · exact ⟨.refl _,fun hs => absurd hs hk⟩
  · exact ⟨.refl _,fun hs => absurd hs hk⟩

example : ((Conn.new 0).arm (.of Kind.settings 0 0 [])).1.dec.size = 0 := by decide +kernel

theorem next_dec {c c' : Conn} {e : Event} (h : Enforced c) (hg : KeepsTableSize c e) (hn : c.next e = some c') :
    c.dec.Follows c'.dec ∧ (∀ f, e = .frame f → f.head.kind = Kind.settings → c'.dec = c.dec) := by
  cases e with
  | frame f =>
    rcases next_cases hn with ⟨g,d,n,he,-,ha,hd⟩ | ⟨r,rfl⟩ | ⟨_,_,he,-⟩ | ⟨_,he,-⟩
    · cases he
      have harm := arm_dec h hg
      rw [ha] at harm
      have hdec : c'.dec = d.dec := by
        rcases hd with ⟨-,rfl⟩ | ⟨-,rfl⟩ | ⟨r,rfl⟩
        · exact dispatch_dec d
        · rfl
        · rfl
      rw [hdec]
      refine ⟨harm.1,?_⟩
      intro g hg hk
      cases hg
      exact harm.2 hk
    · exact ⟨.refl _,fun _ _ _ => rfl⟩
    · cases he
    · cases he
  | hangUp r =>
    simp only [next] at hn
    split at hn
    · cases hn
    · cases hn
      exact ⟨.refl _,(by intro _ hf; cases hf)⟩
  | send i data =>
    simp only [next] at hn
    split at hn
    · cases hn
      exact ⟨.refl _,(by intro _ hf; cases hf)⟩
    · cases hn
  | finish i =>
    simp only [next] at hn
    split at hn
    · cases hn
      exact ⟨.refl _,(by intro _ hf; cases hf)⟩
    · cases hn

theorem enforced_new (maxBody : ℕ) : Enforced (Conn.new maxBody) := ⟨Decoder.bounded_new 4096,rfl⟩

/-- The limit in force is the server's own and the table is within it. -/
structure OwnsTable (c : Conn) : Prop where
  limit : c.dec.settingsMax = tableLimit
  within : BoundedFifo.total entrySize c.dec.dynamic ≤ tableLimit

/-- A SETTINGS frame removes entries the peer may still refer to. -/
def SettingsEvict (c : Conn) (e : Event) (c' : Conn) : Prop :=
  ∃ f, e = .frame f ∧ f.head.kind = Kind.settings ∧ c'.dec.dynamic ≠ c.dec.dynamic

/-- As long as the peer names no other table size, the limit is the server's own. -/
theorem run_ownsTable (maxBody : ℕ) (es : List Event) (c : Conn)
    (hr : Runs (Runs.guarded (stepRel Conn.next) KeepsTableSize) (Conn.new maxBody) es c) :
    OwnsTable c ∧ ∀ e c', KeepsTableSize c e → c.next e = some c' → ¬ SettingsEvict c e c' := by
  have hinv : Enforced c := by
    refine hr.invariant (I := fun _ d => Enforced d) (enforced_new maxBody) ?_
    intro _ d e d' _ hd hs
    exact hd.follows (next_dec hd hs.1 hs.2).1
  refine ⟨⟨hinv.limit,hinv.total_le⟩,?_⟩
  rintro e c' hg hn ⟨f,he,hk,hne⟩
  exact hne (congrArg Decoder.dynamic ((next_dec hinv hg hn).2 f he hk))

instance (c : Conn) (e : Event) : Decidable (KeepsTableSize c e) :=
  match e with
  | .frame f => inferInstanceAs (Decidable
      (f.head.kind = Kind.settings → keepsTableSize (settingsPairs f.payload) = true))
  | .hangUp _ => inferInstanceAs (Decidable True)
  | .send _ _ => inferInstanceAs (Decidable True)
  | .finish _ => inferInstanceAs (Decidable True)

def settingsFrame (ps : List (ℕ × ℕ)) : Event :=
  .frame (.of Kind.settings 0 0 (ps.flatMap (fun p => toBe 2 p.1 ++ toBe 4 p.2)))

def defaultSize : List Event := [sampleRequest,settingsFrame [(Setting.headerTableSize,4096)]]

theorem defaultSize_ownsTable : ∃ c,
    Runs (Runs.guarded (stepRel Conn.next) KeepsTableSize) (Conn.new 0) defaultSize c ∧
      c.dec.dynamic = [⟨[97],[98]⟩] ∧ OwnsTable c := by
  have h : (runList (fun c e => if KeepsTableSize c e then c.next e else none) (Conn.new 0) defaultSize).map
      (fun c => c.dec.dynamic) = some [⟨[97],[98]⟩] := by
    decide +kernel
  obtain ⟨c,hc,hd⟩ := Option.map_eq_some_iff.mp h
  have hr := Runs.guarded_of_runList hc
  exact ⟨c,hr,hd,(run_ownsTable 0 defaultSize c hr).1⟩

/-- A table size update to 8192 and one entry of more than 4096 bytes. -/
def largeEntry : Event :=
  .frame (.of Kind.headers (Flag.endStream ||| Flag.endHeaders) 1
    (writeInt 8192 5 0x20 ++ [0x40,1,97] ++ writeInt 4200 7 0 ++ List.replicate 4200 98))

theorem peerSettings_moveLimit :
    (∃ c, Runs (stepRel Conn.next) (Conn.new 0) [settingsFrame [(Setting.headerTableSize,8192)],largeEntry] c ∧
      c.dec.settingsMax ≠ tableLimit ∧ tableLimit < BoundedFifo.total entrySize c.dec.dynamic) ∧
    ∃ c c', Runs (stepRel Conn.next) (Conn.new 0) [sampleRequest] c ∧
      c.next (settingsFrame [(Setting.headerTableSize,0)]) = some c' ∧
      SettingsEvict c (settingsFrame [(Setting.headerTableSize,0)]) c' := by
  constructor
  · have h : (runList Conn.next (Conn.new 0) [settingsFrame [(Setting.headerTableSize,8192)],largeEntry]).map
        (fun c => (c.dec.settingsMax,BoundedFifo.total entrySize c.dec.dynamic)) = some (8192,4233) := by
      decide +kernel
    obtain ⟨c,hc,hd⟩ := Option.map_eq_some_iff.mp h
    simp only [Prod.mk.injEq] at hd
    refine ⟨c,Runs.of_runList hc,?_,?_⟩
    · rw [hd.1]
      decide
    · rw [hd.2]
      decide
  · have h : (runList Conn.next (Conn.new 0) [sampleRequest]).map (fun c => (c.dec.dynamic,
        (c.next (settingsFrame [(Setting.headerTableSize,0)])).map (fun c' => c'.dec.dynamic))) =
          some ([⟨[97],[98]⟩],some []) := by
      decide +kernel
    obtain ⟨c,hc,hd⟩ := Option.map_eq_some_iff.mp h
    simp only [Prod.mk.injEq,Option.map_eq_some_iff] at hd
    obtain ⟨hdyn,c',hn,hdyn'⟩ := hd
    refine ⟨c,c',Runs.of_runList hc,hn,_,rfl,rfl,?_⟩
    rw [hdyn,hdyn']
    simp

end Runs

end OxiServe.Http2
