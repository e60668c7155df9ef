import Mathlib.Data.List.TakeWhile
import OxiServe.Http3.Grammar

/-! # Requests by the grammar

The server's loop has no state for what came before. It lets through more frames
than the grammar, and fewer where an unknown frame comes first; and it takes a
stream that was broken off for one that has ended.
-/
namespace OxiServe.Http3
open Hpack (Header)
open Http2 (Handed Parsed parseHeaders)

section Requests
variable {fs rest : List (ℕ × Bytes)} {check : List Header → Bool} {maxBody : ℕ} {fields : List Header} {r : Handed}

def notHeaders (f : ℕ × Bytes) : Bool := f.1 != Kind.headers

/-- The payload of the first HEADERS frame. -/
def fieldSection (fs : List (ℕ × Bytes)) : Option Bytes := (fs.dropWhile notHeaders).head?.map Prod.snd

/-- The frames from the second HEADERS frame on. -/
def trailers (fs : List (ℕ × Bytes)) : List (ℕ × Bytes) := (fs.dropWhile notHeaders).tail.dropWhile notHeaders

/-- Trailers decode and pass the check. -/
def TrailersOk (check : List Header → Bool) (fs : List (ℕ × Bytes)) : Prop :=
  ∀ t, (trailers fs).head? = some t → ∃ ts, Qpack.decode t.2 maxFieldSection = .ok ts ∧ check ts = true

/-- The field section asks for `r` with the DATA payloads as its body, all within the limits. -/
def Asked (maxBody : ℕ) (fs : List (ℕ × Bytes)) (fields : List Header) (r : Handed) : Prop :=
  ∃ block parsed, fieldSection fs = some block ∧ block.length ≤ maxFieldSection ∧
    Qpack.decode block maxFieldSection = .ok fields ∧ parseHeaders fields = .ok parsed ∧
      (dataOf fs).length ≤ maxBody ∧ parsed.handOver (dataOf fs) = some r

/-- The frames that the server lets pass: HEADERS first, then anything but control
frames and reserved types. -/
def Passed (fs : List (ℕ × Bytes)) : Prop :=
  ∃ block rest, fs = (Kind.headers,block) :: rest ∧ ∀ f ∈ rest, sortOf f.1 ≠ .control ∧ sortOf f.1 ≠ .reserved

/-- A sequence by the grammar that starts with a frame of an unknown type. -/
def Greased (check : List Header → Bool) (fs : List (ℕ × Bytes)) : Prop :=
  (∃ f rest, fs = f :: rest ∧ sortOf f.1 = .unknown) ∧ FollowsGrammar fs ∧ TrailersOk check fs

/-- A sequence that passes with a push promise, with data or another field section
after the trailers, or with trailers that are not in order. -/
def LetThrough (check : List Header → Bool) (fs : List (ℕ × Bytes)) : Prop :=
  Passed fs ∧ ((∃ f ∈ fs, sortOf f.1 = .pushPromise) ∨
    (∃ f ∈ (trailers fs).tail, sortOf f.1 = .data ∨ sortOf f.1 = .headers) ∨ ¬ TrailersOk check fs)

theorem notHeaders_eq : notHeaders = (fun s => s != FrameSort.headers) ∘ (fun f : ℕ × Bytes => sortOf f.1) := by
  funext f
  have h : (f.1 == Kind.headers) = (sortOf f.1 == FrameSort.headers) := by
    rw [Bool.eq_iff_iff,beq_iff_eq,beq_iff_eq,sortOf_headers]
  simp only [notHeaders,bne,h,Function.comp_apply]

theorem notHeaders_false {f : ℕ × Bytes} : notHeaders f = false ↔ f.1 = Kind.headers := by
  simp [notHeaders]

section Head
variable {block : Bytes}

theorem trailers_head : trailers ((Kind.headers,block) :: rest) = rest.dropWhile notHeaders := rfl

theorem fieldSection_head : fieldSection ((Kind.headers,block) :: rest) = some block := rfl

end Head

/-- The request handed on is the one the frames ask for, if they pass. -/
theorem request_iff {b : Bytes} (h : Frames b fs) :
    request maxBody b = .handed fields r ↔ Passed fs ∧ Asked maxBody fs fields r := by
  constructor
  · intro hr
    obtain ⟨block,rest,parsed,hc,hq,hp,ho,hb,hl,hn⟩ := request_handed hr
    obtain ⟨hf,hres⟩ := carries_iff.mp hc
    obtain rfl := h.deterministic hf
    refine ⟨⟨block,rest,rfl,?_⟩,block,parsed,fieldSection_head,hb,hq,hp,hl,ho⟩
    intro f hm
    rw [Ne,Ne,sortOf_control,sortOf_reserved,hn f hm,hres f (List.mem_cons_of_mem _ hm)]
    simp
  · rintro ⟨⟨block,rest,rfl,hs⟩,block',parsed,hb',hb,hq,hp,hl,ho⟩
    rw [fieldSection_head] at hb'
    cases hb'
    have hn : ∀ f ∈ rest, isControl f.1 = false := by
      intro f hm
      exact Bool.eq_false_iff.mpr (fun he => (hs f hm).1 (sortOf_control.mpr he))
    have hres : ∀ f ∈ rest, isReservedH2 f.1 = false := by
      intro f hm
      exact Bool.eq_false_iff.mpr (fun he => (hs f hm).2 (sortOf_reserved.mpr he))
    exact (carries_iff.mpr ⟨h,List.forall_mem_cons.mpr ⟨rfl,hres⟩⟩).request hq hp ho hb hl hn

/-- What passes is by the grammar unless a push promise is in it, or more than
unknown frames after the trailers. -/
theorem Passed.followsGrammar_iff (h : Passed fs) : FollowsGrammar fs ↔ (∀ f ∈ fs, sortOf f.1 ≠ .pushPromise) ∧
    ∀ f ∈ (trailers fs).tail, sortOf f.1 ≠ .data ∧ sortOf f.1 ≠ .headers := by
  obtain ⟨block,rest,rfl,hs⟩ := h
  rw [FollowsGrammar,mem_grammar,trailers_head,List.map_cons]
  constructor
  · rintro ⟨us,mid,tail,hw,hus,hmid,htail⟩
    have hn : us = [] := by
      cases us with
      | nil => rfl
      | cons u us =>
        have hu := hus u List.mem_cons_self
        rw [hu] at hw
        cases hw
    subst hn
    have hw : rest.map (fun f => sortOf f.1) = mid ++ tail := (List.cons.inj hw).2
    have hd : (rest.dropWhile notHeaders).map (fun f => sortOf f.1) = tail := by
      rw [notHeaders_eq,← List.dropWhile_map,hw,List.dropWhile_append_of_pos]
      · rcases htail with rfl | ⟨vs,rfl,-⟩
        · rfl
        · rfl
      · intro s hm
        rcases hmid s hm with rfl | rfl
        · rfl
        · rfl
    refine ⟨List.forall_mem_cons.mpr ⟨by simp [sortOf_headers.mpr rfl],?_⟩,?_⟩
    · intro f hm hp
      have hm : sortOf f.1 ∈ mid ++ tail := hw ▸ List.mem_map_of_mem hm
      rw [hp] at hm
      rcases List.mem_append.mp hm with hm | hm
      · rcases hmid _ hm with he | he
        · cases he
        · cases he
      · rcases htail with rfl | ⟨vs,rfl,hvs⟩
        · cases hm
        · rcases List.mem_cons.mp hm with he | hm
          · cases he
          · cases hvs _ hm
    · intro f hm
      have hu : sortOf f.1 = .unknown := by
        have hm : sortOf f.1 ∈ tail.tail := by
          rw [← hd,← List.map_tail]
          exact List.mem_map_of_mem hm
        rcases htail with rfl | ⟨vs,rfl,hvs⟩
        · cases hm
        · exact hvs _ hm
      rw [hu]
      simp
  · rintro ⟨hp,ht⟩
    have hp : ∀ f ∈ rest, sortOf f.1 ≠ .pushPromise := (List.forall_mem_cons.mp hp).2
    refine ⟨[],(rest.takeWhile notHeaders).map (fun f => sortOf f.1),
      (rest.dropWhile notHeaders).map (fun f => sortOf f.1),?_,by simp,?_,?_⟩
    · rw [← List.map_append,List.takeWhile_append_dropWhile]
      rfl
    · intro s hm
      obtain ⟨f,hf,rfl⟩ := List.mem_map.mp hm
      have hh : notHeaders f = true := List.mem_takeWhile_imp hf
      have hm : f ∈ rest := List.takeWhile_subset _ hf
      have h1 : sortOf f.1 ≠ .headers := by
        intro he
        rw [notHeaders_false.mpr (sortOf_headers.mp he)] at hh
        cases hh
      obtain ⟨h2,h3⟩ := hs f hm
      have h4 := hp f hm
      cases hsort : sortOf f.1 with
      | data => exact .inl rfl
      | unknown => exact .inr rfl
      | headers => exact absurd hsort h1
      | pushPromise => exact absurd hsort h4
      | control => exact absurd hsort h2
      | reserved => exact absurd hsort h3
    · cases hd : rest.dropWhile notHeaders with
      | nil => exact .inl rfl
      | cons f vs =>
        have hh : sortOf f.1 = .headers := by
          have hf := List.head?_dropWhile_not notHeaders rest
          rw [hd] at hf
          exact sortOf_headers.mpr (notHeaders_false.mp (by simpa using hf))
        refine .inr ⟨vs.map (fun f => sortOf f.1),by rw [List.map_cons,hh],?_⟩
        intro s hm
        obtain ⟨g,hg,rfl⟩ := List.mem_map.mp hm
        have hm : g ∈ rest := List.dropWhile_subset _ (hd ▸ List.mem_cons_of_mem _ hg)
        rw [hd] at ht
        obtain ⟨h1,h2⟩ := ht g hg
        obtain ⟨h3,h4⟩ := hs g hm
        have h5 := hp g hm
        cases hsort : sortOf g.1 with
        | data => exact absurd hsort h1
        | unknown => rfl
        | headers => exact absurd hsort h2
        | pushPromise => exact absurd hsort h5
        | control => exact absurd hsort h3
        | reserved => exact absurd hsort h4

theorem FollowsGrammar.passed (h : FollowsGrammar fs) :
    (∃ f rest, fs = f :: rest ∧ sortOf f.1 = .unknown) ∨ Passed fs := by
  obtain ⟨us,mid,tail,hw,hus,hmid,htail⟩ := mem_grammar.mp h
  cases fs with
  | nil => simp at hw
  | cons f rest =>
    cases us with
    | cons u us => exact .inl ⟨f,rest,rfl,(List.cons.inj hw).1.trans (hus u List.mem_cons_self)⟩
    | nil =>
      obtain ⟨hf,hrest⟩ := List.cons.inj hw
      refine .inr ⟨f.2,rest,by rw [← sortOf_headers.mp hf],?_⟩
      intro g hg
      have hm : sortOf g.1 ∈ mid ++ tail := hrest ▸ List.mem_map_of_mem hg
      have hs : sortOf g.1 = .data ∨ sortOf g.1 = .unknown ∨ sortOf g.1 = .headers := by
        rcases List.mem_append.mp hm with hm | hm
        · exact (hmid _ hm).imp_right Or.inl
        · rcases htail with rfl | ⟨vs,rfl,hvs⟩
          · cases hm
          · rcases List.mem_cons.mp hm with he | hm
            · exact .inr (.inr he)
            · exact .inr (.inl (hvs _ hm))
      rcases hs with he | he | he
      · simp [he]
      · simp [he]
      · simp [he]

theorem Passed.not_greased (h : Passed fs) : ¬ Greased check fs := by
  rintro ⟨⟨f,rest,rfl,hu⟩,-⟩
  obtain ⟨block,rest',he,-⟩ := h
  rw [(List.cons.inj he).1,sortOf_headers.mpr rfl] at hu
  cases hu

/-- The server's rule and the grammar agree except on two kinds of sequences. -/
theorem passed_iff_grammar : (Passed fs ↔ FollowsGrammar fs ∧ TrailersOk check fs) ↔
    ¬ Greased check fs ∧ ¬ LetThrough check fs := by
  constructor
  · intro h
    refine ⟨?_,?_⟩
    · intro hg
      exact (h.mpr hg.2).not_greased hg
    · rintro ⟨hp,hbad⟩
      obtain ⟨hf,ht⟩ := h.mp hp
      obtain ⟨hpush,hafter⟩ := hp.followsGrammar_iff.mp hf
      rcases hbad with ⟨f,hm,he⟩ | ⟨f,hm,he⟩ | hn
      · exact hpush f hm he
      · exact he.elim (hafter f hm).1 (hafter f hm).2
      · exact hn ht
  · rintro ⟨hg,hl⟩
    constructor
    · intro hp
      have hgood := fun hbad => hl ⟨hp,hbad⟩
      refine ⟨hp.followsGrammar_iff.mpr ⟨?_,?_⟩,?_⟩
      · intro f hm he
        exact hgood (.inl ⟨f,hm,he⟩)
      · intro f hm
        exact ⟨fun he => hgood (.inr (.inl ⟨f,hm,.inl he⟩)),fun he => hgood (.inr (.inl ⟨f,hm,.inr he⟩))⟩
      · by_contra hn
        exact hgood (.inr (.inr hn))
    · rintro ⟨hf,ht⟩
      rcases hf.passed with hu | hp
      · exact absurd ⟨hu,hf,ht⟩ hg
      · exact hp

/-- The request that the grammar sees in a stream: it ends, and its frames are by
the grammar. -/
def Due (check : List Header → Bool) (maxBody : ℕ) (recv : Recv) (fields : List Header) (r : Handed) : Prop :=
  recv.finished = true ∧ ∃ fs, Frames recv.bytes fs ∧ FollowsGrammar fs ∧ TrailersOk check fs ∧ Asked maxBody fs fields r

/-- The stream is treated by the grammar: the request in it is handed on, and a
stream without one is refused. -/
structure ByGrammar (check : List Header → Bool) (maxBody : ℕ) (recv : Recv) : Prop where
  handed : ∀ fields r, recv.request maxBody = .handed fields r ↔ Due check maxBody recv fields r
  refused : recv.bytes ≠ [] → (∀ fields r, ¬ Due check maxBody recv fields r) → ∃ e, recv.request maxBody = .refused e

theorem request_nothing {b : Bytes} (h : request maxBody b = .nothing) : b = [] := by
  unfold request at h
  split at h
  · cases h
  · rename_i hh
    exact head_none hh
  · split_ifs at h
    split at h
    · cases h
    · split at h
      · cases h
      · split at h
        · cases h
        · split at h
          · cases h
          · split at h
            · cases h
            · cases h

theorem byGrammar_of_handed {recv : Recv}
    (h : ∀ fields r, recv.request maxBody = .handed fields r ↔ Due check maxBody recv fields r) :
    ByGrammar check maxBody recv := by
  refine ⟨h,?_⟩
  intro hb hn
  cases hr : recv.request maxBody with
  | nothing =>
    rw [Recv.request_eq] at hr
    exact absurd (request_nothing hr) hb
  | refused e => exact ⟨e,rfl⟩
  | handed fields r => exact absurd ((h fields r).mp hr) (hn fields r)

/-- A stream with a request in its first field section is treated by the grammar
exactly if it is neither of the two kinds and was not broken off. -/
theorem byGrammar_iff (check : List Header → Bool) (maxBody : ℕ) (recv : Recv) :
    ByGrammar check maxBody recv ↔ ∀ fs, Frames recv.bytes fs → (∃ fields r, Asked maxBody fs fields r) →
      (recv.finished = true → ¬ Greased check fs ∧ ¬ LetThrough check fs) ∧ (recv.finished = false → ¬ Passed fs) := by
  constructor
  · intro h fs hf ⟨fields,r,ha⟩
    have hr := h.handed fields r
    rw [Recv.request_eq,request_iff hf] at hr
    refine ⟨?_,?_⟩
    · intro hfin
      rw [← passed_iff_grammar]
      constructor
      · intro hp
        obtain ⟨-,gs,hg,hgr,ht,-⟩ := hr.mp ⟨hp,ha⟩
        obtain rfl := hg.deterministic hf
        exact ⟨hgr,ht⟩
      · rintro ⟨hgr,ht⟩
        exact (hr.mpr ⟨hfin,fs,hf,hgr,ht,ha⟩).1
    · intro hfin hp
      rw [(hr.mp ⟨hp,ha⟩).1] at hfin
      cases hfin
  · intro h
    apply byGrammar_of_handed
    intro fields r
    rw [Recv.request_eq]
    constructor
    · intro hr
      obtain ⟨block,gs,-,hc,-⟩ := request_handed hr
      obtain ⟨hf,-⟩ := carries_iff.mp hc
      obtain ⟨hp,ha⟩ := (request_iff hf).mp hr
      obtain ⟨hfin,hcut⟩ := h _ hf ⟨fields,r,ha⟩
      cases hb : recv.finished with
      | false => exact absurd hp (hcut hb)
      | true =>
        obtain ⟨hgr,ht⟩ := (passed_iff_grammar.mpr (hfin hb)).mp hp
        exact ⟨hb,_,hf,hgr,ht,ha⟩
    · rintro ⟨hb,fs,hf,hgr,ht,ha⟩
      have hp := (passed_iff_grammar.mpr ((h fs hf ⟨fields,r,ha⟩).1 hb)).mpr ⟨hgr,ht⟩
      exact (request_iff hf).mpr ⟨hp,ha⟩

end Requests

section Example

/-- `GET https://a/` in a HEADERS frame. -/
def plainBlock : Bytes := [0,0,0xd1,0xd7,0xc1,0x50,1,97]

def plainStream : Bytes := [1,8] ++ plainBlock

/-- A frame of the reserved type 0x21 before it, without a payload. -/
def greasedRecv : Recv := ⟨[[0x21,0] ++ plainStream],true⟩

example : greasedRecv.bytes = [0x21,0,1,8] ++ plainBlock := by decide +kernel

theorem plainStream_frames : Frames plainStream [(Kind.headers,plainBlock)] := by
  have hh : frameHead plainStream = some (Kind.headers,8,plainBlock) := by decide +kernel
  have hx : exact plainBlock 8 = some (plainBlock,[]) := by decide +kernel
  exact .cons hh hx .nil

theorem greased_frames : Frames greasedRecv.bytes [(0x21,[]),(Kind.headers,plainBlock)] := by
  have hh : frameHead greasedRecv.bytes = some (0x21,0,plainStream) := by decide +kernel
  have hx : exact plainStream 0 = some ([],plainStream) := by decide +kernel
  exact .cons hh hx plainStream_frames

theorem plainStream_asked : ∃ fields r, Asked 0 [(Kind.headers,plainBlock)] fields r := by
  have h : (match request 0 plainStream with | .handed _ _ => true | _ => false) = true := by decide +kernel
  split at h
  · rename_i fields r hr
    exact ⟨fields,r,((request_iff plainStream_frames).mp hr).2⟩
  · cases h

/-- A request behind an unknown frame is not taken. -/
theorem greased_refused : ¬ ∀ check maxBody recv, ByGrammar check maxBody recv := by
  intro h
  obtain ⟨fields,r,ha⟩ := plainStream_asked
  have hg : FollowsGrammar [(0x21,[]),(Kind.headers,plainBlock)] :=
    mem_grammar.mpr ⟨[.unknown],[],[],rfl,by simp,by simp,.inl rfl⟩
  have ht : TrailersOk (fun _ => true) [(0x21,[]),(Kind.headers,plainBlock)] := fun t hn => nomatch hn
  have hd : Due (fun _ => true) 0 greasedRecv fields r := ⟨rfl,_,greased_frames,hg,ht,ha⟩
  have hr := ((h (fun _ => true) 0 greasedRecv).handed fields r).mpr hd
  rw [Recv.request_eq,request_iff greased_frames] at hr
  exact hr.1.not_greased ⟨⟨_,_,rfl,rfl⟩,hg,ht⟩

end Example

/-! ## Requests on a stream that was broken off

The reader folds the end of a stream and its failure into one flag, so a request
is handed on although its peer reset the stream. The body it gets is that of
the frames that were whole by then.
-/
section Unfinished
open Hpack (Header)
open Http2 (Handed)

section Cut
variable {b all x : Bytes} {fs gs : List (ℕ × Bytes)}

theorem frameHead_append {kind len : ℕ} {rest : Bytes} (h : frameHead b = some (kind,len,rest)) :
    frameHead (b ++ x) = some (kind,len,rest ++ x) := by
  unfold frameHead at h
  split at h
  · cases h
  · rename_i k a ha
    split at h
    · cases h
    · rename_i l c hc
      cases h
      have h1 := getVarint_pos ha
      have h2 := getVarint_pos hc
      rw [List.length_drop] at h2
      have hd : (b ++ x).drop a = b.drop a ++ x := List.drop_append_of_le_length h1.2
      have hr : (b ++ x).drop (a + c) = b.drop (a + c) ++ x := List.drop_append_of_le_length (by omega)
      simp only [frameHead,getVarint_append ha,hd,getVarint_append hc,hr]

theorem exact_append {n : ℕ} {payload rest : Bytes} (h : exact b n = some (payload,rest)) :
    exact (b ++ x) n = some (payload,rest ++ x) := by
  unfold exact at h
  split at h
  · cases h
  · rename_i hl
    cases h
    have hle : n ≤ b.length := Nat.not_lt.mp hl
    have hl' : ¬ (b ++ x).length < n := by
      rw [List.length_append]
      omega
    rw [exact,if_neg hl',List.take_append_of_le_length hle,List.drop_append_of_le_length hle]

/-- What follows the frames of a stream does not change them. -/
theorem Frames.append (h : Frames b fs) (hx : Frames x gs) : Frames (b ++ x) (fs ++ gs) := by
  induction h with
  | nil => exact hx
  | cons hh he _ ih => exact .cons (frameHead_append hh) (exact_append he) ih

/-- Frames that are whole in a front part of a stream are the first of its frames. -/
theorem Frames.prefix_of_append (h : Frames b fs) (ha : Frames (b ++ x) gs) : fs <+: gs := by
  induction h generalizing gs with
  | nil => exact List.nil_prefix
  | @cons c rest rest' payload kind len fs hh he _ ih =>
    have hh' : frameHead (c ++ x) = some (kind,len,rest ++ x) := frameHead_append hh
    generalize c ++ x = d at ha hh'
    cases ha with
    | nil => cases hh'
    | cons hg hge hgs =>
      rw [hh'] at hg
      cases hg
      rw [exact_append he] at hge
      cases hge
      exact List.prefix_cons_inj _ |>.mpr (ih hgs)

end Cut

section Finished
variable {maxBody : ℕ} {recv : Recv} {fields : List Header} {r : Handed}

/-- The handler is called for the stream only if the peer finished it. -/
def OnlyFinished (maxBody : ℕ) (recv : Recv) : Prop :=
  ∀ fields r, recv.request maxBody = .handed fields r → recv.finished = true

/-- The bytes of the stream are whole frames that the server lets pass, and they
ask for a request within the limits. -/
def HoldsRequest (maxBody : ℕ) (b : Bytes) : Prop :=
  ∃ fs, Frames b fs ∧ Passed fs ∧ ∃ fields r, Asked maxBody fs fields r

theorem handed_holdsRequest (h : recv.request maxBody = .handed fields r) :
    ∃ fs, Frames recv.bytes fs ∧ Passed fs ∧ Asked maxBody fs fields r := by
  rw [Recv.request_eq] at h
  obtain ⟨block,gs,-,hc,-⟩ := request_handed h
  have hf := (carries_iff.mp hc).1
  exact ⟨_,hf,(request_iff hf).mp h⟩

/-- A request handed on from the front part of a stream has the body of the frames
that were whole in it. -/
theorem handed_of_cut {rest : Bytes} {gs : List (ℕ × Bytes)} (hg : Frames (recv.bytes ++ rest) gs)
    (h : recv.request maxBody = .handed fields r) : ∃ fs, fs <+: gs ∧ Passed fs ∧ Asked maxBody fs fields r := by
  obtain ⟨fs,hf,hp,ha⟩ := handed_holdsRequest h
  exact ⟨fs,hf.prefix_of_append hg,hp,ha⟩

/-- Only finished streams reach the handler, unless what came before a break
holds a whole request. -/
theorem onlyFinished_iff (maxBody : ℕ) (recv : Recv) :
    OnlyFinished maxBody recv ↔ recv.finished = true ∨ ¬ HoldsRequest maxBody recv.bytes := by
  constructor
  · intro h
    by_cases hfin : recv.finished = true
    · exact .inl hfin
    · refine .inr ?_
      rintro ⟨fs,hf,hp,fields,r,ha⟩
      have hr : recv.request maxBody = .handed fields r := by
        rw [Recv.request_eq]
        exact (request_iff hf).mpr ⟨hp,ha⟩
      exact hfin (h fields r hr)
  · rintro (hfin | hn) fields r hr
    · exact hfin
    · obtain ⟨fs,hf,hp,ha⟩ := handed_holdsRequest hr
      exact absurd ⟨fs,hf,hp,fields,r,ha⟩ hn

/-- `POST https://a/` in a HEADERS frame and the first three bytes of its body in
a DATA frame; then the client gives up. -/
def abortedUpload : Recv := ⟨[[1,8,0,0,0xd4,0xd7,0xc1,0x50,1,97],[0,3,1,2,3]],false⟩

/-- A broken-off upload is executed with the part that arrived. -/
theorem abortedUpload_handed : ¬ ∀ maxBody recv, OnlyFinished maxBody recv := by
  intro hall
  have h : (match abortedUpload.request 10 with | .handed _ r => decide (r.body = [1,2,3]) | _ => false) = true := by
    decide +kernel
  split at h
  · rename_i fields r hr
    have hfin := hall 10 abortedUpload fields r hr
    cases hfin
  · cases h

end Finished

end Unfinished

end OxiServe.Http3
