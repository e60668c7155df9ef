import OxiServe.Http2.Truncation
import OxiServe.Http3.Body

/-! # A truncated response is not presented as complete

Over HTTP/2 the frame with END_STREAM, over HTTP/3 the finished send stream, says
that a response is complete. Both come behind the whole body when the source of the
body lasts, and when no body in memory is cut off by a reset or a close.
-/
namespace OxiServe.Http3
open Server

/-- The frames of a response and whether its stream is finished. HEADERS are written
first, and `finish` is what QUIC makes of the call of that name, or of the drop of the
stream, given whether every write went through. -/
def finishResponse (finish : Bool → Bool) (headOk : Bool) (t : ℕ) (ok : ℕ → Bool) (reply : Reply) (headOnly : Bool) :
    List Bytes × Bool :=
  if headOk then
    let (frames,done) := writeResponse t ok reply headOnly
    (frames,finish done)
  else ([],finish false)

section Whole
variable {f : File} {t k off left fuel : ℕ} {ok : ℕ → Bool}

theorem yields_iff_more {b : Bytes} (hl : left ≠ 0) (hread : f.readAt t off (min chunkLen left) = some b) (hb : b ≠ [])
    (hle : b.length ≤ left) : f.Yields chunkLen t off left left ↔
      f.Yields chunkLen (t + 1) (off + b.length) (left - b.length) (left - b.length) := by
  constructor
  · intro h
    obtain ⟨c,hc,-,-,hrest⟩ := h.next rfl hl
    rw [hread] at hc
    cases hc
    exact hrest
  · intro h
    have hmore := File.Yields.more hl hread hb h
    rw [Nat.add_sub_cancel' hle] at hmore
    exact hmore

/-- A file that went out without a failed write is whole just when its reads yield all
of the window. -/
theorem fileFrames_length_iff (h : (fileFrames ok f fuel t k off left).2 = true) :
    (fileFrames ok f fuel t k off left).1.flatten.length = left ↔ f.Yields chunkLen t off left left := by
  induction fuel generalizing t k off left with
  | zero => cases h
  | succ fuel ih =>
    unfold fileFrames at h ⊢
    by_cases hl : left = 0
    · subst hl
      simp only [if_true,List.flatten_nil,List.length_nil,true_iff]
      exact .full
    have hnot (hread : ∀ b, f.readAt t off (min chunkLen left) = some b → b = []) :
        ¬ f.Yields chunkLen t off left left := by
      intro hy
      obtain ⟨b,hb,hne,-⟩ := hy.next rfl hl
      exact hne (hread b hb)
    have hzero : ¬ ([] : List Bytes).flatten.length = left := fun hz => hl hz.symm
    simp only [if_neg hl] at h ⊢
    rw [Nat.min_comm] at h ⊢
    cases hread : f.readAt t off (min chunkLen left) with
    | none => exact iff_of_false hzero (hnot (fun b hb => nomatch hread.symm.trans hb))
    | some b =>
      simp only [hread] at h
      by_cases hb : b = []
      · simp only [if_pos hb]
        refine iff_of_false hzero (hnot (fun c hc => ?_))
        rw [hread] at hc
        cases hc
        exact hb
      simp only [if_neg hb] at h ⊢
      by_cases hk : ok k = true
      · simp only [if_pos hk,List.flatten_cons,List.length_append] at h ⊢
        have hle : b.length ≤ left := Nat.le_trans (f.length_le hread) (Nat.min_le_right _ _)
        rw [yields_iff_more hl hread hb hle,← ih h]
        omega
      · rw [if_neg hk] at h
        cases h

/-- A body that was written without a failed write is whole just when its source lasts. -/
theorem writeBody_whole_iff {body : Body} (h : (writeBody t ok body).2 = true) :
    body.Whole chunkLen (writeBody t ok body).1.flatten ↔ body.Lasts chunkLen t := by
  cases body with
  | empty => exact iff_of_true rfl trivial
  | bytes b => exact iff_of_true (data_payload h) trivial
  | mmap w => exact iff_of_true (data_payload h) trivial
  | inline f off len => exact fileFrames_length_iff h
  | file f off len => exact fileFrames_length_iff h
  | upgraded pre io => exact Iff.rfl
  | stream pre io len =>
    rw [writeBody_stream h]
    exact whole_stream_iff

/-- A finished stream carries the whole body just when the source of the body lasts. -/
theorem finished_whole_iff {finish : Bool → Bool} {headOk : Bool} {reply : Reply} {headOnly : Bool}
    (hfinish : finish false = false) (h : (finishResponse finish headOk t ok reply headOnly).2 = true) :
    (Http2.responseBody reply headOnly).Whole chunkLen (finishResponse finish headOk t ok reply headOnly).1.flatten ↔
      (Http2.responseBody reply headOnly).Lasts chunkLen t := by
  have hresp : writeResponse t ok reply headOnly = writeBody t ok (Http2.responseBody reply headOnly) := rfl
  unfold finishResponse at h ⊢
  cases headOk with
  | false => cases hfinish.symm.trans h
  | true =>
    simp only [if_true] at h ⊢
    have hdone : (writeBody t ok (Http2.responseBody reply headOnly)).2 = true := by
      cases hd : (writeBody t ok (Http2.responseBody reply headOnly)).2 with
      | true => rfl
      | false =>
        rw [hresp,hd,hfinish] at h
        cases h
    rw [hresp]
    exact writeBody_whole_iff hdone

end Whole

end OxiServe.Http3

namespace OxiServe.Server
open Http2

/-- Over HTTP/2 in every run that cuts no body short, and over HTTP/3 whenever the
source of the body lasts, the end of a response stands behind all of its body. A task
over HTTP/2 that does not get there leaves a stream that is reset, or no connection. -/
theorem complete_means_whole (maxBody : ℕ) (as : List Act) (s : Sys)
    (hr : Runs (Runs.guarded (stepRel Sys.step) CutsNothing) (Sys.new maxBody) as s)
    (finish : Bool → Bool) (hfinish : finish false = false) (headOk : Bool) (t : ℕ) (ok : ℕ → Bool) (reply : Reply)
    (headOnly : Bool) : EndsWhole s ∧
      (∀ a s', s.step a = some s' → ∀ i ∈ s.conn.running, i ∉ s'.conn.running → EndsSaid s s' i) ∧
      ((Http3.finishResponse finish headOk t ok reply headOnly).2 = true →
        ((responseBody reply headOnly).Whole Http3.chunkLen
            (Http3.finishResponse finish headOk t ok reply headOnly).1.flatten ↔
          (responseBody reply headOnly).Lasts Http3.chunkLen t)) := by
  refine ⟨fun pre b post hpre he => ((run_told hr).ended pre b post hpre he).whole,?_,?_⟩
  · intro a s' h i hid hni
    exact step_said hr.forget h hid hni
  · exact Http3.finished_whole_iff hfinish

/-- A request whose answer is sent in full. -/
def wholeAnswer : List Act :=
  [.frame (.of Kind.headers (Flag.endHeaders ||| Flag.endStream) 1 [0x82,0x86,0x84]) Http2.firstId_lt,.turn 1,
    .reply 1 (.new .new (.bytes (lit "abc"))) 0,.turn 1]

example : (Http2.Sys.new 1).step wholeAnswer[1] = none := by decide +kernel

theorem wholeAnswer_whole : ∃ s, Runs (Runs.guarded (stepRel Sys.step) CutsNothing) (Sys.new 1) wholeAnswer s ∧
    EndsWhole s ∧ (Http3.finishResponse id true 0 (fun _ => true) (.new .new (.bytes (lit "abc"))) false).2 = true ∧
      (Body.bytes (lit "abc")).Whole Http3.chunkLen
        (Http3.finishResponse id true 0 (fun _ => true) (.new .new (.bytes (lit "abc"))) false).1.flatten := by
  let ask : Act := .frame (.of Kind.headers (Flag.endHeaders ||| Flag.endStream) 1 [0x82,0x86,0x84]) (by decide)
  let answer : Act := .reply 1 (.new .new (.bytes (lit "abc"))) 0
  have h : ((Sys.new 1).step ask).bind (fun s => (s.step (.turn 1)).bind (fun t => (t.step answer).bind (fun u =>
      (u.step (.turn 1)).map (fun _ => (s.stopped 1,u.stopped 1))))) = some (false,false) := by
    decide +kernel
  obtain ⟨s,hs,h⟩ := Option.bind_eq_some_iff.mp h
  obtain ⟨t,ht,h⟩ := Option.bind_eq_some_iff.mp h
  obtain ⟨u,hu,h⟩ := Option.bind_eq_some_iff.mp h
  obtain ⟨v,hv,h⟩ := Option.map_eq_some_iff.mp h
  simp only [Prod.mk.injEq] at h
  have hturn {q : Sys} (hq : q.stopped 1 = false) : CutsNothing q (.turn 1) := fun hc => nomatch hc.2.1.symm.trans hq
  have hreply : CutsNothing t answer := by
    intro _ headOnly _
    cases headOnly <;> exact trivial
  have hr : Runs (Runs.guarded (stepRel Sys.step) CutsNothing) (Sys.new 1) ([] ++ [ask] ++ [.turn 1] ++ [answer] ++ [.turn 1]) v :=
    .snoc (.snoc (.snoc (.snoc .nil ⟨trivial,hs⟩) ⟨hturn h.1,ht⟩) ⟨hreply,hu⟩) ⟨hturn h.2,hv⟩
  have hc := complete_means_whole 1 wholeAnswer v hr id rfl true 0 (fun _ => true) (.new .new (.bytes (lit "abc"))) false
  exact ⟨v,hr,hc.1,rfl,(hc.2.2 rfl).mpr trivial⟩

/-- A download of a file that has become shorter. -/
def shortFile : List Act :=
  [.frame (.of Kind.headers (Flag.endHeaders ||| Flag.endStream) 1 [0x82,0x86,0x84]) Http2.firstId_lt,.turn 1,
    .reply 1 (.new .new (.file (.ofBytes (lit "ab")) 0 5)) 0,.turn 1]

/-- The length of a body that is a part of a file. -/
def fileLength : Body → Option ℕ
  | .file _ _ len => some len
  | _ => none

/-- Its stream is ended behind two of five bytes. -/
theorem shortFile_truncated : ∃ s, Runs (stepRel Sys.step) (Sys.new 1) shortFile s ∧ ¬ EndsWhole s := by
  have h : (runList Sys.step (Sys.new 1) shortFile).map (fun s => (s.conn.out != [],
      (s.conn.out.getLast?).all (fun b => endsStream b && streamOf b == 1),(carried s.conn.out.dropLast 1).length,
      (s.replies 1).bind fileLength)) = some (true,true,2,some 5) := by
    decide +kernel
  obtain ⟨s,hs,hv⟩ := Option.map_eq_some_iff.mp h
  simp only [Prod.mk.injEq,bne_iff_ne] at hv
  obtain ⟨hne,hlast,hlen,hbody⟩ := hv
  refine ⟨s,.of_runList hs,fun hw => ?_⟩
  rw [List.getLast?_eq_some_getLast hne] at hlast
  simp only [Option.all_some,Bool.and_eq_true,beq_iff_eq] at hlast
  obtain ⟨body,hr,hwhole⟩ := hw s.conn.out.dropLast (s.conn.out.getLast hne) []
    (List.dropLast_append_getLast hne).symm hlast.1
  rw [hlast.2] at hr hwhole
  rw [hr] at hbody
  cases body with
  | file f off len =>
    cases hbody
    have h5 : (carried s.conn.out.dropLast 1).length = 5 := hwhole
    omega
  | _ => cases hbody

end OxiServe.Server
