import OxiServe.Http2.Pumping
import OxiServe.Server.BodyWriter

/-! # A stream is ended only behind the whole of its body

What a task still owes its body, given what was queued so far: with the rest of the
bytes in hand, of the file and of the upstream it comes to the whole. A frame with
END_STREAM is queued once nothing is owed, unless the source of the body stops short
or a call of `pump` over a body in memory is cut off.
-/
namespace OxiServe.Http2
open Conn Server Response

section Owed
variable {body : Body} {sent data : Bytes}

/-- What is behind the bytes in hand makes the body whole. -/
def Tail.Completes (body : Body) : Tail → Bytes → Prop
  | .last, sent => body.Whole chunkLen sent
  | .file f t off left, sent =>
    f.Yields chunkLen t off left left ∧ ∀ more : Bytes, more.length = left → body.Whole chunkLen (sent ++ more)
  | .stream io, sent => body.Whole chunkLen (sent ++ (delivery chunkLen io).1)

/-- Where the task goes next makes the body whole, if it ends the stream. -/
def Onward.Completes (body : Body) : Onward → Bytes → Prop
  | .endStream, sent => body.Whole chunkLen sent
  | .stop, _ => True
  | .pump data tail, sent => tail.Completes body (sent ++ data)
  | .read io, sent => body.Whole chunkLen (sent ++ (delivery chunkLen io).1)

theorem fileTurn_completes {f : File} {t off left : ℕ} (h : (Tail.file f t off left).Completes body sent) :
    (fileTurn f t off left).Completes body sent := by
  obtain ⟨hy,hw⟩ := h
  unfold fileTurn
  by_cases hl : left = 0
  · rw [if_pos hl]
    have h := hw [] hl.symm
    rw [List.append_nil] at h
    exact h
  · obtain ⟨b,hread,hb,hle,hrest⟩ := hy.next rfl hl
    rw [Nat.min_comm] at hread
    simp only [if_neg hl,hread,if_neg hb]
    refine ⟨hrest,fun more hm => ?_⟩
    rw [List.append_assoc]
    apply hw
    rw [List.length_append,hm]
    omega

theorem Tail.onward_completes {tail : Tail} (stopped : Bool) (h : tail.Completes body sent) :
    (tail.onward stopped).Completes body sent := by
  cases tail with
  | last => exact h
  | file f t off left =>
    unfold Tail.onward
    cases stopped with
    | true => exact trivial
    | false => exact fileTurn_completes h
  | stream io =>
    unfold Tail.onward
    cases stopped with
    | true => exact trivial
    | false => exact h

theorem pumpOnward_completes {tail : Tail} (stopped : Bool) (h : tail.Completes body (sent ++ data)) :
    (pumpOnward stopped data tail).Completes body sent := by
  unfold pumpOnward
  split
  · rename_i hd
    rw [hd,List.append_nil] at h
    exact tail.onward_completes stopped h
  · exact h

theorem readOnward_completes {io : Io} (h : body.Whole chunkLen (sent ++ (delivery chunkLen io).1)) :
    (readOnward io).Completes body sent := by
  unfold readOnward
  rcases hr : Reader.read chunkLen io with ⟨b | _,io'⟩
  · by_cases hb : b = []
    · subst hb
      rw [delivery_end hr,List.append_nil] at h
      exact h
    · rw [delivery_data hr hb,← List.append_assoc] at h
      simp only [if_neg hb]
      exact h
  · rw [delivery_failed hr,List.append_nil] at h
    exact h

/-- A body whose source lasts is owed in full at the beginning. -/
theorem bodyOnward_completes {t : ℕ} (stopped : Bool) (h : body.Lasts chunkLen t) :
    (bodyOnward stopped t body).Completes body [] := by
  cases body with
  | empty => rfl
  | bytes b =>
    have hw : Tail.last.Completes (.bytes b) ([] ++ b) := rfl
    exact pumpOnward_completes stopped hw
  | mmap w =>
    have hw : Tail.last.Completes (.mmap w) ([] ++ w.bytes) := rfl
    exact pumpOnward_completes stopped hw
  | inline f off len => exact fileTurn_completes ⟨h,fun _ hm => hm⟩
  | file f off len => exact fileTurn_completes ⟨h,fun _ hm => hm⟩
  | stream pre io len =>
    have hw : (Tail.stream io).Completes (.stream pre io len) ([] ++ pre) := whole_stream_iff.mpr h
    exact pumpOnward_completes stopped hw
  | upgraded pre io => exact absurd h (fun h => h)

end Owed

section Told
variable {s s' q : Sys} {j id : ℕ}

/-- A HEADERS or DATA frame that ends its stream. -/
def endsStream (b : Bytes) : Bool :=
  (kindOf b == Kind.data || kindOf b == Kind.headers) && (Head.parse b).has Flag.endStream

/-- The task has not answered yet. -/
def Prog.early : Prog → Bool
  | .start => true
  | .handling _ => true
  | .pump _ _ _ _ => false
  | .read _ => false

/-- What the task still does makes the body it was given whole. -/
def Prog.Completes (reply : Option Body) : Prog → Bytes → Prop
  | .start, _ => True
  | .handling _, _ => True
  | .pump data off _ tail, sent => ∃ body, reply = some body ∧ tail.Completes body (sent ++ data.drop off)
  | .read io, sent => ∃ body, reply = some body ∧ body.Whole chunkLen (sent ++ (delivery chunkLen io).1)

/-- The task of the stream is gone and its body is whole behind the frames `pre`. -/
structure Sys.Closed (s : Sys) (id : ℕ) (pre : List Bytes) : Prop where
  ended : id ∉ s.conn.running
  spent : s.conn.spent id
  whole : ∃ body, s.replies id = some body ∧ body.Whole chunkLen (carried pre id)

structure Told (s : Sys) : Prop where
  unsent : ∀ id, (s.progs id).early = true → carried s.conn.out id = []
  owed : s.gone = false → ∀ id ∈ s.conn.running, (s.progs id).Completes (s.replies id) (carried s.conn.out id)
  ended : ∀ pre b post, s.conn.out = pre ++ b :: post → endsStream b = true → s.Closed (streamOf b) pre

/-- What a step of one task does for its stream. -/
structure Progress (s s' : Sys) (j : ℕ) : Prop where
  unsent : (s'.progs j).early = true → (s.progs j).early = true ∧ carried s'.conn.out j = carried s.conn.out j
  owed : s'.gone = false → j ∈ s'.conn.running → (s'.progs j).Completes (s'.replies j) (carried s'.conn.out j)
  ended : ∀ pre b post, s'.conn.out = pre ++ b :: post → s.conn.out.length ≤ pre.length → endsStream b = true →
    j ∉ s'.conn.running ∧ ∃ body, s'.replies j = some body ∧ body.Whole chunkLen (carried pre j)

theorem carried_idle (h : Idle s s') (id : ℕ) : carried s'.conn.out id = carried s.conn.out id := by
  obtain ⟨new,ho,hn⟩ := h.out
  rw [ho]
  exact (sums_append s.conn.out id hn).2.2

theorem endsStream_writeFrame {kind flags : UInt8} {i : ℕ} {payload : Bytes}
    (h : endsStream (writeFrame kind flags i payload) = true) :
    (kind = Kind.data ∨ kind = Kind.headers) ∧ flags &&& Flag.endStream ≠ 0 := by
  simp only [endsStream,kindOf_writeFrame,Bool.and_eq_true,Bool.or_eq_true,beq_iff_eq,Head.has,flags_writeFrame] at h
  exact ⟨h.1,by simpa using h.2⟩

/-- Without a new frame there is none that ends the stream. -/
theorem ended_of_out {R : Prop} (ho : s'.conn.out = s.conn.out) {pre post : List Bytes} {b : Bytes}
    (h : s'.conn.out = pre ++ b :: post) (hle : s.conn.out.length ≤ pre.length) : R := by
  rw [ho] at h
  have hl := congrArg List.length h
  simp only [List.length_append,List.length_cons] at hl
  omega

theorem Progress.of_finish (h : q.finish j = some s') : Progress q s' j := by
  obtain ⟨-,hs⟩ := Sys.finish_eq h
  have hp : s'.progs = q.progs := by rw [hs]
  refine ⟨fun he => ⟨hp ▸ he,carried_idle (.finish h) j⟩,fun _ hi => absurd hi (not_running_finish h),?_⟩
  intro pre b post ho hle _
  exact ended_of_out (out_finish h) ho hle

/-- A frame behind the first ones is one of the next or behind those too. -/
theorem frame_behind {out new more pre post : List Bytes} {b : Bytes} (h : out ++ new ++ more = pre ++ b :: post)
    (hle : out.length ≤ pre.length) : b ∈ new ∨ (out ++ new).length ≤ pre.length := by
  by_cases hq : (out ++ new).length ≤ pre.length
  · exact Or.inr hq
  left
  rw [List.append_assoc] at h
  obtain ⟨mid,rfl,hnew⟩ := new_frame h hle
  have hlt : mid.length < new.length := by
    simp only [List.length_append] at hq
    omega
  have hget := congrArg (fun l => l[mid.length]?) hnew
  simp only [List.getElem?_append_left hlt,List.getElem?_append_right (Nat.le_refl _),
    Nat.sub_self,List.getElem?_cons_zero] at hget
  exact List.mem_of_getElem? hget

/-- A step behind others that end nothing. -/
theorem Progress.behind {new more : List Bytes} (h : Progress q s' j) (ho : q.conn.out = s.conn.out ++ new)
    (ho' : s'.conn.out = q.conn.out ++ more) (hn : ∀ b ∈ new, endsStream b = false)
    (hu : (q.progs j).early = true → (s.progs j).early = true ∧ carried q.conn.out j = carried s.conn.out j) :
    Progress s s' j where
  unsent := by
    intro he
    obtain ⟨h1,h2⟩ := h.unsent he
    obtain ⟨h3,h4⟩ := hu h1
    exact ⟨h3,h2.trans h4⟩
  owed := h.owed
  ended := by
    intro pre b post hout hle he
    have hall : s.conn.out ++ new ++ more = pre ++ b :: post := by rw [← ho,← ho',hout]
    rcases frame_behind hall hle with hb | hq
    · cases (hn b hb).symm.trans he
    · exact h.ended pre b post hout (ho ▸ hq) he

/-- Where a task goes next, given that what it still owes is there. -/
theorem Progress.of_go {o : Onward} (h : q.go j o = some s')
    (hc : q.gone = false → ∃ body, q.replies j = some body ∧ o.Completes body (carried q.conn.out j)) :
    Progress q s' j := by
  cases o with
  | endStream =>
    obtain ⟨-,hs⟩ := Sys.finish_eq h
    have hput : (q.put (writeFrame Kind.data Flag.endStream j [])).progs = q.progs ∧
        (q.put (writeFrame Kind.data Flag.endStream j [])).replies = q.replies := by
      unfold Sys.put
      split <;> exact ⟨rfl,rfl⟩
    have hp : s'.progs = q.progs := by rw [hs]; exact hput.1
    have hr : s'.replies = q.replies := by rw [hs]; exact hput.2
    refine ⟨fun he => ⟨hp ▸ he,carried_idle (.go h) j⟩,fun _ hi => absurd hi (not_running_finish h),?_⟩
    intro pre b post ho hle _
    refine ⟨not_running_finish h,?_⟩
    cases hg : q.gone with
    | true => exact ended_of_out (out_go_gone hg h) ho hle
    | false =>
      rw [out_finish h,Sys.put,hg] at ho
      obtain ⟨mid,rfl,hnew⟩ := new_frame ho hle
      have hmid : mid = [] := by
        have hl := congrArg List.length hnew
        simp only [List.length_append,List.length_cons,List.length_nil] at hl
        exact List.length_eq_zero_iff.mp (by omega)
      rw [hmid,List.append_nil,hr]
      exact hc hg
  | stop => exact .of_finish h
  | pump data tail =>
    cases h
    refine ⟨fun he => ?_,fun hg _ => ?_,fun pre b post ho hle _ => ended_of_out (s := q) rfl ho hle⟩
    · simp [Sys.moveTo,Prog.early] at he
    · simp only [Sys.moveTo,if_true,Prog.Completes,List.drop_zero]
      exact hc hg
  | read io =>
    cases h
    refine ⟨fun he => ?_,fun hg _ => ?_,fun pre b post ho hle _ => ended_of_out (s := q) rfl ho hle⟩
    · simp [Sys.moveTo,Prog.early] at he
    · simp only [Sys.moveTo,if_true,Prog.Completes]
      exact hc hg

/-- A call of `pump` over a body in memory that is cut off ends the stream. -/
def CutsBody (s : Sys) (j : ℕ) : Prop :=
  s.gone = false ∧ s.stopped j = true ∧ ∃ data off since, s.progs j = .pump data off since .last

theorem PumpTurn.progress {data : Bytes} {off since : ℕ} {tail : Tail} (h : PumpTurn s j data off since tail s')
    (hj : j < 2 ^ 31) (hp : s.progs j = .pump data off since tail) (hcut : ¬ CutsBody s j)
    (hc : s.gone = false → (s.progs j).Completes (s.replies j) (carried s.conn.out j)) : Progress s s' j := by
  have hnot : ¬ (s.progs j).early = true := by simp [hp,Prog.early]
  have hcarried {c : Conn} {d : Bytes} (hn : s.conn.next (.send j d) = some c) :
      c.out = s.conn.out ++ [writeFrame Kind.data 0 j d] ∧ carried c.out j = carried s.conn.out j ++ d := by
    obtain ⟨-,rfl⟩ := next_send hn
    have ho : ((({ s.conn.emit (writeFrame Kind.data 0 j d) with
        connWindow := s.conn.connWindow - d.length }).modifyFlow j
          (fun w => { w with window := w.window - d.length })).out) = s.conn.out ++ [writeFrame Kind.data 0 j d] := rfl
    rw [ho]
    refine ⟨rfl,?_⟩
    rw [carried_append,carried_frame hj,if_pos ⟨rfl,rfl⟩]
  have hquiet (d : Bytes) : ∀ b ∈ [writeFrame Kind.data 0 j d], endsStream b = false := by
    intro b hb
    rw [List.mem_singleton.mp hb]
    by_contra he
    exact (endsStream_writeFrame (Bool.not_eq_false _ ▸ he)).2 (by decide)
  rw [hp] at hc
  cases h with
  | cut hs h =>
    refine .of_go h (fun hg => ?_)
    obtain ⟨body,hr,hb⟩ := hc hg
    refine ⟨body,hr,?_⟩
    cases tail with
    | last => exact absurd ⟨hg,hs,data,off,since,hp⟩ hcut
    | file f t o left =>
      unfold Tail.onward
      exact trivial
    | stream io =>
      unfold Tail.onward
      exact trivial
  | failed _ hg h => exact .of_go h (by intro hn; cases hg.symm.trans hn)
  | @sent n c _ hg hn hlt h =>
    obtain ⟨ho,hcar⟩ := hcarried hn
    obtain ⟨body,hr,hb⟩ := hc hg
    have hprog : s'.progs j = .pump data (off + n) since tail := by
      rw [h]
      simp [Sys.moveTo]
    have hout : s'.conn.out = c.out := by rw [h]; rfl
    refine ⟨fun he => ?_,fun _ _ => ?_,fun pre b post hpre hle he => ?_⟩
    · simp [hprog,Prog.early] at he
    · rw [hprog,hout,hcar]
      refine ⟨body,by rw [h]; exact hr,?_⟩
      have hd : (data.drop off).take n ++ data.drop (off + n) = data.drop off := by
        rw [← List.drop_drop]
        exact List.take_append_drop _ _
      rw [List.append_assoc,hd]
      exact hb
    · rw [hout,ho] at hpre
      have hb : b ∈ [writeFrame Kind.data 0 j ((data.drop off).take n)] := by
        obtain ⟨mid,-,hnew⟩ := new_frame hpre hle
        rw [hnew]
        exact List.mem_append_right _ List.mem_cons_self
      cases (hquiet _ b hb).symm.trans he
  | @whole c _ hg hn h =>
    obtain ⟨ho,hcar⟩ := hcarried hn
    obtain ⟨body,hr,hb⟩ := hc hg
    obtain ⟨more,hmore,-⟩ := (Own.go h).out
    refine Progress.behind (.of_go h (fun _ => ⟨body,hr,?_⟩)) ho hmore (hquiet _) (fun he => absurd he hnot)
    have hcar' : carried ({ s with conn := c } : Sys).conn.out j = carried s.conn.out j ++ data.drop off := hcar
    rw [hcar']
    exact tail.onward_completes false hb

theorem Turn.progress (h : Turn s j s') (hj : j < 2 ^ 31) (hcut : ¬ CutsBody s j) (ht : Told s)
    (hid : j ∈ s.conn.running) : Progress s s' j := by
  have howed (hg : s.gone = false) := ht.owed hg j hid
  cases h with
  | @malformed task code _ _ _ _ h =>
    have hidle : Idle s (s.put (rst j code)) := .put s (Or.inl (by decide))
    obtain ⟨new,hout,hnew⟩ := (Own.put s Kind.rstStream 0 j (toBe 4 code.toNat)).out
    have hprogs : (s.put (rst j code)).progs = s.progs := by
      unfold Sys.put
      split <;> rfl
    have hrest : s'.conn.out = (s.put (rst j code)).conn.out ++ [] := by rw [out_finish h,List.append_nil]
    refine Progress.behind (.of_finish h) hout hrest (fun b hb => ?_)
      (fun he => ⟨hprogs ▸ he,carried_idle hidle j⟩)
    by_contra he
    have hk := List.mem_singleton.mp (hnew b hb).2
    simp [endsStream,hk,Kind.rstStream,Kind.data,Kind.headers] at he
  | handed _ _ hp _ h =>
    refine ⟨fun _ => ⟨by simp [hp,Prog.early],by rw [h]; rfl⟩,fun _ _ => ?_,fun pre b post ho hle _ => ?_⟩
    · rw [h]
      simp [Sys.moveTo,Prog.Completes]
    · exact ended_of_out (by rw [h]; rfl) ho hle
  | pump hp h => exact h.progress hj hp hcut howed
  | read hp h =>
    refine .of_go h (fun hg => ?_)
    have hc := howed hg
    rw [hp] at hc
    obtain ⟨body,hr,hb⟩ := hc
    exact ⟨body,hr,readOnward_completes hb⟩

theorem Answered.progress {r : Reply} {t : ℕ} {headOnly : Bool} (h : Answered s j r t headOnly s') (hj : j < 2 ^ 31)
    (hp : s.progs j = .handling headOnly) (hl : s.gone = false → (responseBody r headOnly).Lasts chunkLen t)
    (ht : Told s) : Progress s s' j := by
  have hnil := ht.unsent j (by simp [hp,Prog.early])
  have hearly : (s.progs j).early = true := by simp [hp,Prog.early]
  have hput : ∀ (hg : s.gone = false),
      ((s.record j (responseBody r headOnly)).put (responseHead j r (responseBody r headOnly))).conn.out =
        s.conn.out ++ [responseHead j r (responseBody r headOnly)] := by
    intro hg
    simp [Sys.put,hg,Sys.record,emit]
  have hcarried (hg : s.gone = false) : carried
      ((s.record j (responseBody r headOnly)).put (responseHead j r (responseBody r headOnly))).conn.out j = [] := by
    rw [hput hg,carried_append,hnil,responseHead,carried_frame hj,if_neg (fun h => absurd h.1 (by decide))]
    rfl
  have hreply : ((s.record j (responseBody r headOnly)).put
      (responseHead j r (responseBody r headOnly))).replies j = some (responseBody r headOnly) := by
    unfold Sys.put
    split <;> simp [Sys.record]
  cases h with
  | lost hg h =>
    have hf := Progress.of_finish h
    exact ⟨hf.unsent,hf.owed,hf.ended⟩
  | empty hg he h =>
    have hf := Progress.of_finish h
    have hout := out_finish h
    refine ⟨fun _ => ⟨hearly,?_⟩,hf.owed,?_⟩
    · rw [hout,hcarried hg,hnil]
    · intro pre b post ho hle _
      rw [hout,hput hg] at ho
      obtain ⟨mid,rfl,hnew⟩ := new_frame ho hle
      have hmid : mid = [] := by
        have hl := congrArg List.length hnew
        simp only [List.length_append,List.length_cons,List.length_nil] at hl
        exact List.length_eq_zero_iff.mp (by omega)
      obtain ⟨-,hs⟩ := Sys.finish_eq h
      have hr : s'.replies j = some (responseBody r headOnly) := by
        rw [hs]
        exact hreply
      refine ⟨not_running_finish h,_,hr,?_⟩
      rw [hmid,List.append_nil,hnil]
      exact Body.whole_nil he (hl hg)
  | body hg he h =>
    obtain ⟨more,hmore,-⟩ := (Own.go h).out
    refine Progress.behind (.of_go h (fun _ => ⟨_,hreply,?_⟩)) (hput hg) hmore ?_ (fun _ => ⟨hearly,?_⟩)
    · rw [hcarried hg]
      exact bodyOnward_completes _ (hl hg)
    · intro b hb
      rw [List.mem_singleton.mp hb]
      by_contra hn
      refine (endsStream_writeFrame (Bool.not_eq_false _ ▸ hn)).2 ?_
      rw [he]
      decide
    · rw [hcarried hg,hnil]

end Told

section Run
variable {maxBody : ℕ} {as : List Act} {s s' : Sys} {a : Act} {i j : ℕ}

/-- The steps that cut no body short: a reply's source hands over all of it, and no
call of `pump` over a body in memory goes on once its stream is reset or the
connection is closed. -/
def CutsNothing (s : Sys) : Act → Prop
  | .turn id => ¬ CutsBody s id
  | .reply id r t =>
    s.gone = false → ∀ headOnly, s.progs id = .handling headOnly → (responseBody r headOnly).Lasts chunkLen t
  | _ => True

/-- A frame of before, with what was before it. -/
theorem old_frame {out new pre post : List Bytes} {b : Bytes} (h : out ++ new = pre ++ b :: post)
    (hlt : pre.length < out.length) : ∃ rest, out = pre ++ b :: rest := by
  have hp : pre <+: out := List.prefix_of_prefix_length_le ⟨b :: post,h.symm⟩ (List.prefix_append _ _) (Nat.le_of_lt hlt)
  obtain ⟨rest,rfl⟩ := hp
  rw [List.append_assoc] at h
  have hrest := List.append_cancel_left h
  cases rest with
  | nil =>
    simp only [List.append_nil,Nat.lt_irrefl] at hlt
  | cons x rest =>
    obtain ⟨rfl,-⟩ := List.cons.inj hrest
    exact ⟨rest,rfl⟩

/-- A step of a task, given what it does for its own stream. -/
theorem Told.own {ks : List UInt8} (ht : Told s) (hl : Ledger s.conn) (hid : j ∈ s.conn.running) (hj : j < 2 ^ 31)
    (ho : Own s s' j ks) (hp : Progress s s' j) : Told s' := by
  obtain ⟨new,hout,hnew⟩ := ho.out
  have hspent (i : ℕ) : s'.conn.spent i ↔ s.conn.spent i := by
    unfold Conn.spent
    rw [ho.streams,ho.highest]
  have hother {i : ℕ} (hi : i ≠ j) : carried s'.conn.out i = carried s.conn.out i := by
    have hnil : carried new i = [] := by
      refine carried_eq_nil (fun b hb => Or.inr (Or.inr ?_))
      rw [(hnew b hb).1,Nat.mod_eq_of_lt hj]
      exact fun h => hi h.symm
    rw [hout,carried_append,hnil,List.append_nil]
  refine ⟨fun i he => ?_,fun hg i hi => ?_,fun pre b post hpre he => ?_⟩
  · by_cases hi : i = j
    · subst hi
      obtain ⟨h1,h2⟩ := hp.unsent he
      exact h2.trans (ht.unsent i h1)
    · rw [hother hi]
      exact ht.unsent i (ho.progs i hi ▸ he)
  · by_cases hij : i = j
    · subst hij
      exact hp.owed hg hi
    · rw [hother hij,ho.progs i hij,ho.replies i hij]
      exact ht.owed (ho.gone ▸ hg) i ((ho.running i hij).mp hi)
  · by_cases hle : s.conn.out.length ≤ pre.length
    · obtain ⟨hni,hw⟩ := hp.ended pre b post hpre hle he
      have hs : streamOf b = j := by
        rw [hout] at hpre
        obtain ⟨mid,-,hmid⟩ := new_frame hpre hle
        rw [(hnew b (hmid ▸ List.mem_append_right _ List.mem_cons_self)).1,Nat.mod_eq_of_lt hj]
      rw [hs]
      exact ⟨hni,(hspent j).mpr (spent_running hl hid),hw⟩
    · rw [hout] at hpre
      obtain ⟨rest,hrest⟩ := old_frame hpre (Nat.lt_of_not_le hle)
      obtain ⟨hni,hs,hw⟩ := ht.ended pre b rest hrest he
      have hne : streamOf b ≠ j := fun h => hni (h ▸ hid)
      exact ⟨fun hi => hni ((ho.running _ hne).mp hi),(hspent _).mpr hs,ho.replies _ hne ▸ hw⟩

/-- The reader loop does not touch what the tasks owe. -/
theorem Told.reads {e : Event} {c : Conn} (ht : Told s) (hr : Runs (stepRel Sys.step) (Sys.new maxBody) as s)
    (he : (∃ f, e = .frame f) ∨ ∃ r, e = .hangUp r) (hc : s.conn.next e = some c) :
    Told { s with conn := { c with out := if s.gone then s.conn.out else c.out } } := by
  have hin := Enlists.reads he hc
  obtain ⟨new,hout,hn⟩ : ∃ new, (if s.gone = true then s.conn.out else c.out) = s.conn.out ++ new ∧
      ∀ b ∈ new, kindOf b ≠ Kind.data ∧ kindOf b ≠ Kind.headers := by
    cases s.gone with
    | true => exact ⟨[],by simp,by simp⟩
    | false => exact next_silently he hc
  have hcarried (i : ℕ) : carried (if s.gone = true then s.conn.out else c.out) i = carried s.conn.out i := by
    rw [hout,carried_append,carried_eq_nil (fun b hb => Or.inl (hn b hb).1),List.append_nil]
  refine ⟨fun i hi => (hcarried i).trans (ht.unsent i hi),fun hg i hi => ?_,fun pre b post hpre hb => ?_⟩
  · have hcar : carried (if s.gone = true then s.conn.out else c.out) i = carried s.conn.out i := hcarried i
    have hgoal : (s.progs i).Completes (s.replies i) (carried (if s.gone = true then s.conn.out else c.out) i) := by
      rw [hcar]
      rcases hin.running.2 i hi with hi | hi
      · exact ht.owed hg i hi
      · rw [(run_started hr i).resolve_left hi]
        exact trivial
    exact hgoal
  · have hpre : (if s.gone = true then s.conn.out else c.out) = pre ++ b :: post := hpre
    rw [hout] at hpre
    by_cases hle : s.conn.out.length ≤ pre.length
    · obtain ⟨mid,-,hmid⟩ := new_frame hpre hle
      obtain ⟨h1,h2⟩ := hn b (hmid ▸ List.mem_append_right _ List.mem_cons_self)
      simp [endsStream,h1,h2] at hb
    · obtain ⟨rest,hrest⟩ := old_frame hpre (Nat.lt_of_not_le hle)
      obtain ⟨hni,hs,hw⟩ := ht.ended pre b rest hrest hb
      exact ⟨fun hi => (hin.running.2 _ hi).elim hni (fun h => h hs),hin.1 _ hs,hw⟩

theorem run_told (hr : Runs (Runs.guarded (stepRel Sys.step) CutsNothing) (Sys.new maxBody) as s) : Told s := by
  refine (hr.invariant (I := fun as s => Runs (stepRel Sys.step) (Sys.new maxBody) as s ∧ Told s) ⟨.nil,?_⟩ ?_).2
  · have hnew : ∀ b ∈ (Sys.new maxBody).conn.out, isControl b = true := control_new maxBody
    refine ⟨fun i _ => carried_eq_nil (fun b hb => Or.inl ?_),fun _ i hi => ?_,fun pre b post hpre he => ?_⟩
    · have h := hnew b hb
      simp only [isControl,Bool.and_eq_true,bne_iff_ne] at h
      exact h.1.1
    · simp [Sys.new,Conn.new,running] at hi
    · have h := hnew b (hpre ▸ List.mem_append_right _ List.mem_cons_self)
      simp only [isControl,Bool.and_eq_true,bne_iff_ne] at h
      simp [endsStream,h.1.1,h.1.2] at he
  rintro as s a s' _ ⟨hrun,ht⟩ ⟨hguard,hstep⟩
  refine ⟨hrun.snoc hstep,?_⟩
  have hl := (run_anchored hrun).1
  have hwire {j : ℕ} (hj : j ∈ s.conn.running) : j < 2 ^ 31 :=
    Nat.lt_of_le_of_lt (hl.tasksKnown j hj) (run_wired hrun)
  cases Sys.step_cases hstep with
  | reads _ he hc h' =>
    rw [h']
    exact ht.reads hrun (he.imp (by rintro ⟨f,_,_,h⟩; exact ⟨f,h⟩) (by rintro ⟨r,_,h⟩; exact ⟨r,h⟩)) hc
  | turn hid h => exact ht.own hl hid (hwire hid) h.own (h.progress (hwire hid) hguard ht hid)
  | reply hid hp ha =>
    exact ht.own hl hid (hwire hid) ha.own (ha.progress (hwire hid) hp (fun hg => hguard hg _ hp) ht)
  | writerGone h' =>
    rw [h']
    refine ⟨ht.unsent,(by intro hg; cases hg),fun pre b post hpre he => ?_⟩
    obtain ⟨h1,h2,h3⟩ := ht.ended pre b post hpre he
    exact ⟨h1,h2,h3⟩

/-- A frame that ends a stream stands behind all of the body its task was given. -/
def EndsWhole (s : Sys) : Prop :=
  ∀ pre b post, s.conn.out = pre ++ b :: post → endsStream b = true →
    ∃ body, s.replies (streamOf b) = some body ∧ body.Whole chunkLen (carried pre (streamOf b))

/-- The frame that ends a task: END_STREAM or RST_STREAM. -/
def isLast (i : ℕ) (b : Bytes) : Prop := streamOf b = i ∧ (endsStream b = true ∨ kindOf b = Kind.rstStream)

theorem isLast_endStream {kind flags : UInt8} {payload : Bytes} (hj : j < 2 ^ 31)
    (hk : kind = Kind.data ∨ kind = Kind.headers) (hf : flags &&& Flag.endStream ≠ 0) :
    isLast j (writeFrame kind flags j payload) := by
  refine ⟨by rw [streamOf_writeFrame,Nat.mod_eq_of_lt hj],Or.inl ?_⟩
  simp only [endsStream,kindOf_writeFrame,Head.has,flags_writeFrame]
  rcases hk with rfl | rfl
  · simpa using hf
  · simpa using hf

/-- A task ends with such a frame, unless its stream was reset before, the connection
is closed or nobody takes frames any more. -/
def EndsSaid (s s' : Sys) (i : ℕ) : Prop :=
  (∃ b ∈ s'.conn.out.drop s.conn.out.length, isLast i b) ∨ s.stopped i = true ∨ s.gone = true

theorem go_said {q : Sys} {o : Onward} (hj : j < 2 ^ 31) (h : q.go j o = some s') (hni : j ∉ s'.conn.running)
    (hid : j ∈ q.conn.running) : o = .stop ∨ q.gone = true ∨ ∃ b, s'.conn.out = q.conn.out ++ [b] ∧ isLast j b := by
  cases o with
  | endStream =>
    cases hg : q.gone with
    | true => exact Or.inr (Or.inl rfl)
    | false =>
      refine Or.inr (Or.inr ⟨writeFrame Kind.data Flag.endStream j [],?_,isLast_endStream hj (Or.inl rfl) (by decide)⟩)
      rw [out_finish h]
      simp [Sys.put,hg,emit]
  | stop => exact Or.inl rfl
  | pump data tail =>
    cases h
    exact absurd hid hni
  | read io =>
    cases h
    exact absurd hid hni

theorem last_new {out mid : List Bytes} {b : Bytes} (ho : s'.conn.out = out ++ mid ++ [b]) :
    b ∈ s'.conn.out.drop out.length := by
  rw [ho,List.append_assoc,List.drop_left]
  exact List.mem_append_right _ (List.mem_singleton.mpr rfl)

/-- Only a stream that is over makes a body stop without a word. -/
theorem fileTurn_ne_stop (f : File) (t off left : ℕ) : fileTurn f t off left ≠ .stop := by
  unfold fileTurn
  split
  · simp
  split
  · simp
  split <;> simp

theorem Tail.onward_ne_stop (tail : Tail) : tail.onward false ≠ .stop := by
  cases tail with
  | last => simp [Tail.onward]
  | file f t off left => exact fileTurn_ne_stop f t off left
  | stream io => simp [Tail.onward]

theorem pumpOnward_ne_stop (data : Bytes) (tail : Tail) : pumpOnward false data tail ≠ .stop := by
  unfold pumpOnward
  split
  · exact tail.onward_ne_stop
  · simp

theorem bodyOnward_ne_stop (t : ℕ) (body : Body) : bodyOnward false t body ≠ .stop := by
  cases body with
  | empty => simp [bodyOnward]
  | bytes b => exact pumpOnward_ne_stop b .last
  | mmap w => exact pumpOnward_ne_stop w.bytes .last
  | inline f off len => exact fileTurn_ne_stop f t off len
  | file f off len => exact fileTurn_ne_stop f t off len
  | upgraded pre io => simp [bodyOnward]
  | stream pre io len => exact pumpOnward_ne_stop pre (.stream io)

theorem readOnward_ne_stop (io : Io) : readOnward io ≠ .stop := by
  unfold readOnward
  split
  · simp
  · split <;> simp

theorem Turn.said (h : Turn s j s') (hj : j < 2 ^ 31) (hid : j ∈ s.conn.running) (hni : j ∉ s'.conn.running) :
    EndsSaid s s' j := by
  cases h with
  | @malformed task code _ _ _ _ h =>
    cases hg : s.gone with
    | true => exact Or.inr (Or.inr hg)
    | false =>
      refine Or.inl ⟨rst j code,?_,by rw [rst,streamOf_writeFrame,Nat.mod_eq_of_lt hj],Or.inr (kindOf_writeFrame _ _ _ _)⟩
      have ho : s'.conn.out = s.conn.out ++ [] ++ [rst j code] := by
        rw [out_finish h]
        simp [Sys.put,hg,emit]
      exact last_new ho
  | handed _ _ _ _ h =>
    rw [h] at hni
    exact absurd hid hni
  | @pump data off since tail _ h =>
    cases h with
    | cut hs _ => exact Or.inr (Or.inl hs)
    | failed _ hg _ => exact Or.inr (Or.inr hg)
    | sent _ _ hn _ h =>
      rw [h] at hni
      obtain ⟨-,rfl⟩ := next_send hn
      exact absurd hid hni
    | whole _ hg hn h =>
      obtain ⟨-,rfl⟩ := next_send hn
      rcases go_said hj h hni hid with hs | hg' | ⟨b,ho,hb⟩
      · exact absurd hs tail.onward_ne_stop
      · cases hg.symm.trans hg'
      · exact Or.inl ⟨b,last_new ho,hb⟩
  | @read io _ h =>
    rcases go_said hj h hni hid with hs | hg | ⟨b,ho,hb⟩
    · exact absurd hs (readOnward_ne_stop io)
    · exact Or.inr (Or.inr hg)
    · have ho' : s'.conn.out = s.conn.out ++ [] ++ [b] := by rw [ho,List.append_nil]
      exact Or.inl ⟨b,last_new ho',hb⟩

theorem Answered.said {r : Reply} {t : ℕ} {headOnly : Bool} (h : Answered s j r t headOnly s') (hj : j < 2 ^ 31)
    (hid : j ∈ s.conn.running) (hni : j ∉ s'.conn.running) : EndsSaid s s' j := by
  have hput (hg : s.gone = false) :
      ((s.record j (responseBody r headOnly)).put (responseHead j r (responseBody r headOnly))).conn =
        s.conn.emit (responseHead j r (responseBody r headOnly)) := by
    simp [Sys.put,hg,Sys.record]
  cases h with
  | lost hg _ => exact Or.inr (Or.inr hg)
  | empty hg he h =>
    have ho : s'.conn.out = s.conn.out ++ [] ++ [responseHead j r (responseBody r headOnly)] := by
      rw [out_finish h,hput hg,List.append_nil]
      rfl
    refine Or.inl ⟨_,last_new ho,isLast_endStream hj (Or.inr rfl) ?_⟩
    rw [he]
    decide
  | body hg he h =>
    have hrun : j ∈ ((s.record j (responseBody r headOnly)).put
        (responseHead j r (responseBody r headOnly))).conn.running := by
      rw [hput hg]
      exact hid
    rcases go_said hj h hni hrun with hs | hg' | ⟨b,ho,hb⟩
    · refine Or.inr (Or.inl ?_)
      by_contra hstop
      rw [Bool.eq_false_iff.mpr hstop] at hs
      exact bodyOnward_ne_stop t _ hs
    · have hsame : ((s.record j (responseBody r headOnly)).put
          (responseHead j r (responseBody r headOnly))).gone = s.gone := by
        unfold Sys.put
        split <;> rfl
      exact Or.inr (Or.inr (hsame ▸ hg'))
    · rw [hput hg] at ho
      exact Or.inl ⟨b,last_new ho,hb⟩

/-- No task ends without its stream being ended or over. -/
theorem step_said (hr : Runs (stepRel Sys.step) (Sys.new maxBody) as s) (h : s.step a = some s')
    (hid : i ∈ s.conn.running) (hni : i ∉ s'.conn.running) : EndsSaid s s' i := by
  have hwire : i < 2 ^ 31 := Nat.lt_of_le_of_lt ((run_anchored hr).1.tasksKnown i hid) (run_wired hr)
  cases Sys.step_cases h with
  | reads _ he hc h' =>
    rw [h'] at hni
    exact absurd ((Enlists.reads (he.imp (fun ⟨f,_,_,h⟩ => ⟨f,h⟩) (fun ⟨r,_,h⟩ => ⟨r,h⟩)) hc).running.1 i hid) hni
  | @turn j _ ht =>
    by_cases hij : i = j
    · subst hij
      exact ht.said hwire hid hni
    · exact absurd ((ht.own.running i hij).mpr hid) hni
  | @reply j _ _ _ _ _ ha =>
    by_cases hij : i = j
    · subst hij
      exact ha.said hwire hid hni
    · exact absurd ((ha.own.running i hij).mpr hid) hni
  | writerGone h' =>
    rw [h'] at hni
    exact absurd hid hni

end Run

end OxiServe.Http2
