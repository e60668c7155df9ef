import OxiServe.Server.FcgiWire
import OxiServe.Server.Reply

/-! # What the reader hands over of a record stream

A parse pass leaves the front of the next record in the buffer. One pump adds the
records its read completes, and a body read after some pumps hands over the
payload that is left.
-/
namespace OxiServe.Fcgi.FcgiBody

/-- An end record that completes the request. -/
def Completes (e : WireRecord) : Prop :=
  e.ty = .endRequest ∧ ∀ app proto, endRequestStatus e.body = some (app,proto) → proto = 0

section Drain

theorem drainLoop_record (fuel : ℕ) {me : FcgiBody} {r : Record} (h : parseRecord me.raw = .ok r)
    (hty : r.ty ≠ .endRequest) (sink : Bytes) :
    drainLoop (fuel + 1) me sink =
      drainLoop fuel (me.consume r) (sink ++ if r.ty = .stdout then r.body else []) := by
  simp only [drainLoop,h]
  cases ht : r.ty with
  | endRequest => exact absurd ht hty
  | stdout => rfl
  | _ => simp only [reduceCtorEq,if_false,List.append_nil]

theorem drainLoop_incomplete {fuel : ℕ} {me : FcgiBody} (h : parseRecord me.raw = .error .incomplete)
    (sink : Bytes) : drainLoop (fuel + 1) me sink = ((me,sink),.ok false) := by
  simp only [drainLoop,h]

theorem drainLoop_end (fuel : ℕ) {me : FcgiBody} {e : WireRecord} (he : Completes e) (h : me.raw = e.encode)
    (sink : Bytes) :
    ∃ me', drainLoop (fuel + 1) me sink = ((me',sink),.ok true) ∧ me'.out = me.out ∧ me'.done = true := by
  have hp : parseRecord me.raw = .ok ⟨e.ty,be16 e.id1 e.id0,e.body,e.size⟩ := by
    have hr := e.parseRecord_encode []
    rw [List.append_nil] at hr
    rw [h]
    exact hr
  simp only [drainLoop,hp,he.1]
  cases hs : endRequestStatus e.body with
  | none => exact ⟨_,rfl,rfl,rfl⟩
  | some st =>
    obtain ⟨app,proto⟩ := st
    have hz := he.2 app proto hs
    simp only [hz,ne_eq,not_true_eq_false,if_false]
    exact ⟨_,rfl,rfl,rfl⟩

theorem parseRecord_waiting {rs : List WireRecord} {fin : Option WireRecord} {raw rest : Bytes}
    (hw : raw ++ rest = wire rs fin) (h : Waiting raw rs fin) : parseRecord raw = .error .incomplete := by
  cases rs with
  | cons r rs =>
    rw [wire_cons] at hw
    exact WireRecord.parseRecord_short hw (h r rfl)
  | nil =>
    cases fin with
    | none =>
      have hr : raw = [] := (List.append_eq_nil_iff.mp hw).1
      rw [hr]
      rfl
    | some e =>
      have hw' : raw ++ rest = e.encode ++ [] := by
        rw [List.append_nil]
        exact hw
      exact WireRecord.parseRecord_short hw' (h e rfl)

/-- A parse pass consumes the records that are complete, or everything when the
end of the request is among them. -/
theorem drainLoop_wire {rs : List WireRecord} {fin : Option WireRecord} {rest : Bytes} {me : FcgiBody}
    {fuel : ℕ} (hrun : ∀ r ∈ rs, r.ty ≠ .endRequest) (hfin : ∀ e ∈ fin, Completes e)
    (hw : me.raw ++ rest = wire rs fin) (hf : me.raw.length < fuel) (sink : Bytes) :
    (∃ done rs' raw', rs = done ++ rs' ∧
        drainLoop fuel me sink = (({ me with raw := raw' },sink ++ payload done),.ok false) ∧
        raw' ++ rest = wire rs' fin ∧ me.raw.length = sizes done + raw'.length ∧ Waiting raw' rs' fin) ∨
      (fin.isSome = true ∧ rest = [] ∧ ∃ me', drainLoop fuel me sink = ((me',sink ++ payload rs),.ok true) ∧
        me'.out = me.out ∧ me'.done = true) := by
  induction rs generalizing me fuel sink with
  | nil =>
    obtain ⟨fuel,rfl⟩ : ∃ k, fuel = k + 1 := ⟨fuel - 1,by omega⟩
    by_cases hwait : Waiting me.raw [] fin
    · left
      refine ⟨[],[],me.raw,rfl,?_,hw,by simp [sizes],hwait⟩
      rw [drainLoop_incomplete (parseRecord_waiting hw hwait)]
      simp [payload]
    · right
      cases fin with
      | none => exact absurd (by intro r hr; cases hr) hwait
      | some e =>
        have hge : e.size ≤ me.raw.length := by
          by_contra hlt
          exact hwait (fun r hr => by cases hr; omega)
        have hw' : me.raw ++ rest = e.encode := hw
        have hlen := congrArg List.length hw'
        rw [List.length_append,WireRecord.length_encode] at hlen
        have hrest : rest = [] := List.eq_nil_of_length_eq_zero (by omega)
        rw [hrest,List.append_nil] at hw'
        obtain ⟨me',h1,h2,h3⟩ := drainLoop_end fuel (hfin e rfl) hw' sink
        exact ⟨rfl,hrest,me',by rw [h1]; simp [payload],h2,h3⟩
  | cons r rs ih =>
    obtain ⟨fuel,rfl⟩ : ∃ k, fuel = k + 1 := ⟨fuel - 1,by omega⟩
    by_cases hshort : me.raw.length < r.size
    · left
      have hwait : Waiting me.raw (r :: rs) fin := fun q hq => by cases hq; exact hshort
      refine ⟨[],r :: rs,me.raw,rfl,?_,hw,by simp [sizes],hwait⟩
      rw [drainLoop_incomplete (parseRecord_waiting hw hwait)]
      simp [payload]
    · rw [wire_cons] at hw
      obtain ⟨raw1,hraw,hw1⟩ : ∃ raw1, me.raw = r.encode ++ raw1 ∧ raw1 ++ rest = wire rs fin := by
        rcases List.append_eq_append_iff.mp hw with ⟨t,ht,h2⟩ | ⟨t,ht,h2⟩
        · have hl := congrArg List.length ht
          rw [List.length_append,WireRecord.length_encode] at hl
          have htn : t = [] := List.eq_nil_of_length_eq_zero (by omega)
          rw [htn,List.append_nil] at ht
          rw [htn,List.nil_append] at h2
          exact ⟨[],by rw [ht,List.append_nil],h2⟩
        · exact ⟨t,ht,h2.symm⟩
      have hp := r.parseRecord_encode raw1
      rw [← hraw] at hp
      have hdrop : me.raw.drop r.size = raw1 := by
        rw [hraw]
        exact List.drop_left' r.length_encode
      have hlen : me.raw.length = r.size + raw1.length := by
        rw [hraw,List.length_append,WireRecord.length_encode]
      have hstep := drainLoop_record fuel hp (hrun r List.mem_cons_self) sink
      have hpos := r.size_pos
      have hrun' : ∀ q ∈ rs, q.ty ≠ .endRequest := fun q hq => hrun q (List.mem_cons_of_mem _ hq)
      have hcons : me.consume ⟨r.ty,be16 r.id1 r.id0,r.body,r.size⟩ = { me with raw := raw1 } := by
        simp only [consume,hdrop]
      rw [hcons] at hstep
      rcases @ih { me with raw := raw1 } fuel hrun' hw1 (by simp only; omega) (sink ++ r.stdout) with
        ⟨done,rs',raw',h1,h2,h3,h4,h5⟩ | ⟨h1,h2,me',h3,h4,h5⟩
      · left
        refine ⟨r :: done,rs',raw',by rw [h1]; rfl,?_,h3,?_,h5⟩
        · rw [hstep]
          simp only [WireRecord.stdout] at h2
          rw [h2,payload_cons,← List.append_assoc]
          rfl
        · simp only at h4
          rw [hlen,sizes_cons,h4]
          omega
      · right
        refine ⟨h1,h2,me',?_,h4,h5⟩
        rw [hstep]
        simp only [WireRecord.stdout] at h3
        rw [h3,payload_cons,← List.append_assoc]
        rfl

end Drain

section Pump

/-- Reads of the size of the buffer at most. -/
def AreReads (segs : List Bytes) : Prop := ∀ s ∈ segs, s ≠ [] ∧ s.length ≤ 16 * 1024

/-- The reader has consumed what was complete, and the rest is still to come. -/
structure Reads (me : FcgiBody) (rs : List WireRecord) (fin : Option WireRecord) (segs : List Bytes) : Prop where
  sock : me.sock = segs.map .data
  out : me.out = []
  done : me.done = false
  reads : AreReads segs
  running : ∀ r ∈ rs, r.ty ≠ .endRequest
  completes : ∀ e ∈ fin, Completes e
  bytes : me.raw ++ segs.flatten = wire rs fin
  waiting : Waiting me.raw rs fin

variable {me : FcgiBody} {rs : List WireRecord} {fin : Option WireRecord} {segs : List Bytes}

theorem source_read_cons {s : Bytes} (h : s.length ≤ 16 * 1024) (src : Source) :
    Source.read (16 * 1024) (.data s :: src) = (.data s,src) := by
  simp only [Source.read,if_pos h]

/-- Nothing is awaited once all the bytes are in the buffer. -/
theorem awaited_none {raw : Bytes} (hw : raw = wire rs fin) (h : Waiting raw rs fin) : rs = [] ∧ fin = none := by
  cases rs with
  | cons r rs =>
    have hl := h r rfl
    rw [hw,wire_cons,List.length_append,WireRecord.length_encode] at hl
    omega
  | nil =>
    cases fin with
    | none => exact ⟨rfl,rfl⟩
    | some e =>
      have hl := h e rfl
      have he : wire [] (some e) = e.encode := rfl
      rw [hw,he,WireRecord.length_encode] at hl
      omega

theorem drainRecords_waiting (h : Reads me rs fin segs) (sink : Bytes) :
    me.drainRecords sink = ((me,sink),.ok false) :=
  drainLoop_incomplete (parseRecord_waiting h.bytes h.waiting) sink

theorem pump_nil (h : Reads me rs fin []) (timeout : Bool) (sink : Bytes) :
    rs = [] ∧ fin = none ∧
      pump timeout me sink = (({ me with sock := [], done := true },sink),.ok .ended) := by
  have hw := h.bytes
  rw [List.flatten_nil,List.append_nil] at hw
  obtain ⟨h1,h2⟩ := awaited_none hw h.waiting
  refine ⟨h1,h2,?_⟩
  have hs : me.sock = [] := h.sock
  simp only [pump,drainRecords_waiting h sink,hs,Source.read,if_true]

/-- One pump consumes what its read completes; the last one ends the response
when the end of the request was sent. -/
theorem pump_cons {s : Bytes} (h : Reads me rs fin (s :: segs)) (timeout : Bool) (sink : Bytes) :
    (∃ done rs' raw', rs = done ++ rs' ∧
        pump timeout me sink =
          (({ me with sock := segs.map .data, raw := raw' },sink ++ payload done),.ok .more) ∧
        Reads { me with sock := segs.map .data, raw := raw' } rs' fin segs ∧
        me.raw.length + s.length = sizes done + raw'.length) ∨
      (fin.isSome = true ∧ segs = [] ∧ ∃ me', pump timeout me sink = ((me',sink ++ payload rs),.ok .ended)) := by
  obtain ⟨hne,hle⟩ := h.reads s List.mem_cons_self
  have hs : me.sock = .data s :: segs.map .data := h.sock
  have hpump := pump.eq_def timeout me sink
  rw [drainRecords_waiting h sink] at hpump
  dsimp only at hpump
  rw [hs,source_read_cons hle] at hpump
  dsimp only at hpump
  rw [if_neg hne] at hpump
  have hw : me.raw ++ s ++ segs.flatten = wire rs fin := by
    rw [List.append_assoc]
    exact h.bytes
  have hreads : AreReads segs := fun t ht => h.reads t (List.mem_cons_of_mem _ ht)
  rcases @drainLoop_wire rs fin segs.flatten { me with sock := segs.map .data, raw := me.raw ++ s } _ h.running
    h.completes hw (Nat.lt_succ_self _) sink with
    ⟨done,rs',raw',h1,h2,h3,h4,h5⟩ | ⟨h1,h2,me',h3,-,-⟩
  · left
    refine ⟨done,rs',raw',h1,?_,?_,?_⟩
    · rw [hpump,drainRecords,h2]
    · have hrun : ∀ r ∈ rs', r.ty ≠ .endRequest :=
        fun r hr => h.running r (h1 ▸ List.mem_append_right _ hr)
      exact ⟨rfl,h.out,h.done,hreads,hrun,h.completes,h3,h5⟩
    · rw [← h4,List.length_append]
  · right
    have hnil : segs = [] := by
      cases segs with
      | nil => rfl
      | cons t segs =>
        have ht := (List.append_eq_nil_iff.mp h2).1
        exact absurd ht (hreads t List.mem_cons_self).1
    exact ⟨h1,hnil,me',by rw [hpump,drainRecords,h3]⟩

end Pump

section Poll

/-- What a reader will still hand over, with the reads that are still to come. -/
inductive Owes (me : FcgiBody) : List Bytes → Bytes → Prop
  | settled : me.done = true → Owes me [] me.out
  | going {rs : List WireRecord} {fin : Option WireRecord} {segs : List Bytes} :
      me.done = false → me.sock = segs.map .data → AreReads segs → (∀ r ∈ rs, r.ty ≠ .endRequest) →
      (∀ e ∈ fin, Completes e) → me.raw ++ segs.flatten = wire rs fin → Owes me segs (me.out ++ payload rs)

/-- Handing over a part of what is decoded. -/
theorem Owes.take {me : FcgiBody} {segs : List Bytes} {b : Bytes} (h : Owes me segs b) (cap : ℕ) :
    ∃ b', Owes { me with out := me.out.drop cap } segs b' ∧ b = me.out.take cap ++ b' := by
  cases h with
  | settled hd => exact ⟨_,.settled hd,(List.take_append_drop _ _).symm⟩
  | going h1 h2 h3 h4 h5 h6 =>
    refine ⟨_,.going h1 h2 h3 h4 h5 h6,?_⟩
    rw [← List.append_assoc,List.take_append_drop]

theorem pollLoop_out {cap fuel : ℕ} {me : FcgiBody} (h : me.out ≠ []) :
    pollLoop cap (fuel + 1) me = (.data (me.out.take cap),{ me with out := me.out.drop cap }) := by
  simp only [pollLoop,if_pos h]

theorem pollLoop_done {cap fuel : ℕ} {me : FcgiBody} (h : me.out = []) (hd : me.done = true) :
    pollLoop cap (fuel + 1) me = (.data [],me) := by
  simp only [pollLoop,if_neg (fun hn => hn h : ¬ me.out ≠ []),if_pos hd]

/-- One read hands over the front of what is owed, and nothing only at the end. -/
theorem pollLoop_owes {cap fuel : ℕ} (hc : 0 < cap) {me : FcgiBody} {segs : List Bytes} {b : Bytes}
    (h : Owes me segs b) (hf : segs.length + 3 ≤ fuel) :
    ∃ c me' segs' b', pollLoop cap fuel me = (.data c,me') ∧ Owes me' segs' b' ∧ b = c ++ b' ∧
      (c = [] → b = []) := by
  have hsome : ∀ {fuel : ℕ} {me : FcgiBody} {segs : List Bytes} {b : Bytes}, Owes me segs b → me.out ≠ [] →
      ∃ c me' segs' b', pollLoop cap (fuel + 1) me = (.data c,me') ∧ Owes me' segs' b' ∧ b = c ++ b' ∧
        (c = [] → b = []) := by
    intro fuel me segs b h hout
    obtain ⟨b',hb,he⟩ := h.take cap
    refine ⟨_,_,segs,b',pollLoop_out hout,hb,he,?_⟩
    intro ht
    have hl := congrArg List.length ht
    have hp := List.length_pos_iff.mpr hout
    rw [List.length_take,List.length_nil] at hl
    omega
  have hsettled : ∀ {fuel : ℕ} {me : FcgiBody}, me.done = true →
      ∃ c me' segs' b', pollLoop cap (fuel + 1) me = (.data c,me') ∧ Owes me' segs' b' ∧ me.out = c ++ b' ∧
        (c = [] → me.out = []) := by
    intro fuel me hd
    by_cases hout : me.out = []
    · exact ⟨[],me,[],me.out,pollLoop_done hout hd,.settled hd,rfl,fun _ => hout⟩
    · exact hsome (.settled hd) hout
  induction fuel generalizing me segs b with
  | zero => omega
  | succ fuel ih =>
    by_cases hout : me.out ≠ []
    · exact hsome h hout
    · have hnil : me.out = [] := Classical.not_not.mp hout
      cases h with
      | settled hd => exact hsettled hd
      | @going rs fin segs hd hs hreads hrun hfin hw =>
        obtain ⟨fuel,rfl⟩ : ∃ k, fuel = k + 1 := ⟨fuel - 1,by omega⟩
        have hloop := pollLoop.eq_def cap (fuel + 1 + 1) me
        dsimp only at hloop
        rw [if_neg hout,hd,if_neg Bool.false_ne_true] at hloop
        rcases @drainLoop_wire rs fin segs.flatten me _ hrun hfin hw (Nat.lt_succ_self _) [] with
          ⟨done,rs',raw',h1,h2,h3,-,h5⟩ | ⟨-,-,me',h3,-,hdone⟩
        · have hdrain : me.drainRecords [] = (({ me with raw := raw' },payload done),.ok false) := h2
          have hrun' : ∀ r ∈ rs', r.ty ≠ .endRequest := fun r hr => hrun r (h1 ▸ List.mem_append_right _ hr)
          have hpay : payload rs = payload done ++ payload rs' := by
            rw [h1]
            exact List.flatMap_append
          have hgoing : ¬ me.done = true := fun hn => Bool.false_ne_true (hd.symm.trans hn)
          rw [hloop,hdrain]
          dsimp only
          by_cases hdec : payload done = []
          · rw [if_neg (fun hn => hn.elim (fun hx => hx hdec) hgoing)]
            rw [hdec,List.nil_append] at hpay
            cases segs with
            | nil =>
              have hsock : me.sock = [] := hs
              rw [List.flatten_nil,List.append_nil] at h3
              obtain ⟨hr,-⟩ := awaited_none h3 h5
              have hb : me.out ++ payload rs = [] := by
                rw [hnil,hpay,hr]
                rfl
              rw [hb,hsock]
              have hend := @pollLoop_done cap fuel { me with raw := raw', sock := [], done := true } hnil rfl
              exact ⟨[],_,[],[],hend,hnil ▸ .settled rfl,rfl,fun _ => rfl⟩
            | cons s segs =>
              obtain ⟨hne,hle⟩ := hreads s List.mem_cons_self
              have hsock : me.sock = .data s :: segs.map .data := hs
              rw [hsock,source_read_cons hle]
              dsimp only
              rw [if_neg hne]
              have howes : Owes { me with sock := segs.map .data, raw := raw' ++ s } segs
                  (me.out ++ payload rs') := by
                refine .going hd rfl (fun t ht => hreads t (List.mem_cons_of_mem _ ht)) hrun' hfin ?_
                rw [List.append_assoc]
                exact h3
              rw [hpay]
              exact ih howes (by simp only [List.length_cons] at hf; omega)
          · rw [if_pos (Or.inl hdec)]
            have howes : Owes { me with raw := raw', out := payload done } segs (payload done ++ payload rs') :=
              .going hd hs hreads hrun' hfin h3
            rw [hnil,hpay,List.nil_append]
            exact hsome howes hdec
        · have hdrain : me.drainRecords [] = ((me',payload rs),.ok true) := h3
          rw [hloop,hdrain]
          dsimp only
          rw [if_pos (Or.inr hdone),hnil,List.nil_append]
          exact @hsettled fuel { me' with out := payload rs } hdone

theorem length_le_source_size (segs : List Bytes) : segs.length ≤ Source.size (segs.map .data) := by
  induction segs with
  | nil => exact Nat.zero_le _
  | cons s segs ih =>
    simp only [List.map_cons,Source.size,List.length_cons]
    omega

theorem pollRead_owes {cap : ℕ} (hc : 0 < cap) {me : FcgiBody} {segs : List Bytes} {b : Bytes}
    (h : Owes me segs b) :
    ∃ c me' segs' b', me.pollRead cap = (.data c,me') ∧ Owes me' segs' b' ∧ b = c ++ b' ∧ (c = [] → b = []) := by
  apply pollLoop_owes hc h
  cases h with
  | settled hd => simp
  | going hd hs hreads hrun hfin hw =>
    have hl := length_le_source_size segs
    rw [hs]
    omega

/-- A body hands over the payload that is left, and then ends. -/
theorem delivery_owes {cap : ℕ} (hc : 0 < cap) {me : FcgiBody} {segs : List Bytes} {b : Bytes}
    (h : Owes me segs b) : delivery cap (Server.Io.fcgi me) = (b,true) := by
  induction hn : Reader.size (Server.Io.fcgi me) using Nat.strongRecOn generalizing me segs b with
  | ind n ih =>
    obtain ⟨c,me',segs',b',hp,ho,hb,hz⟩ := pollRead_owes hc h
    have hr : Reader.read cap (Server.Io.fcgi me) = (.data c,Server.Io.fcgi me') := by
      change ((me.pollRead cap).1,Server.Io.fcgi (me.pollRead cap).2) = _
      rw [hp]
    by_cases hcn : c = []
    · subst hcn
      rw [delivery_end hr,hz rfl]
    · have hlt := Reader.size_lt hr hcn
      rw [delivery_data hr hcn,ih _ (by rw [← hn]; exact hlt) ho rfl,hb]

end Poll

end OxiServe.Fcgi.FcgiBody
