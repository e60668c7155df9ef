import OxiServe.Server.FcgiCursors

/-! # Pumps and reads hand over the payload once

What a reader still owes is what it has decoded and not handed over, and the payload of
the records that are buffered or on the way. Every pump and every read pays a part of it
off; the end is reported when nothing is owed.
-/
namespace OxiServe.Fcgi.Cursors
open FcgiBody (Pump Completes awaited_none)

/-- What a reader will still hand over. -/
inductive Owes (me : Cursors) : Bytes → Prop
  | settled : me.done = true → Owes me (me.out.drop me.outAt)
  | going {rs : List WireRecord} {fin : Option WireRecord} :
      me.done = false → Arrives me.sock → (∀ r ∈ rs, r.ty ≠ .endRequest) → (∀ e ∈ fin, Completes e) →
      me.raw.drop me.consumed ++ bytesOf me.sock = wire rs fin → Owes me (me.out.drop me.outAt ++ payload rs)

variable {me : Cursors} {rs : List WireRecord} {fin : Option WireRecord} {b : Bytes} {cap fuel : ℕ}

section Poll

/-- One read with room for `cap` bytes: nothing yet, after which less is on its way, or a
part of what is owed, and the empty part only when nothing is owed. -/
def Pays (cap : ℕ) (me : Cursors) (b : Bytes) (r : Poll × Cursors) : Prop :=
  Tidy r.2 ∧ weight r.2.sock ≤ weight me.sock ∧
    ((r.1 = .pending ∧ Owes r.2 b ∧ weight r.2.sock < weight me.sock) ∨
      ∃ c b', r.1 = .ready c ∧ Owes r.2 b' ∧ b = c ++ b' ∧ (0 < cap → c = [] → b = []))

theorem pays_handOver (ht : Tidy me) (hne : me.outAt < me.out.length) (h : Owes me b) :
    Pays cap me b (.ready (me.handOver cap).1,(me.handOver cap).2) := by
  obtain ⟨n,hn⟩ : ∃ n, n = min (me.out.length - me.outAt) cap := ⟨_,rfl⟩
  have hsplit : me.out.drop me.outAt =
      (me.handOver cap).1 ++ (me.handOver cap).2.out.drop (me.handOver cap).2.outAt := by
    simp only [handOver,← hn]
    split
    · rename_i he
      have hl : (me.out.drop me.outAt).length = n := by
        rw [List.length_drop]
        omega
      simp only [List.drop_nil,List.append_nil]
      rw [← hl,List.take_length]
    · simp only [← List.drop_drop,List.take_append_drop]
  have hkept : (me.handOver cap).2.sock = me.sock ∧ (me.handOver cap).2.done = me.done ∧
      (me.handOver cap).2.raw = me.raw ∧ (me.handOver cap).2.consumed = me.consumed := by
    simp only [handOver,← hn]
    split
    · exact ⟨rfl,rfl,rfl,rfl⟩
    · exact ⟨rfl,rfl,rfl,rfl⟩
  obtain ⟨hsock,hdone,hraw,hcons⟩ := hkept
  have htidy : Tidy (me.handOver cap).2 := by
    refine ⟨by rw [hcons,hraw]; exact ht.consumed_le,?_⟩
    simp only [handOver,← hn]
    split
    · exact .inr ⟨rfl,rfl⟩
    · left
      dsimp only
      omega
  have hempty : 0 < cap → (me.handOver cap).1 = [] → b = [] := by
    intro hc he
    have hl := congrArg List.length he
    simp only [handOver,← hn,List.length_take,List.length_drop,List.length_nil] at hl
    omega
  refine ⟨htidy,le_of_eq (by rw [hsock]),.inr ?_⟩
  cases h with
  | settled hd =>
    exact ⟨_,_,rfl,.settled (by rw [hdone,hd]),hsplit,hempty⟩
  | going hd hs hrun hfin hw =>
    refine ⟨_,_,rfl,.going (by rw [hdone,hd]) (by rw [hsock]; exact hs) hrun hfin
      (by rw [hraw,hcons,hsock]; exact hw),?_,hempty⟩
    rw [hsplit,List.append_assoc]

theorem pollLoop_ready (h : me.outAt < me.out.length) :
    pollLoop cap (fuel + 1) me = (.ready (me.handOver cap).1,(me.handOver cap).2) := by
  rw [pollLoop,if_pos h]

theorem pollLoop_done (h : ¬ me.outAt < me.out.length) (hd : me.done = true) :
    pollLoop cap (fuel + 1) me = (.ready [],me) := by
  rw [pollLoop,if_neg h,if_pos hd]

theorem Pays.mono {me' : Cursors} {r : Poll × Cursors} (h : Pays cap me' b r)
    (hw : weight me'.sock ≤ weight me.sock) : Pays cap me b r := by
  obtain ⟨h1,h2,h3⟩ := h
  refine ⟨h1,h2.trans hw,?_⟩
  rcases h3 with ⟨hp,ho,hlt⟩ | hr
  · exact .inl ⟨hp,ho,lt_of_lt_of_le hlt hw⟩
  · exact .inr hr

/-- A settled reader hands over the rest and then reports the end. -/
theorem pollLoop_settled (cap fuel : ℕ) (ht : Tidy me) (hd : me.done = true) (hb : me.out.drop me.outAt = b) :
    Pays cap me b (pollLoop cap (fuel + 1) me) := by
  subst hb
  by_cases h : me.outAt < me.out.length
  · rw [pollLoop_ready h]
    exact pays_handOver ht h (.settled hd)
  · obtain ⟨-,hn⟩ := ht.out_at.resolve_left h
    rw [pollLoop_done h hd]
    exact ⟨ht,Nat.le_refl _,.inr ⟨[],_,rfl,.settled hd,rfl,fun _ _ => by rw [hn,List.drop_nil]⟩⟩

/-- A reader with nothing decoded owes the records. -/
theorem Owes.undecoded (hn : me.out = []) (hd : me.done = false) (hs : Arrives me.sock)
    (hrun : ∀ r ∈ rs, r.ty ≠ .endRequest) (hfin : ∀ e ∈ fin, Completes e)
    (hw : me.raw.drop me.consumed ++ bytesOf me.sock = wire rs fin) : Owes me (payload rs) := by
  have h := Owes.going hd hs hrun hfin hw
  rwa [hn,List.drop_nil,List.nil_append] at h

/-- A reader that has parsed all it can and has nothing to hand over. -/
structure Starved (me : Cursors) (rs : List WireRecord) (fin : Option WireRecord) : Prop where
  out : me.out = []
  outAt : me.outAt = 0
  consumed : me.consumed = 0
  done : me.done = false
  sock : Arrives me.sock
  running : ∀ r ∈ rs, r.ty ≠ .endRequest
  completes : ∀ e ∈ fin, Completes e
  bytes : me.raw ++ bytesOf me.sock = wire rs fin
  waiting : Waiting me.raw rs fin

/-- The socket is asked: it has nothing yet, or gives some bytes for the next round, or is
closed, which it is only behind the last record. -/
theorem askSocket_pays (h : Starved me rs fin)
    (ih : ∀ me', Tidy me' → Owes me' (payload rs) → weight me'.sock < weight me.sock →
      Pays cap me' (payload rs) (pollLoop cap (fuel + 1) me')) :
    Pays cap me (payload rs) (askSocket (pollLoop cap (fuel + 1)) me) := by
  have htidy (s : List Arrival) (x : Bytes) (d : Bool) : Tidy { me with sock := s, raw := me.raw ++ x, done := d } :=
    ⟨by rw [h.consumed]; exact Nat.zero_le _,.inr ⟨h.outAt,h.out⟩⟩
  have howes {s : List Arrival} {x : Bytes} (hs : Arrives s) (hx : x ++ bytesOf s = bytesOf me.sock) :
      Owes { me with sock := s, raw := me.raw ++ x } (payload rs) := by
    refine .undecoded h.out h.done hs h.running h.completes ?_
    dsimp only
    rw [h.consumed,List.drop_zero,List.append_assoc,hx]
    exact h.bytes
  rcases pollSock_arrives h.sock with ⟨s,hp,hs,hb,hlt⟩ | ⟨c,s,hp,hs,hb,hc,hlt⟩
  · have hpays := howes hs (x := []) hb
    have ht := htidy s [] me.done
    rw [List.append_nil] at hpays ht
    rw [askSocket,hp,take_room]
    exact ⟨ht,Nat.le_of_lt hlt,.inl ⟨rfl,hpays,hlt⟩⟩
  · rw [askSocket,hp]
    dsimp only
    rw [take_overwrite]
    by_cases hcn : c = []
    · obtain ⟨hsn,rfl⟩ := hc hcn
      have hw := h.bytes
      rw [hsn] at hw
      obtain ⟨rfl,-⟩ := awaited_none (by simpa [bytesOf] using hw) h.waiting
      rw [if_pos hcn]
      have hset := pollLoop_settled cap fuel (htidy [] c true) rfl (show me.out.drop me.outAt = [] by
        rw [h.out,List.drop_nil])
      exact hset.mono (Nat.zero_le _)
    · rw [if_neg hcn]
      have hpays := ih _ (htidy s c me.done) (howes hs hb.symm) (hlt hcn)
      exact hpays.mono (Nat.le_of_lt (hlt hcn))

/-- Every read pays off a part of what is owed. -/
theorem pollLoop_pays (ht : Tidy me) (h : Owes me b) (hf : weight me.sock + 3 ≤ fuel) :
    Pays cap me b (pollLoop cap fuel me) := by
  induction fuel generalizing me b with
  | zero => omega
  | succ fuel ih =>
    by_cases hout : me.outAt < me.out.length
    · rw [pollLoop_ready hout]
      exact pays_handOver ht hout h
    · cases h with
      | settled hd => exact pollLoop_settled cap fuel ht hd rfl
      | @going rs fin hd hs hrun hfin hw =>
        obtain ⟨hat,hnil⟩ : me.outAt = 0 ∧ me.out = [] := ht.out_at.resolve_left hout
        obtain ⟨fuel,rfl⟩ : ∃ k, fuel = k + 1 := ⟨fuel - 1,by omega⟩
        have hme : { me with out := [] } = me := by rw [← hnil]
        have hgoing : ¬ me.done = true := by simp [hd]
        rw [pollLoop,if_neg hout,if_neg hgoing,hme,hnil,List.drop_nil,List.nil_append]
        rcases drainRecords_wire hrun hfin ht.consumed_le hw [] with
          ⟨parsed,rs',k,hrs,hdrain,-,hw',hwait⟩ | ⟨k,app,hdrain,-⟩
        · have hpay : payload rs = payload parsed ++ payload rs' := by
            rw [hrs]
            exact List.flatMap_append
          have hrun' : ∀ r ∈ rs', r.ty ≠ .endRequest := fun r hr => hrun r (hrs ▸ List.mem_append_right _ hr)
          rw [hdrain,List.nil_append]
          dsimp only
          rw [compact_eq]
          by_cases hdec : payload parsed = []
          · rw [hdec,List.nil_append] at hpay
            rw [if_neg (by simp [hdec,hd]),hpay]
            have hstarved : Starved { me with raw := me.raw.drop k, consumed := 0, out := payload parsed } rs' fin :=
              ⟨hdec,hat,rfl,hd,hs,hrun',hfin,hw',hwait⟩
            apply (askSocket_pays hstarved ?_).mono (Nat.le_refl _)
            intro me' ht' ho' hlt
            dsimp only at hlt
            exact ih ht' ho' (by omega)
          · rw [if_pos (.inl hdec)]
            have hlt : me.outAt < (payload parsed).length := by
              rw [hat]
              exact List.length_pos_of_ne_nil hdec
            have ho : Owes { me with raw := me.raw.drop k, consumed := 0, out := payload parsed } _ :=
              .going hd hs hrun' hfin hw'
            dsimp only at ho
            rw [hat,List.drop_zero,← hpay] at ho
            rw [pollLoop_ready hlt,hat]
            exact (pays_handOver ⟨Nat.zero_le _,.inl (hat ▸ hlt)⟩ (hat ▸ hlt) ho).mono (Nat.le_refl _)
        · rw [hdrain,List.nil_append]
          dsimp only
          rw [compact_eq,if_pos (.inr rfl)]
          refine (pollLoop_settled cap fuel ⟨Nat.zero_le _,?_⟩ rfl ?_).mono (Nat.le_refl _)
          · dsimp only
            rw [hat]
            by_cases hz : payload rs = []
            · exact .inr ⟨rfl,hz⟩
            · exact .inl (List.length_pos_of_ne_nil hz)
          · dsimp only
            rw [hat,List.drop_zero]

theorem pollRead_pays (cap : ℕ) (ht : Tidy me) (h : Owes me b) : Pays cap me b (me.pollRead cap) :=
  pollLoop_pays ht h (Nat.le_refl _)

end Poll

section Polls

/-- Any reads hand over a front of what is owed, and all of it when one with room for
something reports the end. -/
theorem polls_pays (ht : Tidy me) (h : Owes me b) (caps : List ℕ) :
    ∃ b', Tidy (me.polls caps).2 ∧ Owes (me.polls caps).2 b' ∧ b = got (me.polls caps).1 ++ b' ∧
      Poll.failed ∉ (me.polls caps).1 ∧
      ((∀ cap ∈ caps, 0 < cap) → Poll.ready [] ∈ (me.polls caps).1 → b' = []) := by
  induction caps generalizing me b with
  | nil => exact ⟨b,ht,h,rfl,List.not_mem_nil,fun _ hn => absurd hn List.not_mem_nil⟩
  | cons cap caps ih =>
    obtain ⟨ht',-,hr⟩ := pollRead_pays cap ht h
    rcases hr with ⟨hp,ho,-⟩ | ⟨c,b1,hp,ho,hb,hz⟩
    · obtain ⟨b2,h1,h2,h3,h4,h5⟩ := ih ht' ho
      refine ⟨b2,h1,h2,?_,?_,?_⟩
      · simp only [polls,got,List.flatMap_cons,hp,List.nil_append]
        exact h3
      · rw [polls,hp,List.mem_cons,not_or]
        exact ⟨(fun hn => nomatch hn),h4⟩
      · intro hc hm
        rw [polls,hp,List.mem_cons] at hm
        rcases hm with hm | hm
        · cases hm
        · exact h5 (fun x hx => hc x (List.mem_cons_of_mem _ hx)) hm
    · obtain ⟨b2,h1,h2,h3,h4,h5⟩ := ih ht' ho
      refine ⟨b2,h1,h2,?_,?_,?_⟩
      · simp only [polls,got,List.flatMap_cons,hp,List.append_assoc]
        rw [hb,h3]
        rfl
      · rw [polls,hp,List.mem_cons,not_or]
        exact ⟨(fun hn => nomatch hn),h4⟩
      · intro hc hm
        rw [polls,hp,List.mem_cons] at hm
        rcases hm with hm | hm
        · cases hm
          have hnil := hz (hc cap List.mem_cons_self) rfl
          rw [hb,h3] at hnil
          exact (List.append_eq_nil_iff.mp (List.append_eq_nil_iff.mp hnil).2).2
        · exact h5 (fun x hx => hc x (List.mem_cons_of_mem _ hx)) hm

/-- The end is reported when nothing is owed. -/
theorem owes_nil_of_end (ht : Tidy me) (h : Owes me b) (hc : 0 < cap) (he : (me.pollRead cap).1 = .ready []) :
    b = [] := by
  obtain ⟨-,-,⟨hp,-⟩ | ⟨c,b',hp,-,-,hz⟩⟩ := pollRead_pays cap ht h
  · cases hp.symm.trans he
  · cases hp.symm.trans he
    exact hz hc rfl

/-- Reads with room for something come to the end: each gives some of what is owed or
waits for something on its way. -/
theorem end_mem_polls (ht : Tidy me) (h : Owes me b) {caps : List ℕ} (hc : ∀ cap ∈ caps, 0 < cap)
    (hl : weight me.sock + b.length < caps.length) : Poll.ready [] ∈ (me.polls caps).1 := by
  induction caps generalizing me b with
  | nil => cases hl
  | cons cap caps ih =>
    obtain ⟨ht',hle,hr⟩ := pollRead_pays cap ht h
    have hcs : ∀ cap ∈ caps, 0 < cap := fun x hx => hc x (List.mem_cons_of_mem _ hx)
    rw [List.length_cons] at hl
    rw [polls]
    rcases hr with ⟨-,ho,hlt⟩ | ⟨c,b',hp,ho,hb,hz⟩
    · exact List.mem_cons_of_mem _ (ih ht' ho hcs (by omega))
    · by_cases hcn : c = []
      · rw [hp,hcn]
        exact List.mem_cons_self
      · have hpos := List.length_pos_of_ne_nil hcn
        rw [hb,List.length_append] at hl
        exact List.mem_cons_of_mem _ (ih ht' ho hcs (by omega))

end Polls

section Pumps

/-- The reader while it is pumped: nothing is left in `out`. -/
structure Pumping (me : Cursors) (b : Bytes) : Prop where
  tidy : Tidy me
  owes : Owes me b
  out : me.out = []

theorem pumping_new {sock : List Arrival} (hs : Arrives sock) (hrun : ∀ r ∈ rs, r.ty ≠ .endRequest)
    (hfin : ∀ e ∈ fin, Completes e) (hw : bytesOf sock = wire rs fin) : Pumping (new sock) (payload rs) :=
  ⟨⟨Nat.le_refl _,.inr ⟨rfl,rfl⟩⟩,.undecoded rfl rfl hs hrun hfin hw,rfl⟩

/-- A pump moves a part of what is owed to the sink, and all of it when it ends. -/
theorem pump_pays (h : Pumping me b) (hd : me.done = false) (sink : Bytes) :
    ∃ me' c b' e, me.pump sink = ((me',sink ++ c),.ok e) ∧ b = c ++ b' ∧ Pumping me' b' ∧
      (e = .more → me'.done = false) ∧ (e = .ended → b' = []) := by
  obtain ⟨ht,ho,hn⟩ := h
  have hat : me.outAt = 0 := by
    rcases ht.out_at with hlt | ⟨h0,-⟩
    · rw [hn] at hlt
      cases hlt
    · exact h0
  have hended {k app : ℕ} {s : List Arrival} {raw : Bytes} (hk : k ≤ raw.length) :
      Pumping { me with sock := s, raw := raw, consumed := k, appStatus := app, done := true } [] := by
    have hset : Owes { me with sock := s, raw := raw, consumed := k, appStatus := app, done := true } _ :=
      .settled rfl
    dsimp only at hset
    rw [hn,List.drop_nil] at hset
    rw [hn]
    exact ⟨⟨hk,.inr ⟨hat,rfl⟩⟩,hset,rfl⟩
  cases ho with
  | settled hdone => cases hd.symm.trans hdone
  | @going rs fin _ hs hrun hfin hw =>
    rw [hn,List.drop_nil,List.nil_append]
    rcases drainRecords_wire hrun hfin ht.consumed_le hw sink with
      ⟨parsed,rs',k,hrs,hdrain,-,hw',hwait⟩ | ⟨k,app,hdrain,hk⟩
    · have hpay : payload rs = payload parsed ++ payload rs' := by
        rw [hrs]
        exact List.flatMap_append
      have hrun' : ∀ r ∈ rs', r.ty ≠ .endRequest := fun r hr => hrun r (hrs ▸ List.mem_append_right _ hr)
      obtain ⟨c,s,hr,hs',hb,hc⟩ := readSock_arrives hs
      rw [pump,hdrain]
      dsimp only
      rw [compact_eq]
      dsimp only
      rw [hr]
      dsimp only
      by_cases hcn : c = []
      · rw [if_pos hcn]
        rw [hb,hcn,hc hcn,List.append_nil,List.append_nil] at hw'
        obtain ⟨rfl,-⟩ := awaited_none hw' hwait
        exact ⟨_,payload parsed,[],.ended,rfl,by rw [hpay]; rfl,hended (Nat.zero_le _),(fun he => nomatch he),
          fun _ => rfl⟩
      · rw [if_neg hcn]
        have hw2 : (me.raw.drop k ++ c).drop 0 ++ bytesOf s = wire rs' fin := by
          rw [List.drop_zero,List.append_assoc,← hb]
          exact hw'
        rcases @drainRecords_wire { me with sock := s, raw := me.raw.drop k ++ c, consumed := 0 } _ _ _ hrun' hfin
          (Nat.zero_le _) hw2 (sink ++ payload parsed) with
          ⟨parsed',rs'',k',hrs',hdrain',hk',hw'',-⟩ | ⟨k',app,hdrain',hk'⟩
        · have hpay' : payload rs' = payload parsed' ++ payload rs'' := by
            rw [hrs']
            exact List.flatMap_append
          have hrun'' : ∀ r ∈ rs'', r.ty ≠ .endRequest := fun r hr => hrun' r (hrs' ▸ List.mem_append_right _ hr)
          rw [hdrain',List.append_assoc]
          refine ⟨_,payload parsed ++ payload parsed',payload rs'',.more,rfl,?_,?_,fun _ => hd,fun he => (nomatch he)⟩
          · rw [hpay,hpay',List.append_assoc]
          · exact ⟨⟨hk',.inr ⟨hat,hn⟩⟩,.undecoded hn hd hs' hrun'' hfin hw'',hn⟩
        · rw [hdrain',List.append_assoc]
          refine ⟨_,payload parsed ++ payload rs',[],.ended,rfl,?_,hended hk',fun he => (nomatch he),fun _ => rfl⟩
          rw [hpay,List.append_nil]
    · rw [pump,hdrain]
      exact ⟨_,payload rs,[],_,rfl,(List.append_nil _).symm,hended hk,(fun he => nomatch he),fun _ => rfl⟩

/-- Any number of pumps. -/
theorem pumps_pays (k : ℕ) (h : Pumping me b) (hd : me.done = false) (sink : Bytes) :
    ∃ me' c b' e, pumps k me sink = ((me',sink ++ c),.ok e) ∧ b = c ++ b' ∧ Pumping me' b' ∧
      (e = .ended → b' = []) := by
  induction k generalizing me b sink with
  | zero => exact ⟨me,[],b,.more,by rw [pumps,List.append_nil],rfl,h,fun he => (nomatch he)⟩
  | succ k ih =>
    obtain ⟨me1,c,b1,e,hp,hb,h1,hmore,hend⟩ := pump_pays h hd sink
    cases e with
    | more =>
      obtain ⟨me2,c2,b2,e,hp2,hb2,h2,hend2⟩ := ih h1 (hmore rfl) (sink ++ c)
      refine ⟨me2,c ++ c2,b2,e,?_,by rw [hb,hb2,List.append_assoc],h2,hend2⟩
      rw [pumps,hp]
      dsimp only
      rw [hp2,List.append_assoc]
    | ended => exact ⟨me1,c,b1,.ended,by rw [pumps,hp],hb,h1,hend⟩

end Pumps

/-- The reader decodes faithfully. Records of any types and lengths with any padding come
in any pieces, up to the end of the request or to the close. However often the reader is
pumped and with whatever buffers it is read after that, no pump and no read fails, what
it has handed over is a front of the payload, and the end is reported behind all of it; it
is reported after as many reads as there are bytes owed and events of the socket. -/
theorem hands_over_payload (rs : List WireRecord) (fin : Option WireRecord) (sock : List Arrival) (k : ℕ)
    (hrun : ∀ r ∈ rs, r.ty ≠ .endRequest) (hfin : ∀ e ∈ fin, Completes e) (hs : Arrives sock)
    (hw : bytesOf sock = wire rs fin) :
    ∃ me sink e, pumps k (new sock) [] = ((me,sink),.ok e) ∧ (e = .ended → sink = payload rs) ∧
      ∀ caps, Poll.failed ∉ (me.polls caps).1 ∧ sink ++ got (me.polls caps).1 <+: payload rs ∧
        (∀ cap, 0 < cap → ((me.polls caps).2.pollRead cap).1 = .ready [] →
          sink ++ got (me.polls caps).1 = payload rs) ∧
        ((∀ cap ∈ caps, 0 < cap) → weight me.sock + (payload rs).length < caps.length →
          Poll.ready [] ∈ (me.polls caps).1 ∧ sink ++ got (me.polls caps).1 = payload rs) := by
  obtain ⟨me,sink,owed,e,hp,hb,⟨ht,ho,-⟩,hend⟩ := pumps_pays k (pumping_new hs hrun hfin hw) rfl []
  rw [List.nil_append] at hp
  refine ⟨me,sink,e,hp,fun he => by rw [hb,hend he,List.append_nil],fun caps => ?_⟩
  obtain ⟨b',ht',ho',hgot,hfail,hall'⟩ := polls_pays ht ho caps
  have hall : payload rs = sink ++ got (me.polls caps).1 ++ b' := by rw [hb,hgot,List.append_assoc]
  refine ⟨hfail,⟨b',hall.symm⟩,?_,?_⟩
  · intro cap hc he
    rw [hall,owes_nil_of_end ht' ho' hc he,List.append_nil]
  · intro hc hl
    rw [hb,List.length_append] at hl
    have hmem := end_mem_polls ht ho hc (by omega)
    exact ⟨hmem,by rw [hall,hall' hc hmem,List.append_nil]⟩

/-- A page of two bytes between a line for the log and the end of the request. -/
def shortPage : List WireRecord :=
  [⟨.stderr,0,1,0,[33],[],by decide,by decide⟩,⟨.stdout,0,1,0,[104,105],[0,0,0],by decide,by decide⟩]

def pageEnd : WireRecord := ⟨.endRequest,0,1,0,[0,0,0,0,0,0,0,0],[],by decide,by decide⟩

/-- Its bytes in three pieces, the first cut inside the header of the page. -/
def shortArrivals : List Arrival :=
  [.data ((wire shortPage pageEnd).take 12),.pending,.data (((wire shortPage pageEnd).drop 12).take 6),.pending,
    .data ((wire shortPage pageEnd).drop 18)]

theorem hands_over_shortPage : ∃ me sink e, pumps 1 (new shortArrivals) [] = ((me,sink),.ok e) ∧
    ∀ caps, (∀ cap ∈ caps, 0 < cap) → weight me.sock + 2 < caps.length →
      sink ++ got (me.polls caps).1 = [104,105] := by
  have hs : Arrives shortArrivals := by
    intro a ha
    simp only [shortArrivals,List.mem_cons,List.not_mem_nil,or_false] at ha
    rcases ha with rfl | rfl | rfl | rfl | rfl
    · exact .inr ⟨_,by decide,rfl⟩
    · exact .inl rfl
    · exact .inr ⟨_,by decide,rfl⟩
    · exact .inl rfl
    · exact .inr ⟨_,by decide,rfl⟩
  have hst : endRequestStatus pageEnd.body = some (0,0) := by decide
  have hfin : ∀ e ∈ some pageEnd, Completes e := by
    rintro e he
    cases he
    refine ⟨rfl,fun app proto h => ?_⟩
    rw [hst] at h
    injection h with h
    injection h with _ h
    exact h.symm
  obtain ⟨me,sink,e,hp,-,hpolls⟩ := hands_over_payload shortPage (some pageEnd) shortArrivals 1 (by decide) hfin hs
    (by decide)
  exact ⟨me,sink,e,hp,fun caps hc hl => ((hpolls caps).2.2.2 hc hl).2⟩

end OxiServe.Fcgi.Cursors
