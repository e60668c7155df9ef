import OxiServe.Server.Conn

/-! # What the reply writer puts on the wire

Each copy loop sends exactly what its source hands over, and reports success
exactly when the peer takes all of it and the source ends without an error.
-/
namespace OxiServe.Server
open Config Response

section Sends

/-- The outcome `r` of sending `b` to a sink from a source that ended well or
not, reported as `n` bytes. -/
structure Sends (s : Sink) (b : Bytes) (ok : Bool) (n : ℕ) (r : Sink × Option ℕ) : Prop where
  result : r.2 = if s.takes b.length && ok then some n else none
  sink : r.2.isSome = true → r.1 = (s.writeAll b).1
  flushOk : r.1.flushOk = s.flushOk

theorem Sends.prepend {s : Sink} {a b : Bytes} {ok : Bool} {n : ℕ} {r : Sink × Option ℕ}
    (ha : s.takes a.length = true) (h : Sends (s.writeAll a).1 b ok n r) : Sends s (a ++ b) ok n r where
  result := by
    rw [h.result,Sink.takes_append,ha,Bool.true_and]
  sink := by
    intro hs
    rw [h.sink hs,Sink.writeAll_append]
  flushOk := h.flushOk

theorem Sends.blocked {s : Sink} {a b : Bytes} {ok : Bool} {n : ℕ} (ha : s.takes a.length = false) :
    Sends s (a ++ b) ok n ((s.writeAll a).1,none) where
  result := by
    rw [Sink.takes_append,ha]
    rfl
  sink := by
    intro hs
    cases hs
  flushOk := rfl

/-- The `?` after every write. -/
theorem Sends.write {s : Sink} {a b : Bytes} {ok : Bool} {n : ℕ} {k : Sink → Sink × Option ℕ}
    (h : Sends (s.writeAll a).1 b ok n (k (s.writeAll a).1)) :
    Sends s (a ++ b) ok n (match s.writeAll a with
      | (s,false) => (s,none)
      | (s,true) => k s) := by
  rcases hw : s.writeAll a with ⟨s',w⟩
  have h1 : (s.writeAll a).1 = s' := by rw [hw]
  have h2 : s.takes a.length = w := by rw [← Sink.writeAll_snd,hw]
  cases w with
  | false =>
    have hb : Sends s (a ++ b) ok n ((s.writeAll a).1,none) := .blocked h2
    rw [h1] at hb
    exact hb
  | true =>
    rw [h1] at h
    exact .prepend h2 (by rw [h1]; exact h)

theorem Sends.done {s : Sink} {n : ℕ} : Sends s [] true n (s,some n) where
  result := by
    have ht : s.takes ([] : Bytes).length = true := by
      rw [← Sink.writeAll_snd,Sink.writeAll_nil]
    rw [ht]
    rfl
  sink := by
    intro _
    rw [Sink.writeAll_nil]
  flushOk := rfl

theorem Sends.fails {s : Sink} {b : Bytes} {n : ℕ} : Sends s b false n (s,none) where
  result := by
    rw [Bool.and_false]
    rfl
  sink := by
    intro hs
    cases hs
  flushOk := rfl

theorem Sends.whole {s : Sink} {a : Bytes} {n : ℕ} :
    Sends s a true n (match s.writeAll a with
      | (s,false) => (s,none)
      | (s,true) => (s,some n)) := by
  have h : Sends s (a ++ []) true n (match s.writeAll a with
      | (s,false) => (s,none)
      | (s,true) => (s,some n)) := .write (k := fun s => (s,some n)) .done
  rwa [List.append_nil] at h

theorem writeAll_out {s : Sink} {b : Bytes} (h : s.takes b.length = true) :
    (s.writeAll b).1.out = s.out ++ b := by
  rcases s with ⟨out,room,ok⟩
  cases room with
  | none => rfl
  | some k =>
    simp only [Sink.takes,decide_eq_true_eq] at h
    simp only [Sink.writeAll,Sink.fitting,List.take_of_length_le h]

end Sends

section FileSource

/-- The reads of a window of a file, until it is complete, a read yields
nothing, or a read fails. -/
def File.window (f : File) (chunk : ℕ) : ℕ → ℕ → ℕ → ℕ → Bytes × Bool
  | 0, _, _, _ => ([],false)
  | fuel + 1, t, pos, left =>
    if left = 0 then ([],true)
    else
      match f.readAt t pos (min chunk left) with
      | none => ([],false)
      | some b =>
        if b = [] then ([],true)
        else
          (b ++ (f.window chunk fuel (t + 1) (pos + b.length) (left - b.length)).1,
            (f.window chunk fuel (t + 1) (pos + b.length) (left - b.length)).2)

/-- Successive reads of a window yield `n` bytes before it is complete or a read
yields nothing. -/
inductive File.Yields (f : File) (chunk : ℕ) : ℕ → ℕ → ℕ → ℕ → Prop
  | full {t pos : ℕ} : File.Yields f chunk t pos 0 0
  | short {t pos left : ℕ} : left ≠ 0 → f.readAt t pos (min chunk left) = some [] →
      File.Yields f chunk t pos left 0
  | more {t pos left n : ℕ} {b : Bytes} : left ≠ 0 → f.readAt t pos (min chunk left) = some b → b ≠ [] →
      File.Yields f chunk (t + 1) (pos + b.length) (left - b.length) n →
      File.Yields f chunk t pos left (b.length + n)

/-- A window read without an error has the length its reads yield. -/
theorem File.window_length_iff {f : File} {chunk fuel t pos left n : ℕ}
    (hok : (f.window chunk fuel t pos left).2 = true) :
    (f.window chunk fuel t pos left).1.length = n ↔ f.Yields chunk t pos left n := by
  induction fuel generalizing t pos left n with
  | zero => cases hok
  | succ fuel ih =>
    simp only [File.window] at hok ⊢
    by_cases hz : left = 0
    · subst hz
      simp only [↓reduceIte,List.length_nil]
      constructor
      · intro h
        subst h
        exact .full
      · intro h
        cases h with
        | full => rfl
        | short h => exact absurd rfl h
        | more h => exact absurd rfl h
    · simp only [if_neg hz] at hok ⊢
      cases hr : f.readAt t pos (min chunk left) with
      | none =>
        rw [hr] at hok
        cases hok
      | some b =>
        rw [hr] at hok
        by_cases hb : b = []
        · subst hb
          simp only [↓reduceIte,List.length_nil]
          constructor
          · intro h
            subst h
            exact .short hz hr
          · intro h
            cases h with
            | full => exact absurd rfl hz
            | short => rfl
            | more _ h1 h2 =>
              rw [hr] at h1
              cases h1
              exact absurd rfl h2
        · simp only [if_neg hb] at hok ⊢
          have hi := fun k => @ih (t + 1) (pos + b.length) (left - b.length) k hok
          rw [List.length_append]
          constructor
          · intro h
            subst h
            exact .more hz hr hb ((hi _).mp rfl)
          · intro h
            cases h with
            | full => exact absurd rfl hz
            | short _ h1 =>
              rw [hr] at h1
              cases h1
              exact absurd rfl hb
            | more _ h1 _ h3 =>
              rw [hr] at h1
              cases h1
              rw [(hi _).mpr h3]

theorem fileLoop_sends {f : File} {chunk len fuel t pos sent : ℕ} {s : Sink} :
    Sends s (f.window chunk fuel t pos (len - sent)).1 (f.window chunk fuel t pos (len - sent)).2
      (sent + (f.window chunk fuel t pos (len - sent)).1.length)
      (fileLoop f chunk len fuel t s pos sent) := by
  induction fuel generalizing t pos sent s with
  | zero => exact .fails
  | succ fuel ih =>
    simp only [fileLoop,File.window]
    by_cases hs : len ≤ sent
    · have hz : len - sent = 0 := by omega
      simp only [if_pos hs,hz,↓reduceIte]
      exact .done
    · have hz : len - sent ≠ 0 := by omega
      simp only [if_neg hs,if_neg hz]
      cases hr : f.readAt t pos (min chunk (len - sent)) with
      | none => exact .fails
      | some b =>
        by_cases hb : b = []
        · simp only [if_pos hb]
          exact .done
        · simp only [if_neg hb]
          have hi := @ih (t + 1) (pos + b.length) (sent + b.length) (s.writeAll b).1
          have hk : len - (sent + b.length) = len - sent - b.length := by omega
          rw [hk] at hi
          refine .write (k := fun s => fileLoop f chunk len fuel (t + 1) s (pos + b.length) (sent + b.length)) ?_
          rw [List.length_append,← Nat.add_assoc]
          exact hi

end FileSource

section UpstreamSource

/-- What a stream body still puts out after `sent` bytes. -/
def streamRest (len : Option ℕ) (io : Io) (sent : ℕ) : Bytes := takeUpTo len sent (delivery upstreamBuf io).1

/-- The length was reached, or the source ended without an error before it. -/
def streamOk (len : Option ℕ) (io : Io) (sent : ℕ) : Bool :=
  reached len (sent + (delivery upstreamBuf io).1.length) || (delivery upstreamBuf io).2

theorem takeUpTo_reached {len : Option ℕ} {sent : ℕ} (h : reached len sent = true) (b : Bytes) :
    takeUpTo len sent b = [] := by
  cases len with
  | none => cases h
  | some total =>
    simp only [reached,decide_eq_true_eq] at h
    have hz : total - sent = 0 := by omega
    simp only [takeUpTo,hz,List.take_zero]

theorem reached_mono {len : Option ℕ} {sent k : ℕ} (h : reached len sent = true) :
    reached len (sent + k) = true := by
  cases len with
  | none => cases h
  | some total =>
    simp only [reached,decide_eq_true_eq] at h ⊢
    omega

theorem takeUpTo_append (len : Option ℕ) (sent : ℕ) (a b : Bytes) :
    takeUpTo len sent (a ++ b) =
      takeUpTo len sent a ++ takeUpTo len (sent + (takeUpTo len sent a).length) b := by
  cases len with
  | none => rfl
  | some total =>
    simp only [takeUpTo,List.take_append,List.length_take]
    have hk : total - sent - a.length = total - (sent + min (total - sent) a.length) := by omega
    rw [hk]

theorem reached_takeUpTo (len : Option ℕ) (sent k : ℕ) (a : Bytes) :
    reached len (sent + (takeUpTo len sent a).length + k) = reached len (sent + a.length + k) := by
  cases len with
  | none => rfl
  | some total =>
    simp only [reached,takeUpTo,List.length_take]
    rw [Bool.eq_iff_iff]
    simp only [decide_eq_true_eq]
    omega

theorem upstreamLoop_sends {len : Option ℕ} {fuel sent : ℕ} {s : Sink} {io : Io}
    (hf : Reader.size io < fuel) :
    Sends s (streamRest len io sent) (streamOk len io sent) (sent + (streamRest len io sent).length)
      (upstreamLoop len fuel s io sent) := by
  induction fuel generalizing sent s io with
  | zero => omega
  | succ fuel ih =>
    simp only [upstreamLoop]
    by_cases hr : reached len sent = true
    · have hok : streamOk len io sent = true := by
        simp only [streamOk,reached_mono hr,Bool.true_or]
      simp only [if_pos hr,streamRest,takeUpTo_reached hr,hok]
      exact .done
    · simp only [if_neg hr]
      rcases hio : Reader.read upstreamBuf io with ⟨b | _,io'⟩
      · by_cases hb : b = []
        · subst hb
          have hd := delivery_end hio
          have hnil : takeUpTo len sent [] = [] := by
            cases len <;> simp [takeUpTo]
          simp only [↓reduceIte,streamRest,streamOk,hd,hnil,Bool.or_true]
          exact .done
        · have hd := delivery_data hio hb
          have hlt := Reader.size_lt hio hb
          simp only [if_neg hb]
          have hi := @ih (sent + (takeUpTo len sent b).length) (s.writeAll (takeUpTo len sent b)).1 io' (by omega)
          have hrest : streamRest len io sent =
              takeUpTo len sent b ++ streamRest len io' (sent + (takeUpTo len sent b).length) := by
            simp only [streamRest,hd,takeUpTo_append]
          have hok : streamOk len io sent = streamOk len io' (sent + (takeUpTo len sent b).length) := by
            rw [streamOk,streamOk,reached_takeUpTo,hd]
            simp only [List.length_append,Nat.add_assoc]
          rw [hrest,hok]
          refine .write (k := fun s => upstreamLoop len fuel s io' (sent + (takeUpTo len sent b).length)) ?_
          rw [List.length_append,← Nat.add_assoc]
          exact hi
      · have hd := delivery_failed hio
        have hok : streamOk len io sent = false := by
          simp only [streamOk,hd,List.length_nil,Nat.add_zero,Bool.or_false]
          exact Bool.eq_false_iff.mpr hr
        rw [hok]
        exact .fails

theorem streamUpstream_sends {s : Sink} {pre : Bytes} {io : Io} {len : Option ℕ} :
    Sends s (pre ++ streamRest len io pre.length) (streamOk len io pre.length)
      (pre ++ streamRest len io pre.length).length (streamUpstream s pre io len) := by
  refine .write (k := fun s => upstreamLoop len (Reader.size io + 1) s io pre.length) ?_
  rw [List.length_append]
  exact upstreamLoop_sends (Nat.lt_succ_self _)

end UpstreamSource

section Supply

/-- What the source of a body hands over to the writer before it ends, and
whether it ends without an error. -/
def Body.supply (core : CoreConf) (tcp : Bool) (t : ℕ) : Body → Bytes × Bool
  | .empty => ([],true)
  | .bytes b => (b,true)
  | .mmap w => (w.bytes,true)
  | .inline f offset len =>
    match f.readAt t offset len with
    | some b => (b,true)
    | none => ([],false)
  | .file f offset len => f.window (fileChunk core tcp len) (len + 1) t offset len
  | .stream pre io len => (pre ++ streamRest len io pre.length,streamOk len io pre.length)
  | .upgraded pre _ => (pre,true)

theorem writeBody_sends {core : CoreConf} {tcp : Bool} {t : ℕ} {s : Sink} {head : Bytes} {body : Body}
    (hu : body.isUpgraded = false) :
    Sends s (head ++ (body.supply core tcp t).1) (body.supply core tcp t).2
      (body.supply core tcp t).1.length (writeBody core tcp t s head body) := by
  cases body with
  | empty =>
    simp only [Body.supply,List.append_nil]
    exact .whole
  | bytes b => exact .whole
  | mmap w => exact .whole
  | inline f offset len =>
    simp only [writeBody,Body.supply]
    cases f.readAt t offset len with
    | none => exact .fails
    | some b => exact .whole
  | file f offset len =>
    refine .write (k := fun s => streamFile core tcp t s f offset len) ?_
    have hf := @fileLoop_sends f (fileChunk core tcp len) len (len + 1) t offset 0 (s.writeAll head).1
    rw [Nat.zero_add] at hf
    exact hf
  | stream pre io len =>
    refine .write (k := fun s => streamUpstream s pre io len) ?_
    exact streamUpstream_sends
  | upgraded pre io => cases hu

/-- How many bytes a body comes to, in terms of the file reads and of what the
upstream sends. What came with an upstream's head counts in full. -/
def Body.Holds (core : CoreConf) (tcp : Bool) (t : ℕ) : Body → ℕ → Prop
  | .empty, n => n = 0
  | .bytes b, n => b.length = n
  | .mmap w, n => w.range.len = n
  | .inline f offset len, n => ∃ b, f.readAt t offset len = some b ∧ b.length = n
  | .file f offset len, n => f.Yields (fileChunk core tcp len) t offset len n
  | .stream pre io (some m), n => pre.length + min (m - pre.length) (delivery upstreamBuf io).1.length = n
  | .stream pre io none, n => pre.length + (delivery upstreamBuf io).1.length = n
  | .upgraded _ _, _ => False

theorem supply_length_iff {core : CoreConf} {tcp : Bool} {t n : ℕ} {body : Body}
    (hu : body.isUpgraded = false) (hok : (body.supply core tcp t).2 = true) :
    (body.supply core tcp t).1.length = n ↔ body.Holds core tcp t n := by
  cases body with
  | empty => exact eq_comm
  | bytes b => rfl
  | mmap w =>
    simp only [Body.supply,Body.Holds,Mapped.length_bytes]
  | inline f offset len =>
    simp only [Body.supply,Body.Holds] at hok ⊢
    cases hr : f.readAt t offset len with
    | none =>
      rw [hr] at hok
      cases hok
    | some b =>
      constructor
      · intro h
        exact ⟨b,rfl,h⟩
      · rintro ⟨c,hc,hl⟩
        cases hc
        exact hl
  | file f offset len => exact File.window_length_iff hok
  | stream pre io len =>
    cases len with
    | none => simp only [Body.supply,Body.Holds,streamRest,takeUpTo,List.length_append]
    | some m => simp only [Body.supply,Body.Holds,streamRest,takeUpTo,List.length_append,List.length_take]
  | upgraded pre io => cases hu

end Supply

namespace Exchange

/-- What the exchange's body source hands over; a `HEAD` reply has none. -/
def supply (x : Exchange) : Bytes × Bool := x.framed.body.supply x.core x.tcp x.clock

/-- The peer takes the whole response. -/
def peerTakes (x : Exchange) (s : Sink) : Bool := s.takes (x.head ++ x.supply.1).length && s.flushOk

theorem framed_body_of_headOnly {x : Exchange} (h : x.headOnly = true) : x.framed.body = .empty := by
  simp only [framed,h,↓reduceIte]

theorem writeBody_framed {x : Exchange} {s : Sink} (hu : x.framed.body.isUpgraded = false) :
    Sends s (x.head ++ x.supply.1) x.supply.2 x.supply.1.length
      (writeBody x.core x.tcp x.clock s x.head x.framed.body) := writeBody_sends hu

theorem writeReply_framed (x : Exchange) (s : Sink) :
    writeReply x.core x.date x.tcp x.clock s x.framed x.headOnly =
      ((writeBody x.core x.tcp x.clock s x.head x.framed.body).1,
        if (writeBody x.core x.tcp x.clock s x.head x.framed.body).1.flushOk then
          (writeBody x.core x.tcp x.clock s x.head x.framed.body).2 else none) := by
  by_cases h : x.headOnly = true
  · simp only [writeReply,h,if_pos,framed_body_of_headOnly h]
    rfl
  · simp only [writeReply,h]
    rfl

/-- The loop goes on exactly when the reply keeps the connection, its source
ends without an error and the peer takes everything. -/
theorem respond_snd {x : Exchange} {s : Sink} (hu : x.framed.body.isUpgraded = false) :
    (x.respond s).2 = (x.framed.resp.keepAlive && x.supply.2 && x.peerTakes s) := by
  have hs := @writeBody_framed x s hu
  simp only [respond,writeReply_framed,hs.flushOk,hs.result,peerTakes]
  cases s.flushOk <;> cases s.takes (x.head ++ x.supply.1).length <;> cases x.supply.2 <;> simp

/-- When the response was written without an error, the bytes after the head are
those of the source. -/
theorem written_eq {x : Exchange} {s : Sink} (hu : x.framed.body.isUpgraded = false)
    (hok : x.supply.2 = true) (ht : x.peerTakes s = true) : x.written s = x.supply.1 := by
  have hs := @writeBody_framed x s hu
  simp only [peerTakes,Bool.and_eq_true] at ht
  have hsome : (writeBody x.core x.tcp x.clock s x.head x.framed.body).2.isSome = true := by
    rw [hs.result,hok,ht.1]
    rfl
  have hk := hs.sink hsome
  have hout : (x.respond s).1.out = s.out ++ (x.head ++ x.supply.1) := by
    have h1 : (x.respond s).1 = (writeBody x.core x.tcp x.clock s x.head x.framed.body).1 := by
      simp only [respond,writeReply_framed]
      split
      · rename_i heq
        exact (congrArg Prod.fst heq).symm
      · rename_i heq
        exact (congrArg Prod.fst heq).symm
    rw [h1,hk]
    exact writeAll_out ht.1
  rw [written,hout,← List.append_assoc,← List.length_append,List.drop_left]

end Exchange

/-! ## What the whole of a body is

A stream with a length of its own is whole once that many bytes went out, one
without once its source ends without an error. A file is whole once its window is
read in full.
-/
section Completeness
open Response
variable {f : File} {cap t off left : ℕ}

/-- The bytes `sent` are all of the body. -/
def Body.Whole (cap : ℕ) : Body → Bytes → Prop
  | .empty, sent => sent = []
  | .bytes b, sent => sent = b
  | .mmap w, sent => sent = w.bytes
  | .inline _ _ len, sent => sent.length = len
  | .file _ _ len, sent => sent.length = len
  | .stream pre io none, sent => sent = pre ++ (delivery cap io).1 ∧ (delivery cap io).2 = true
  | .stream pre io (some n), sent => sent <+: pre ++ (delivery cap io).1 ∧ n ≤ sent.length
  | .upgraded _ _, _ => False

/-- The source of the body hands over all of it, read from the clock `t` on. -/
def Body.Lasts (cap t : ℕ) : Body → Prop
  | .empty => True
  | .bytes _ => True
  | .mmap _ => True
  | .inline f off len => f.Yields cap t off len len
  | .file f off len => f.Yields cap t off len len
  | .stream _ io none => (delivery cap io).2 = true
  | .stream pre io (some n) => n ≤ pre.length + (delivery cap io).1.length
  | .upgraded _ _ => False

/-- A window that is read in full is read in pieces, none of them empty. -/
theorem File.Yields.next {n : ℕ} (h : f.Yields cap t off left n) (hn : n = left) (hl : left ≠ 0) :
    ∃ b, f.readAt t off (min cap left) = some b ∧ b ≠ [] ∧ b.length ≤ left ∧
      f.Yields cap (t + 1) (off + b.length) (left - b.length) (left - b.length) := by
  cases h with
  | full => exact absurd rfl hl
  | short _ _ => exact absurd hn.symm hl
  | @more _ _ _ m b _ hread hb hrest =>
    have hm : m = left - b.length := by omega
    subst hm
    exact ⟨b,hread,hb,by omega,hrest⟩

/-- An empty body is whole at once. -/
theorem Body.whole_nil {body : Body} (he : body.isEmpty = true) (h : body.Lasts cap t) : body.Whole cap [] := by
  cases body with
  | empty => rfl
  | bytes b =>
    have hb : b.length = 0 := by simpa [isEmpty,knownLen] using he
    exact (List.length_eq_zero_iff.mp hb).symm
  | mmap w =>
    have hw : w.bytes.length = 0 := by simpa [isEmpty,knownLen] using he
    exact (List.length_eq_zero_iff.mp hw).symm
  | inline f off len =>
    have hl : len = 0 := by simpa [isEmpty,knownLen] using he
    exact hl.symm
  | file f off len =>
    have hl : len = 0 := by simpa [isEmpty,knownLen] using he
    exact hl.symm
  | stream pre io len =>
    have hl : len = some 0 := by simpa [isEmpty,knownLen] using he
    subst hl
    exact ⟨List.nil_prefix,Nat.le_refl _⟩
  | upgraded pre io => exact absurd h (fun h => h)

/-- What an upstream hands over is whole just when it lasts. -/
theorem whole_stream_iff {pre : Bytes} {io : Io} {len : Option ℕ} :
    (Body.stream pre io len).Whole cap (pre ++ (delivery cap io).1) ↔ (Body.stream pre io len).Lasts cap t := by
  cases len with
  | none => exact and_iff_right rfl
  | some n =>
    simp only [Body.Whole,Body.Lasts,List.length_append]
    exact and_iff_right (List.prefix_refl _)

end Completeness

end OxiServe.Server
