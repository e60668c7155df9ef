import OxiServe.Server.ChunkOverflow

/-! # Reading a body in place

The read buffer keeps what it has from the head on, and an offset into it says how far the
body was decoded. After the response the connection loop moves what is behind the offset
to the front, where the next request is read.
-/
namespace OxiServe

/-- What a socket gives until it fails or is closed. -/
def Source.flow (reads : Source) : Bytes := (Source.contents reads).1

namespace Server
open Request (Req)
open Chunked (crlf)

/-- A body, the offset behind it, and how reading it ended; `done` has the whole buffer. -/
structure BodyTaken where
  body : Bytes
  consumed : ℕ
  ended : BodyEnd
deriving DecidableEq, Repr

section Reading

/-- The lines behind the last chunk, with the offset behind the last one read. -/
def takeTrailers (timesOut : Bool) : ℕ → Bytes → ℕ → Source → ℕ × Except ℕ (Bytes × Source)
  | 0, _, pos, _ => (pos,.error 400)
  | fuel + 1, read, pos, reads =>
    match fillUntil timesOut (fun read => trailerLine (read.drop pos)) reads read with
    | .error status => (pos,.error status)
    | .ok (i,read,reads) =>
      if i = 0 then (pos + i + 2,.ok (read,reads)) else takeTrailers timesOut fuel read (pos + i + 2) reads

/-- `read_chunked_body` with its offset. -/
def takeChunks (timesOut : Bool) (max : ℕ) : ℕ → Bytes → ℕ → Source → Bytes → BodyTaken
  | 0, _, pos, _, body => ⟨body,pos,.refused 400⟩
  | fuel + 1, read, pos, reads, body =>
    match fillUntil timesOut (fun read => sizeLine (read.drop pos)) reads read with
    | .error status => ⟨body,pos,.refused status⟩
    | .ok (i,read,reads) =>
      match parseHex (sizeText ((read.drop pos).take i)) with
      | none => ⟨body,pos,.refused 400⟩
      | some size =>
        let pos := pos + i + 2
        if size = 0 then
          match takeTrailers timesOut fuel read pos reads with
          | (pos,.error status) => ⟨body,pos,.refused status⟩
          | (pos,.ok (read,reads)) => ⟨body,pos,.done read reads⟩
        else if max < (body.length + size) % 2 ^ 64 then ⟨body,pos,.refused 413⟩
        else
          match fillUntil timesOut (fun read => holds ((size + 2) % 2 ^ 64) (read.drop pos)) reads read with
          | .error status => ⟨body,pos,.refused status⟩
          | .ok (_,read,reads) =>
            if 2 ^ 64 ≤ size + 2 then ⟨body,pos,.panic⟩
            else
              let body := body ++ (read.drop pos).take size
              let pos := pos + size
              if (read.drop pos).take 2 ≠ crlf then ⟨body,pos,.refused 400⟩
              else takeChunks timesOut max fuel read (pos + 2) reads body

/-- What came with the head is taken from the buffer, the rest is read past it. -/
def takeExact (timesOut : Bool) (n : ℕ) (read : Bytes) (pos : ℕ) (reads : Source) : BodyTaken :=
  let have_ := min (read.length - pos) n
  let r := fillBody timesOut n read reads ((read.drop pos).take have_)
  ⟨r.body,pos + have_,r.ended⟩

/-- `read_body`; the offset is what `consumed` is set to. -/
def takeBody (req : Req) (max : ℕ) (i : Incoming) : BodyTaken :=
  match req.body with
  | .none => ⟨[],req.headLen,.done i.buf i.reads⟩
  | .length n =>
    if max < n then ⟨[],req.headLen,.refused 413⟩ else takeExact i.timesOut n i.buf req.headLen i.reads
  | .chunked =>
    takeChunks i.timesOut max (i.buf.length + Source.size i.reads + 1) i.buf req.headLen i.reads []

/-- `copy_within(at.., 0)`: the end of the buffer stays where it was. -/
def copyWithin (read : Bytes) (at_ : ℕ) : Bytes := read.drop at_ ++ read.drop (read.length - at_)

/-- What the connection loop leaves in the buffer for the next request. -/
def shiftBuffer (consumed : ℕ) (read : Bytes) : Bytes :=
  let consumed := min consumed read.length
  if read.length ≤ consumed then []
  else (copyWithin read consumed).take (read.length - consumed)

/-- The part of the buffer that the offset leaves, as `readBody` hands it on. -/
def BodyTaken.view (t : BodyTaken) : BodyRead :=
  ⟨t.body,match t.ended with
    | .done read reads => .done (read.drop t.consumed) reads
    | e => e⟩

end Reading

section Refines
variable {t : Bool} {max fuel pos : ℕ} {read rest body : Bytes} {reads : Source} {α : Type}

@[simp] theorem flow_nil : Source.flow [] = [] := rfl

@[simp] theorem flow_failed (reads : Source) : Source.flow (.failed :: reads) = [] := rfl

@[simp] theorem flow_close (reads : Source) : Source.flow (.data [] :: reads) = [] := rfl

theorem flow_data {b : Bytes} (hb : b ≠ []) (reads : Source) :
    Source.flow (.data b :: reads) = b ++ Source.flow reads := by
  simp only [Source.flow,Source.contents,if_neg hb]

theorem shiftBuffer_eq (consumed : ℕ) (read : Bytes) : shiftBuffer consumed read = read.drop consumed := by
  unfold shiftBuffer
  dsimp only
  split
  · rename_i h
    exact (List.drop_eq_nil_of_le (by omega)).symm
  · rename_i h
    have hmin : min consumed read.length = consumed := by omega
    rw [hmin,copyWithin]
    exact List.take_left' List.length_drop

/-- Looking behind the offset is looking at the rest. -/
theorem fillUntil_drop (ready : Bytes → Except ℕ (Option α)) (reads : Source) (h : pos ≤ read.length) :
    fillUntil t (fun read => ready (read.drop pos)) reads read =
      (fillUntil t ready reads (read.drop pos)).map (fun r => (r.1,read.take pos ++ r.2.1,r.2.2)) := by
  induction reads generalizing read with
  | nil =>
    unfold fillUntil
    cases hr : ready (read.drop pos) with
    | error status => rfl
    | ok o =>
      cases o with
      | none => rfl
      | some a => simp only [Except.map,List.take_append_drop]
  | cons d reads ih =>
    unfold fillUntil
    cases hr : ready (read.drop pos) with
    | error status => rfl
    | ok o =>
      cases o with
      | some a => simp only [Except.map,List.take_append_drop]
      | none =>
        cases d with
        | failed => rfl
        | data b =>
          dsimp only
          by_cases hb : b = []
          · simp only [if_pos hb]
            rfl
          · have hlen : pos ≤ (read ++ b).length := by
              rw [List.length_append]
              omega
            rw [if_neg hb,if_neg hb,ih hlen,List.drop_append_of_le_length h,List.take_append_of_le_length h]

theorem flow_pieces {bs : List Bytes} (hbs : ∀ b ∈ bs, b ≠ []) (reads : Source) :
    Source.flow (bs.map .data ++ reads) = bs.flatten ++ Source.flow reads := by
  induction bs with
  | nil => rfl
  | cons b bs ih =>
    obtain ⟨hb,hbs⟩ := List.forall_mem_cons.mp hbs
    rw [List.map_cons,List.cons_append,flow_data hb,ih hbs,List.flatten_cons,List.append_assoc]

/-- Reading on appends what the socket gives. -/
theorem fillUntil_keeps {ready : Bytes → Except ℕ (Option α)} {a : α} {rest' : Bytes} {reads' : Source}
    (h : fillUntil t ready reads rest = .ok (a,rest',reads')) :
    rest' ++ Source.flow reads' = rest ++ Source.flow reads := by
  obtain ⟨-,bs,hbs,rfl,rfl⟩ := fillUntil_ok h
  rw [flow_pieces hbs,List.append_assoc]

/-- The buffer that is read on, and its part behind the offset, come to the same. -/
theorem fillUntil_behind (ready : Bytes → Except ℕ (Option α)) (reads : Source) (h : pos ≤ read.length) :
    (∃ status, fillUntil t (fun read => ready (read.drop pos)) reads read = .error status ∧
      fillUntil t ready reads (read.drop pos) = .error status) ∨
    (∃ a read' reads', fillUntil t (fun read => ready (read.drop pos)) reads read = .ok (a,read',reads') ∧
      fillUntil t ready reads (read.drop pos) = .ok (a,read'.drop pos,reads') ∧
      ready (read'.drop pos) = .ok (some a) ∧ pos ≤ read'.length ∧
      read' ++ Source.flow reads' = read ++ Source.flow reads) := by
  have hdrop := fillUntil_drop (t := t) ready reads h
  rcases hf : fillUntil t ready reads (read.drop pos) with status | ⟨a,rest',reads'⟩
  · rw [hf] at hdrop
    exact .inl ⟨status,hdrop,rfl⟩
  · rw [hf] at hdrop
    have hlen : (read.take pos).length = pos := by
      rw [List.length_take]
      omega
    have hback : (read.take pos ++ rest').drop pos = rest' := List.drop_left' hlen
    have hall := fillUntil_keeps hf
    refine .inr ⟨a,read.take pos ++ rest',reads',hdrop,by rw [hback],?_,?_,?_⟩
    · rw [hback]
      exact (fillUntil_size hf).2
    · rw [List.length_append]
      omega
    · rw [List.append_assoc,hall,← List.append_assoc,List.take_append_drop]

/-- The same lines are read, and the offset stays within the buffer. -/
theorem takeTrailers_behind (fuel : ℕ) (reads : Source) (h : pos ≤ read.length) :
    (∃ p status, takeTrailers t fuel read pos reads = (p,.error status) ∧
      readTrailers t fuel (read.drop pos) reads = .error status) ∨
    (∃ p read' reads', takeTrailers t fuel read pos reads = (p,.ok (read',reads')) ∧
      readTrailers t fuel (read.drop pos) reads = .ok (read'.drop p,reads') ∧ p ≤ read'.length ∧
      read' ++ Source.flow reads' = read ++ Source.flow reads) := by
  induction fuel generalizing read pos reads with
  | zero => exact .inl ⟨pos,400,rfl,rfl⟩
  | succ fuel ih =>
    rw [takeTrailers,readTrailers]
    rcases fillUntil_behind (t := t) trailerLine reads h with
      ⟨status,h1,h2⟩ | ⟨i,read1,reads1,h1,h2,hready,hle,hall⟩
    · rw [h1,h2]
      exact .inl ⟨pos,status,rfl,rfl⟩
    · have hi : i + 2 ≤ (read1.drop pos).length := findCrlf_lt (Except.ok.inj hready)
      rw [List.length_drop] at hi
      rw [h1,h2]
      dsimp only
      rw [List.drop_drop,List.drop_drop]
      by_cases hz : i = 0
      · subst hz
        rw [if_pos rfl,if_pos rfl]
        exact .inr ⟨_,read1,reads1,rfl,rfl,by omega,hall⟩
      · rw [if_neg hz,if_neg hz,← Nat.add_assoc]
        rcases ih reads1 (show pos + i + 2 ≤ read1.length by omega) with hr | ⟨p,read2,reads2,h3,h4,h5,h6⟩
        · exact .inl hr
        · exact .inr ⟨p,read2,reads2,h3,h4,h5,h6.trans hall⟩

/-- Within its buffer, an offset behind which the rest is as it was sent. -/
def Keeps (read : Bytes) (reads : Source) (taken : BodyTaken) : Prop :=
  ∀ read' reads', taken.ended = .done read' reads' →
    taken.consumed ≤ read'.length ∧ read' ++ Source.flow reads' = read ++ Source.flow reads

theorem keeps_refused {status p : ℕ} (b : Bytes) : Keeps read reads ⟨b,p,.refused status⟩ := nofun

/-- Decoding in place is decoding what is behind the offset. -/
theorem takeChunks_view (fuel : ℕ) (reads : Source) (body : Bytes) (h : pos ≤ read.length) :
    (takeChunks t max fuel read pos reads body).view = readChunks t max fuel (read.drop pos) reads body ∧
      Keeps read reads (takeChunks t max fuel read pos reads body) := by
  induction fuel generalizing read pos reads body with
  | zero => exact ⟨rfl,keeps_refused _⟩
  | succ fuel ih =>
    rw [takeChunks]
    rcases fillUntil_behind (t := t) sizeLine reads h with
      ⟨status,h1,h2⟩ | ⟨i,read1,reads1,h1,h2,hready,hle,hall⟩
    · rw [readChunks,h1,h2]
      exact ⟨rfl,keeps_refused _⟩
    · have hi := sizeLine_some hready
      rw [List.length_drop] at hi
      rw [h1,readChunks_line max fuel body h2]
      dsimp only
      cases hp : parseHex (sizeText ((read1.drop pos).take i)) with
      | none => exact ⟨rfl,keeps_refused _⟩
      | some size =>
        dsimp only
        rw [List.drop_drop,← Nat.add_assoc,afterSize]
        have hpos : pos + i + 2 ≤ read1.length := by omega
        by_cases hz : size = 0
        · rw [if_pos hz,if_pos hz]
          rcases takeTrailers_behind (t := t) fuel reads1 hpos with
            ⟨p,status,h3,h4⟩ | ⟨p,read2,reads2,h3,h4,h5,h6⟩
          · rw [h3,h4]
            exact ⟨rfl,keeps_refused _⟩
          · rw [h3,h4]
            refine ⟨rfl,?_⟩
            intro read' reads' hd
            cases hd
            exact ⟨h5,h6.trans hall⟩
        rw [if_neg hz,if_neg hz]
        by_cases hmax : max < (body.length + size) % 2 ^ 64
        · rw [if_pos hmax,if_pos hmax]
          exact ⟨rfl,keeps_refused _⟩
        rw [if_neg hmax,if_neg hmax]
        rcases fillUntil_behind (t := t) (holds ((size + 2) % 2 ^ 64)) reads1 hpos with
          ⟨status,h3,h4⟩ | ⟨u,read2,reads2,h3,h4,hready2,hle2,hall2⟩
        · rw [h3,h4]
          exact ⟨rfl,keeps_refused _⟩
        · rw [h3,h4]
          dsimp only
          by_cases hbig : 2 ^ 64 ≤ size + 2
          · rw [if_pos hbig,if_pos hbig]
            exact ⟨rfl,(by intro _ _ h; cases h)⟩
          rw [if_neg hbig,if_neg hbig,List.drop_drop]
          have hneed := holds_some hready2
          rw [Nat.mod_eq_of_lt (by omega),List.length_drop] at hneed
          by_cases hcr : (read2.drop (pos + i + 2 + size)).take 2 ≠ crlf
          · rw [if_pos hcr,if_pos hcr]
            exact ⟨rfl,keeps_refused _⟩
          · rw [if_neg hcr,if_neg hcr,List.drop_drop,← Nat.add_assoc]
            obtain ⟨hv,hk⟩ := ih reads2 (body ++ (read2.drop (pos + i + 2)).take size)
              (show pos + i + 2 + size + 2 ≤ read2.length by omega)
            refine ⟨hv,?_⟩
            intro read' reads' hd
            obtain ⟨hc,ha⟩ := hk read' reads' hd
            exact ⟨hc,ha.trans (hall2.trans hall)⟩

/-- What is kept for the next request is not looked at. -/
theorem fillBody_rest (n : ℕ) (read rest : Bytes) (reads : Source) (body : Bytes) :
    fillBody t n rest reads body = ⟨(fillBody t n read reads body).body,
      match (fillBody t n read reads body).ended with
      | .done _ reads => .done rest reads
      | e => e⟩ := by
  induction reads generalizing body with
  | nil =>
    unfold fillBody
    dsimp only
    by_cases hn : n ≤ body.length
    · rw [if_pos hn,if_pos hn]
    · rw [if_neg hn,if_neg hn]
  | cons d reads ih =>
    cases d with
    | failed =>
      unfold fillBody
      dsimp only
      by_cases hn : n ≤ body.length
      · rw [if_pos hn,if_pos hn]
      · rw [if_neg hn,if_neg hn]
    | data b =>
      unfold fillBody
      by_cases hn : n ≤ body.length
      · simp only [if_pos hn]
      · by_cases hb : b = []
        · simp only [if_neg hn,if_pos hb]
        · by_cases hl : b.length ≤ n - body.length
          · simp only [if_neg hn,if_neg hb,if_pos hl]
            exact ih (body ++ b)
          · simp only [if_neg hn,if_neg hb,if_neg hl]

theorem fillBody_done {n : ℕ} {r : Bytes} {s : Source}
    (h : (fillBody t n rest reads body).ended = .done r s) : r = rest := by
  have hrest := congrArg BodyRead.ended (fillBody_rest (t := t) n rest rest reads body)
  rw [h] at hrest
  exact (BodyEnd.done.inj hrest).1

theorem takeExact_view (n : ℕ) (read : Bytes) (pos : ℕ) (reads : Source) :
    (takeExact t n read pos reads).view = readExactBody t n (read.drop pos) reads := by
  have hlen : (read.drop pos).length = read.length - pos := List.length_drop
  have htake : (read.drop pos).take (min (read.length - pos) n) = (read.drop pos).take n := by
    rw [← hlen,Nat.min_comm,← List.take_take,List.take_length]
  have hdrop : read.drop (pos + min (read.length - pos) n) = (read.drop pos).drop n := by
    rw [← List.drop_drop]
    by_cases hn : n ≤ read.length - pos
    · rw [Nat.min_eq_right hn]
    · rw [List.drop_eq_nil_of_le (by omega),List.drop_eq_nil_of_le (by omega)]
  rw [readExactBody,fillBody_rest n read,takeExact]
  dsimp only [BodyTaken.view]
  rw [htake]
  cases he : (fillBody t n read reads ((read.drop pos).take n)).ended with
  | done rest reads' =>
    obtain rfl := fillBody_done he
    dsimp only
    rw [hdrop]
  | refused status => rfl
  | panic => rfl

/-- `read_body` on its buffer does what reading what is behind the head does. -/
theorem takeBody_view (req : Req) (max : ℕ) (i : Incoming) (h : req.headLen ≤ i.buf.length) :
    (takeBody req max i).view = readBody req max i := by
  unfold takeBody readBody
  cases req.body with
  | none => rfl
  | length n =>
    dsimp only
    split
    · rfl
    · exact takeExact_view n i.buf req.headLen i.reads
  | chunked =>
    dsimp only
    rw [(takeChunks_view _ i.reads [] h).1,readChunkedBody]
    have hlen := List.length_drop (i := req.headLen) (l := i.buf)
    exact readChunks_fuel _ _ (by omega) (by omega)

end Refines

end Server

end OxiServe
