import OxiServe.Server.BodyCursor

/-! # A body and the request behind it

A body is sent as it is, or in chunks with extensions and trailers. However its bytes and
those behind it are cut into reads, the body is what was sent and the next request starts
right behind it, as long as no size line fills a kilobyte.
-/
namespace OxiServe.Server
open Request (Req)
open Chunked (crlf)

/-- `Message ok body m`: the bytes `m` are the body in chunks, each under a size line that
`ok` admits, behind the last one the trailers and the final line. -/
inductive Message (ok : Bytes → Prop) : Bytes → Bytes → Prop
  | last {line : Bytes} {trailers : List Bytes} : SizeLine line 0 → findCrlf line = none → ok line →
    (∀ t ∈ trailers, t ≠ [] ∧ findCrlf t = none) →
      Message ok [] (line ++ crlf ++ (trailers.flatMap (· ++ crlf) ++ crlf))
  | chunk {line data body m : Bytes} : SizeLine line data.length → findCrlf line = none → ok line → data ≠ [] →
    Message ok body m → Message ok (data ++ body) (line ++ crlf ++ (data ++ crlf ++ m))

/-- The bytes that a request with this framing sends for a body. -/
def SentAs (ok : Bytes → Prop) (framing : Request.Body) (body m : Bytes) : Prop :=
  match framing with
  | .none => body = [] ∧ m = []
  | .length n => n = body.length ∧ m = body
  | .chunked => Message ok body m

/-- A size line that is never taken for an absurd one: below a kilobyte, with a size of at
most sixteen bytes. -/
structure Fits (line : Bytes) : Prop where
  short : line.length < 1024
  size_short : (sizeText line).length ≤ 16

section Reads
variable {t : Bool} {max fuel n : ℕ} {rest body line x w m : Bytes} {reads : Source} {α : Type}

/-- What is looked for is there from the `n`th byte on, and not before. -/
theorem fillUntil_flow {ready : Bytes → Except ℕ (Option α)} (n : ℕ) (a : α)
    (hnone : ∀ r, r <+: w → r.length < n → ready r = .ok none)
    (hsome : ∀ r, r <+: w → n ≤ r.length → ready r = .ok (some a)) (hw : rest ++ Source.flow reads = w)
    (hn : n ≤ w.length) :
    ∃ rest' reads', fillUntil t ready reads rest = .ok (a,rest',reads') ∧ rest' ++ Source.flow reads' = w ∧
      n ≤ rest'.length := by
  induction reads generalizing rest with
  | nil =>
    rw [flow_nil,List.append_nil] at hw
    subst hw
    refine ⟨rest,[],?_,List.append_nil _,hn⟩
    unfold fillUntil
    rw [hsome rest List.prefix_rfl hn]
  | cons d reads ih =>
    have hp : rest <+: w := ⟨_,hw⟩
    unfold fillUntil
    by_cases hlen : n ≤ rest.length
    · rw [hsome rest hp hlen]
      exact ⟨rest,_,rfl,hw,hlen⟩
    · rw [hnone rest hp (Nat.not_le.mp hlen)]
      have hshort : Source.flow (d :: reads) ≠ [] := by
        intro h
        rw [h,List.append_nil] at hw
        rw [hw] at hlen
        exact hlen hn
      cases d with
      | failed => exact absurd rfl hshort
      | data b =>
        have hb : b ≠ [] := by
          rintro rfl
          exact hshort rfl
        dsimp only
        rw [if_neg hb]
        exact ih (by rw [List.append_assoc,← flow_data hb,hw])

/-- A line end is not seen before it is whole. -/
theorem findCrlf_short {r : Bytes} (h : findCrlf line = none) (hr : r <+: line ++ crlf ++ x)
    (hl : r.length < line.length + 2) : findCrlf r = none := by
  cases hf : findCrlf r with
  | none => rfl
  | some i =>
    obtain ⟨t,ht⟩ := hr
    have hlt := findCrlf_lt hf
    have happ := findCrlf_append t hf
    rw [ht,findCrlf_line x h] at happ
    cases happ
    omega

theorem findCrlf_whole {r : Bytes} (h : findCrlf line = none) (hr : r <+: line ++ crlf ++ x)
    (hl : line.length + 2 ≤ r.length) : findCrlf r = some line.length := by
  obtain ⟨t,ht⟩ := List.prefix_of_prefix_length_le (List.prefix_append (line ++ crlf) x) hr (by
    rw [List.length_append]
    exact hl)
  rw [← ht]
  exact findCrlf_line t h

/-- The text of a line and what comes behind its end. -/
theorem line_parts {r t : Bytes} (hw : r ++ t = line ++ crlf ++ x) (hl : line.length + 2 ≤ r.length) :
    r.take line.length = line ∧ (r.drop line.length).take 2 = crlf ∧ r.drop (line.length + 2) ++ t = x := by
  have hlen : (line ++ crlf).length = line.length + 2 := List.length_append
  obtain ⟨y,hy⟩ := List.prefix_of_prefix_length_le (List.prefix_append (line ++ crlf) x) ⟨t,hw⟩ (by omega)
  subst hy
  rw [List.append_assoc,List.append_cancel_left_eq] at hw
  rw [List.drop_left' hlen,List.append_assoc,List.take_left' rfl,List.drop_left' rfl]
  exact ⟨rfl,rfl,hw⟩

theorem sizeLine_flow (h : findCrlf line = none) (hf : line.length < 1024)
    (hw : rest ++ Source.flow reads = line ++ crlf ++ x) :
    ∃ rest' reads', fillUntil t sizeLine reads rest = .ok (line.length,rest',reads') ∧
      rest'.take line.length = line ∧ rest'.drop (line.length + 2) ++ Source.flow reads' = x := by
  have hnone : ∀ r, r <+: line ++ crlf ++ x → r.length < line.length + 2 → sizeLine r = .ok none := by
    intro r hr hl
    rw [sizeLine,findCrlf_short h hr hl]
    exact if_neg (by omega)
  have hsome : ∀ r, r <+: line ++ crlf ++ x → line.length + 2 ≤ r.length → sizeLine r = .ok (some line.length) := by
    intro r hr hl
    rw [sizeLine,findCrlf_whole h hr hl]
  obtain ⟨rest',reads',h1,h2,h3⟩ := fillUntil_flow (t := t) _ _ hnone hsome hw (by simp [crlf])
  obtain ⟨htake,-,hdrop⟩ := line_parts h2 h3
  exact ⟨rest',reads',h1,htake,hdrop⟩

theorem trailerLine_flow (h : findCrlf line = none) (hw : rest ++ Source.flow reads = line ++ crlf ++ x) :
    ∃ rest' reads', fillUntil t trailerLine reads rest = .ok (line.length,rest',reads') ∧
      rest'.drop (line.length + 2) ++ Source.flow reads' = x := by
  have hnone : ∀ r, r <+: line ++ crlf ++ x → r.length < line.length + 2 → trailerLine r = .ok none := by
    intro r hr hl
    rw [trailerLine,findCrlf_short h hr hl]
  have hsome : ∀ r, r <+: line ++ crlf ++ x → line.length + 2 ≤ r.length →
      trailerLine r = .ok (some line.length) := by
    intro r hr hl
    rw [trailerLine,findCrlf_whole h hr hl]
  obtain ⟨rest',reads',h1,h2,h3⟩ := fillUntil_flow (t := t) _ _ hnone hsome hw (by simp [crlf])
  exact ⟨rest',reads',h1,(line_parts h2 h3).2.2⟩

theorem holds_flow (hw : rest ++ Source.flow reads = w) (hn : n ≤ w.length) :
    ∃ rest' reads', fillUntil t (holds n) reads rest = .ok ((),rest',reads') ∧
      rest' ++ Source.flow reads' = w ∧ n ≤ rest'.length := by
  apply fillUntil_flow n () _ _ hw hn
  · intro r _ hl
    rw [holds,if_neg (by omega)]
  · intro r _ hl
    rw [holds,if_pos hl]

/-- The trailers are read to the final line. -/
theorem readTrailers_flow {trailers : List Bytes} (ht : ∀ f ∈ trailers, f ≠ [] ∧ findCrlf f = none)
    (hw : rest ++ Source.flow reads = trailers.flatMap (· ++ crlf) ++ crlf ++ x)
    (hf : rest.length + Source.size reads < fuel) :
    ∃ rest' reads', readTrailers t fuel rest reads = .ok (rest',reads') ∧
      rest' ++ Source.flow reads' = x := by
  induction trailers generalizing rest reads fuel with
  | nil =>
    cases fuel with
    | zero => omega
    | succ fuel =>
      obtain ⟨rest',reads',h1,h2⟩ := trailerLine_flow (t := t) (show findCrlf [] = none from rfl) hw
      refine ⟨rest'.drop 2,reads',?_,h2⟩
      rw [readTrailers,h1]
      rfl
  | cons f trailers ih =>
    cases fuel with
    | zero => omega
    | succ fuel =>
      obtain ⟨hne,hcrlf⟩ := ht f List.mem_cons_self
      rw [List.flatMap_cons,List.append_assoc,List.append_assoc] at hw
      obtain ⟨rest',reads',h1,h2⟩ := trailerLine_flow (t := t) hcrlf hw
      have hlt := trailerLine_size h1
      have hz : f.length ≠ 0 := fun h0 => hne (List.eq_nil_of_length_eq_zero h0)
      rw [readTrailers,h1]
      dsimp only
      rw [if_neg hz]
      exact ih (fun y hy => ht y (List.mem_cons_of_mem _ hy)) (by rw [h2,List.append_assoc]) (by omega)

/-- The size a line of the grammar has. -/
theorem parseHex_sizeText {size : ℕ} (h : SizeLine line size) (hf : (sizeText line).length ≤ 16) :
    parseHex (sizeText line) = some size := by
  obtain ⟨⟨digits,blanks,hr⟩,hv,-⟩ := sizeLine_iff.mp h
  have hne : sizeText line ≠ [] := by
    intro he
    have ht := hr.text
    rw [he] at ht
    exact hr.some_digit (List.append_eq_nil_iff.mp ht.symm).1
  rw [parseHex_eq,if_neg (by rw [not_or]; exact ⟨hne,by omega⟩),hv]

/-- The chunks of a message are read to its end. -/
theorem readChunks_flow (hm : Message Fits body m) {acc : Bytes} (hw : rest ++ Source.flow reads = m ++ x)
    (hmax : acc.length + body.length ≤ max) (hmem : body.length + 2 < 2 ^ 64)
    (hf : rest.length + Source.size reads < fuel) :
    ∃ rest' reads', readChunks t max fuel rest reads acc = ⟨acc ++ body,.done rest' reads'⟩ ∧
      rest' ++ Source.flow reads' = x := by
  induction hm generalizing rest reads acc fuel with
  | @last line trailers hline hcrlf hfit ht =>
    cases fuel with
    | zero => omega
    | succ fuel =>
      rw [List.append_assoc] at hw
      obtain ⟨rest1,reads1,h1,htake,h2⟩ := sizeLine_flow (t := t) hcrlf hfit.short hw
      have hlt := sizeLine_size h1
      obtain ⟨rest2,reads2,h3,h4⟩ := readTrailers_flow (t := t) ht h2 (show _ < fuel by omega)
      refine ⟨rest2,reads2,?_,h4⟩
      rw [readChunks_line max fuel acc h1,htake,parseHex_sizeText hline hfit.size_short]
      dsimp only
      rw [afterSize,if_pos rfl,h3,List.append_nil]
  | @chunk line data body m hline hcrlf hfit hdata hm ih =>
    cases fuel with
    | zero => omega
    | succ fuel =>
      rw [List.length_append] at hmax hmem
      rw [List.append_assoc] at hw
      obtain ⟨rest1,reads1,h1,htake,h2⟩ := sizeLine_flow (t := t) hcrlf hfit.short hw
      have hlt := sizeLine_size h1
      obtain ⟨rest2,reads2,h3,h4,h5⟩ := holds_flow (t := t) (n := data.length + 2) h2 (by
        simp only [List.length_append,crlf,List.length_cons,List.length_nil]
        omega)
      have hle := (fillUntil_size h3).1
      have hz : data.length ≠ 0 := fun h0 => hdata (List.eq_nil_of_length_eq_zero h0)
      have hsum := Nat.mod_le (acc.length + data.length) (2 ^ 64)
      obtain ⟨hd1,hcr,hd2⟩ := line_parts (show rest2 ++ Source.flow reads2 = data ++ crlf ++ (m ++ x) by
        rw [h4,List.append_assoc]) h5
      have hacc : (acc ++ data).length + body.length ≤ max := by
        rw [List.length_append]
        omega
      have hfuel : (rest2.drop (data.length + 2)).length + Source.size reads2 < fuel := by
        rw [List.length_drop]
        omega
      obtain ⟨rest3,reads3,h6,h7⟩ := ih hd2 hacc (by omega) hfuel
      refine ⟨rest3,reads3,?_,h7⟩
      rw [readChunks_line max fuel acc h1,htake,parseHex_sizeText hline hfit.size_short]
      dsimp only
      rw [afterSize,if_neg hz,if_neg (by omega),Nat.mod_eq_of_lt (by omega),h3]
      dsimp only
      rw [if_neg (by omega),if_neg (not_not_intro hcr),hd1,h6,List.append_assoc]

/-- A body that is there needs no more reads. -/
theorem fillBody_full (h : n ≤ body.length) : fillBody t n rest reads body = ⟨body,.done rest reads⟩ := by
  cases reads with
  | nil => simp only [fillBody,if_pos h]
  | cons d reads =>
    cases d with
    | failed => simp only [fillBody,if_pos h]
    | data b => simp only [fillBody,if_pos h]

theorem fillBody_flow (rest : Bytes) {acc : Bytes} (hacc : acc.length ≤ body.length)
    (hw : acc ++ Source.flow reads = body ++ x) :
    ∃ reads', fillBody t body.length rest reads acc = ⟨body,.done rest reads'⟩ ∧ Source.flow reads' = x := by
  have hfull {reads : Source} (hw : acc ++ Source.flow reads = body ++ x) (hl : body.length ≤ acc.length) :
      acc = body ∧ Source.flow reads = x := List.append_inj hw (by omega)
  induction reads generalizing acc with
  | nil =>
    have hl : body.length ≤ acc.length := by
      have hlen := congrArg List.length hw
      rw [flow_nil,List.append_nil,List.length_append] at hlen
      omega
    obtain ⟨rfl,hx⟩ := hfull hw hl
    exact ⟨[],fillBody_full (Nat.le_refl _),hx⟩
  | cons d reads ih =>
    by_cases hl : body.length ≤ acc.length
    · obtain ⟨rfl,hx⟩ := hfull hw hl
      exact ⟨_,fillBody_full (Nat.le_refl _),hx⟩
    · have hshort : Source.flow (d :: reads) ≠ [] := by
        intro h
        have hlen := congrArg List.length hw
        rw [h,List.append_nil,List.length_append] at hlen
        omega
      cases d with
      | failed => exact absurd rfl hshort
      | data b =>
        have hb : b ≠ [] := by
          rintro rfl
          exact hshort rfl
        rw [flow_data hb] at hw
        rw [fillBody,if_neg hl,if_neg hb]
        by_cases hfit : b.length ≤ body.length - acc.length
        · rw [if_pos hfit]
          have hle : (acc ++ b).length ≤ body.length := by
            rw [List.length_append]
            omega
          refine ih hle (by rw [List.append_assoc,hw]) ?_
          · intro reads hw' hl'
            exact List.append_inj hw' (by rw [List.length_append] at hl' ⊢; omega)
        · rw [if_neg hfit]
          have hcut : (acc ++ b.take (body.length - acc.length)) ++
              (b.drop (body.length - acc.length) ++ Source.flow reads) = body ++ x := by
            rw [List.append_assoc,← List.append_assoc (b.take _),List.take_append_drop,hw]
          obtain ⟨h1,h2⟩ := List.append_inj hcut (by
            rw [List.length_append,List.length_take]
            omega)
          have hrest : b.drop (body.length - acc.length) ≠ [] := by
            apply List.ne_nil_of_length_pos
            rw [List.length_drop]
            omega
          rw [h1]
          exact ⟨_,rfl,by rw [flow_data hrest,h2]⟩

/-- A body of a declared length ends where that length is over. -/
theorem readExactBody_flow (hw : rest ++ Source.flow reads = body ++ x) :
    ∃ rest' reads', readExactBody t body.length rest reads = ⟨body,.done rest' reads'⟩ ∧
      rest' ++ Source.flow reads' = x := by
  rw [readExactBody]
  by_cases hl : body.length ≤ rest.length
  · obtain ⟨y,hy⟩ := List.prefix_of_prefix_length_le (List.prefix_append body x) ⟨_,hw⟩ hl
    subst hy
    rw [List.append_assoc,List.append_cancel_left_eq] at hw
    rw [List.take_left' rfl,List.drop_left' rfl,fillBody_full (Nat.le_refl _)]
    exact ⟨y,reads,rfl,hw⟩
  · rw [List.take_of_length_le (by omega),List.drop_eq_nil_of_le (by omega)]
    obtain ⟨reads',h1,h2⟩ := fillBody_flow (t := t) [] (by omega) hw
    exact ⟨[],reads',h1,h2⟩

/-- A body is read as it was sent, and what is behind it is left. -/
theorem readBody_flow {req : Req} {i : Incoming} (hs : SentAs Fits req.body body m)
    (hw : i.buf.drop req.headLen ++ Source.flow i.reads = m ++ x) (hmax : body.length ≤ max)
    (hmem : body.length + 2 < 2 ^ 64) :
    ∃ rest reads, readBody req max i = ⟨body,.done rest reads⟩ ∧ rest ++ Source.flow reads = x := by
  unfold readBody
  unfold SentAs at hs
  cases hb : req.body with
  | none =>
    rw [hb] at hs
    obtain ⟨rfl,rfl⟩ := hs
    exact ⟨_,_,rfl,hw⟩
  | length n =>
    rw [hb] at hs
    obtain ⟨rfl,rfl⟩ := hs
    dsimp only
    rw [if_neg (by omega)]
    exact readExactBody_flow hw
  | chunked =>
    rw [hb] at hs
    have hm : Message Fits body m := hs
    have hacc : ([] : Bytes).length + body.length ≤ max := by
      rw [List.length_nil]
      omega
    obtain ⟨rest,reads,h1,h2⟩ := readChunks_flow (t := i.timesOut) hm hw hacc hmem (Nat.lt_succ_self _)
    exact ⟨rest,reads,h1,h2⟩

end Reads

section RoundTrip
variable {req : Req} {max : ℕ} {i : Incoming} {head body m following : Bytes}

/-- The offset is at the end of what was sent, or of the buffer if that comes before it. -/
theorem consumed_eq {ok : Bytes → Prop} (hhead : req.headLen = head.length) (hparsed : req.headLen ≤ i.buf.length)
    (hw : i.buf ++ Source.flow i.reads = head ++ m ++ following) (hs : SentAs ok req.body body m)
    {read : Bytes} {reads : Source} (he : (takeBody req max i).ended = .done read reads)
    (hleft : read.drop (takeBody req max i).consumed ++ Source.flow reads = following) :
    (takeBody req max i).consumed = min (head.length + m.length) read.length ∧
      (req.body = .chunked → (takeBody req max i).consumed = head.length + m.length) := by
  unfold SentAs at hs
  unfold takeBody at he hleft ⊢
  cases hb : req.body with
  | none =>
    rw [hb] at hs he
    obtain ⟨-,rfl⟩ := hs
    obtain ⟨rfl,-⟩ := BodyEnd.done.inj he
    refine ⟨?_,fun h => nomatch h⟩
    dsimp only
    rw [List.length_nil,Nat.add_zero,← hhead,Nat.min_eq_left hparsed]
  | length n =>
    rw [hb] at hs he
    obtain ⟨rfl,rfl⟩ := hs
    dsimp only at he ⊢
    split at he
    · cases he
    · rename_i hmax
      obtain rfl := fillBody_done he
      refine ⟨?_,fun h => nomatch h⟩
      rw [if_neg hmax]
      simp only [takeExact]
      omega
  | chunked =>
    rw [hb] at he hleft
    dsimp only at he hleft ⊢
    obtain ⟨hle,hall⟩ := (takeChunks_view _ i.reads [] hparsed).2 read reads he
    have h1 := congrArg List.length (hall.trans hw)
    have h2 := congrArg List.length hleft
    rw [List.length_append,List.length_append,List.length_append] at h1
    rw [List.length_append,List.length_drop] at h2
    exact ⟨by omega,fun _ => by omega⟩

/-- A body round-trips: for every body, every division of it into chunks with extensions and
trailers, and every way in which its bytes and those that follow come off the socket, the
body is what was sent, the offset is at its end, and the buffer that is left and what the
socket still gives are the bytes behind it. A `Vec` has less than `2 ^ 63` of them. -/
theorem body_round_trip (req : Req) (max : ℕ) (i : Incoming) (head body m following : Bytes)
    (hhead : req.headLen = head.length) (hparsed : req.headLen ≤ i.buf.length)
    (hw : i.buf ++ Source.flow i.reads = head ++ m ++ following) (hs : SentAs Fits req.body body m)
    (hmax : body.length ≤ max) (hmem : body.length < 2 ^ 63) :
    ∃ read reads, (takeBody req max i).body = body ∧ (takeBody req max i).ended = .done read reads ∧
      (takeBody req max i).consumed = min (head.length + m.length) read.length ∧
      (req.body = .chunked → (takeBody req max i).consumed = head.length + m.length) ∧
      shiftBuffer (takeBody req max i).consumed read ++ Source.flow reads = following := by
  have hbehind : i.buf.drop req.headLen ++ Source.flow i.reads = m ++ following := by
    have hd := congrArg (List.drop req.headLen) hw
    rwa [List.drop_append_of_le_length hparsed,List.append_assoc,hhead,List.drop_left' rfl,← hhead] at hd
  obtain ⟨rest,reads,hr,hx⟩ := readBody_flow hs hbehind hmax (by omega)
  have hview := (takeBody_view req max i hparsed).trans hr
  have hbody : (takeBody req max i).body = body := congrArg BodyRead.body hview
  have hend := congrArg BodyRead.ended hview
  dsimp only [BodyTaken.view] at hend
  cases he : (takeBody req max i).ended with
  | done read reads' =>
    rw [he] at hend
    obtain ⟨rfl,rfl⟩ := BodyEnd.done.inj hend
    obtain ⟨h1,h2⟩ := consumed_eq hhead hparsed hw hs he hx
    exact ⟨read,reads',hbody,rfl,h1,h2,by rw [shiftBuffer_eq,hx]⟩
  | refused status =>
    rw [he] at hend
    cases hend
  | panic =>
    rw [he] at hend
    cases hend

/-- Three bytes in a chunk, cut inside two line ends, and a byte of the next request. -/
theorem body_round_trip_chunk :
    ∃ read reads, (takeBody { Req.new with headLen := 1, body := .chunked } 3
        ⟨lit "H3;x\r",[.data (lit "\nabc\r"),.data (lit "\n0\r\n\r\nG")],false⟩).body = lit "abc" ∧
      shiftBuffer 16 read ++ Source.flow reads = lit "G" := by
  have hlast : Message Fits [] ([48] ++ crlf ++ (([] : List Bytes).flatMap (· ++ crlf) ++ crlf)) :=
    .last (.plain (by decide) (by decide)) (by decide) ⟨by decide,by decide⟩ nofun
  have hline : SizeLine ([51] ++ [] ++ 59 :: [120]) (lit "abc").length := .extended (by decide) (by decide) nofun
  have hm := Message.chunk hline (by decide) ⟨by decide,by decide⟩ (by decide) hlast
  obtain ⟨read,reads,h1,-,-,h2,h3⟩ := body_round_trip { Req.new with headLen := 1, body := .chunked } 3
    ⟨lit "H3;x\r",[.data (lit "\nabc\r"),.data (lit "\n0\r\n\r\nG")],false⟩ (lit "H") (lit "abc") _ (lit "G") rfl
    (by decide) (by decide +kernel) hm (by decide) (by decide)
  rw [h2 rfl] at h3
  exact ⟨read,reads,h1,h3⟩

/-- A size line of a kilobyte is refused when more than a kilobyte of it comes before its end. -/
theorem refused_of_long (line : Bytes) (hcrlf : findCrlf line = none) (hl : 1024 ≤ line.length) (reads : Source)
    (hc : req.body = .chunked) (hhead : req.headLen = head.length) :
    (takeBody req max ⟨head ++ (line ++ crlf).take 1025,reads,false⟩).ended = .refused 400 := by
  have hshort : findCrlf ((line ++ crlf).take 1025) = none := by
    apply findCrlf_short (x := []) hcrlf
    · rw [List.append_nil]
      exact List.take_prefix _ _
    · rw [List.length_take]
      omega
  have hlong : 1024 < ((line ++ crlf).take 1025).length := by
    rw [List.length_take,List.length_append,crlf,List.length_cons,List.length_cons]
    omega
  have hline : sizeLine ((line ++ crlf).take 1025) = .error 400 := by
    rw [sizeLine,hshort]
    exact if_pos hlong
  have hview := takeBody_view req max ⟨head ++ (line ++ crlf).take 1025,reads,false⟩ (by
    rw [hhead,List.length_append]
    omega)
  have hend : (readBody req max ⟨head ++ (line ++ crlf).take 1025,reads,false⟩).ended = .refused 400 := by
    simp only [readBody,hc,hhead,List.drop_left' rfl,readChunkedBody,readChunks]
    unfold fillUntil
    rw [hline]
  rw [← hview] at hend
  simp only [BodyTaken.view] at hend
  split at hend
  · cases hend
  · exact hend

theorem findCrlf_plain {r : Bytes} (h : ∀ c ∈ r, c ≠ 13) : findCrlf r = none := by
  induction r with
  | nil => rfl
  | cons c r ih =>
    obtain ⟨hc,hr⟩ := List.forall_mem_cons.mp h
    rw [findCrlf,if_neg (fun hn => hc hn.1),ih hr]
    rfl

/-- `1;aaa...` -/
def longLine : Bytes := 49 :: 59 :: List.replicate 1100 97

/-- An extension of 1100 bytes, of which one read ends a kilobyte behind the start of the line. -/
theorem long_extension_refused : ¬ ∀ (req : Req) (max : ℕ) (i : Incoming) (head body m following : Bytes),
    req.headLen = head.length → req.headLen ≤ i.buf.length →
      i.buf ++ Source.flow i.reads = head ++ m ++ following → SentAs (fun _ => True) req.body body m →
        body.length ≤ max → body.length < 2 ^ 63 → ∃ read reads, (takeBody req max i).body = body ∧
          (takeBody req max i).ended = .done read reads ∧
          shiftBuffer (takeBody req max i).consumed read ++ Source.flow reads = following := by
  intro h
  have hplain : ∀ c ∈ longLine, c ≠ 13 := by
    intro c hc
    rcases List.mem_cons.mp hc with rfl | hc
    · decide
    rcases List.mem_cons.mp hc with rfl | hc
    · decide
    rw [List.eq_of_mem_replicate hc]
    decide
  have hcrlf := findCrlf_plain hplain
  have hline : SizeLine ([49] ++ [] ++ 59 :: List.replicate 1100 97) ([120] : Bytes).length :=
    .extended (by decide) (by decide) nofun
  have hlast : Message (fun _ => True) [] ([48] ++ crlf ++ (([] : List Bytes).flatMap (· ++ crlf) ++ crlf)) :=
    .last (.plain (by decide) (by decide)) (by decide) trivial nofun
  obtain ⟨m,hm0⟩ : ∃ m, m = longLine ++ crlf ++ ([120] ++ crlf ++ ([48] ++ crlf ++
    (([] : List Bytes).flatMap (· ++ crlf) ++ crlf))) := ⟨_,rfl⟩
  have hm : Message (fun _ => True) ([120] ++ []) m := by
    rw [hm0]
    exact .chunk hline hcrlf trivial (by decide) hlast
  have hlen : 1100 ≤ longLine.length := by
    rw [longLine,List.length_cons,List.length_cons,List.length_replicate]
    decide
  have hle : 1025 ≤ (longLine ++ crlf).length := by
    rw [List.length_append]
    omega
  have htake : (longLine ++ crlf).take 1025 = m.take 1025 := by rw [hm0,List.take_append_of_le_length hle]
  have hne : m.drop 1025 ≠ [] := by
    apply List.ne_nil_of_length_pos
    rw [List.length_drop,hm0,List.length_append,List.length_append]
    omega
  obtain ⟨read,reads,-,hd,-⟩ := h { Req.new with body := .chunked } 1
    ⟨[] ++ (longLine ++ crlf).take 1025,[.data (m.drop 1025)],false⟩ [] [120] m [] rfl (Nat.zero_le _)
    (by rw [flow_data hne,flow_nil,htake,List.nil_append,List.nil_append,List.append_nil,List.append_nil,
      List.take_append_drop]) hm (by decide) (by decide)
  rw [refused_of_long longLine hcrlf (by omega) _ rfl rfl] at hd
  cases hd

end RoundTrip

end OxiServe.Server
