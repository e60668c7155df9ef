import Mathlib.Data.List.TakeDrop
import OxiServe.Server.BodyWriter
import OxiServe.Server.FastCgi
import OxiServe.Server.FcgiReader

/-! # Where a FastCGI response is split

The header block ends at the first blank line of the whole output. The search runs
on what is held after each read, and there the end of a header line in the last
position passes for the end of the block.
-/
namespace OxiServe.Server
open Config Response Fcgi Fcgi.FcgiBody

namespace FastCgi

section BlankLine

/-- The length of a blank line at the front, with the line end before it. -/
def blankAt : Bytes → Option ℕ
  | 10 :: 10 :: _ => some 2
  | 10 :: 13 :: 10 :: _ => some 3
  | _ => none

/-- Where the header lines end and where the body starts: the first blank line. -/
def blankLine (b : Bytes) : Option (ℕ × ℕ) :=
  go 0 b
where
  go : ℕ → Bytes → Option (ℕ × ℕ)
    | _, [] => none
    | i, c :: r =>
      match blankAt (c :: r) with
      | some k => some (i,i + k)
      | none => go (i + 1) r

theorem blankAt_append {p : Bytes} {k : ℕ} (h : blankAt p = some k) (t : Bytes) : blankAt (p ++ t) = some k := by
  unfold blankAt at h
  split at h
  · cases h
    rfl
  · cases h
    rfl
  · cases h

theorem blankAt_le {p : Bytes} {k : ℕ} (h : blankAt p = some k) : k ≤ p.length ∧ 1 < k ∧ k ≤ 3 := by
  unfold blankAt at h
  split at h
  · cases h
    simp
  · cases h
    simp
  · cases h

theorem blankAt_take {p : Bytes} {k : ℕ} (h : blankAt p = some k) : blankAt (p.take k) = some k := by
  unfold blankAt at h
  split at h
  · cases h
    rfl
  · cases h
    rfl
  · cases h

/-- A blank line that needs bytes from behind reaches into them. -/
theorem blankAt_beyond {p t : Bytes} {k : ℕ} (hn : blankAt p = none) (h : blankAt (p ++ t) = some k) :
    p.length < k := by
  by_contra hle
  have ht := blankAt_take h
  rw [List.take_append_of_le_length (by omega)] at ht
  have ha := blankAt_append ht (p.drop k)
  rw [List.take_append_drop,hn] at ha
  cases ha

/-- One step of the search of the source. -/
theorem findHeaderEnd_go_cons (i : ℕ) (c : UInt8) (r : Bytes) :
    findHeaderEnd.go i (c :: r) =
      match blankAt (c :: r) with
      | some k => some (i,i + k)
      | none => if c = 10 ∧ r = [] then some (i,i + 1) else findHeaderEnd.go (i + 1) r := by
  by_cases hc : c = 10
  · subst hc
    cases r with
    | nil => rfl
    | cons d r =>
      by_cases hd : d = 10
      · subst hd
        rfl
      · by_cases hd' : d = 13
        · subst hd'
          cases r with
          | nil => rfl
          | cons e r =>
            by_cases he : e = 10
            · subst he
              rfl
            · simp [findHeaderEnd.go,blankAt,he]
        · simp [findHeaderEnd.go,blankAt,hd,hd']
  · simp [findHeaderEnd.go,blankAt,hc]

theorem blankLine_go_length {p : Bytes} {i : ℕ} {x : ℕ × ℕ} (h : blankLine.go i p = some x) : 1 < p.length := by
  induction p generalizing i with
  | nil => cases h
  | cons c r ih =>
    simp only [blankLine.go] at h
    cases hb : blankAt (c :: r) with
    | some k =>
      have := blankAt_le hb
      omega
    | none =>
      rw [hb] at h
      have := ih h
      simp only [List.length_cons]
      omega

theorem blankLine_go_append {p : Bytes} {i : ℕ} {x : ℕ × ℕ} (h : blankLine.go i p = some x) (t : Bytes) :
    blankLine.go i (p ++ t) = some x := by
  induction p generalizing i with
  | nil => cases h
  | cons c r ih =>
    simp only [blankLine.go] at h
    rw [List.cons_append]
    simp only [blankLine.go]
    cases hb : blankAt (c :: r) with
    | some k =>
      rw [hb] at h
      rw [← List.cons_append,blankAt_append hb]
      exact h
    | none =>
      rw [hb] at h
      cases hb' : blankAt (c :: (r ++ t)) with
      | none => exact ih h
      | some k =>
        have hlt := blankAt_beyond hb hb'
        have hle := blankAt_le hb'
        have hlen := blankLine_go_length h
        simp only [List.length_cons] at hlt
        omega

theorem blankLine_go_of_blankAt {p : Bytes} {i k : ℕ} (h : blankAt p = some k) :
    blankLine.go i p = some (i,i + k) := by
  cases p with
  | nil => cases h
  | cons c r => simp only [blankLine.go,h]

theorem blankLine_go_of_not {c : UInt8} {r : Bytes} (i : ℕ) (h : blankAt (c :: r) = none) :
    blankLine.go i (c :: r) = blankLine.go (i + 1) r := by
  simp only [blankLine.go,h]

/-- The blank line lies within the text, and the text up to it has the same one. -/
theorem blankLine_go_spec {p : Bytes} {i a b : ℕ} (h : blankLine.go i p = some (a,b)) :
    i ≤ a ∧ a < b ∧ b ≤ i + p.length ∧ blankLine.go i (p.take (b - i)) = some (a,b) := by
  induction p generalizing i with
  | nil => cases h
  | cons c r ih =>
    cases hb : blankAt (c :: r) with
    | some k =>
      rw [blankLine_go_of_blankAt hb] at h
      cases h
      have hle := blankAt_le hb
      rw [Nat.add_sub_cancel_left]
      exact ⟨Nat.le_refl _,by omega,by omega,blankLine_go_of_blankAt (blankAt_take hb)⟩
    | none =>
      rw [blankLine_go_of_not i hb] at h
      obtain ⟨h1,h2,h3,h4⟩ := ih h
      have hk : b - i = b - (i + 1) + 1 := by omega
      rw [hk,List.take_succ_cons]
      simp only [List.length_cons]
      refine ⟨by omega,h2,by omega,?_⟩
      rw [blankLine_go_of_not,h4]
      cases ht : blankAt (c :: r.take (b - (i + 1))) with
      | none => rfl
      | some k =>
        have ha := blankAt_append ht (r.drop (b - (i + 1)))
        rw [List.cons_append,List.take_append_drop,hb] at ha
        cases ha

theorem findHeaderEnd_go_of_blank {p : Bytes} {i : ℕ} {x : ℕ × ℕ} (h : blankLine.go i p = some x) :
    findHeaderEnd.go i p = some x := by
  induction p generalizing i with
  | nil => cases h
  | cons c r ih =>
    rw [findHeaderEnd_go_cons]
    cases hb : blankAt (c :: r) with
    | some k =>
      rw [blankLine_go_of_blankAt hb] at h
      exact h
    | none =>
      rw [blankLine_go_of_not i hb] at h
      have hlen := blankLine_go_length h
      have hr : ¬ (c = 10 ∧ r = []) := by
        rintro ⟨-,rfl⟩
        cases h
      simp only [if_neg hr]
      exact ih h

/-- Without a blank line the search stops at a line end in the last position only. -/
theorem findHeaderEnd_go_of_not {p : Bytes} {i : ℕ} (h : blankLine.go i p = none) :
    findHeaderEnd.go i p = if p.getLast? = some 10 then some (i + p.length - 1,i + p.length) else none := by
  induction p generalizing i with
  | nil => rfl
  | cons c r ih =>
    rw [findHeaderEnd_go_cons]
    cases hb : blankAt (c :: r) with
    | some k =>
      rw [blankLine_go_of_blankAt hb] at h
      cases h
    | none =>
      rw [blankLine_go_of_not i hb] at h
      cases r with
      | nil => simp [findHeaderEnd.go]
      | cons d r =>
        have hne : ¬ (c = 10 ∧ d :: r = []) := fun hn => nomatch hn.2
        have hl : i + (c :: d :: r).length = i + 1 + (d :: r).length := by
          simp only [List.length_cons]
          omega
        simp only [if_neg hne]
        rw [ih h,List.getLast?_cons_cons,hl]

/-- A blank line that is not within the front lies beyond it. -/
theorem blankLine_go_beyond {p t : Bytes} {i a b : ℕ} (hn : blankLine.go i p = none)
    (h : blankLine.go i (p ++ t) = some (a,b)) : i + p.length < b := by
  by_contra hle
  have hs := (blankLine_go_spec h).2.2.2
  rw [List.take_append_of_le_length (by omega)] at hs
  have ha := blankLine_go_append hs (p.drop (b - i))
  rw [List.take_append_drop,hn] at ha
  cases ha

/-- The search takes the text for a complete header block. -/
def looksComplete (p : Bytes) : Bool := (blankLine p).isSome || p.getLast? == some 10

/-- Where the search splits such a text. -/
def cut (p : Bytes) : ℕ × ℕ := (blankLine p).getD (p.length - 1,p.length)

theorem findHeaderEnd_eq (p : Bytes) : findHeaderEnd p = if looksComplete p then some (cut p) else none := by
  unfold looksComplete cut
  cases hb : blankLine p with
  | some x => exact findHeaderEnd_go_of_blank hb
  | none =>
    have hf := findHeaderEnd_go_of_not hb
    simp only [Nat.zero_add] at hf
    simp only [Option.isSome_none,Bool.false_or,beq_iff_eq,Option.getD_none]
    exact hf

theorem cut_le {p : Bytes} : (cut p).2 ≤ p.length := by
  unfold cut
  cases hb : blankLine p with
  | none => exact Nat.le_refl _
  | some x =>
    have h := (blankLine_go_spec (a := x.1) (b := x.2) hb).2.2.1
    rw [Nat.zero_add] at h
    exact h

/-- The text up to the split is split at the same place. -/
theorem findHeaderEnd_take_cut {p : Bytes} (h : looksComplete p = true) :
    findHeaderEnd (p.take (cut p).2) = some (cut p) := by
  have hf := findHeaderEnd_eq p
  rw [if_pos h] at hf
  cases hb : blankLine p with
  | none =>
    have hc : (cut p).2 = p.length := by rw [cut,hb]; rfl
    rw [hc,List.take_length]
    exact hf
  | some x =>
    have hc : cut p = x := by rw [cut,hb]; rfl
    have hs := (blankLine_go_spec (a := x.1) (b := x.2) hb).2.2.2
    rw [hc]
    exact findHeaderEnd_go_of_blank hs

end BlankLine

section Settling
variable (conf : FastCgiConf)

/-- More is held behind the split than is to be buffered. -/
def overBudget (at_ : ℕ) (p : Bytes) : Bool := !conf.buffering || decide (conf.bufferBudget < p.length - at_)

inductive Outcome
  | complete
  | refused
  | streamed (held : Bytes) (at_ : ℕ)

/-- What collecting comes to, given what is held after each read. -/
def settle : Option ℕ → List Bytes → Outcome
  | _, [] => .complete
  | headEnd, p :: held =>
    match headEnd.or ((findHeaderEnd p).map Prod.snd) with
    | none => if maxHeaders < p.length then .refused else settle none held
    | some at_ =>
      if overBudget conf at_ p then .streamed p at_
      else if maxResponse < p.length then .refused
      else settle (some at_) held

/-- What was held when a header block was first seen, and from then on. -/
def seen (held : List Bytes) : List Bytes := held.dropWhile (fun p => !looksComplete p)

def unseen (held : List Bytes) : List Bytes := held.takeWhile (fun p => !looksComplete p)

theorem settle_some (at_ : ℕ) (held : List Bytes) :
    settle conf (some at_) held =
      if ∀ p ∈ held.takeWhile (fun p => !overBudget conf at_ p), p.length ≤ maxResponse then
        match held.find? (overBudget conf at_) with
        | some p => .streamed p at_
        | none => .complete
      else .refused := by
  induction held with
  | nil => simp [settle]
  | cons p held ih =>
    simp only [settle,Option.some_or]
    cases ho : overBudget conf at_ p with
    | true => simp [ho]
    | false =>
      simp only [Bool.false_eq_true,if_false,List.takeWhile_cons,List.find?_cons,ho,Bool.not_false,if_true,
        List.forall_mem_cons]
      by_cases hl : maxResponse < p.length
      · rw [if_pos hl,if_neg (fun hn => absurd hn.1 (by omega))]
      · rw [if_neg hl,ih]
        simp only [Nat.not_lt.mp hl,true_and]

theorem settle_cons_seen {p : Bytes} (h : looksComplete p = true) (held : List Bytes) :
    settle conf none (p :: held) = settle conf (some (cut p).2) (p :: held) := by
  have hf := findHeaderEnd_eq p
  rw [if_pos h] at hf
  simp only [settle,hf,Option.map_some,Option.none_or,Option.some_or]

theorem settle_cons_unseen {p : Bytes} (h : looksComplete p = false) (held : List Bytes) :
    settle conf none (p :: held) = if maxHeaders < p.length then .refused else settle conf none held := by
  have hf := findHeaderEnd_eq p
  rw [h,if_neg Bool.false_ne_true] at hf
  simp only [settle,hf,Option.map_none,Option.or_none]

theorem settle_none (held : List Bytes) :
    settle conf none held =
      if ∀ p ∈ unseen held, p.length ≤ maxHeaders then
        match seen held with
        | [] => .complete
        | p :: rest => settle conf (some (cut p).2) (p :: rest)
      else .refused := by
  induction held with
  | nil => simp [settle,unseen,seen]
  | cons p held ih =>
    unfold unseen seen at ih ⊢
    cases hc : looksComplete p with
    | true =>
      rw [settle_cons_seen conf hc]
      simp only [List.takeWhile_cons,List.dropWhile_cons,hc,Bool.not_true,Bool.false_eq_true,if_false,
        List.not_mem_nil,false_implies,implies_true,if_true]
    | false =>
      rw [settle_cons_unseen conf hc]
      simp only [List.takeWhile_cons,List.dropWhile_cons,hc,Bool.not_false,if_true,List.forall_mem_cons]
      by_cases hl : maxHeaders < p.length
      · rw [if_pos hl,if_neg (fun hn => absurd hn.1 (by omega))]
      · rw [if_neg hl,ih]
        simp only [Nat.not_lt.mp hl,true_and]

end Settling

section Exchange

/-- The output of an application, cut into records and into reads anywhere. -/
structure Sent where
  records : List WireRecord
  fin : Option WireRecord
  segs : List Bytes
  running : ∀ r ∈ records, r.ty ≠ .endRequest
  completes : ∀ e ∈ fin, Completes e
  reads : AreReads segs
  bytes : segs.flatten = wire records fin

/-- The whole `STDOUT` string. -/
def Sent.whole (d : Sent) : Bytes := payload d.records

/-- The reads that are followed by a search: the one that brings the end of the
request ends the response at once. -/
def looked (fin : Option WireRecord) (segs : List Bytes) : List Bytes :=
  if fin.isSome then segs.dropLast else segs

/-- What is held after each of some reads. -/
def heldAfter (rs : List WireRecord) : ℕ → List Bytes → List Bytes
  | _, [] => []
  | n, s :: segs => arrived rs (n + s.length) :: heldAfter rs (n + s.length) segs

def Sent.held (d : Sent) : List Bytes := heldAfter d.records 0 (looked d.fin d.segs)

/-- What a run of the collecting loop comes to. -/
def Outcome.Is (whole : Bytes) (result : Except ℕ Collected) : Outcome → Prop
  | .complete => ∃ status, result = .ok (.complete whole status)
  | .refused => result = .error 502
  | .streamed p at_ =>
    ∃ r segs rest, result = .ok (.streaming (p.take at_) (p.drop at_) r) ∧ Owes r segs rest ∧ whole = p ++ rest

variable {conf : FastCgiConf}

theorem payload_append (xs ys : List WireRecord) : payload (xs ++ ys) = payload xs ++ payload ys :=
  List.flatMap_append

theorem sizes_append (xs ys : List WireRecord) : sizes (xs ++ ys) = sizes xs + sizes ys := by
  simp only [sizes,List.flatMap_append,List.length_append]

theorem looked_cons {fin : Option WireRecord} {s : Bytes} {segs : List Bytes} (h : fin = none ∨ segs ≠ []) :
    looked fin (s :: segs) = s :: looked fin segs := by
  unfold looked
  cases fin with
  | none => rfl
  | some e =>
    have hne : segs ≠ [] := h.resolve_left (by simp)
    simp only [Option.isSome_some,if_true]
    exact List.dropLast_cons_of_ne_nil hne

/-- The loop settles as the search on what is held says. -/
theorem readResponse_settle {timeout : Bool} {segs : List Bytes} {me : FcgiBody} {done rs : List WireRecord}
    {fin : Option WireRecord} {headEnd : Option ℕ} {fuel : ℕ} (h : Reads me rs fin segs)
    (hf : segs.length < fuel) :
    Outcome.Is (payload (done ++ rs)) (readResponse conf timeout fuel me (payload done) headEnd)
      (settle conf headEnd (heldAfter (done ++ rs) (sizes done + me.raw.length) (looked fin segs))) := by
  induction segs generalizing me done rs headEnd fuel with
  | nil =>
    obtain ⟨fuel,rfl⟩ : ∃ k, fuel = k + 1 := ⟨fuel - 1,by omega⟩
    obtain ⟨hrs,hfin,hp⟩ := pump_nil h timeout (payload done)
    subst hrs hfin
    simp only [looked,Option.isSome_none,Bool.false_eq_true,if_false,heldAfter,settle,readResponse,hp,
      List.append_nil]
    exact ⟨_,rfl⟩
  | cons s segs ih =>
    obtain ⟨fuel,rfl⟩ : ∃ k, fuel = k + 1 := ⟨fuel - 1,by omega⟩
    rcases pump_cons h timeout (payload done) with ⟨d,rs',raw',h1,h2,h3,h4⟩ | ⟨h1,h2,me',h3⟩
    · have hmore : fin = none ∨ segs ≠ [] := by
        by_cases hs : segs = []
        · left
          subst hs
          have hb := h3.bytes
          rw [List.flatten_nil,List.append_nil] at hb
          exact (awaited_none hb h3.waiting).2
        · exact Or.inr hs
      have hn : sizes done + me.raw.length + s.length = sizes (done ++ d) + raw'.length := by
        rw [sizes_append]
        omega
      have hall : done ++ rs = done ++ d ++ rs' := by rw [h1,List.append_assoc]
      have hheld : arrived (done ++ rs) (sizes done + me.raw.length + s.length) = payload (done ++ d) := by
        rw [hn,hall]
        exact arrived_append h3.waiting
      have hsplit : payload (done ++ rs) = payload (done ++ d) ++ payload rs' := by rw [hall,payload_append]
      rw [looked_cons hmore,heldAfter,hheld]
      simp only [readResponse,settle,h2,← payload_append]
      cases headEnd.or ((findHeaderEnd (payload (done ++ d))).map Prod.snd) with
      | none =>
        dsimp only
        split
        · rfl
        · have hi := @ih _ (done ++ d) _ none fuel h3 (by simp only [List.length_cons] at hf; omega)
          rw [← hall,← hn] at hi
          exact hi
      | some at_ =>
        dsimp only
        have hover : (!conf.buffering || decide (conf.bufferBudget < (payload (done ++ d)).length - at_)) =
            overBudget conf at_ (payload (done ++ d)) := rfl
        rw [hover]
        split
        · have ho : Owes { me with sock := segs.map .data, raw := raw' } segs ([] ++ payload rs') :=
            h.out ▸ .going h.done rfl h3.reads h3.running h3.completes h3.bytes
          exact ⟨_,_,_,rfl,ho,hsplit⟩
        · split
          · rfl
          · have hi := @ih _ (done ++ d) _ (some at_) fuel h3 (by simp only [List.length_cons] at hf; omega)
            rw [← hall,← hn] at hi
            exact hi
    · subst h2
      have hl : looked fin [s] = [] := by
        unfold looked
        rw [if_pos h1]
        rfl
      rw [hl]
      simp only [heldAfter,settle,readResponse,h3,payload_append]
      exact ⟨_,rfl⟩

theorem Sent.settles (d : Sent) (conf : FastCgiConf) (timeout : Bool) :
    Outcome.Is d.whole
      (readResponse conf timeout (Source.size (d.segs.map .data) + 1) (.new (d.segs.map .data)) [] none)
      (settle conf none d.held) := by
  have hr : Reads (.new (d.segs.map .data)) d.records d.fin d.segs := by
    refine ⟨rfl,rfl,rfl,d.reads,d.running,d.completes,d.bytes,?_⟩
    intro r _
    have := r.size_pos
    simp only [FcgiBody.new,List.length_nil]
    omega
  have hl := length_le_source_size d.segs
  exact @readResponse_settle conf timeout d.segs _ [] _ _ none _ hr (by omega)

end Exchange

section Split

/-- The reply is what splitting the whole output at its first blank line gives. -/
def SplitAsWhole (conf : FastCgiConf) (whole : Bytes) (result : Except ℕ Reply) : Prop :=
  ∃ reply a b, result = .ok reply ∧ blankLine whole = some (a,b) ∧
    reply.resp = (parseCgiHeaders conf (whole.take a)).1 ∧
    ∀ core tcp t, (reply.body.supply core tcp t).1 = whole.drop b

/-- The response is streamed as the whole would be split: `first` was held when a
header block was first seen, and `held` when streaming began. With the blank line
in `first`, a declared length must not cut the body. Without it, the lines after
`first` must change nothing in the head, and the declared length must cut the
excess off and leave the same bytes. -/
def StreamedRight (conf : FastCgiConf) (whole first held : Bytes) : Prop :=
  match blankLine first with
  | some (a,b) => ∀ n, (parseCgiHeaders conf (first.take a)).2 = some n → whole.length ≤ max (b + n) held.length
  | none =>
    ∃ a b n, blankLine whole = some (a,b) ∧
      parseCgiHeaders conf (first.take (first.length - 1)) = ((parseCgiHeaders conf (whole.take a)).1,some n) ∧
      max (first.length + n) held.length + b = whole.length + first.length ∧
      (whole.drop first.length).take (whole.length - b) = whole.drop b

/-- The limits hold, and what is streamed is streamed right. -/
structure SplitSafely (conf : FastCgiConf) (d : Sent) : Prop where
  headers : ∀ p ∈ unseen d.held, p.length ≤ maxHeaders
  response : ∀ first rest, seen d.held = first :: rest →
    ∀ p ∈ (first :: rest).takeWhile (fun p => !overBudget conf (cut first).2 p), p.length ≤ maxResponse
  streamed : ∀ first rest held, seen d.held = first :: rest →
    (first :: rest).find? (overBudget conf (cut first).2) = some held → StreamedRight conf d.whole first held

variable {conf : FastCgiConf}

theorem heldAfter_ge {rs : List WireRecord} {n : ℕ} {segs : List Bytes} {q : Bytes}
    (h : q ∈ heldAfter rs n segs) {m : ℕ} (hm : m ≤ n) : arrived rs m <+: q := by
  induction segs generalizing n with
  | nil => cases h
  | cons s segs ih =>
    rcases List.mem_cons.mp h with rfl | h
    · exact arrived_prefix rs (by omega)
    · exact ih h (by omega)

/-- Later, more is held. -/
theorem heldAfter_pairwise (rs : List WireRecord) (n : ℕ) (segs : List Bytes) :
    (heldAfter rs n segs).Pairwise (· <+: ·) := by
  induction segs generalizing n with
  | nil => exact .nil
  | cons s segs ih => exact .cons (fun q hq => heldAfter_ge hq (Nat.le_refl _)) (ih _)

theorem first_prefix {d : Sent} {first held : Bytes} {rest : List Bytes} (hs : seen d.held = first :: rest)
    (hm : held ∈ first :: rest) : first <+: held := by
  have hp : (first :: rest).Pairwise (· <+: ·) :=
    hs ▸ (heldAfter_pairwise _ _ _).sublist (List.dropWhile_sublist _)
  rcases List.mem_cons.mp hm with rfl | hm
  · exact List.prefix_rfl
  · exact (List.pairwise_cons.mp hp).1 _ hm

theorem looksComplete_first {held rest : List Bytes} {first : Bytes} (hs : seen held = first :: rest) :
    looksComplete first = true := by
  have hh : (seen held).head? = some first := by
    rw [hs]
    rfl
  have hn := List.head?_dropWhile_not (fun p => !looksComplete p) held
  unfold seen at hh
  rw [hh] at hn
  simpa using hn

/-- What a streamed body comes to. -/
def streamedBytes (len : Option ℕ) (at_ : ℕ) (whole held : Bytes) : Bytes :=
  match len with
  | none => whole.drop at_
  | some n => (whole.drop at_).take (max n (held.length - at_))

theorem supply_stream {r : FcgiBody} {segs : List Bytes} {rest held : Bytes} (h : Owes r segs rest) {at_ : ℕ}
    (hle : at_ ≤ held.length) (len : Option ℕ) (core : CoreConf) (tcp : Bool) (t : ℕ) :
    ((Body.stream (held.drop at_) (.fcgi r) len).supply core tcp t).1 =
      streamedBytes len at_ (held ++ rest) held := by
  have hd := delivery_owes (show 0 < upstreamBuf by decide) h
  simp only [Body.supply,streamRest,hd,streamedBytes]
  rw [List.drop_append_of_le_length hle]
  cases len with
  | none => rfl
  | some n =>
    have ht : (held.drop at_).take (max n (held.length - at_)) = held.drop at_ :=
      List.take_of_length_le (by rw [List.length_drop]; omega)
    have hk : max n (held.length - at_) - (held.length - at_) = n - (held.length - at_) := by omega
    simp only [takeUpTo,List.length_drop,List.take_append,ht,hk]

/-- What is streamed is the body of the whole output exactly when it is streamed right. -/
theorem streamedRight_iff {whole first held : Bytes} {a b : ℕ} (hw : blankLine whole = some (a,b))
    (hfh : first <+: held) (hhw : held <+: whole) :
    (parseCgiHeaders conf (first.take (cut first).1)).1 = (parseCgiHeaders conf (whole.take a)).1 ∧
        streamedBytes (parseCgiHeaders conf (first.take (cut first).1)).2 (cut first).2 whole held = whole.drop b ↔
      StreamedRight conf whole first held := by
  obtain ⟨s,rfl⟩ := hfh
  obtain ⟨t,rfl⟩ := hhw
  have hspec := blankLine_go_spec hw
  unfold StreamedRight
  cases hb : blankLine first with
  | some x =>
    obtain ⟨i,j⟩ := x
    have hj := blankLine_go_spec hb
    have hwhole : blankLine (first ++ s ++ t) = some (i,j) := by
      rw [List.append_assoc]
      exact blankLine_go_append hb _
    rw [hw] at hwhole
    cases hwhole
    have hc : cut first = (a,b) := by rw [cut,hb]; rfl
    have htake : (first ++ s ++ t).take a = first.take a := by
      rw [List.append_assoc,List.take_append_of_le_length (by omega)]
    simp only [hc,htake,true_and]
    unfold streamedBytes
    cases hlen : (parseCgiHeaders conf (first.take a)).2 with
    | none => simp
    | some n =>
      simp only [Option.some.injEq,forall_eq']
      rw [List.take_eq_self_iff,List.length_drop]
      omega
  | none =>
    have hc : cut first = (first.length - 1,first.length) := by rw [cut,hb]; rfl
    have hbeyond : 0 + first.length < b := by
      rw [List.append_assoc] at hw
      exact blankLine_go_beyond hb hw
    simp only [hc]
    constructor
    · rintro ⟨hhead,hbytes⟩
      have hl := congrArg List.length hbytes
      unfold streamedBytes at hbytes hl
      cases hlen : (parseCgiHeaders conf (first.take (first.length - 1))).2 with
      | none =>
        rw [hlen] at hl
        simp only [List.length_drop] at hl
        omega
      | some n =>
        rw [hlen] at hl hbytes
        simp only [List.length_drop,List.length_take] at hl hbytes
        have hmax : max n ((first ++ s).length - first.length) = (first ++ s ++ t).length - b := by omega
        rw [hmax] at hbytes
        refine ⟨a,b,n,hw,Prod.ext hhead hlen,?_,hbytes⟩
        simp only [List.length_append] at hmax hspec ⊢
        omega
    · rintro ⟨a',b',n,hw',hhead,hmax,hbytes⟩
      rw [hw] at hw'
      cases hw'
      rw [hhead]
      refine ⟨rfl,?_⟩
      have hk : max n ((first ++ s).length - first.length) = (first ++ s ++ t).length - b := by
        simp only [List.length_append] at hmax hspec ⊢
        omega
      simp only [streamedBytes,hk]
      exact hbytes

theorem cut_fst_le (p : Bytes) : (cut p).1 ≤ (cut p).2 := by
  unfold cut
  cases hb : blankLine p with
  | none => exact Nat.sub_le _ _
  | some x => exact Nat.le_of_lt (blankLine_go_spec (a := x.1) (b := x.2) hb).2.1

theorem take_prefix {p q : Bytes} (h : p <+: q) {n : ℕ} (hn : n ≤ p.length) : q.take n = p.take n := by
  obtain ⟨t,rfl⟩ := h
  exact List.take_append_of_le_length hn

theorem buildStreamingReply_eq {first held : Bytes} (hc : looksComplete first = true) (hp : first <+: held)
    (ctx : Ctx) (r : FcgiBody) :
    (buildStreamingReply ctx conf (held.take (cut first).2) (held.drop (cut first).2) r).2 =
      .ok ⟨(parseCgiHeaders conf (first.take (cut first).1)).1,
        .stream (held.drop (cut first).2) (.fcgi r) (parseCgiHeaders conf (first.take (cut first).1)).2⟩ := by
  have ht : held.take (cut first).2 = first.take (cut first).2 := take_prefix hp cut_le
  have hi : (first.take (cut first).2).take (cut first).1 = first.take (cut first).1 := by
    rw [List.take_take,Nat.min_eq_left (cut_fst_le first)]
  simp only [buildStreamingReply,ht,findHeaderEnd_take_cut hc,hi]

theorem buildReply_eq {whole : Bytes} {a b : ℕ} (hw : blankLine whole = some (a,b)) (ctx : Ctx) :
    (buildReply ctx conf whole).2 =
      .ok ⟨(parseCgiHeaders conf (whole.take a)).1,.bytes (whole.drop b)⟩ := by
  have hf : findHeaderEnd whole = some (a,b) := findHeaderEnd_go_of_blank hw
  simp only [buildReply,hf]

end Split

end FastCgi

open FastCgi

section Exchange

/-- The reply made of what was collected. -/
def collectedReply (ctx : Ctx) (conf : FastCgiConf) : Except ℕ Collected → Except ℕ Reply
  | .error code => .error code
  | .ok (.complete stdout appStatus) =>
    if stdout = [] then if appStatus ≠ 0 then .error 502 else .ok ⟨Resp.new,.empty⟩
    else (buildReply ctx conf stdout).2
  | .ok (.streaming head pre reader) => (buildStreamingReply ctx conf head pre reader).2

theorem fastcgi_collected {env : Env} {ctx : Ctx} {loc : Location} {pass : FastCgiPass} {addr : Bytes}
    (ha : fastCgiAddr env ctx pass = .ok addr) {reads : Source} {timesOut : Bool}
    (hp : env.fcgiPeer ctx.clock addr = ⟨.ok,true,reads,timesOut⟩) :
    ∃ c : Ctx, (fastcgi env ctx loc pass).2 =
      collectedReply c loc.core.fastcgi
        (readResponse loc.core.fastcgi timesOut (Source.size reads + 1) (.new reads) [] none) := by
  have hclock : (splitScriptAndPathInfo { ctx with upstreamAddr := addr } loc.core.fastcgi).clock = ctx.clock := by
    have hk := splitScriptAndPathInfo_acted { ctx with upstreamAddr := addr } loc.core.fastcgi
    exact (congrArg Ctx.clock hk).trans rfl
  refine ⟨{ splitScriptAndPathInfo { ctx with upstreamAddr := addr } loc.core.fastcgi with
    upstreamTime := env.requestTime ctx.clock },?_⟩
  simp only [fastcgi,ha,hclock,hp,Bool.not_true,Bool.false_eq_true,if_false]
  cases readResponse loc.core.fastcgi timesOut (Source.size reads + 1) (.new reads) [] none with
  | error code => rfl
  | ok collected =>
    cases collected with
    | complete stdout appStatus =>
      simp only [collectedReply]
      split
      · split
        · rfl
        · rfl
      · rfl
    | streaming head pre reader => rfl

section Answers
variable {conf : FastCgiConf} {whole : Bytes} {result : Except ℕ Collected} {ctx : Ctx}

theorem splitAsWhole_of_complete (hw : (blankLine whole).isSome = true)
    (h : Outcome.Is whole result .complete) : SplitAsWhole conf whole (collectedReply ctx conf result) := by
  obtain ⟨⟨a,b⟩,hb⟩ := Option.isSome_iff_exists.mp hw
  obtain ⟨status,rfl⟩ := h
  have hne : whole ≠ [] := by
    intro he
    rw [he] at hb
    cases hb
  simp only [collectedReply,if_neg hne,buildReply_eq hb]
  exact ⟨_,a,b,rfl,hb,rfl,fun _ _ _ => rfl⟩

theorem not_splitAsWhole_of_refused (h : Outcome.Is whole result .refused) :
    ¬ SplitAsWhole conf whole (collectedReply ctx conf result) := by
  have hr : result = .error 502 := h
  rw [hr]
  rintro ⟨reply,a,b,he,-⟩
  cases he

theorem splitAsWhole_of_streamed (hw : (blankLine whole).isSome = true) {first held : Bytes}
    (hc : looksComplete first = true) (hp : first <+: held)
    (h : Outcome.Is whole result (.streamed held (cut first).2)) :
    SplitAsWhole conf whole (collectedReply ctx conf result) ↔ StreamedRight conf whole first held := by
  obtain ⟨⟨a,b⟩,hb⟩ := Option.isSome_iff_exists.mp hw
  obtain ⟨r,segs,rest,rfl,ho,hall⟩ := h
  have hle : (cut first).2 ≤ held.length := Nat.le_trans cut_le hp.length_le
  have hbytes := fun len => supply_stream ho hle len
  rw [← hall] at hbytes
  simp only [collectedReply,buildStreamingReply_eq hc hp]
  rw [← streamedRight_iff hb hp ⟨rest,hall.symm⟩]
  constructor
  · rintro ⟨reply,a',b',he,hb',hhead,hbody⟩
    cases he
    rw [hb] at hb'
    cases hb'
    have hs := hbody defaultCore false 0
    rw [hbytes] at hs
    exact ⟨hhead,hs⟩
  · rintro ⟨hhead,hs⟩
    refine ⟨_,a,b,rfl,hb,hhead,?_⟩
    intro core tcp t
    rw [hbytes]
    exact hs

theorem splitAsWhole_collected (d : Sent) (hw : (blankLine d.whole).isSome = true)
    (h : Outcome.Is d.whole result (settle conf none d.held)) :
    SplitAsWhole conf d.whole (collectedReply ctx conf result) ↔ SplitSafely conf d := by
  rw [settle_none] at h
  by_cases hh : ∀ p ∈ unseen d.held, p.length ≤ maxHeaders
  · rw [if_pos hh] at h
    cases hs : seen d.held with
    | nil =>
      rw [hs] at h
      refine iff_of_true (splitAsWhole_of_complete hw h) ⟨hh,?_,?_⟩
      · intro first rest hf
        rw [hs] at hf
        cases hf
      · intro first rest held hf
        rw [hs] at hf
        cases hf
    | cons first rest =>
      rw [hs] at h
      simp only [settle_some] at h
      by_cases hr : ∀ p ∈ (first :: rest).takeWhile (fun p => !overBudget conf (cut first).2 p),
          p.length ≤ maxResponse
      · rw [if_pos hr] at h
        have hresponse : ∀ first' rest', seen d.held = first' :: rest' →
            ∀ p ∈ (first' :: rest').takeWhile (fun p => !overBudget conf (cut first').2 p),
              p.length ≤ maxResponse := by
          intro first' rest' hf
          rw [hs] at hf
          cases hf
          exact hr
        cases hfind : (first :: rest).find? (overBudget conf (cut first).2) with
        | none =>
          rw [hfind] at h
          refine iff_of_true (splitAsWhole_of_complete hw h) ⟨hh,hresponse,?_⟩
          intro first' rest' held hf hheld
          rw [hs] at hf
          cases hf
          rw [hfind] at hheld
          cases hheld
        | some held =>
          rw [hfind] at h
          have hp := first_prefix hs (List.mem_of_find?_eq_some hfind)
          rw [splitAsWhole_of_streamed hw (looksComplete_first hs) hp h]
          constructor
          · intro hright
            refine ⟨hh,hresponse,?_⟩
            intro first' rest' held' hf hheld
            rw [hs] at hf
            cases hf
            rw [hfind] at hheld
            cases hheld
            exact hright
          · intro hsafe
            exact hsafe.streamed first rest held hs hfind
      · rw [if_neg hr] at h
        exact iff_of_false (not_splitAsWhole_of_refused h) (fun hsafe => hr (hsafe.response first rest hs))
  · rw [if_neg hh] at h
    exact iff_of_false (not_splitAsWhole_of_refused h) (fun hsafe => hh hsafe.headers)

end Answers

/-- However the output is cut and buffered, the reply is that of the whole exactly
when it is split safely. -/
theorem splitAsWhole_iff {env : Env} {ctx : Ctx} {loc : Location} {pass : FastCgiPass} {addr : Bytes}
    (ha : fastCgiAddr env ctx pass = .ok addr) (d : Sent) {timesOut : Bool}
    (hp : env.fcgiPeer ctx.clock addr = ⟨.ok,true,d.segs.map .data,timesOut⟩)
    (hw : (blankLine d.whole).isSome = true) :
    SplitAsWhole loc.core.fastcgi d.whole (fastcgi env ctx loc pass).2 ↔ SplitSafely loc.core.fastcgi d := by
  obtain ⟨c,hr⟩ := @fastcgi_collected env ctx loc pass addr ha _ _ hp
  rw [hr]
  exact splitAsWhole_collected d hw (d.settles loc.core.fastcgi timesOut)

section Samples

def toApp : FastCgiPass := ⟨.addr (lit "app") 9000⟩

/-- `fastcgi_buffering off`. -/
def unbuffered : Location :=
  let loc := Location.bare (.pfx (lit "/")) (.fastCgi toApp)
  { loc with core := { loc.core with fastcgi := { FastCgiConf.default with buffering := false } } }

def appSends (segs : List Bytes) : Env :=
  { Env.idle with fcgiPeer := fun _ _ => ⟨.ok,true,segs.map .data,false⟩ }

def outputRecord (b : Bytes) (h : b.length ≤ maxContent) : WireRecord := ⟨.stdout,0,1,0,b,[],h,Nat.zero_le _⟩

def endRecord : WireRecord := ⟨.endRequest,0,1,0,List.replicate 8 0,[],by decide,Nat.zero_le _⟩

theorem endRecord_completes : ∀ e ∈ some endRecord, Completes e := by
  intro e he
  cases he
  refine ⟨rfl,?_⟩
  intro app proto h
  have hs : endRequestStatus endRecord.body = some (0,0) := by decide +kernel
  rw [hs] at h
  cases h
  rfl

theorem short_fits {b : Bytes} (h : b.length ≤ 99) : b.length ≤ maxContent := Nat.le_trans h (by decide)

section Halves
variable {x y : Bytes} (hx : x.length ≤ 99) (hy : y.length ≤ 99)

theorem halves_running : ∀ r ∈ [outputRecord x (short_fits hx),outputRecord y (short_fits hy)], r.ty ≠ .endRequest := by
  intro r hr
  simp only [List.mem_cons,List.not_mem_nil,or_false] at hr
  rcases hr with rfl | rfl
  · intro h; cases h
  · intro h; cases h

theorem halves_reads : AreReads [(outputRecord x (short_fits hx)).encode,
    (outputRecord y (short_fits hy)).encode ++ endRecord.encode] := by
  intro s hs
  simp only [List.mem_cons,List.not_mem_nil,or_false] at hs
  have hsize : ∀ (b : Bytes) (h : b.length ≤ maxContent), (outputRecord b h).size = 8 + b.length :=
    fun _ _ => rfl
  have hend : endRecord.size = 16 := rfl
  rcases hs with rfl | rfl
  · refine ⟨(by intro h; cases h),?_⟩
    rw [WireRecord.length_encode,hsize]
    omega
  · refine ⟨(by intro h; cases h),?_⟩
    rw [List.length_append,WireRecord.length_encode,WireRecord.length_encode,hsize,hend]
    omega

theorem halves_bytes : [(outputRecord x (short_fits hx)).encode,
    (outputRecord y (short_fits hy)).encode ++ endRecord.encode].flatten =
      wire [outputRecord x (short_fits hx),outputRecord y (short_fits hy)] (some endRecord) := by
  simp [wire]

end Halves

/-- The output `A: b`, a blank line and `hi`, cut into two records with a read each. -/
def sentInTwo (x y : Bytes) (hx : x.length ≤ 99) (hy : y.length ≤ 99) : Sent where
  records := [outputRecord x (short_fits hx),outputRecord y (short_fits hy)]
  fin := some endRecord
  segs := [(outputRecord x (short_fits hx)).encode,(outputRecord y (short_fits hy)).encode ++ endRecord.encode]
  running := halves_running hx hy
  completes := endRecord_completes
  reads := halves_reads hx hy
  bytes := halves_bytes hx hy

def cutInBody : Sent := sentInTwo (lit "A: b\n\nh") (lit "i") (by decide +kernel) (by decide +kernel)

def cutAfterLine : Sent := sentInTwo (lit "A: b\n") (lit "\nhi") (by decide +kernel) (by decide +kernel)

/-- A cut behind the blank line does no harm. -/
theorem cutInBody_split :
    SplitAsWhole unbuffered.core.fastcgi cutInBody.whole
      (fastcgi (appSends cutInBody.segs) (getCtx (lit "/")) unbuffered toApp).2 := by
  have hseen : seen cutInBody.held = [lit "A: b\n\nh"] := by decide +kernel
  have hbig : overBudget unbuffered.core.fastcgi (cut (lit "A: b\n\nh")).2 (lit "A: b\n\nh") = true := by
    decide +kernel
  refine (@splitAsWhole_iff (appSends cutInBody.segs) (getCtx (lit "/")) unbuffered toApp (lit "app:9000")
    (by decide +kernel) cutInBody false rfl (by decide +kernel)).mpr
    ⟨by decide +kernel,?_,?_⟩
  · intro first rest hs p hp
    rw [hseen] at hs
    cases hs
    rw [List.takeWhile_cons,hbig] at hp
    cases hp
  · intro first rest held hs hf
    rw [hseen] at hs
    cases hs
    rw [List.find?_cons,hbig] at hf
    cases hf
    have hb : blankLine (lit "A: b\n\nh") = some (4,6) := by decide +kernel
    unfold StreamedRight
    rw [hb]
    have hlen : (parseCgiHeaders unbuffered.core.fastcgi ((lit "A: b\n\nh").take 4)).2 = none := by decide +kernel
    intro n hn
    rw [hlen] at hn
    cases hn

/-- A cut right behind a header line ends the headers there: the blank line is
sent as the front of the body. -/
theorem cutAfterLine_not_split :
    cutAfterLine.whole = cutInBody.whole ∧ (blankLine cutAfterLine.whole).isSome = true ∧
      ¬ SplitAsWhole unbuffered.core.fastcgi cutAfterLine.whole
        (fastcgi (appSends cutAfterLine.segs) (getCtx (lit "/")) unbuffered toApp).2 := by
  refine ⟨by decide +kernel,by decide +kernel,?_⟩
  intro h
  obtain ⟨c,hr⟩ := @fastcgi_collected (appSends cutAfterLine.segs) (getCtx (lit "/")) unbuffered toApp
    (lit "app:9000") (by decide +kernel) _ _ rfl
  rw [hr] at h
  have hsafe := (splitAsWhole_collected cutAfterLine (by decide +kernel)
    (cutAfterLine.settles unbuffered.core.fastcgi false)).mp h
  have hright := hsafe.streamed (lit "A: b\n") [] (lit "A: b\n") (by decide +kernel) (by decide +kernel)
  have hb : blankLine (lit "A: b\n") = none := by decide +kernel
  unfold StreamedRight at hright
  rw [hb] at hright
  obtain ⟨a,b,n,-,hhead,-,-⟩ := hright
  have hlen : (parseCgiHeaders unbuffered.core.fastcgi
      ((lit "A: b\n").take ((lit "A: b\n").length - 1))).2 = none := by decide +kernel
  rw [hhead] at hlen
  cases hlen

end Samples

end Exchange

end OxiServe.Server
