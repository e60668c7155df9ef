import OxiServe.Server.Returned

/-! # Interim responses

An upstream may send interim responses before its final one. The head loop stops at
the first complete head, whichever it is, and the rest of the bytes is the body of
its response.
-/
namespace OxiServe.Server
open Config

section Heads

/-- The bytes of a response head: the parser takes no byte more and no byte less. -/
structure IsHead (env : Env) (h : Bytes) (u : UpstreamHead) : Prop where
  pos : 0 < h.length
  len : u.len = h.length
  whole : ∀ t, env.parseResponse (h ++ t) = .ok (some u)
  cut : ∀ n < h.length, env.parseResponse (h.take n) = .ok none

/-- `1xx` other than the protocol switch. -/
def UpstreamHead.isInterim (u : UpstreamHead) : Bool :=
  u.code.any (fun c => decide (100 ≤ c) && decide (c ≤ 199) && c != 101)

/-- What an upstream sends: interim responses and a final one. -/
structure Responses (env : Env) where
  interim : List (Bytes × UpstreamHead)
  final : Bytes
  head : UpstreamHead
  body : Bytes
  interim_head : ∀ x ∈ interim, IsHead env x.1 x.2
  interim_code : ∀ x ∈ interim, x.2.isInterim = true
  final_head : IsHead env final head
  final_code : head.isInterim = false

def Responses.bytes {env : Env} (rs : Responses env) : Bytes := rs.interim.flatMap Prod.fst ++ rs.final ++ rs.body

/-- The peer takes the request and sends these bytes, in whatever pieces. -/
structure Peer.Sends (p : Peer) (body bytes : Bytes) : Prop where
  connected : (!p.reused && !p.connects) = false
  takesHead : p.takesHead = true
  takesBody : body = [] ∨ p.takesBody = true
  contents : (Source.contents p.reads).1 = bytes

/-- How much is read after each read of the head loop. -/
def readLengths : ℕ → Source → ℕ → List ℕ
  | 0, _, _ => []
  | fuel + 1, src, got =>
    match Source.read 8192 src with
    | (.failed,_) => []
    | (.data b,src) => if b = [] then [] else (got + b.length) :: readLengths fuel src (got + b.length)

/-- No read ends inside a head of this length with more than 64 KiB of it read. -/
def Timely (src : Source) (len : ℕ) : Prop :=
  ∀ n ∈ readLengths (Source.size src + 1) src 0, 64 * 1024 < n → len ≤ n

/-- Status, fields and body behind the head are those of one response. -/
structure Answer.IsOf (a : Answer) (conf : ProxyConf) (u : UpstreamHead) (body : Bytes) : Prop where
  status : a.status = u.code.getD 502
  fields : a.fields = upstreamFields conf u.headers
  wire : a.wire = body

/-- The client is answered from the final response. -/
def ReceivesFinal (env : Env) (ctx : Ctx) (conf : ProxyConf) (chosen : Option (Upstream × ℕ)) (p : Peer)
    (rs : Responses env) : Prop :=
  ∃ a, exchangeHead env ctx conf chosen p = .answers a ∧ a.IsOf conf rs.head rs.body

end Heads

section Reading
variable {env : Env} {h : Bytes} {u : UpstreamHead} {src : Source} {tail : Bytes}

theorem IsHead.parse_of_le (hh : IsHead env h u) {buf rest : Bytes} (he : buf ++ rest = h ++ tail)
    (hle : h.length ≤ buf.length) : env.parseResponse buf = .ok (some u) := by
  have htake := congrArg (List.take buf.length) he
  rw [List.take_left,List.take_append,List.take_of_length_le hle] at htake
  rw [htake]
  exact hh.whole _

theorem IsHead.parse_of_lt (hh : IsHead env h u) {buf rest : Bytes} (he : buf ++ rest = h ++ tail)
    (hlt : buf.length < h.length) : env.parseResponse buf = .ok none := by
  have htake := congrArg (List.take buf.length) he
  rw [List.take_left,List.take_append_of_le_length (Nat.le_of_lt hlt)] at htake
  rw [htake]
  exact hh.cut _ hlt

theorem readLengths_ge {fuel got n : ℕ} (hn : n ∈ readLengths fuel src got) : got ≤ n := by
  induction fuel generalizing src got with
  | zero => cases hn
  | succ fuel ih =>
    simp only [readLengths] at hn
    split at hn
    · cases hn
    · split at hn
      · cases hn
      · rcases List.mem_cons.mp hn with rfl | hn
        · exact Nat.le_add_right _ _
        · exact Nat.le_trans (Nat.le_add_right _ _) (ih hn)

/-- While a head is not read in full there is more to read. -/
theorem read_more {buf : Bytes} (he : buf ++ (Source.contents src).1 = h ++ tail) (hlt : buf.length < h.length) :
    ∃ b src', Source.read 8192 src = (.data b,src') ∧ b ≠ [] ∧ Source.size src' < Source.size src ∧
      (buf ++ b) ++ (Source.contents src').1 = h ++ tail := by
  have hd := Source.delivery_eq_contents (show 0 < 8192 by decide) src
  have hne : (Source.contents src).1 ≠ [] := by
    intro hz
    have hl := congrArg List.length he
    rw [hz,List.append_nil,List.length_append] at hl
    omega
  rcases hr : Source.read 8192 src with ⟨b | _,src'⟩
  · by_cases hb : b = []
    · subst hb
      have hend : delivery 8192 src = ([],true) := delivery_end hr
      rw [hend] at hd
      exact absurd (congrArg Prod.fst hd).symm hne
    · refine ⟨b,src',rfl,hb,Source.size_lt hr hb,?_⟩
      rw [List.append_assoc,← contents_read (by decide) hr hb]
      exact he
  · have hfail : delivery 8192 src = ([],false) := delivery_failed hr
    rw [hfail] at hd
    exact absurd (congrArg Prod.fst hd).symm hne

/-- The loop ends with the first head, when no read ends inside it past the limit. -/
theorem readHead_timely (hh : IsHead env h u) {fuel : ℕ} {buf : Bytes} (hf : Source.size src < fuel)
    (he : buf ++ (Source.contents src).1 = h ++ tail) (hlt : buf.length < h.length)
    (ht : ∀ n ∈ readLengths fuel src buf.length, 64 * 1024 < n → h.length ≤ n) :
    ∃ buf' rest, readHead env fuel src buf = .complete buf' u rest ∧ h.length ≤ buf'.length ∧
      buf' ++ (Source.contents rest).1 = h ++ tail := by
  induction fuel generalizing src buf with
  | zero => cases hf
  | succ fuel ih =>
    obtain ⟨b,src',hr,hb,hs,he'⟩ := read_more he hlt
    simp only [readHead,readLengths,hr,if_neg hb] at ht ⊢
    by_cases hle : h.length ≤ (buf ++ b).length
    · rw [hh.parse_of_le he' hle]
      exact ⟨buf ++ b,src',rfl,hle,he'⟩
    · rw [hh.parse_of_lt he' (Nat.lt_of_not_le hle)]
      dsimp only
      have hlen : (buf ++ b).length = buf.length + b.length := List.length_append
      rw [if_neg]
      · refine ih (by omega) he' (Nat.lt_of_not_le hle) ?_
        rw [hlen]
        exact fun n hn => ht n (List.mem_cons_of_mem _ hn)
      · intro hlong
        have hnow := ht _ List.mem_cons_self (hlen ▸ hlong)
        rw [← hlen] at hnow
        exact hle hnow

/-- Otherwise it gives up there. -/
theorem readHead_late (hh : IsHead env h u) {fuel : ℕ} {buf : Bytes} (hf : Source.size src < fuel)
    (he : buf ++ (Source.contents src).1 = h ++ tail) (hlt : buf.length < h.length) {n : ℕ}
    (hn : n ∈ readLengths fuel src buf.length) (hlong : 64 * 1024 < n) (hinside : n < h.length) :
    readHead env fuel src buf = .tooLong := by
  induction fuel generalizing src buf with
  | zero => cases hf
  | succ fuel ih =>
    obtain ⟨b,src',hr,hb,hs,he'⟩ := read_more he hlt
    simp only [readHead,readLengths,hr,if_neg hb] at hn ⊢
    have hlen : (buf ++ b).length = buf.length + b.length := List.length_append
    have hle : (buf ++ b).length ≤ n := by
      rw [hlen]
      rcases List.mem_cons.mp hn with rfl | hn
      · exact Nat.le_refl _
      · exact readLengths_ge hn
    rw [hh.parse_of_lt he' (by omega)]
    dsimp only
    split
    · rfl
    · rename_i hshort
      refine ih (by omega) he' (by omega) ?_
      rcases List.mem_cons.mp hn with rfl | hn
      · exact absurd (hlen.symm ▸ hlong) hshort
      · rw [hlen]
        exact hn

end Reading

section Claim
variable {env : Env} {ctx : Ctx} {conf : ProxyConf} {chosen : Option (Upstream × ℕ)} {p : Peer} {rs : Responses env}
variable {h : Bytes} {u : UpstreamHead} {tail : Bytes}

/-- The code of an interim response is not that of a final one. -/
theorem interim_code_ne {v : UpstreamHead} (hi : u.isInterim = true) (hf : v.isInterim = false) :
    u.code.getD 502 ≠ v.code.getD 502 := by
  unfold UpstreamHead.isInterim at hi hf
  cases hu : u.code with
  | none =>
    rw [hu] at hi
    cases hi
  | some c =>
    rw [hu] at hi
    intro he
    rw [Option.getD_some] at he
    cases hv : v.code with
    | none =>
      rw [hv,Option.getD_none] at he
      subst he
      exact absurd hi (by decide)
    | some e =>
      rw [hv,Option.getD_some] at he
      subst he
      rw [hv,hi] at hf
      cases hf

/-- A peer that takes the request comes to the head loop. -/
theorem exchangeHead_reads {bytes : Bytes} (hs : p.Sends ctx.body bytes) :
    exchangeHead env ctx conf chosen p =
      match readHead env (Source.size p.reads + 1) p.reads [] with
      | .ended => .fails conf.nextUpstream.error 502 (some .error)
      | .failed =>
        if p.timesOut then .fails conf.nextUpstream.timeout 504 (some .timeout)
        else .fails conf.nextUpstream.error 502 (some .error)
      | .tooLong => .fails conf.nextUpstream.invalidHeader 502 none
      | .invalid => .fails conf.nextUpstream.invalidHeader 502 (some .invalidHeader)
      | .complete buf head rest =>
        .answers ⟨chosenServer chosen,rest,buf,head.len,head.code.getD 502,upstreamFields conf head.headers⟩ := by
  have h1 : ¬ (!p.reused && !p.connects) = true := Bool.eq_false_iff.mp hs.connected
  have h2 : ¬ (!p.takesHead) = true := by
    rw [hs.takesHead]
    exact Bool.false_ne_true
  have h3 : ¬ (decide (ctx.body ≠ []) && !p.takesBody) = true := by
    rcases hs.takesBody with hb | hb
    · rw [hb]
      exact Bool.false_ne_true
    · rw [hb,Bool.not_true,Bool.and_false]
      exact Bool.false_ne_true
  exact (if_neg h1).trans ((if_neg h2).trans (if_neg h3))

/-- The answer is made from the first head of what the peer sends. -/
theorem exchangeHead_first (hh : IsHead env h u) (hs : p.Sends ctx.body (h ++ tail)) (ht : Timely p.reads h.length) :
    ∃ a, exchangeHead env ctx conf chosen p = .answers a ∧ a.IsOf conf u tail := by
  obtain ⟨buf,rest,hr,hle,he⟩ := readHead_timely hh (Nat.lt_succ_self _)
    ((List.nil_append _).trans hs.contents) hh.pos ht
  rw [exchangeHead_reads hs,hr]
  refine ⟨_,rfl,rfl,rfl,?_⟩
  unfold Answer.wire Answer.pre
  dsimp only
  have hdrop := congrArg (List.drop h.length) he
  rw [List.drop_append_of_le_length hle,List.drop_left] at hdrop
  rw [hh.len]
  exact hdrop

theorem exchangeHead_late (hh : IsHead env h u) (hs : p.Sends ctx.body (h ++ tail))
    (ht : ¬ Timely p.reads h.length) (a : Answer) : exchangeHead env ctx conf chosen p ≠ .answers a := by
  unfold Timely at ht
  push Not at ht
  obtain ⟨n,hn,hlong,hinside⟩ := ht
  rw [exchangeHead_reads hs,readHead_late hh (Nat.lt_succ_self _) ((List.nil_append _).trans hs.contents) hh.pos
    hn hlong hinside]
  exact fun h => nomatch h

/-- The client is answered from the final response exactly when there is no interim one
and no read ends inside its head past 64 KiB. -/
theorem receivesFinal_iff (hs : p.Sends ctx.body rs.bytes) :
    ReceivesFinal env ctx conf chosen p rs ↔ rs.interim = [] ∧ Timely p.reads rs.final.length := by
  cases hi : rs.interim with
  | nil =>
    have hbytes : rs.bytes = rs.final ++ rs.body := by
      unfold Responses.bytes
      rw [hi]
      rfl
    rw [hbytes] at hs
    constructor
    · rintro ⟨a,ha,-⟩
      refine ⟨rfl,?_⟩
      by_contra ht
      exact exchangeHead_late rs.final_head hs ht a ha
    · rintro ⟨-,ht⟩
      exact exchangeHead_first rs.final_head hs ht
  | cons x xs =>
    have hx : x ∈ rs.interim := by
      rw [hi]
      exact List.mem_cons_self
    have hbytes : rs.bytes = x.1 ++ (xs.flatMap Prod.fst ++ rs.final ++ rs.body) := by
      unfold Responses.bytes
      rw [hi,List.flatMap_cons,List.append_assoc,List.append_assoc,List.append_assoc]
    rw [hbytes] at hs
    refine iff_of_false ?_ (fun h => nomatch h.1)
    rintro ⟨a,ha,hof⟩
    by_cases ht : Timely p.reads x.1.length
    · obtain ⟨b,hb,hfirst⟩ := @exchangeHead_first env ctx conf chosen p _ _ _ (rs.interim_head x hx) hs ht
      rw [ha] at hb
      cases hb
      exact interim_code_ne (rs.interim_code x hx) rs.final_code (hfirst.status.symm.trans hof.status)
    · exact exchangeHead_late (rs.interim_head x hx) hs ht a ha

def continueHead : Bytes := lit "HTTP/1.1 100 Continue\r\n\r\n"

def createdHead : Bytes := lit "HTTP/1.1 201 Created\r\nContent-Length: 2\r\n\r\n"

def continueParsed : UpstreamHead := ⟨25,some 100,[]⟩

def createdParsed : UpstreamHead := ⟨43,some 201,[(lit "Content-Length",lit "2")]⟩

/-- The parser on these two heads. -/
def twoHeads : Env :=
  { Env.idle with
    parseResponse := fun b =>
      if continueHead.isPrefixOf b then .ok (some continueParsed)
      else if createdHead.isPrefixOf b then .ok (some createdParsed)
      else if b.isPrefixOf continueHead || b.isPrefixOf createdHead then .ok none
      else .error () }

theorem isPrefixOf_append (h t : Bytes) : h.isPrefixOf (h ++ t) = true :=
  List.isPrefixOf_iff_prefix.mpr (List.prefix_append h t)

theorem continue_isHead : IsHead twoHeads continueHead continueParsed where
  pos := by decide
  len := by decide
  whole := by
    intro t
    unfold twoHeads
    dsimp only
    rw [if_pos (isPrefixOf_append continueHead t)]
  cut := by decide +kernel

theorem created_isHead : IsHead twoHeads createdHead createdParsed where
  pos := by decide
  len := by decide
  whole := by
    intro t
    have hne : continueHead.isPrefixOf (createdHead ++ t) = false := rfl
    unfold twoHeads
    dsimp only
    rw [hne,if_neg Bool.false_ne_true,if_pos (isPrefixOf_append createdHead t)]
  cut := by decide +kernel

example : continueHead.isPrefixOf createdHead = false := by decide +kernel

def createdOnly : Responses twoHeads where
  interim := []
  final := createdHead
  head := createdParsed
  body := lit "ok"
  interim_head := fun _ h => nomatch h
  interim_code := fun _ h => nomatch h
  final_head := created_isHead
  final_code := rfl

def continueFirst : Responses twoHeads where
  interim := [(continueHead,continueParsed)]
  final := createdHead
  head := createdParsed
  body := lit "ok"
  interim_head := by
    intro x hx
    cases List.mem_singleton.mp hx
    exact continue_isHead
  interim_code := by
    intro x hx
    cases List.mem_singleton.mp hx
    rfl
  final_head := created_isHead
  final_code := rfl

/-- A fresh connection that is sent these pieces. -/
def sending (pieces : List Bytes) : Peer := ⟨false,true,true,true,pieces.map .data,false,false⟩

/-- A head that comes in two pieces. -/
theorem createdOnly_received : ReceivesFinal twoHeads (getCtx (lit "/")) .default none
    (sending [lit "HTTP/1.1 201 Cre",lit "ated\r\nContent-Length: 2\r\n\r\nok"]) createdOnly := by
  refine (receivesFinal_iff ⟨rfl,rfl,.inl rfl,by decide +kernel⟩).mpr ⟨rfl,?_⟩
  unfold Timely
  decide +kernel

/-- Both heads in one read: the client gets a bare `100`. -/
theorem continueFirst_missed : (sending [continueFirst.bytes]).Sends (getCtx (lit "/")).body continueFirst.bytes ∧
    ¬ ReceivesFinal twoHeads (getCtx (lit "/")) .default none (sending [continueFirst.bytes]) continueFirst := by
  refine ⟨⟨rfl,rfl,.inl rfl,by decide +kernel⟩,?_⟩
  rintro ⟨a,ha,hof⟩
  have hrun : (match exchangeHead twoHeads (getCtx (lit "/")) .default none (sending [continueFirst.bytes]) with
      | .answers a => a.status
      | _ => 0) = 100 := by decide +kernel
  rw [ha] at hrun
  have hstatus := hof.status
  dsimp only at hrun
  rw [hrun] at hstatus
  cases hstatus

end Claim

end OxiServe.Server
