import OxiServe.Server.Transport

/-! # How much of a counted body goes out

Every writer puts out what came with the upstream's head in full. Behind it the
HTTP/1 writer stops at the length, the other two where the source ends. None puts
out more than it was given, whether the write succeeds or not.
-/
namespace OxiServe.Server
open Config Response

section Http1

theorem writeAll_out_le (s : Sink) (b : Bytes) : (s.writeAll b).1.out.length ≤ s.out.length + b.length := by
  rcases s with ⟨out,room,ok⟩
  cases room with
  | none => simp [Sink.writeAll,Sink.fitting]
  | some k =>
    simp only [Sink.writeAll,Sink.fitting,List.length_append,List.length_take]
    exact Nat.add_le_add_left (Nat.min_le_right _ _) _

theorem takeUpTo_length_le (n sent : ℕ) (b : Bytes) : (takeUpTo (some n) sent b).length ≤ n - sent :=
  List.length_take_le _ _

theorem upstreamLoop_out_le {n fuel sent : ℕ} {s : Sink} {io : Io} (h : sent ≤ n) :
    (upstreamLoop (some n) fuel s io sent).1.out.length ≤ s.out.length + (n - sent) := by
  induction fuel generalizing s io sent with
  | zero => exact Nat.le_add_right _ _
  | succ fuel ih =>
    simp only [upstreamLoop]
    split
    · exact Nat.le_add_right _ _
    · rcases Reader.read upstreamBuf io with ⟨b | _,io'⟩
      · dsimp only
        split
        · exact Nat.le_add_right _ _
        · have hw := writeAll_out_le s (takeUpTo (some n) sent b)
          have ht := takeUpTo_length_le n sent b
          rcases hs : s.writeAll (takeUpTo (some n) sent b) with ⟨s',ok⟩
          rw [hs] at hw
          cases ok with
          | false =>
            dsimp only at hw ⊢
            omega
          | true =>
            have hi := @ih (sent + (takeUpTo (some n) sent b).length) s' io' (by omega)
            dsimp only at hw ⊢
            omega
      · exact Nat.le_add_right _ _

theorem streamUpstream_out_le {n : ℕ} {s : Sink} {pre : Bytes} {io : Io} (h : pre.length ≤ n) :
    (streamUpstream s pre io (some n)).1.out.length ≤ s.out.length + n := by
  have hw := writeAll_out_le s pre
  unfold streamUpstream
  rcases hs : s.writeAll pre with ⟨s',ok⟩
  rw [hs] at hw
  cases ok with
  | false =>
    dsimp only at hw ⊢
    omega
  | true =>
    have hi := @upstreamLoop_out_le n (Reader.size io + 1) pre.length s' io h
    dsimp only at hw ⊢
    omega

/-- A body that puts out at most `n` bytes: none, bytes in hand, or a counted
stream whose beginning fits. -/
inductive AtMost (n : ℕ) : Body → Prop
  | empty : AtMost n .empty
  | bytes (b : Bytes) : b.length ≤ n → AtMost n (.bytes b)
  | stream (pre : Bytes) (io : Io) : pre.length ≤ n → AtMost n (.stream pre io (some n))

theorem AtMost.writeBody_out_le {n : ℕ} {body : Body} (h : AtMost n body) (core : CoreConf) (tcp : Bool) (t : ℕ)
    (s : Sink) (head : Bytes) :
    (writeBody core tcp t s head body).1.out.length ≤ s.out.length + head.length + n := by
  cases h with
  | empty =>
    have hw := writeAll_out_le s head
    simp only [writeBody]
    rcases hs : s.writeAll head with ⟨s',ok⟩
    rw [hs] at hw
    cases ok with
    | false => exact Nat.le_trans hw (Nat.le_add_right _ _)
    | true => exact Nat.le_trans hw (Nat.le_add_right _ _)
  | bytes b hb =>
    have hw := writeAll_out_le s (head ++ b)
    rw [List.length_append] at hw
    simp only [writeBody]
    rcases hs : s.writeAll (head ++ b) with ⟨s',ok⟩
    rw [hs] at hw
    cases ok with
    | false =>
      dsimp only at hw ⊢
      omega
    | true =>
      dsimp only at hw ⊢
      omega
  | stream pre io hp =>
    have hw := writeAll_out_le s head
    simp only [writeBody]
    rcases hs : s.writeAll head with ⟨s',ok⟩
    rw [hs] at hw
    cases ok with
    | false => exact Nat.le_trans hw (Nat.le_add_right _ _)
    | true =>
      have hi := @streamUpstream_out_le n s' pre io hp
      dsimp only at hw ⊢
      omega

theorem Exchange.written_length_le {x : Exchange} {n : ℕ} (h : AtMost n x.framed.body) (s : Sink) :
    (x.written s).length ≤ n := by
  have hw := h.writeBody_out_le x.core x.tcp x.clock s x.head
  have hr : (x.respond s).1 = (writeBody x.core x.tcp x.clock s x.head x.framed.body).1 := by
    simp only [Exchange.respond,Exchange.writeReply_framed]
    split
    · rename_i heq
      exact (congrArg Prod.fst heq).symm
    · rename_i heq
      exact (congrArg Prod.fst heq).symm
  rw [Exchange.written,List.length_drop,hr]
  omega

end Http1

section Http2

theorem pump_length_le (checks : List Http2.Check) (b : Bytes) :
    (Http2.pump checks b).1.flatten.length ≤ b.length := by
  fun_induction Http2.pump checks b with
  | case1 => exact Nat.le_refl _
  | case2 checks c r ih => exact ih
  | case3 n checks c r fs checks' ok hp ih =>
    rw [hp] at ih
    rw [List.flatten_cons,List.length_append,List.length_take]
    rw [List.length_drop] at ih
    dsimp only at ih
    omega
  | case4 => exact Nat.zero_le _

theorem streamFrames_length_le {fuel : ℕ} {checks : List Http2.Check} {io : Io} :
    (Http2.streamFrames fuel checks io).1.flatten.length ≤ (drain Http2.chunkLen fuel io).1.length := by
  induction fuel generalizing checks io with
  | zero => exact Nat.le_refl _
  | succ fuel ih =>
    simp only [Http2.streamFrames,drain]
    rcases Http2.look checks with ⟨_ | _,rest⟩
    · exact Nat.zero_le _
    · rcases Reader.read Http2.chunkLen io with ⟨b | _,io'⟩
      · by_cases hb : b = []
        · simp only [if_pos hb,List.flatten_cons,List.flatten_nil,List.append_nil]
          exact Nat.le_refl _
        · simp only [if_neg hb]
          have hp := pump_length_le rest b
          have hi := @ih (Http2.pump rest b).2.1 io'
          rw [List.flatten_append,List.length_append,List.length_append]
          exact Nat.add_le_add hp hi
      · exact Nat.zero_le _

theorem http2_bytes_length_le (t : ℕ) (checks : List Http2.Check) (b : Bytes) :
    (Http2.writeBody t checks (.bytes b)).1.flatten.length ≤ b.length := by
  have hp := pump_length_le checks b
  simp only [Http2.writeBody,List.flatten_append,List.flatten_cons,List.flatten_nil,List.append_nil]
  exact hp

theorem http2_stream_length_le (t : ℕ) (checks : List Http2.Check) (pre : Bytes) (io : Io) (len : Option ℕ) :
    (Http2.writeBody t checks (.stream pre io len)).1.flatten.length ≤
      pre.length + (delivery Http2.chunkLen io).1.length := by
  have hp := pump_length_le checks pre
  have hs := @streamFrames_length_le (Reader.size io + 1) (Http2.pump checks pre).2.1 io
  simp only [Http2.writeBody,List.flatten_append,List.length_append]
  exact Nat.add_le_add hp hs

/-- Windows that let a body through at once. -/
theorem pump_all (b : Bytes) (checks : List Http2.Check) :
    Http2.pump (.allows b.length :: checks) b = (if b = [] then [] else [b],if b = [] then .allows 0 :: checks else checks,true) := by
  cases b with
  | nil => rfl
  | cons c r => simp [Http2.pump]

theorem streamFrames_completes {fuel : ℕ} {io : Io} (h : Reader.size io < fuel) :
    ∃ checks, (Http2.streamFrames fuel checks io).2 = true := by
  induction fuel generalizing io with
  | zero => omega
  | succ fuel ih =>
    rcases hr : Reader.read Http2.chunkLen io with ⟨b | _,io'⟩
    · by_cases hb : b = []
      · refine ⟨[.allows 0],?_⟩
        simp only [Http2.streamFrames,Http2.look,hr,if_pos hb]
      · have hlt := Reader.size_lt hr hb
        obtain ⟨checks,hc⟩ := @ih io' (by omega)
        refine ⟨.allows 0 :: .allows b.length :: checks,?_⟩
        simp only [Http2.streamFrames,Http2.look,hr,if_neg hb,pump_all]
        exact hc
    · refine ⟨[.allows 0],?_⟩
      simp only [Http2.streamFrames,Http2.look,hr]

/-- With enough room a stream goes out as it comes. -/
theorem http2_stream_completes (t : ℕ) (pre : Bytes) (io : Io) (len : Option ℕ) :
    ∃ checks, (Http2.writeBody t checks (.stream pre io len)).1.flatten =
      pre ++ (delivery Http2.chunkLen io).1 := by
  obtain ⟨checks,hc⟩ := streamFrames_completes (Nat.lt_succ_self (Reader.size io))
  by_cases hp : pre = []
  · refine ⟨checks,Http2.writeBody_stream ?_⟩
    subst hp
    cases checks with
    | nil => exact hc
    | cons c checks => exact hc
  · refine ⟨.allows pre.length :: checks,Http2.writeBody_stream ?_⟩
    simp only [Http2.writeBody,pump_all,if_neg hp]
    exact hc

theorem http2_bytes_completes (t : ℕ) (b : Bytes) :
    ∃ checks, (Http2.writeBody t checks (.bytes b)).1.flatten = b := by
  refine ⟨[.allows b.length],Http2.writeBody_bytes ?_⟩
  simp only [Http2.writeBody,pump_all]

end Http2

section Http3

theorem data_length_le (ok : ℕ → Bool) (b : Bytes) : (Http3.data ok b).1.flatten.length ≤ b.length := by
  unfold Http3.data
  split
  · exact Nat.zero_le _
  · split
    · simp
    · exact Nat.zero_le _

theorem http3_streamFrames_length_le {ok : ℕ → Bool} {fuel k : ℕ} {io : Io} :
    (Http3.streamFrames ok fuel k io).1.flatten.length ≤ (drain Http3.chunkLen fuel io).1.length := by
  induction fuel generalizing k io with
  | zero => exact Nat.le_refl _
  | succ fuel ih =>
    simp only [Http3.streamFrames,drain]
    rcases Reader.read Http3.chunkLen io with ⟨b | _,io'⟩
    · by_cases hb : b = []
      · simp only [if_pos hb]
        exact Nat.le_refl _
      · simp only [if_neg hb]
        by_cases hk : ok k = true
        · simp only [if_pos hk,List.flatten_cons,List.length_append]
          exact Nat.add_le_add_left ih _
        · simp only [if_neg hk]
          exact Nat.zero_le _
    · exact Nat.zero_le _

theorem http3_stream_length_le (t : ℕ) (ok : ℕ → Bool) (pre : Bytes) (io : Io) (len : Option ℕ) :
    (Http3.writeBody t ok (.stream pre io len)).1.flatten.length ≤
      pre.length + (delivery Http3.chunkLen io).1.length := by
  have hd := data_length_le ok pre
  simp only [Http3.writeBody]
  rcases hp : Http3.data ok pre with ⟨fs,_ | _⟩
  · rw [hp] at hd
    exact Nat.le_trans hd (Nat.le_add_right _ _)
  · rw [hp] at hd
    have hs := @http3_streamFrames_length_le ok (Reader.size io + 1) fs.length io
    simp only [List.flatten_append,List.length_append]
    exact Nat.add_le_add hd hs

end Http3

end OxiServe.Server
