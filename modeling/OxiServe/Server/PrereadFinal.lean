import OxiServe.Server.PrereadRecords

/-! # When a ClientHello is answered

An answer stands whatever follows, and a well-formed message is answered by its last
byte and no earlier. A whole message is answered unless a length inside it overruns what
encloses it, which looks like bytes that have not arrived.
-/
namespace OxiServe.Server.Preread
open Cursor

section Answers

theorem parse_more {b : Bytes} (h : parse b ≠ .incomplete) (c : Bytes) : parse (b ++ c) = parse b := by
  cases b with
  | nil => exact absurd rfl h
  | cons x b =>
    unfold parse at h ⊢
    rw [List.cons_append]
    dsimp only at h ⊢
    split
    · rfl
    · rename_i hx
      rw [if_neg hx] at h
      generalize hr : records ((x :: b).length + 1) (x :: b) [] = res at h
      have hres : res ≠ .error .incomplete := by
        rintro rfl
        exact h rfl
      have hn : (x :: b).length + 1 ≤ (x :: (b ++ c)).length + 1 := by
        simp only [List.length_cons,List.length_append]
        omega
      have hm := records_more hr hres c hn
      rw [List.cons_append] at hm
      rw [hm]

theorem record_short {f : Fragment} {p s : Bytes} (h : f.bytes = p ++ s) (hs : s ≠ []) :
    record p = .error .incomplete := by
  by_contra hne
  have hm := record_more rfl hne s
  have hf := record_fragment f []
  rw [List.append_nil,h,hm] at hf
  rcases hr : record p with e | ⟨payload,r⟩
  · rw [hr] at hf
    cases hf
  · rw [hr] at hf
    simp only [Except.map,Except.ok.injEq,Prod.mk.injEq] at hf
    exact hs (List.append_eq_nil_iff.mp hf.2).2

/-- Records that break off before the last one whose payload is needed are asked for again. -/
theorem records_short {fuel : ℕ} {fs : List Fragment} {parts : List Bytes} {p s : Bytes} (h : encode fs = p ++ s)
    (hs : s ≠ []) (hw : ∀ pre post, payloads fs = pre ++ post → post ≠ [] → ¬ Whole (parts ++ pre).flatten) :
    records fuel p parts = .error .incomplete := by
  induction fs generalizing fuel p parts with
  | nil => exact absurd (List.append_eq_nil_iff.mp h.symm).2 hs
  | cons f fs ih =>
    cases fuel with
    | zero => rfl
    | succ fuel =>
      rw [encode_cons] at h
      have hone : ∀ a, p = f.bytes ++ a → encode fs = a ++ s → records (fuel + 1) p parts = .error .incomplete := by
        rintro a rfl ha
        have hne : payloads fs ≠ [] := by
          intro hnil
          rw [List.map_eq_nil_iff.mp hnil] at ha
          exact hs (List.append_eq_nil_iff.mp ha.symm).2
        have hnot : ¬ isWhole (parts ++ [f.payload]) = true :=
          fun hi => hw [f.payload] (payloads fs) rfl hne (isWhole_iff.mp hi)
        rw [records,record_fragment]
        dsimp only
        rw [if_neg hnot]
        split
        · rfl
        · apply ih ha
          intro pre post hpp hpost
          rw [List.append_assoc,List.singleton_append]
          exact hw (f.payload :: pre) post (congrArg (f.payload :: ·) hpp) hpost
      rcases List.append_eq_append_iff.mp h with ⟨a,ha,he⟩ | ⟨a,ha,he⟩
      · exact hone a ha he
      · by_cases hnil : a = []
        · subst hnil
          exact hone [] (by rw [List.append_nil] at ha ⊢; exact ha.symm) he.symm
        · rw [records,record_short ha hnil]

theorem isMessage_message (h : ClientHello) : IsMessage msgClientHello h.message h.body [] := by
  refine ⟨toBe 3 h.body.length,?_,length_toBe 3 _,?_⟩
  · rw [List.append_nil]
    rfl
  · rw [ofBe_toBe]
    exact (Nat.mod_eq_of_lt h.length_body_lt).symm

/-- A message without anything behind it is whole with its last byte only. -/
theorem whole_prefix {k : UInt8} {m body p s : Bytes} (hm : IsMessage k m body []) (h : m = p ++ s) (hp : Whole p) :
    s = [] := by
  obtain ⟨len,rfl,hl,hb⟩ := hm.layout
  obtain ⟨k',body',tail,len',rfl,hl',hb'⟩ := hp
  rw [List.append_nil,List.cons_append,List.append_assoc,List.append_assoc] at h
  obtain ⟨rfl,hrest⟩ := List.append_inj (List.cons.inj h).2 (hl.trans hl'.symm)
  have hlen := congrArg List.length hrest
  simp only [List.length_append] at hlen
  exact List.eq_nil_of_length_eq_zero (by omega)

/-- No proper prefix of a well-formed message's records is answered. -/
theorem parse_short {h : ClientHello} {fs : List Fragment} (hc : carried fs = h.message) {p s : Bytes}
    (he : encode fs = p ++ s) (hs : s ≠ []) : parse p = .incomplete := by
  cases fs with
  | nil =>
    rw [ClientHello.message] at hc
    cases hc
  | cons f fs =>
    have hw : ∀ pre post, payloads (f :: fs) = pre ++ post → post ≠ [] → ¬ Whole (([] : List Bytes) ++ pre).flatten := by
      intro pre post hpp hpost hwhole
      rw [List.nil_append] at hwhole
      have hflat : h.message = pre.flatten ++ post.flatten := by
        rw [← hc,carried,hpp,List.flatten_append]
      have hnil := whole_prefix (isMessage_message h) hflat hwhole
      obtain ⟨x,hx⟩ := List.exists_mem_of_ne_nil post hpost
      have hmem : x ∈ payloads (f :: fs) := by
        rw [hpp]
        exact List.mem_append_right _ hx
      obtain ⟨g,-,rfl⟩ := List.mem_map.mp hmem
      exact g.nonempty (List.flatten_eq_nil_iff.mp hnil _ hx)
    cases p with
    | nil => rfl
    | cons x p =>
      have hx : x = recHandshake := (List.cons.inj (he.symm.trans (encode_cons f fs))).1
      unfold parse
      dsimp only
      rw [hx,if_neg (fun h => h rfl),← hx,records_short he hs hw]

end Answers

section Stalls
variable {fuel : ℕ} {out : Hello} {body c : Bytes}

/-- Extensions that fill their block to the last byte. -/
inductive Blocks : Bytes → Prop
  | nil : Blocks []
  | cons {ty c data rest : Bytes} : ty.length = 2 → IsVector 2 c data rest → Blocks rest → Blocks (ty ++ c)

/-- What stands behind the session id: the version and the random part are in front of it. -/
def BehindSession (body c : Bytes) : Prop := ∃ fixed r sid, body = fixed ++ r ∧ fixed.length = 34 ∧ IsVector 1 r sid c

/-- Every length of the body stays within what encloses it, up to one of the cipher
suites that is odd or to the end of the extensions. -/
inductive LengthsFit (body : Bytes) : Prop
  | odd {len c : Bytes} : BehindSession body (len ++ c) → len.length = 2 → ofBe len % 2 ≠ 0 → LengthsFit body
  | bare {c suites d comp : Bytes} : BehindSession body c → IsVector 2 c suites d → suites.length % 2 = 0 →
      IsVector 1 d comp [] → LengthsFit body
  | block {c suites d comp e exts tail : Bytes} : BehindSession body c → IsVector 2 c suites d →
      suites.length % 2 = 0 → IsVector 1 d comp e → IsVector 2 e exts tail → Blocks exts → LengthsFit body

theorem extensions_isSome (hf : c.length < fuel) : (extensions fuel c out).isSome = true ↔ Blocks c := by
  induction fuel generalizing c out with
  | zero => exact absurd hf (Nat.not_lt_zero _)
  | succ fuel ih =>
    rw [extensions]
    by_cases hc : c = []
    · subst hc
      rw [if_pos rfl]
      exact ⟨fun _ => .nil,fun _ => rfl⟩
    · rw [if_neg hc]
      simp only [Option.bind_eq_bind,u16_bind_isSome,take_bind_isSome]
      constructor
      · rintro ⟨ty,_,rfl,hty,len,_,rfl,hlen,data,rest,rfl,hd,h⟩
        simp only [List.length_append] at hf
        exact .cons hty ⟨len,rfl,hlen,hd⟩ ((ih (by omega)).mp h)
      · intro h
        cases h with
        | nil => exact absurd rfl hc
        | @cons ty r data rest hty hv hb =>
          obtain ⟨len,rfl,hlen,hd⟩ := hv
          simp only [List.length_append] at hf
          exact ⟨ty,_,rfl,hty,len,_,rfl,hlen,data,rest,rfl,hd,(ih (by omega)).mpr hb⟩

theorem extensionBlock_isSome :
    (extensionBlock c out).isSome = true ↔ c = [] ∨ ∃ exts tail, IsVector 2 c exts tail ∧ Blocks exts := by
  unfold extensionBlock
  by_cases hc : c = []
  · rw [if_pos hc]
    exact ⟨fun _ => .inl hc,fun _ => rfl⟩
  · rw [if_neg hc]
    have hlast : ∀ o : Option Hello, (o.bind (fun out => some (Preread.hello out))).isSome = o.isSome := by
      intro o
      cases o with
      | none => rfl
      | some h => rfl
    simp only [Option.bind_eq_bind,u16_bind_isSome,take_bind_isSome,hlast]
    constructor
    · rintro ⟨len,_,rfl,hl,exts,tail,rfl,he,h⟩
      exact .inr ⟨exts,tail,⟨len,rfl,hl,he⟩,(extensions_isSome (Nat.lt_succ_self _)).mp h⟩
    · rintro (h | ⟨exts,tail,⟨len,rfl,hl,he⟩,h⟩)
      · exact absurd h hc
      · exact ⟨len,_,rfl,hl,exts,tail,rfl,he,(extensions_isSome (Nat.lt_succ_self _)).mpr h⟩

theorem clientHello_isSome : (clientHello body).isSome = true ↔ LengthsFit body := by
  have hone : ∀ a : UInt8, ofBe [a] = a.toNat := by
    intro a
    simp [ofBe]
  simp only [clientHello,Option.bind_eq_bind,u16_bind_isSome,take_bind_isSome,u8_bind_isSome]
  constructor
  · rintro ⟨legacy,_,rfl,hv,random,_,rfl,hr,sidLen,_,rfl,sid,_,rfl,hsid,len,c,rfl,hlen,h⟩
    have hb : BehindSession (legacy ++ (random ++ sidLen :: (sid ++ (len ++ c)))) (len ++ c) :=
      ⟨legacy ++ random,_,sid,(List.append_assoc _ _ _).symm,by rw [List.length_append,hv,hr],[sidLen],rfl,rfl,
        hsid.trans (hone sidLen).symm⟩
    by_cases hodd : ofBe len % 2 = 0
    · rw [if_neg (fun hne => hne hodd)] at h
      simp only [take_bind_isSome,u8_bind_isSome,extensionBlock_isSome] at h
      obtain ⟨suites,_,rfl,hs,compLen,_,rfl,comp,d,rfl,hcomp,h⟩ := h
      have hsuites : IsVector 2 (len ++ (suites ++ compLen :: (comp ++ d))) suites (compLen :: (comp ++ d)) :=
        ⟨len,rfl,hlen,hs⟩
      have hvec : IsVector 1 (compLen :: (comp ++ d)) comp d := ⟨[compLen],rfl,rfl,hcomp.trans (hone compLen).symm⟩
      rcases h with rfl | ⟨exts,tail,he,hx⟩
      · exact .bare hb hsuites (hs.symm ▸ hodd) hvec
      · exact .block hb hsuites (hs.symm ▸ hodd) hvec he hx
    · exact .odd hb hlen hodd
  · intro h
    have hsession : ∀ {c}, BehindSession body c → ∃ legacy random sidLen sid, body =
        legacy ++ (random ++ sidLen :: (sid ++ c)) ∧ legacy.length = 2 ∧ random.length = 32 ∧
          sid.length = sidLen.toNat := by
      rintro c ⟨fixed,_,sid,rfl,hfix,len,rfl,hl,hs⟩
      obtain ⟨a,rfl⟩ := List.length_eq_one_iff.mp hl
      refine ⟨fixed.take 2,fixed.drop 2,a,sid,?_,?_,?_,hs.trans (hone a)⟩
      · rw [← List.append_assoc (fixed.take 2),List.take_append_drop]
        rfl
      · rw [List.length_take]
        omega
      · rw [List.length_drop]
        omega
    have hcompression : ∀ {d comp e}, IsVector 1 d comp e → ∃ compLen : UInt8, d = compLen :: (comp ++ e) ∧
        comp.length = compLen.toNat := by
      rintro d comp e ⟨len,rfl,hl,hc⟩
      obtain ⟨a,rfl⟩ := List.length_eq_one_iff.mp hl
      exact ⟨a,rfl,hc.trans (hone a)⟩
    cases h with
    | @odd len c hb hlen hodd =>
      obtain ⟨legacy,random,sidLen,sid,rfl,hv,hr,hsid⟩ := hsession hb
      refine ⟨legacy,_,rfl,hv,random,_,rfl,hr,sidLen,_,rfl,sid,_,rfl,hsid,len,c,rfl,hlen,?_⟩
      rw [if_pos hodd]
      rfl
    | @bare c suites d comp hb hs heven hc =>
      obtain ⟨legacy,random,sidLen,sid,rfl,hv,hr,hsid⟩ := hsession hb
      obtain ⟨len,rfl,hlen,hl⟩ := hs
      obtain ⟨compLen,rfl,hcl⟩ := hcompression hc
      refine ⟨legacy,_,rfl,hv,random,_,rfl,hr,sidLen,_,rfl,sid,_,rfl,hsid,len,_,rfl,hlen,?_⟩
      rw [if_neg (fun hne => hne (hl ▸ heven))]
      simp only [take_bind_isSome,u8_bind_isSome,extensionBlock_isSome]
      exact ⟨suites,_,rfl,hl,compLen,_,rfl,comp,[],rfl,hcl,.inl rfl⟩
    | @block c suites d comp e exts tail hb hs heven hc he hx =>
      obtain ⟨legacy,random,sidLen,sid,rfl,hv,hr,hsid⟩ := hsession hb
      obtain ⟨len,rfl,hlen,hl⟩ := hs
      obtain ⟨compLen,rfl,hcl⟩ := hcompression hc
      refine ⟨legacy,_,rfl,hv,random,_,rfl,hr,sidLen,_,rfl,sid,_,rfl,hsid,len,_,rfl,hlen,?_⟩
      rw [if_neg (fun hne => hne (hl ▸ heven))]
      simp only [take_bind_isSome,u8_bind_isSome,extensionBlock_isSome]
      exact ⟨suites,_,rfl,hl,compLen,_,rfl,comp,e,rfl,hcl,.inr ⟨exts,tail,he,hx⟩⟩

/-- What is read off a body is an answer. -/
theorem clientHello_answers {x : Preread} (h : clientHello body = some x) : x ≠ .incomplete := by
  rintro rfl
  simp only [clientHello,Option.bind_eq_bind,Option.bind_eq_some_iff] at h
  obtain ⟨_,-,_,-,_,-,_,-,p,-,h⟩ := h
  by_cases hodd : p.1 % 2 = 0
  · rw [if_neg (fun hne => hne hodd)] at h
    simp only [Option.bind_eq_some_iff] at h
    obtain ⟨_,-,_,-,q,-,h⟩ := h
    unfold extensionBlock at h
    split at h
    · cases h
    · simp only [Option.bind_eq_bind,Option.bind_eq_some_iff] at h
      obtain ⟨_,-,_,-,out,-,h⟩ := h
      cases h
  · rw [if_pos hodd] at h
    cases h

end Stalls

section Results

/-- An answer stands whatever follows, and a well-formed message is not answered before
its last record is complete. -/
theorem answers_final : (∀ b c, parse b ≠ .incomplete → parse (b ++ c) = parse b) ∧
    ∀ (h : ClientHello) (fs : List Fragment), carried fs = h.message →
      ∀ p s, encode fs = p ++ s → s ≠ [] → parse p = .incomplete :=
  ⟨fun _ c hb => parse_more hb c,fun _ _ hc _ _ he hs => parse_short hc he hs⟩

/-- However a well-formed message is cut into records, its host name and its protocols
are read. -/
theorem parse_clientHello (h : ClientHello) (fs : List Fragment) (hc : carried fs = h.message) (rest : Bytes) :
    ∃ out, parse (encode fs ++ rest) = .hello out ∧ out.serverName = h.serverName ∧ out.alpn = h.alpn := by
  have hw : Whole (carried fs) := ⟨_,_,_,hc ▸ isMessage_message h⟩
  obtain ⟨out,hm,hname,halpn⟩ := handshake_message h []
  rw [List.append_nil] at hm
  exact ⟨out,by rw [parse_encode hw,hc,hm]; rfl,hname,halpn⟩

/-- A whole message is answered exactly when it is no ClientHello or the lengths inside
it fit. -/
theorem parse_answers_iff (fs : List Fragment) (rest : Bytes) {k : UInt8} {body tail : Bytes}
    (hm : IsMessage k (carried fs) body tail) :
    parse (encode fs ++ rest) ≠ .incomplete ↔ (k = msgClientHello → LengthsFit body) := by
  rw [parse_encode ⟨k,body,tail,hm⟩,handshake_isMessage hm]
  by_cases hk : k = msgClientHello
  · rw [if_neg (fun h => h hk),← clientHello_isSome]
    cases hb : clientHello body with
    | none =>
      constructor
      · intro h
        exact absurd rfl h
      · intro h
        cases h hk
    | some x => exact ⟨fun _ _ => rfl,fun _ => clientHello_answers hb⟩
  · rw [if_pos hk]
    constructor
    · intro _ h
      exact absurd h hk
    · rintro - ⟨⟩

/-- A client that names one host and two protocols. -/
def namedHello : ClientHello where
  legacy := 0x0303
  random := List.replicate 32 17
  sessionId := [171]
  suites := [19,1]
  compression := [0]
  extensions := some [.other 43 [2,3,4],.alpn [lit "h2",lit "http/1.1"],.serverName [(0,lit "a.test")]]
  legacy_lt := by decide
  random_length := by decide
  sessionId_lt := by decide
  suites_even := by decide
  suites_lt := by decide
  compression_lt := by decide
  wellFormed := by
    rw [Option.getD_some]
    decide +kernel
  distinct := by decide
  extensions_lt := by decide +kernel

/-- Its message in two records, cut inside the header. -/
def namedRecords : List Fragment :=
  [⟨1,namedHello.message.take 2,by decide +kernel,by decide +kernel⟩,
    ⟨3,namedHello.message.drop 2,by decide +kernel,by decide +kernel⟩]

theorem carried_namedRecords : carried namedRecords = namedHello.message := by decide +kernel

theorem named_final : parse (lit "GET" ++ lit " /") = parse (lit "GET") ∧
    parse ((encode namedRecords).take 20) = .incomplete :=
  ⟨answers_final.1 (lit "GET") (lit " /") (by decide +kernel),
    answers_final.2 namedHello namedRecords carried_namedRecords _ _ (List.take_append_drop 20 _).symm (by decide +kernel)⟩

theorem named_read : ∃ out, parse (encode namedRecords ++ [20,3,3]) = .hello out ∧
    out.serverName = lit "a.test" ∧ out.alpn = [lit "h2",lit "http/1.1"] :=
  parse_clientHello namedHello namedRecords carried_namedRecords [20,3,3]

/-- A whole message whose extensions claim 65535 bytes. -/
def overrunBody : Bytes :=
  [3,3] ++ List.replicate 32 17 ++ [0] ++ [0,2,19,1] ++ [1,0] ++ [255,255]

def overrunRecord : List Fragment := [⟨1,msgClientHello :: vector 3 overrunBody,by decide +kernel,by decide +kernel⟩]

theorem isMessage_overrun : IsMessage msgClientHello (carried overrunRecord) overrunBody [] :=
  ⟨toBe 3 overrunBody.length,by decide +kernel,by decide +kernel,by decide +kernel⟩

theorem overrun_stalls : ¬ ∀ (fs : List Fragment) (rest : Bytes), Whole (carried fs) →
    parse (encode fs ++ rest) ≠ .incomplete := by
  intro h
  exact h overrunRecord [] ⟨_,_,_,isMessage_overrun⟩ (by decide +kernel)

theorem overrun_iff : parse (encode overrunRecord ++ []) ≠ .incomplete ↔
    (msgClientHello = msgClientHello → LengthsFit overrunBody) :=
  parse_answers_iff overrunRecord [] isMessage_overrun

end Results

end OxiServe.Server.Preread
