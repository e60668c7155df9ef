import OxiServe.Lib.Http1Head
import OxiServe.Server.ProxyHead

/-! # What an upstream reads from the forwarded head

The head is read back with a strict HTTP/1 reader. It is exactly the request
that was meant if and only if none of the bytes that delimit a request line, a
target or a field occurs in the text placed there, since nothing is escaped on
the way.
-/
namespace OxiServe.Server
open Config Response Http1Head

section Decode

/-- Percent-decoding; a `%` without two hex digits is an error. -/
def percentDecode : Bytes → Option Bytes
  | [] => some []
  | c :: r =>
    if c = 37 then
      match r with
      | h :: l :: r =>
        match Uri.hex h, Uri.hex l with
        | some a, some b => (percentDecode r).map (fun t => ((a <<< 4) ||| b) :: t)
        | _, _ => none
      | _ => none
    else (percentDecode r).map (fun t => c :: t)

theorem percentDecode_of_not_mem {s : Bytes} (h : (37 : UInt8) ∉ s) : percentDecode s = some s := by
  induction s with
  | nil => rfl
  | cons c r ih =>
    have hc : c ≠ 37 := fun he => h (by simp [he])
    have hr : (37 : UInt8) ∉ r := fun hm => h (List.mem_cons_of_mem _ hm)
    unfold percentDecode
    rw [if_neg hc,ih hr,Option.map_some]

theorem hex_slash : Uri.hex 47 = none := rfl

/-- Decoding shortens what it changes and loses no slash. -/
theorem percentDecode_spec {s t : Bytes} (h : percentDecode s = some t) :
    t.length ≤ s.length ∧ ((37 : UInt8) ∈ s → t.length < s.length) ∧ s.count 47 ≤ t.count 47 := by
  induction hn : s.length using Nat.strongRecOn generalizing s t with
  | ind n ih =>
    cases s with
    | nil =>
      cases h
      exact ⟨Nat.zero_le _,by simp,Nat.le_refl _⟩
    | cons c r =>
      unfold percentDecode at h
      simp only [List.length_cons] at hn
      split at h
      · rename_i hc
        split at h
        · rename_i x l r'
          split at h
          · rename_i a b ha hb
            obtain ⟨u,hu,rfl⟩ := Option.map_eq_some_iff.mp h
            simp only [List.length_cons] at hn
            obtain ⟨h1,-,h3⟩ := ih r'.length (by omega) hu rfl
            have hx : x ≠ 47 := by
              intro he
              rw [he,hex_slash] at ha
              cases ha
            have hl : l ≠ 47 := by
              intro he
              rw [he,hex_slash] at hb
              cases hb
            have hc47 : c ≠ 47 := by
              rw [hc]
              decide
            rw [List.count_cons_of_ne hc47,List.count_cons_of_ne hx,List.count_cons_of_ne hl]
            have hle : u.count 47 ≤ (((a <<< 4) ||| b) :: u).count 47 := List.count_le_count_cons
            simp only [List.length_cons]
            exact ⟨by omega,fun _ => by omega,by omega⟩
          · cases h
        · cases h
      · rename_i hc
        obtain ⟨u,hu,rfl⟩ := Option.map_eq_some_iff.mp h
        obtain ⟨h1,h2,h3⟩ := ih r.length (by omega) hu rfl
        simp only [List.length_cons,List.count_cons]
        refine ⟨by omega,?_,by omega⟩
        intro hm
        have hr : (37 : UInt8) ∈ r := by
          rcases List.mem_cons.mp hm with he | hm
          · exact absurd he.symm hc
          · exact hm
        have := h2 hr
        omega

end Decode

section Target

theorem splitQuery_of_not_mem {p : Bytes} (h : (63 : UInt8) ∉ p) : Uri.splitQuery p = (p,[]) := by
  have hi : p.findIdx? (· == 63) = none := by
    rw [List.findIdx?_eq_none_iff]
    intro x hx
    have : x ≠ 63 := fun he => h (he ▸ hx)
    simpa using this
  simp only [Uri.splitQuery,hi]

theorem splitQuery_append {p q : Bytes} (h : (63 : UInt8) ∉ p) : Uri.splitQuery (p ++ 63 :: q) = (p,q) := by
  have hs : splitOnce 63 (p ++ 63 :: q) = some (p,q) := splitOnce_eq_some.mpr ⟨rfl,h⟩
  unfold splitOnce at hs
  unfold Uri.splitQuery
  cases hi : (p ++ 63 :: q).findIdx? (· == 63) with
  | none =>
    rw [hi] at hs
    cases hs
  | some i =>
    rw [hi] at hs
    exact Option.some.inj hs

/-- Either there is no question mark, or the target is path, mark and query. -/
theorem splitQuery_cases (t : Bytes) :
    ((63 : UInt8) ∉ t ∧ Uri.splitQuery t = (t,[])) ∨
      (∃ p q, t = p ++ 63 :: q ∧ (63 : UInt8) ∉ p ∧ Uri.splitQuery t = (p,q)) := by
  by_cases h : (63 : UInt8) ∈ t
  · obtain ⟨p,q,ht,hp⟩ := List.eq_append_cons_of_mem h
    exact Or.inr ⟨p,q,ht,hp,ht ▸ splitQuery_append hp⟩
  · exact Or.inl ⟨h,splitQuery_of_not_mem h⟩

theorem getLast?_of_suffix {a s : Bytes} (h : a <:+ s) (ha : a ≠ []) : a.getLast? = s.getLast? := by
  obtain ⟨p,rfl⟩ := h
  rw [List.getLast?_append]
  cases hl : a.getLast? with
  | none => exact absurd (List.getLast?_eq_none_iff.mp hl) ha
  | some c => rfl

theorem strFrom_suffix (s : Bytes) (i : ℕ) : strFrom s i <:+ s := by
  unfold strFrom
  split
  · exact List.nil_suffix
  · split
    · exact List.nil_suffix
    · exact List.drop_suffix i s

end Target

section Sent

/-- The templates in question: none, or `$uri` itself. -/
def UsesUri (pp : ProxyPass) : Prop := pp.uri = none ∨ pp.uri = some ⟨[.var .uri]⟩

/-- What a trailing slash appends once more after the URI. -/
def repeatedPart (ctx : Ctx) (loc : Location) (pp : ProxyPass) : Bytes :=
  match pp.uri, loc.matcher.prefixOf with
  | some _, some p =>
    if ctx.uri.getLast? = some 47 then trimStartSlashes (strFrom ctx.uri p.length) else []
  | _, _ => []

theorem upstreamPath_eq {env : Env} {ctx : Ctx} {loc : Location} {pp : ProxyPass} (h : UsesUri pp) :
    upstreamPath env ctx loc pp = ctx.uri ++ repeatedPart ctx loc pp := by
  rcases h with h | h
  · simp only [upstreamPath,repeatedPart,h,List.append_nil]
  · simp only [upstreamPath,repeatedPart,h,Ctx.render_uri]
    cases loc.matcher.prefixOf with
    | none => exact (List.append_nil _).symm
    | some p =>
      by_cases hl : ctx.uri.getLast? = some 47
      · simp only [if_pos hl]
      · simp only [if_neg hl,List.append_nil]

/-- The repeated part is nothing or ends in a slash. -/
theorem repeatedPart_last {ctx : Ctx} {loc : Location} {pp : ProxyPass}
    (h : repeatedPart ctx loc pp ≠ []) : (repeatedPart ctx loc pp).getLast? = some 47 := by
  unfold repeatedPart at h ⊢
  split
  · rename_i p hu hp
    simp only [hu,hp] at h
    split
    · rename_i hl
      rw [if_pos hl] at h
      have hs : trimStartSlashes (strFrom ctx.uri p.length) <:+ ctx.uri :=
        (List.dropWhile_suffix _).trans (strFrom_suffix ctx.uri p.length)
      rw [getLast?_of_suffix hs h,hl]
    · rename_i hl
      rw [if_neg hl] at h
      exact absurd rfl h
  · rename_i hno
    exfalso
    split at h
    · rename_i hu hp
      exact hno _ _ hu hp
    · exact h rfl

def Ctx.method (ctx : Ctx) : Bytes := Request.Req.slice ctx.buf ctx.req.methodRaw

theorem fieldLine_eq (f : Bytes × Bytes) : Resp.fieldLine f = fieldLine f := by
  have h1 : lit ": " = [58,32] := rfl
  have h2 : lit "\r\n" = [13,10] := rfl
  simp only [Resp.fieldLine,fieldLine,h1,h2]

theorem buildRequestHead_eq (env : Env) (ctx : Ctx) (loc : Location) (pp : ProxyPass) (conf : ProxyConf)
    (addr : Bytes) (keep : Bool) :
    buildRequestHead env ctx loc pp conf addr keep =
      serialise ctx.method (upstreamUri env ctx loc pp) (httpVersion conf)
        (requestFields env ctx conf addr keep) := by
  have h1 : lit " " = [32] := rfl
  have h2 : lit "\r\n" = [13,10] := rfl
  have hf : Resp.fieldLine = fieldLine := funext fieldLine_eq
  simp only [buildRequestHead,serialise,requestLine,Ctx.method,h1,h2,hf,List.append_assoc,
    List.cons_append,List.nil_append]

variable (env : Env) (ctx : Ctx) (loc : Location) (pp : ProxyPass) (conf : ProxyConf) (addr : Bytes)
  (keep : Bool)

/-- Read again, the head is exactly one request with nothing after it: the method,
a target whose path decodes to the URI and whose query is the arguments, the
version, and the fields that were written. -/
def SentAsMeant : Prop :=
  ∃ t, parse (buildRequestHead env ctx loc pp conf addr keep) =
      some ((ctx.method,t,httpVersion conf),requestFields env ctx conf addr keep,[]) ∧
    percentDecode (Uri.splitQuery t).1 = some ctx.uri ∧ (Uri.splitQuery t).2 = ctx.args

/-- No delimiter in the text of the request line and the fields, and no part of
the URI appended twice. -/
structure Undelimited : Prop where
  method : isPart ctx.method = true
  uri_line : isLine ctx.uri = true
  uri_blank : (32 : UInt8) ∉ ctx.uri
  uri_mark : (63 : UInt8) ∉ ctx.uri
  uri_percent : (37 : UInt8) ∉ ctx.uri
  args_line : isLine ctx.args = true
  args_blank : (32 : UInt8) ∉ ctx.args
  target : ctx.uri ≠ [] ∨ ctx.args ≠ []
  once : repeatedPart ctx loc pp = []
  fields : ∀ f ∈ requestFields env ctx conf addr keep, isField f = true

variable {env ctx loc pp conf addr keep}

theorem isPart_httpVersion (conf : ProxyConf) : isPart (httpVersion conf) = true := by
  unfold httpVersion
  cases conf.httpVersion11 <;> decide +kernel

theorem upstreamUri_eq (h : UsesUri pp) :
    upstreamUri env ctx loc pp =
      ctx.uri ++ repeatedPart ctx loc pp ++ (if ctx.args ≠ [] then 63 :: ctx.args else []) := by
  have h1 : lit "?" = [63] := rfl
  rw [upstreamUri,upstreamPath_eq h,h1]
  rfl

/-- A target that reads back as URI and arguments repeats nothing and holds no
question mark or escape in its path. -/
theorem target_plain (h : UsesUri pp)
    (hd : percentDecode (Uri.splitQuery (upstreamUri env ctx loc pp)).1 = some ctx.uri)
    (hq : (Uri.splitQuery (upstreamUri env ctx loc pp)).2 = ctx.args) :
    repeatedPart ctx loc pp = [] ∧ (63 : UInt8) ∉ ctx.uri ∧ (37 : UInt8) ∉ ctx.uri := by
  have hu := @upstreamUri_eq env ctx loc pp h
  have hpath : (Uri.splitQuery (upstreamUri env ctx loc pp)).1 = ctx.uri ++ repeatedPart ctx loc pp ∧
      (63 : UInt8) ∉ ctx.uri ++ repeatedPart ctx loc pp := by
    rcases splitQuery_cases (upstreamUri env ctx loc pp) with ⟨hn,hs⟩ | ⟨p,q,ht,hp,hs⟩
    · rw [hs] at hq ⊢
      have ha : ctx.args = [] := hq.symm
      rw [ha] at hu
      simp only [ne_eq,not_true_eq_false,if_false,List.append_nil] at hu
      rw [← hu]
      exact ⟨rfl,hn⟩
    · rw [hs] at hq hd ⊢
      have hqa : q = ctx.args := hq
      by_cases ha : ctx.args = []
      · exfalso
        rw [if_neg (fun hne => hne ha),List.append_nil] at hu
        have hpu : p ++ [63] = ctx.uri ++ repeatedPart ctx loc pp := by
          rw [← hu,ht,hqa,ha]
        have hlen := (percentDecode_spec hd).1
        have hlu := congrArg List.length hpu
        simp only [List.length_append,List.length_cons,List.length_nil] at hlu hlen
        have hne : repeatedPart ctx loc pp ≠ [] := by
          intro hz
          rw [hz] at hlu
          simp only [List.length_nil] at hlu
          omega
        have hl := congrArg List.getLast? hpu
        rw [List.getLast?_append,List.getLast?_append,repeatedPart_last hne] at hl
        have hb : some (63 : UInt8) = some 47 := hl
        exact absurd hb (by decide)
      · rw [if_pos ha] at hu
        have hpu : p = ctx.uri ++ repeatedPart ctx loc pp := by
          rw [ht,hqa] at hu
          exact List.append_cancel_right hu
        exact ⟨hpu,hpu ▸ hp⟩
  rw [hpath.1] at hd
  have hspec := percentDecode_spec hd
  have hrep : repeatedPart ctx loc pp = [] := by
    by_contra hne
    have hm : (47 : UInt8) ∈ repeatedPart ctx loc pp := List.mem_of_getLast? (repeatedPart_last hne)
    have hpos := List.count_pos_iff.mpr hm
    have hc := hspec.2.2
    rw [List.count_append] at hc
    omega
  rw [hrep,List.append_nil] at hpath hd hspec
  refine ⟨hrep,hpath.2,?_⟩
  intro hm
  have := hspec.2.1 hm
  omega

/-- For a directive that sends `$uri` or the URI unchanged, the upstream reads
the request that was meant exactly when nothing placed in the head delimits it. -/
theorem sentAsMeant_iff (h : UsesUri pp) :
    SentAsMeant env ctx loc pp conf addr keep ↔ Undelimited env ctx loc pp conf addr keep := by
  constructor
  · rintro ⟨t,hp,hd,hq⟩
    rw [buildRequestHead_eq] at hp
    obtain ⟨hs,hm,ht,-,hf⟩ := parse_sound hp
    have hline := List.append_cancel_right hs
    have hrest := List.append_cancel_left hline
    have htail := List.append_cancel_right (List.cons.inj hrest).2
    rw [← htail] at ht hd hq
    obtain ⟨honce,hmark,hpct⟩ := target_plain h hd hq
    rw [upstreamUri_eq h,honce,List.append_nil] at ht
    obtain ⟨hne,hblank,hlt⟩ := isPart_iff.mp ht
    obtain ⟨hul,hal⟩ := isLine_append.mp hlt
    by_cases ha : ctx.args = []
    · rw [if_neg (fun hn => hn ha),List.append_nil] at hne hblank
      exact ⟨hm,hul,hblank,hmark,hpct,by rw [ha]; rfl,by simp [ha],Or.inl hne,honce,hf⟩
    · rw [if_pos ha] at hblank hal
      have hub : (32 : UInt8) ∉ ctx.uri := fun hx => hblank (List.mem_append_left _ hx)
      have hab : (32 : UInt8) ∉ ctx.args :=
        fun hx => hblank (List.mem_append_right _ (List.mem_cons_of_mem _ hx))
      exact ⟨hm,hul,hub,hmark,hpct,(isLine_cons.mp hal).2,hab,Or.inr ha,honce,hf⟩
  · intro hs
    have hu := @upstreamUri_eq env ctx loc pp h
    rw [hs.once,List.append_nil] at hu
    have hsplit : Uri.splitQuery (upstreamUri env ctx loc pp) = (ctx.uri,ctx.args) := by
      rw [hu]
      by_cases ha : ctx.args = []
      · rw [if_neg (fun hn => hn ha),List.append_nil,splitQuery_of_not_mem hs.uri_mark,ha]
      · rw [if_pos ha,splitQuery_append hs.uri_mark]
    have hpart : isPart (upstreamUri env ctx loc pp) = true := by
      rw [hu,isPart_iff]
      by_cases ha : ctx.args = []
      · rw [if_neg (fun hn => hn ha),List.append_nil]
        exact ⟨hs.target.resolve_right (fun hn => hn ha),hs.uri_blank,hs.uri_line⟩
      · rw [if_pos ha]
        refine ⟨by simp,?_,?_⟩
        · intro hm
          rcases List.mem_append.mp hm with hm | hm
          · exact hs.uri_blank hm
          · rcases List.mem_cons.mp hm with hm | hm
            · exact absurd hm (by decide)
            · exact hs.args_blank hm
        · rw [isLine_append,isLine_cons]
          exact ⟨hs.uri_line,by decide,hs.args_line⟩
    refine ⟨upstreamUri env ctx loc pp,?_,?_,?_⟩
    · rw [buildRequestHead_eq]
      exact parse_serialise hs.method hpart (isPart_httpVersion conf) hs.fields
    · rw [hsplit]
      exact percentDecode_of_not_mem hs.uri_percent
    · rw [hsplit]

def passUnchanged : ProxyPass := ⟨.addr (lit "app") 80,none,false⟩

example : isLine (lit "GET /a HTTP/1.1") = true := by decide +kernel

theorem plainPath_sentAsMeant :
    UsesUri passUnchanged ∧
      SentAsMeant .idle (getCtx (lit "/a")) (.bare (.pfx (lit "/")) (.proxy passUnchanged)) passUnchanged
        .default (lit "app:80") false :=
  ⟨Or.inl rfl,(sentAsMeant_iff (Or.inl rfl)).mpr
    { method := by decide +kernel
      uri_line := by decide +kernel
      uri_blank := by decide +kernel
      uri_mark := by decide +kernel
      uri_percent := by decide +kernel
      args_line := by decide +kernel
      args_blank := by decide +kernel
      target := Or.inl (by decide +kernel)
      once := by decide +kernel
      fields := by decide +kernel }⟩

/-- An encoded blank in the client's path splits the upstream's request line. -/
theorem encodedBlank_not_sentAsMeant :
    UsesUri passUnchanged ∧ Uri.normalize (lit "/a%20b") = .ok (getCtx (lit "/a b")).uri ∧
      ¬ SentAsMeant .idle (getCtx (lit "/a b")) (.bare (.pfx (lit "/")) (.proxy passUnchanged)) passUnchanged
        .default (lit "app:80") false := by
  refine ⟨Or.inl rfl,by decide +kernel,?_⟩
  rintro ⟨t,hp,-,-⟩
  have hn : parse (buildRequestHead .idle (getCtx (lit "/a b")) (.bare (.pfx (lit "/")) (.proxy passUnchanged))
      passUnchanged .default (lit "app:80") false) = none := by decide +kernel
  rw [hn] at hp
  cases hp

end Sent

end OxiServe.Server
