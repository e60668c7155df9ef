import OxiServe.Server.BodyWriter
import OxiServe.Server.Decorate
import OxiServe.Server.HeadOnly
import OxiServe.Server.RangeExact

/-! # Partial responses

A range of a file is cut before compression is considered, and compression looks at the
type and the length but not at the status. So what a range says of itself holds unless
its bytes are compressed, or the file has none.
-/
namespace OxiServe.Server
open Config Response
variable {env : Env} {ctx : Ctx} {core : CoreConf} {path content : Bytes} {mtime : Int} {resp : Resp} {start stop : ℕ}

section Statement
variable (env : Env) (ctx : Ctx) (core : CoreConf) (path content : Bytes) (mtime : Int)

/-- The reply is the bytes from `start` up to `stop` of the file, and says so. -/
structure Describes (r : Reply) (start stop : ℕ) : Prop where
  nonempty : start < stop
  within : stop ≤ content.length
  range : r.resp.get (lit "content-range") =
    some (lit "bytes " ++ decimal start ++ lit "-" ++ decimal (stop - 1) ++ lit "/" ++ decimal content.length)
  etag : core.etag = true → r.resp.get (lit "etag") = some (makeEtag mtime content.length) ∨
    r.resp.get (lit "etag") = some (lit "W/" ++ makeEtag mtime content.length)
  length : r.resp.framing = .length (stop - start)
  body : if ctx.req.method = .head then r.body = .empty
    else ∀ conf tcp t, r.body.supply conf tcp t = ((content.drop start).take (stop - start),true)
  /-- Only the configuration names a coding. -/
  uncoded : ∀ f ∈ r.resp.hdrs, eqIgnoreAsciiCase f.1 (lit "content-encoding") = true →
    ∃ h ∈ ctx.matchedCore.addHeaders, added env ctx r.resp.status h = some f

/-- The request and the configuration ask for compression of a body of this type. -/
structure GzipAsked (contentType : Bytes) : Prop where
  enabled : ctx.matchedCore.gzip.enabled = true
  accepted : ctx.req.acceptsGzip ctx.buf = true
  version : ctx.req.minor = 0 → ctx.matchedCore.gzip.httpVersion10 = true
  type : trim ((split 59 contentType).headD []) ∈ ctx.matchedCore.gzip.types ∨
    trim ((split 59 contentType).headD []) = lit "text/html"
  unencoded : ∀ h ∈ ctx.matchedCore.addHeaders, eqIgnoreAsciiCase h.name (lit "content-encoding") = true →
    ctx.render env h.value = []

/-- The bytes of the range are compressed. -/
def RangeCoded : Prop :=
  ctx.req.method ≠ .head ∧ GzipAsked env ctx (contentTypeOf ctx core path) ∧
    ∃ start stop, rangeOf env ctx core (makeEtag mtime content.length) mtime content.length = .one start stop ∧
      ctx.matchedCore.gzip.minLength ≤ stop - start ∧ stop - start ≤ gzipMaxFile ∧
      ∃ out, env.gzip ctx.matchedCore.gzip.level ((content.drop start).take (stop - start)) = some out

end Statement

section Reading

theorem window_ofBytes {chunk fuel t pos left : ℕ} (hc : 0 < chunk) (hf : left < fuel)
    (hl : pos + left ≤ content.length) :
    (File.ofBytes content).window chunk fuel t pos left = ((content.drop pos).take left,true) := by
  induction fuel generalizing t pos left with
  | zero => omega
  | succ fuel ih =>
    simp only [File.window,File.ofBytes]
    by_cases hz : left = 0
    · rw [if_pos hz,hz,List.take_zero]
    · have hlen : ((content.drop pos).take (min chunk left)).length = min chunk left := by
        rw [List.length_take,List.length_drop]
        omega
      have hne : (content.drop pos).take (min chunk left) ≠ [] := by
        intro he
        rw [he,List.length_nil] at hlen
        omega
      have hrest := @ih (t + 1) (pos + min chunk left) (left - min chunk left) (by omega) (by omega)
      simp only [File.ofBytes] at hrest
      rw [if_neg hz,if_neg hne,hlen,hrest,← List.drop_drop,← List.take_add,Nat.add_sub_cancel' (Nat.min_le_right _ _)]

theorem readExactAt_ofBytes {fuel t off len : ℕ} (hf : len < fuel) (hl : off + len ≤ content.length) :
    readExactAt (File.ofBytes content) fuel t off len = some ((content.drop off).take len) := by
  cases fuel with
  | zero => omega
  | succ fuel =>
    simp only [readExactAt,File.ofBytes]
    by_cases hz : len = 0
    · rw [if_pos hz,hz,List.take_zero]
    · have hlen : ((content.drop off).take len).length = len := by
        rw [List.length_take,List.length_drop]
        omega
      have hne : (content.drop off).take len ≠ [] := by
        intro he
        rw [he,List.length_nil] at hlen
        omega
      rw [if_neg hz,if_neg hne,hlen,Nat.sub_self]
      cases fuel with
      | zero => omega
      | succ fuel => simp only [readExactAt,if_true,Option.map_some,List.append_nil]

theorem fileChunk_pos (conf : CoreConf) (tcp : Bool) (len : ℕ) : 0 < fileChunk conf tcp len := by
  unfold fileChunk
  split
  · decide
  · omega

/-- The body of a window of the file hands over its bytes, to the writer as to compression. -/
theorem makeBody_ofBytes (hm : env.mmap ctx.clock path = none ∨ env.mmap ctx.clock path = some content)
    (hlt : start < stop) (hle : stop ≤ content.length) (sendfile : Bool) :
    (∀ conf tcp t, (makeBody env ctx path (File.ofBytes content) start (stop - start) sendfile).supply conf tcp t =
      ((content.drop start).take (stop - start),true)) ∧
    (makeBody env ctx path (File.ofBytes content) start (stop - start) sendfile).raw ctx.clock =
      some ((content.drop start).take (stop - start)) := by
  have hfile : (∀ conf tcp t, (Body.file (File.ofBytes content) start (stop - start)).supply conf tcp t =
      ((content.drop start).take (stop - start),true)) ∧
      (Body.file (File.ofBytes content) start (stop - start)).raw ctx.clock =
        some ((content.drop start).take (stop - start)) := by
    refine ⟨fun conf tcp t => ?_,readExactAt_ofBytes (Nat.lt_succ_self _) (by omega)⟩
    exact window_ofBytes (fileChunk_pos conf tcp _) (Nat.lt_succ_self _) (by omega)
  unfold makeBody
  split
  · omega
  · split
    · exact ⟨fun _ _ _ => rfl,readExactAt_ofBytes (Nat.lt_succ_self _) (by omega)⟩
    · split
      · rcases hm with hm | hm
        · simp only [hm]
          exact hfile
        · simp only [hm]
          split
          · have hslice : slice content ⟨start,start + (stop - start)⟩ = (content.drop start).take (stop - start) := by
              simp only [slice,Range.len,Nat.add_sub_cancel_left]
            exact ⟨fun _ _ _ => by rw [Body.supply,Mapped.bytes,hslice],by rw [Body.raw,Mapped.bytes,hslice]⟩
          · exact hfile
      · exact hfile

end Reading

section Heads

theorem contentEncoding_lasting {n : Bytes} (hn : eqIgnoreAsciiCase n (lit "content-encoding") = true) :
    Lasting n ∧ eqIgnoreAsciiCase n (lit "Alt-Svc") = false :=
  ⟨⟨eqIgnoreAsciiCase_trans_ne hn rfl,eqIgnoreAsciiCase_trans_ne hn rfl⟩,
    eqIgnoreAsciiCase_trans_ne hn rfl⟩

/-- The head of a range before it is decorated. -/
def rangeHead (env : Env) (ctx : Ctx) (core : CoreConf) (path content : Bytes) (mtime : Int) (start stop : ℕ) : Resp :=
  ({ fileHead env ctx core path (makeEtag mtime content.length) mtime with status := 206 }).header
    (lit "Content-Range") (contentRange start stop content.length)

theorem rangeHead_fields (env : Env) (ctx : Ctx) (core : CoreConf) (path content : Bytes) (mtime : Int)
    (start stop : ℕ) :
    let r := rangeHead env ctx core path content mtime start stop
    r.get (lit "content-type") = some (contentTypeOf ctx core path) ∧
      r.get (lit "content-range") = some (contentRange start stop content.length) ∧
      (core.etag = true → r.get (lit "etag") = some (makeEtag mtime content.length)) ∧
      ∀ f ∈ r.hdrs, eqIgnoreAsciiCase f.1 (lit "content-encoding") = false := by
  have hct : eqIgnoreAsciiCase (lit "Content-Type") (lit "content-type") = true := rfl
  have hcr' : eqIgnoreAsciiCase (lit "Content-Range") (lit "content-range") = true := rfl
  have het' : eqIgnoreAsciiCase (lit "ETag") (lit "etag") = true := rfl
  have hcr : ∀ n ∈ [lit "Content-Type",lit "Last-Modified",lit "ETag",lit "Accept-Ranges"],
      eqIgnoreAsciiCase n (lit "content-range") = false := by
    simp only [List.forall_mem_cons]
    exact ⟨rfl,rfl,rfl,rfl,fun _ h => nomatch h⟩
  have het : ∀ n ∈ [lit "Content-Type",lit "Last-Modified"], eqIgnoreAsciiCase n (lit "etag") = false := by
    simp only [List.forall_mem_cons]
    exact ⟨rfl,rfl,fun _ h => nomatch h⟩
  have hce : ∀ n ∈ [lit "Content-Type",lit "Last-Modified",lit "ETag",lit "Accept-Ranges",lit "Content-Range"],
      eqIgnoreAsciiCase n (lit "content-encoding") = false := by
    simp only [List.forall_mem_cons]
    exact ⟨rfl,rfl,rfl,rfl,rfl,fun _ h => nomatch h⟩
  simp only [List.forall_mem_cons,List.not_mem_nil,false_implies,implies_true,and_true] at hcr het hce
  obtain ⟨hcr1,hcr2,hcr3,hcr4⟩ := hcr
  obtain ⟨het1,het2⟩ := het
  obtain ⟨hce1,hce2,hce3,hce4,hce5⟩ := hce
  refine ⟨?_,?_,?_,?_⟩
  · simp only [Resp.get,rangeHead,fileHead,Resp.header,List.cons_append,List.find?_cons,hct,Option.map_some]
  · cases he : core.etag <;> simp [Resp.get,rangeHead,fileHead,Resp.header,he,hcr1,hcr2,hcr3,hcr4,hcr']
  · intro he
    simp [Resp.get,rangeHead,fileHead,Resp.header,he,het1,het2,het']
  · intro f hf
    simp only [rangeHead,fileHead,Resp.header,List.mem_append,List.mem_cons,List.not_mem_nil,or_false] at hf
    rcases hf with (((rfl | rfl) | hf) | rfl) | rfl
    · exact hce1
    · exact hce2
    · split at hf
      · obtain rfl := List.mem_singleton.mp hf
        exact hce3
      · cases hf
    · exact hce4
    · exact hce5

theorem gzipWanted_iff {ct : Bytes} (hs : resp.status = 206) (hct : resp.get (lit "content-type") = some ct)
    (hce : ∀ f ∈ resp.hdrs, eqIgnoreAsciiCase f.1 (lit "content-encoding") = false) :
    gzipWanted ctx (decorateHead env ctx resp) = true ↔ GzipAsked env ctx ct := by
  have hget : (decorateHead env ctx resp).get (lit "content-type") = some ct :=
    decorateHead_get hct ⟨rfl,rfl⟩
  have hhas : (decorateHead env ctx resp).has (lit "content-encoding") = false ↔
      ∀ h ∈ ctx.matchedCore.addHeaders, eqIgnoreAsciiCase h.name (lit "content-encoding") = true →
        ctx.render env h.value = [] := by
    have hnone : (decorateHead env ctx resp).has (lit "content-encoding") = false ↔
        ∀ f ∈ (decorateHead env ctx resp).hdrs, eqIgnoreAsciiCase f.1 (lit "content-encoding") ≠ true := by
      rw [Resp.has,Resp.get,Option.isSome_map,← Bool.not_eq_true,List.find?_isSome]
      exact ⟨fun h f hf hn => h ⟨f,hf,hn⟩,(by rintro h ⟨f,hf,hn⟩; exact h f hf hn)⟩
    have hadd : ∀ h : AddHeader, added env ctx resp.status h =
        if ctx.render env h.value = [] then none else some (h.name,ctx.render env h.value) := by
      intro h
      have hok : isAddHeaderStatus 206 = true := by decide
      rw [added,hs,hok,Bool.or_true,if_pos rfl]
    rw [hnone]
    constructor
    · intro h a ha hn
      apply Decidable.byContradiction
      intro hv
      obtain ⟨hl,hal⟩ := contentEncoding_lasting hn
      have hmem := (@mem_decorateHead env ctx resp (a.name,ctx.render env a.value) hl hal).mpr
        (Or.inr ⟨a,ha,by rw [hadd,if_neg hv]⟩)
      exact h _ hmem hn
    · intro h f hf hn
      obtain ⟨hl,hal⟩ := contentEncoding_lasting hn
      rcases (mem_decorateHead hl hal).mp hf with hf | ⟨a,ha,hv⟩
      · rw [hce f hf] at hn
        cases hn
      · rw [hadd] at hv
        split at hv
        · cases hv
        · rename_i hne
          cases hv
          exact hne (h a ha hn)
  unfold gzipWanted
  rw [hget]
  simp only [Bool.and_eq_true,Bool.not_eq_true',hhas,Bool.or_eq_true,beq_iff_eq,List.contains_iff_mem,
    Bool.and_eq_false_iff,beq_eq_false_iff_ne,Bool.not_eq_false']
  constructor
  · rintro ⟨⟨⟨⟨he,hu⟩,ha⟩,hv⟩,ht⟩
    exact ⟨he,ha,fun h0 => hv.resolve_left (fun hn => hn h0),ht,hu⟩
  · rintro ⟨he,ha,hv,ht,hu⟩
    exact ⟨⟨⟨⟨he,hu⟩,ha⟩,Decidable.or_iff_not_imp_left.mpr fun h0 => hv (Decidable.not_not.mp h0)⟩,ht⟩

end Heads

section Replies

theorem rangeOf_one {etag : Bytes} {size : ℕ} (h : rangeOf env ctx core etag mtime size = .one start stop) :
    ∃ h, parseRange h size = .one start stop := by
  unfold rangeOf at h
  split at h
  · cases h
  · split at h
    · exact ⟨_,h⟩
    · cases h

/-- The only partial replies of a file are those to a range. -/
theorem serveFile_partial {f : File} {r : Reply}
    (hr : serveFile env ctx core path f content.length mtime = .ok r) (hs : r.resp.status = 206) :
    ∃ start stop, rangeOf env ctx core (makeEtag mtime content.length) mtime content.length = .one start stop ∧
      r = fileReply env ctx core path f (rangeHead env ctx core path content mtime start stop) start (stop - start) := by
  have hshort : ∀ status, evaluatePreconditions env ctx core (makeEtag mtime content.length) mtime = some status →
      status ≠ 206 := by
    intro status h
    unfold evaluatePreconditions at h
    split at h
    · cases h
      decide
    · split at h
      · cases (Option.ite_none_right_eq_some.mp h).2
        decide
      · split at h
        · cases h
        · split at h
          · cases h
          · cases (Option.ite_none_right_eq_some.mp h).2
            decide
  have hreply : ∀ (resp : Resp) (start len : ℕ),
      (fileReply env ctx core path f resp start len).resp.status = resp.status := by
    intro resp start len
    unfold fileReply
    split
    · rfl
    · rfl
  unfold serveFile at hr
  split at hr
  · cases hr
  · dsimp only at hr
    split at hr
    · rename_i status hp
      cases hr
      exact absurd hs (hshort status hp)
    · split at hr
      · cases hr
        rw [hreply] at hs
        exact absurd hs (show (200 : ℕ) ≠ 206 by decide)
      · cases hr
        exact absurd hs (show (416 : ℕ) ≠ 206 by decide)
      · rename_i start stop ho
        cases hr
        exact ⟨start,stop,ho,rfl⟩

theorem fileReply_cases {f : File} {len : ℕ} :
    ctx.req.method = .head ∧ fileReply env ctx core path f resp start len = ⟨{ resp with framing := .length len },.empty⟩ ∨
    ctx.req.method ≠ .head ∧
      fileReply env ctx core path f resp start len = ⟨resp,makeBody env ctx path f start len core.sendfile⟩ := by
  unfold fileReply
  split
  · rename_i hh
    exact Or.inl ⟨hh,rfl⟩
  · rename_i hh
    exact Or.inr ⟨hh,rfl⟩

/-- A range with bytes is compressed exactly when that is asked for and possible. -/
theorem gzipped_iff (hm : env.mmap ctx.clock path = none ∨ env.mmap ctx.clock path = some content)
    (ho : rangeOf env ctx core (makeEtag mtime content.length) mtime content.length = .one start stop)
    (hlt : start < stop) (hle : stop ≤ content.length) :
    (∃ out, gzipped env ctx (fileReply env ctx core path (File.ofBytes content)
      (rangeHead env ctx core path content mtime start stop) start (stop - start)) = some out) ↔
      RangeCoded env ctx core path content mtime := by
  obtain ⟨hct,-,-,hce⟩ := rangeHead_fields env ctx core path content mtime start stop
  have hraw := (makeBody_ofBytes hm hlt hle core.sendfile).2
  rcases @fileReply_cases env ctx core path (rangeHead env ctx core path content mtime start stop) start
    (File.ofBytes content) (stop - start) with ⟨hh,he⟩ | ⟨hh,he⟩
  · rw [he,gzipped_eq_none rfl]
    constructor
    · rintro ⟨out,h⟩
      cases h
    · rintro ⟨hget,-⟩
      exact absurd hh hget
  · rw [he,← compresses_iff]
    constructor
    · rintro ⟨hw,hl,hs,raw,out,hr,hz⟩
      rw [hraw] at hr
      cases hr
      exact ⟨hh,(gzipWanted_iff rfl hct hce).mp hw,start,stop,ho,hl,hs,out,hz⟩
    · rintro ⟨-,hasked,start',stop',ho',hl,hs,out,hz⟩
      rw [ho] at ho'
      cases ho'
      exact ⟨(gzipWanted_iff rfl hct hce).mpr hasked,hl,hs,_,out,hraw,hz⟩

/-- A reply with the fields of a range that is neither compressed nor of another length
says what it is. -/
theorem describes_frame {r : Reply} (hl : content.length < 2 ^ 64) (hlt : start < stop) (hle : stop ≤ content.length)
    (hn : gzipped env ctx r = none) (hs : r.resp.status = 206) (hu : r.body.isUpgraded = false)
    (hh : r.resp.hdrs = (rangeHead env ctx core path content mtime start stop).hdrs)
    (hf : r.resp.framing = .length (stop - start) ∨ r.resp.framing = .none ∧ r.body.knownLen = some (stop - start))
    (hb : if ctx.req.method = .head then r.body = .empty
      else ∀ conf tcp t, r.body.supply conf tcp t = ((content.drop start).take (stop - start),true)) (http11 : Bool) :
    Describes env ctx core content mtime ((decorate env ctx r).frame http11) start stop := by
  obtain ⟨-,hcr,hetag,hce⟩ := rangeHead_fields env ctx core path content mtime start stop
  have hget : ∀ n, r.resp.get n = (rangeHead env ctx core path content mtime start stop).get n := by
    intro n
    rw [Resp.get,hh,Resp.get]
  have hbodyless : isBodyless (decorateHead env ctx r.resp).status = false := by
    rw [(decorateHead_kept r.resp).1,hs]
    decide
  have hfinal : ∀ n, ((decorate env ctx r).frame http11).resp.get n = (decorateHead env ctx r.resp).get n := by
    intro n
    rw [decorate_of_none hn,Resp.get,Reply.frame_hdrs,Resp.get]
  refine ⟨hlt,hle,?_,?_,?_,?_,?_⟩
  · rw [hfinal,← contentRange_eq (Nat.zero_lt_of_lt hlt) (Nat.lt_of_le_of_lt hle hl)]
    exact decorateHead_get ((hget _).trans hcr) ⟨rfl,rfl⟩
  · intro he
    apply Or.inl
    rw [hfinal]
    exact decorateHead_get ((hget _).trans (hetag he)) ⟨rfl,rfl⟩
  · rw [decorate_of_none hn,@Reply.frame_framing ⟨decorateHead env ctx r.resp,r.body⟩ _ hu hbodyless,
      (decorateHead_kept r.resp).2]
    rcases hf with hf | ⟨hf,hk⟩
    · rw [hf]
      rfl
    · rw [hf,Body.framing,hk]
      rfl
  · rw [decorate_of_none hn,Reply.frame_body hbodyless]
    exact hb
  · intro f hf hname
    rw [Reply.frame_status,decorate_of_none hn,(decorateHead_kept r.resp).1]
    rw [Reply.frame_hdrs,decorate_of_none hn] at hf
    obtain ⟨hla,hal⟩ := contentEncoding_lasting hname
    rcases (mem_decorateHead hla hal).mp hf with hf | hf
    · rw [hh] at hf
      rw [hce f hf] at hname
      cases hname
    · exact hf

theorem makeBody_not_upgraded {f : File} {len : ℕ} (sendfile : Bool) :
    (makeBody env ctx path f start len sendfile).isUpgraded = false := by
  have hstored := @makeBody_stored env ctx path f start len sendfile
  cases hb : makeBody env ctx path f start len sendfile with
  | upgraded pre io =>
    rw [hb] at hstored
    cases hstored
  | _ => rfl

theorem describes_of_none (hm : env.mmap ctx.clock path = none ∨ env.mmap ctx.clock path = some content)
    (hl : content.length < 2 ^ 64) (hlt : start < stop) (hle : stop ≤ content.length)
    (hn : gzipped env ctx (fileReply env ctx core path (File.ofBytes content)
      (rangeHead env ctx core path content mtime start stop) start (stop - start)) = none) (http11 : Bool) :
    Describes env ctx core content mtime ((decorate env ctx (fileReply env ctx core path (File.ofBytes content)
      (rangeHead env ctx core path content mtime start stop) start (stop - start))).frame http11) start stop := by
  rcases @fileReply_cases env ctx core path (rangeHead env ctx core path content mtime start stop) start
    (File.ofBytes content) (stop - start) with ⟨hh,he⟩ | ⟨hh,he⟩
  · rw [he] at hn ⊢
    exact describes_frame hl hlt hle hn rfl rfl rfl (Or.inl rfl) (by rw [if_pos hh]) http11
  · rw [he] at hn ⊢
    apply describes_frame hl hlt hle hn rfl (makeBody_not_upgraded core.sendfile) rfl
    · exact Or.inr ⟨rfl,makeBody_knownLen core.sendfile⟩
    · rw [if_neg hh]
      exact (makeBody_ofBytes hm hlt hle core.sendfile).1

end Replies

/-- A partial reply is exact just when the file has bytes and those of the range are not
compressed. -/
theorem partial_iff (hm : env.mmap ctx.clock path = none ∨ env.mmap ctx.clock path = some content)
    (hl : content.length < 2 ^ 64) {r : Reply}
    (hr : serveFile env ctx core path (File.ofBytes content) content.length mtime = .ok r) (hs : r.resp.status = 206)
    (http11 : Bool) :
    (∃ start stop, Describes env ctx core content mtime ((decorate env ctx r).frame http11) start stop) ↔
      content ≠ [] ∧ ¬ RangeCoded env ctx core path content mtime := by
  obtain ⟨start,stop,ho,rfl⟩ := serveFile_partial hr hs
  obtain ⟨h,hp⟩ := rangeOf_one ho
  obtain ⟨a,b,-,hsides⟩ := readSides_of_one hp
  obtain ⟨hle,hb⟩ := readSides_bounds hsides
  constructor
  · rintro ⟨start',stop',hd⟩
    have hpos : 0 < content.length := Nat.lt_of_lt_of_le (Nat.zero_lt_of_lt hd.nonempty) hd.within
    have hlt : start < stop := by
      rcases hb with hlt | ⟨hz,-⟩
      · exact hlt
      · omega
    refine ⟨List.ne_nil_of_length_pos hpos,?_⟩
    intro hc
    obtain ⟨out,hz⟩ := (gzipped_iff hm ho hlt hle).mpr hc
    have hmem := decorate_encoding hz
    rw [← Reply.frame_hdrs _ http11] at hmem
    obtain ⟨a,ha,hv⟩ := hd.uncoded _ hmem rfl
    have hname : a.name = lit "Content-Encoding" ∧ ctx.render env a.value ≠ [] := by
      unfold added at hv
      split at hv
      · split at hv
        · cases hv
        · rename_i hne
          exact ⟨congrArg Prod.fst (Option.some.inj hv),hne⟩
      · cases hv
    apply hname.2
    apply hc.2.1.unencoded a ha
    rw [hname.1]
    decide +kernel
  · rintro ⟨hne,hc⟩
    have hlt : start < stop := by
      rcases hb with hlt | ⟨hz,-⟩
      · exact hlt
      · exact absurd (List.length_eq_zero_iff.mp hz) hne
    have hnone : gzipped env ctx (fileReply env ctx core path (File.ofBytes content)
        (rangeHead env ctx core path content mtime start stop) start (stop - start)) = none := by
      apply Option.eq_none_iff_forall_ne_some.mpr
      intro out hz
      exact hc ((gzipped_iff hm ho hlt hle).mp ⟨out,hz⟩)
    exact ⟨start,stop,describes_of_none hm hl hlt hle hnone http11⟩

/-- A request for the first bytes of a page, where `gzip` is on or off. -/
def rangedCtx (gzip : Bool) : Ctx :=
  let (buf,req) := Request.Req.fromParts (lit "GET") (lit "/a.html")
    [(lit "Accept-Encoding",lit "gzip"),(lit "Range",lit "bytes=0-19")]
  let core := { defaultCore with defaultType := lit "text/html", gzip := { GzipConf.default with enabled := gzip } }
  Ctx.new buf req [] .bare { ServerConf.bare with core := core } (lit "/a.html") none none (lit "http") 1 1

/-- A file of forty bytes. -/
def twoHellos : Bytes := hello ++ hello

/-- The reply to the request, before it is decorated. -/
def rangedReply (gzip : Bool) : Reply :=
  fileReply packing (rangedCtx gzip) (rangedCtx gzip).matchedCore (lit "/srv/a.html") (.ofBytes twoHellos)
    (rangeHead packing (rangedCtx gzip) (rangedCtx gzip).matchedCore (lit "/srv/a.html") twoHellos 0 0 20) 0 (20 - 0)

theorem rangedReply_facts (gzip : Bool) :
    (rangedCtx gzip).req.method.isSafe = true ∧
      evaluatePreconditions packing (rangedCtx gzip) (rangedCtx gzip).matchedCore (makeEtag 0 twoHellos.length) 0 =
        none ∧
      rangeOf packing (rangedCtx gzip) (rangedCtx gzip).matchedCore (makeEtag 0 twoHellos.length) 0 twoHellos.length =
        .one 0 20 ∧
      (rangedReply gzip).resp.status = 206 ∧
      ((lit "Content-Encoding",lit "gzip") ∈
        ((decorate packing (rangedCtx gzip) (rangedReply gzip)).frame true).resp.hdrs ↔ gzip = true) := by
  revert gzip
  decide +kernel

theorem rangedReply_served (gzip : Bool) :
    serveFile packing (rangedCtx gzip) (rangedCtx gzip).matchedCore (lit "/srv/a.html") (.ofBytes twoHellos)
      twoHellos.length 0 = .ok (rangedReply gzip) := by
  obtain ⟨hsafe,hnone,hrange,-⟩ := rangedReply_facts gzip
  apply serveFile_of_part hsafe
  simp only [part,hnone,hrange]
  rfl

/-- Without `gzip` the twenty bytes are sent as they are. -/
theorem rangedReply_exact :
    (∃ start stop, Describes packing (rangedCtx false) (rangedCtx false).matchedCore twoHellos 0
      ((decorate packing (rangedCtx false) (rangedReply false)).frame true) start stop) ↔
      twoHellos ≠ [] ∧
        ¬ RangeCoded packing (rangedCtx false) (rangedCtx false).matchedCore (lit "/srv/a.html") twoHellos 0 :=
  partial_iff (Or.inl rfl) (by decide) (rangedReply_served false) (rangedReply_facts false).2.2.2.1 true

/-- With `gzip` they are packed under the range of the page as it is. -/
theorem rangedReply_packed :
    ¬ ∃ start stop, Describes packing (rangedCtx true) (rangedCtx true).matchedCore twoHellos 0
      ((decorate packing (rangedCtx true) (rangedReply true)).frame true) start stop := by
  rintro ⟨start,stop,hd⟩
  have hmem := (rangedReply_facts true).2.2.2.2.mpr rfl
  obtain ⟨a,ha,-⟩ := hd.uncoded _ hmem rfl
  cases ha

end OxiServe.Server
