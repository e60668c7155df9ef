import OxiServe.Http.Date
import OxiServe.Http.RequestFraming
import OxiServe.Server.HeadOnly
import OxiServe.Server.RangeExact

/-! # Validators sent back

The tag of a file is made of whole seconds, and so is its date. A request that repeats
what a reply said about an unchanged file is answered as its conditions ask, except that
the full time of the file is compared in one place.
-/
namespace OxiServe.Server
open Config Response Date
open Request (isWs2_digit isWs3_digit trimWith_plain)
variable {env : Env} {ctx : Ctx} {core : CoreConf} {path : Bytes} {file : File} {size : ℕ} {mtime : Int}

/-- The world whose dates are written as the server writes them. -/
def Env.dated (env : Env) : Env := { env with httpDate := Date.httpDate }

theorem Env.dated_httpDate (env : Env) : env.dated.httpDate = Date.httpDate := rfl

theorem Env.dated_parseHttpDate (env : Env) : env.dated.parseHttpDate = env.parseHttpDate := by
  unfold Env.dated
  rfl

/-- What the conditions of a request say is what a reply said. A tag that compression has
weakened since is compared weakly, in `If-None-Match` alone. -/
structure Echoes (ctx : Ctx) (sent : Resp) : Prop where
  ifMatch : ∀ v, ctx.req.hotValue ctx.buf .ifMatch = some v → sent.get (lit "etag") = some v
  ifUnmodifiedSince : ∀ v, ctx.req.hotValue ctx.buf .ifUnmodifiedSince = some v →
    sent.get (lit "last-modified") = some v
  ifNoneMatch : ∀ v, ctx.req.hotValue ctx.buf .ifNoneMatch = some v →
    ∃ e, sent.get (lit "etag") = some e ∧ (v = e ∨ v = lit "W/" ++ e)
  ifModifiedSince : ∀ v, ctx.req.hotValue ctx.buf .ifModifiedSince = some v → sent.get (lit "last-modified") = some v
  ifRange : ∀ v, ctx.req.hotValue ctx.buf .ifRange = some v →
    sent.get (lit "etag") = some v ∨ sent.get (lit "last-modified") = some v

/-- The request is answered as its conditions ask of an unchanged file. -/
structure Unchanged (env : Env) (ctx : Ctx) (core : CoreConf) (size : ℕ) (mtime : Int) (r : Reply) : Prop where
  passes : r.resp.status ≠ 412
  noneMatch : ∀ v, ctx.req.hotValue ctx.buf .ifNoneMatch = some v → r.resp.status = 304
  modifiedSince : ∀ v, ctx.req.hotValue ctx.buf .ifModifiedSince = some v → core.ifModifiedSince ≠ .off →
    r.resp.status = 304
  range : ∀ v, ctx.req.hotValue ctx.buf .rangeH = some v → core.maxRanges ≠ some 0 →
    rangeOf env ctx core (makeEtag mtime size) mtime size = parseRange v size

/-- The full time of the file is compared and is later than the date it was given. -/
def LaterThanSent (ctx : Ctx) (mtime : Int) : Prop :=
  ctx.req.hotValue ctx.buf .ifMatch = none ∧ ctx.req.hotValue ctx.buf .ifUnmodifiedSince ≠ none ∧
    0 < mtime ∧ mtime % 1000000000 ≠ 0

section Tags

theorem toDigits_bytes {n : ℕ} {c : Char} (hc : c ∈ Nat.toDigits 16 n) : ∃ d < 16, c = Nat.digitChar d := by
  induction n using Nat.strongRecOn with
  | ind n ih =>
    rcases Nat.lt_or_ge n 16 with hn | hn
    · rw [Nat.toDigits_of_lt_base hn,List.mem_singleton] at hc
      exact ⟨n,hn,hc⟩
    · rw [Nat.toDigits_of_base_le (by decide) hn,List.mem_append,List.mem_singleton] at hc
      rcases hc with hc | hc
      · exact ih (n / 16) (by omega) hc
      · exact ⟨n % 16,Nat.mod_lt _ (by decide),hc⟩

theorem comma_not_mem_hexDigits (n : ℕ) : 44 ∉ hexDigitsOf n := by
  intro h
  obtain ⟨c,hc,he⟩ := List.mem_map.mp h
  obtain ⟨d,hd,rfl⟩ := toDigits_bytes hc
  have hall : ∀ d < 16, (Nat.digitChar d).val.toUInt8 ≠ 44 := by decide
  exact hall d hd he

theorem comma_not_mem_etag (mtime : Int) (size : ℕ) : 44 ∉ makeEtag mtime size := by
  have hquote : (44 : UInt8) ∉ lit "\"" := by decide
  have hdash : (44 : UInt8) ∉ lit "-" := by decide
  simp only [makeEtag,List.mem_append,comma_not_mem_hexDigits,hquote,hdash,or_self,not_false_eq_true]

/-- A printable character that trimming stops at from either side. -/
def isPlain7 (a : UInt8) : Bool := !isWs1 a && decide (a.toNat < 0x80)

theorem trim_between {a b : UInt8} (ha : isPlain7 a = true) (hb : isPlain7 b = true) {s r t : Bytes}
    (hs : s = a :: r) (ht : s = t ++ [b]) : trim s = s := by
  simp only [isPlain7,Bool.and_eq_true,Bool.not_eq_true',decide_eq_true_eq] at ha hb
  have hstart : trimStart s = s := by
    rw [hs]
    exact trimWith_plain ha.1 (fun _ => (isWs2_digit ha.2).1) (fun _ _ => (isWs3_digit ha.2).1) r
  have hend : trimEnd s = s := by
    rw [trimEnd,ht,List.reverse_append,List.reverse_singleton,List.singleton_append,
      trimWith_plain hb.1 (fun _ => (isWs2_digit hb.2).2) (fun _ _ => (isWs3_digit hb.2).2),List.reverse_cons,
      List.reverse_reverse]
  rw [trim,hstart,hend]

theorem trim_etag (mtime : Int) (size : ℕ) : trim (makeEtag mtime size) = makeEtag mtime size := by
  have hq : isPlain7 34 = true := by decide
  exact trim_between hq hq rfl rfl

theorem trim_weak (mtime : Int) (size : ℕ) :
    trim (lit "W/" ++ makeEtag mtime size) = lit "W/" ++ makeEtag mtime size := by
  have hw : isPlain7 87 = true := by decide
  have hq : isPlain7 34 = true := by decide
  apply @trim_between 87 34 hw hq _ (lit "/" ++ makeEtag mtime size)
    (lit "W/" ++ (lit "\"" ++ hexDigitsOf (truncateSecs mtime) ++ lit "-" ++ hexDigitsOf size)) rfl
  rfl

theorem stripPrefix_etag (mtime : Int) (size : ℕ) : stripPrefix (lit "W/") (makeEtag mtime size) = none := rfl

theorem trimStartMatches_go {p s : Bytes} (fuel : ℕ) (h : stripPrefix p s = none) :
    trimStartMatches.go p fuel s = s := by
  cases fuel with
  | zero => rfl
  | succ fuel => rw [trimStartMatches.go,h]

theorem trimStartMatches_etag (mtime : Int) (size : ℕ) :
    trimStartMatches (lit "W/") (makeEtag mtime size) = makeEtag mtime size :=
  trimStartMatches_go _ (stripPrefix_etag mtime size)

theorem trimStartMatches_weak (mtime : Int) (size : ℕ) :
    trimStartMatches (lit "W/") (lit "W/" ++ makeEtag mtime size) = makeEtag mtime size := by
  have hfirst : trimStartMatches (lit "W/") (lit "W/" ++ makeEtag mtime size) =
      trimStartMatches.go (lit "W/") (1 + (makeEtag mtime size).length) (makeEtag mtime size) := by
    have hlen : (lit "W/" ++ makeEtag mtime size).length = 1 + (makeEtag mtime size).length + 1 := by
      rw [List.length_append,show (lit "W/").length = 2 from rfl]
      omega
    rw [trimStartMatches,hlen,trimStartMatches.go,stripPrefix_eq_some.mpr rfl]
  rw [hfirst]
  exact trimStartMatches_go _ (stripPrefix_etag mtime size)

/-- The tag matches itself, and weakened when weak comparison is allowed. -/
theorem etagListMatches_self (mtime : Int) (size : ℕ) (weak : Bool) :
    etagListMatches (makeEtag mtime size) (makeEtag mtime size) weak = true := by
  rw [etagListMatches,split_eq_singleton.mpr ⟨rfl,comma_not_mem_etag mtime size⟩]
  simp [trim_etag,trimStartMatches_etag]

theorem etagListMatches_weak (mtime : Int) (size : ℕ) :
    etagListMatches (lit "W/" ++ makeEtag mtime size) (makeEtag mtime size) true = true := by
  have hcomma : 44 ∉ lit "W/" ++ makeEtag mtime size := by
    have hmark : (44 : UInt8) ∉ lit "W/" := by decide
    simp only [List.mem_append,hmark,comma_not_mem_etag,or_self,not_false_eq_true]
  rw [etagListMatches,split_eq_singleton.mpr ⟨rfl,hcomma⟩]
  simp [trim_weak,trimStartMatches_weak,trimStartMatches_etag]

end Tags

section Sent

/-- No other tag or date than these is among the fields. -/
def Validated (etag date : Bytes) (hdrs : List (Bytes × Bytes)) : Prop :=
  ∀ f ∈ hdrs, (eqIgnoreAsciiCase f.1 (lit "etag") = true → f.2 = etag) ∧
    (eqIgnoreAsciiCase f.1 (lit "last-modified") = true → f.2 = date)

variable {etag date n v : Bytes} {hdrs hdrs' : List (Bytes × Bytes)}

theorem Validated.append (h : Validated etag date hdrs) (h' : Validated etag date hdrs') :
    Validated etag date (hdrs ++ hdrs') := by
  intro f hf
  rcases List.mem_append.mp hf with hf | hf
  · exact h f hf
  · exact h' f hf

theorem validated_other (hn : eqIgnoreAsciiCase n (lit "etag") = false ∧ eqIgnoreAsciiCase n (lit "last-modified") = false)
    (v : Bytes) : Validated etag date [(n,v)] := by
  intro f hf
  obtain rfl := List.mem_singleton.mp hf
  exact ⟨fun h => Bool.noConfusion (h.symm.trans hn.1),fun h => Bool.noConfusion (h.symm.trans hn.2)⟩

theorem validated_etag (date : Bytes) (sent : Bool) :
    Validated etag date (if sent then [(lit "ETag",etag)] else []) := by
  intro f hf
  split at hf
  · obtain rfl := List.mem_singleton.mp hf
    have hother : eqIgnoreAsciiCase (lit "ETag") (lit "last-modified") = false := rfl
    exact ⟨fun _ => rfl,fun h => Bool.noConfusion (h.symm.trans hother)⟩
  · cases hf

theorem validated_date (etag : Bytes) : Validated etag date [(lit "Last-Modified",date)] := by
  intro f hf
  obtain rfl := List.mem_singleton.mp hf
  have hother : eqIgnoreAsciiCase (lit "Last-Modified") (lit "etag") = false := rfl
  exact ⟨fun h => Bool.noConfusion (h.symm.trans hother),fun _ => rfl⟩

theorem fileHead_validated (env : Env) (ctx : Ctx) (core : CoreConf) (path etag : Bytes) (mtime : Int) :
    Validated etag (env.httpDate mtime) (fileHead env ctx core path etag mtime).hdrs := by
  have htype := @validated_other etag (env.httpDate mtime) (lit "Content-Type") ⟨rfl,rfl⟩
    (contentTypeOf ctx core path)
  have hranges := @validated_other etag (env.httpDate mtime) (lit "Accept-Ranges") ⟨rfl,rfl⟩ (lit "bytes")
  exact ((htype.append (validated_date etag)).append (validated_etag _ core.etag)).append hranges

/-- A reply about the file names no other tag and date than the file's. -/
theorem serveFile_validated {r : Reply} (hr : serveFile env ctx core path file size mtime = .ok r) :
    Validated (makeEtag mtime size) (env.httpDate mtime) r.resp.hdrs := by
  have hhead := fileHead_validated env ctx core path (makeEtag mtime size) mtime
  have hrange : ∀ v, Validated (makeEtag mtime size) (env.httpDate mtime) [(lit "Content-Range",v)] :=
    validated_other ⟨rfl,rfl⟩
  have hreply : ∀ {resp : Resp} {start len : ℕ}, Validated (makeEtag mtime size) (env.httpDate mtime) resp.hdrs →
      Validated (makeEtag mtime size) (env.httpDate mtime) (fileReply env ctx core path file resp start len).resp.hdrs := by
    intro resp start len h
    unfold fileReply
    split
    · exact h
    · exact h
  unfold serveFile at hr
  split at hr
  · cases hr
  · dsimp only at hr
    split at hr
    · cases hr
      unfold shortReply
      split
      · exact (validated_etag _ core.etag).append (validated_date _)
      · exact nofun
    · split at hr
      · cases hr
        exact hreply hhead
      · cases hr
        exact hhead.append (hrange _)
      · cases hr
        exact hreply (hhead.append (hrange _))

theorem Validated.get_etag {r : Resp} (h : Validated etag date r.hdrs) (hg : r.get (lit "etag") = some v) : v = etag := by
  obtain ⟨f,hf,rfl⟩ := Option.map_eq_some_iff.mp hg
  have hname := List.find?_some hf
  exact (h f (List.mem_of_find?_eq_some hf)).1 hname

theorem Validated.get_date {r : Resp} (h : Validated etag date r.hdrs) (hg : r.get (lit "last-modified") = some v) :
    v = date := by
  obtain ⟨f,hf,rfl⟩ := Option.map_eq_some_iff.mp hg
  have hname := List.find?_some hf
  exact (h f (List.mem_of_find?_eq_some hf)).2 hname

end Sent

section Conditions

/-- The conditions repeat the tag and the date of the file. -/
structure Repeats (ctx : Ctx) (etag date : Bytes) : Prop where
  ifMatch : ∀ v, ctx.req.hotValue ctx.buf .ifMatch = some v → v = etag
  ifUnmodifiedSince : ∀ v, ctx.req.hotValue ctx.buf .ifUnmodifiedSince = some v → v = date
  ifNoneMatch : ∀ v, ctx.req.hotValue ctx.buf .ifNoneMatch = some v → v = etag ∨ v = lit "W/" ++ etag
  ifModifiedSince : ∀ v, ctx.req.hotValue ctx.buf .ifModifiedSince = some v → v = date
  ifRange : ∀ v, ctx.req.hotValue ctx.buf .ifRange = some v → v = etag ∨ v = date

theorem Echoes.repeats {etag date : Bytes} {sent : Resp} (he : Echoes ctx sent) (hv : Validated etag date sent.hdrs) :
    Repeats ctx etag date where
  ifMatch v h := hv.get_etag (he.ifMatch v h)
  ifUnmodifiedSince v h := hv.get_date (he.ifUnmodifiedSince v h)
  ifNoneMatch v h := by
    obtain ⟨e,hg,hw⟩ := he.ifNoneMatch v h
    obtain rfl := hv.get_etag hg
    exact hw
  ifModifiedSince v h := hv.get_date (he.ifModifiedSince v h)
  ifRange v h := (he.ifRange v h).imp hv.get_etag hv.get_date

variable {date : Bytes}

theorem truncateSecs_whole (n : ℕ) : truncateSecs ((n : Int) * 1000000000) = n := by
  unfold truncateSecs
  omega

/-- The first condition fails only where the full time is compared. -/
theorem preconditionFailed_iff (hr : Repeats ctx (makeEtag mtime size) date)
    (hp : env.parseHttpDate date = some ((truncateSecs mtime : Int) * 1000000000)) :
    preconditionFailed env ctx (makeEtag mtime size) mtime = true ↔ LaterThanSent ctx mtime := by
  have hlater : (truncateSecs mtime : Int) * 1000000000 < mtime ↔ 0 < mtime ∧ mtime % 1000000000 ≠ 0 := by
    unfold truncateSecs
    omega
  unfold preconditionFailed LaterThanSent
  cases hm : ctx.req.hotValue ctx.buf .ifMatch with
  | some v =>
    obtain rfl := hr.ifMatch v hm
    simp [etagListMatches_self]
  | none =>
    cases hu : ctx.req.hotValue ctx.buf .ifUnmodifiedSince with
    | none => simp
    | some v =>
      obtain rfl := hr.ifUnmodifiedSince v hu
      simp only [Option.bind_some,hp,decide_eq_true_eq,hlater]
      simp

/-- Past the first condition only `304` ends the request. -/
theorem evaluatePreconditions_passes {etag : Bytes} (core : CoreConf)
    (hf : preconditionFailed env ctx etag mtime = false) :
    evaluatePreconditions env ctx core etag mtime = none ∨ evaluatePreconditions env ctx core etag mtime = some 304 := by
  have hite : ∀ p : Prop, ∀ [Decidable p], (if p then some 304 else none) = none ∨ (if p then some 304 else none) = some 304 := by
    intro p _
    split
    · exact Or.inr rfl
    · exact Or.inl rfl
  unfold evaluatePreconditions
  rw [hf,if_neg Bool.false_ne_true]
  split
  · exact hite _
  · split
    · exact Or.inl rfl
    · split
      · exact Or.inl rfl
      · exact hite _

/-- A repeated tag or date means that the file has not changed. -/
theorem notModified (hr : Repeats ctx (makeEtag mtime size) date)
    (hp : env.parseHttpDate date = some ((truncateSecs mtime : Int) * 1000000000))
    (hf : preconditionFailed env ctx (makeEtag mtime size) mtime = false)
    (hc : ctx.req.hotValue ctx.buf .ifNoneMatch ≠ none ∨
      ctx.req.hotValue ctx.buf .ifModifiedSince ≠ none ∧ core.ifModifiedSince ≠ .off) :
    evaluatePreconditions env ctx core (makeEtag mtime size) mtime = some 304 := by
  unfold evaluatePreconditions
  rw [hf,if_neg Bool.false_ne_true]
  cases hn : ctx.req.hotValue ctx.buf .ifNoneMatch with
  | some v =>
    have hmatch : etagListMatches v (makeEtag mtime size) true = true := by
      rcases hr.ifNoneMatch v hn with rfl | rfl
      · exact etagListMatches_self mtime size true
      · exact etagListMatches_weak mtime size
    simp [hmatch]
  | none =>
    obtain ⟨hi,hoff⟩ := hc.resolve_left (fun h => h hn)
    obtain ⟨v,hv⟩ := Option.ne_none_iff_exists'.mp hi
    obtain rfl := hr.ifModifiedSince v hv
    simp [hv,hp,hoff,truncateSecs_whole]

theorem stripPrefix_quote (mtime : Int) (size : ℕ) : (lit "\"").isPrefixOf (makeEtag mtime size) = true := rfl

/-- `If-Range` holds for either validator. -/
theorem ifRangeMatches_of_repeats (hr : Repeats ctx (makeEtag mtime size) date) (ht : trim date = date)
    (hq : (lit "\"").isPrefixOf date = false ∧ (lit "W/").isPrefixOf date = false)
    (hp : env.parseHttpDate date = some ((truncateSecs mtime : Int) * 1000000000)) :
    ifRangeMatches env ctx (makeEtag mtime size) mtime = true := by
  unfold ifRangeMatches
  cases hi : ctx.req.hotValue ctx.buf .ifRange with
  | none => rfl
  | some v =>
    rcases hr.ifRange v hi with rfl | rfl
    · simp [trim_etag,stripPrefix_quote]
    · simp [ht,hq,hp,truncateSecs_whole]

end Conditions

section Dates

/-- A weekday is three letters. -/
theorem dayNames_letters {w : ℕ} (hw : w < 7) :
    ∃ a b r, dayNames.getD w [] = a :: b :: r ∧ isPlain7 a = true ∧ a ≠ 34 ∧ b ≠ 47 := by
  have hcases : w = 0 ∨ w = 1 ∨ w = 2 ∨ w = 3 ∨ w = 4 ∨ w = 5 ∨ w = 6 := by omega
  rcases hcases with rfl | rfl | rfl | rfl | rfl | rfl | rfl
  all_goals exact ⟨_,_,_,rfl,by decide,by decide,by decide⟩

theorem fixdate_ends (w : ℕ) (y : Int) (m d hour minute second : ℕ) :
    (∃ x, fixdate w y m d hour minute second = dayNames.getD w [] ++ x) ∧
      ∃ x, fixdate w y m d hour minute second = x ++ [84] := by
  constructor
  · unfold fixdate
    simp only [List.append_assoc]
    exact ⟨_,rfl⟩
  · have hzone : lit " GMT" = lit " GM" ++ [84] := rfl
    unfold fixdate
    rw [hzone,← List.append_assoc]
    exact ⟨_,rfl⟩

/-- A date starts with a weekday and ends with its zone. -/
theorem httpDate_ends (t : Int) :
    ∃ a b r s, httpDate t = a :: b :: r ∧ httpDate t = s ++ [84] ∧ isPlain7 a = true ∧ a ≠ 34 ∧ b ≠ 47 := by
  obtain ⟨a,b,r,hn,ha,hq,hb⟩ := dayNames_letters (Nat.mod_lt (wholeSecs t / 86400 + 4) (by decide : 7 > 0))
  obtain ⟨⟨x,hx⟩,s,hs⟩ : (∃ x, httpDate t = dayNames.getD ((wholeSecs t / 86400 + 4) % 7) [] ++ x) ∧
      ∃ x, httpDate t = x ++ [84] := fixdate_ends _ _ _ _ _ _ _
  rw [hn] at hx
  exact ⟨a,b,r ++ x,s,hx,hs,ha,hq,hb⟩

theorem trim_httpDate (t : Int) : trim (httpDate t) = httpDate t := by
  obtain ⟨a,b,r,s,hs,he,ha,-,-⟩ := httpDate_ends t
  exact trim_between ha (by decide : isPlain7 84 = true) hs he

theorem httpDate_untagged (t : Int) :
    (lit "\"").isPrefixOf (httpDate t) = false ∧ (lit "W/").isPrefixOf (httpDate t) = false := by
  obtain ⟨a,b,r,s,hs,-,-,hq,hb⟩ := httpDate_ends t
  have hlit : lit "\"" = [34] ∧ lit "W/" = [87,47] := ⟨rfl,rfl⟩
  rw [hs,hlit.1,hlit.2]
  constructor
  · simp [List.isPrefixOf,Ne.symm hq]
  · simp [List.isPrefixOf,Ne.symm hb]

end Dates

section Replies
variable {r : Reply}

theorem serveFile_of_precondition {status : ℕ}
    (he : evaluatePreconditions env ctx core (makeEtag mtime size) mtime = some status)
    (hr : serveFile env ctx core path file size mtime = .ok r) : r.resp.status = status := by
  unfold serveFile at hr
  split at hr
  · cases hr
  · dsimp only at hr
    rw [he] at hr
    cases hr
    rfl

theorem serveFile_short {status : ℕ} (hm : ctx.req.method.isSafe = true)
    (he : evaluatePreconditions env ctx core (makeEtag mtime size) mtime = some status) :
    serveFile env ctx core path file size mtime = .ok (shortReply env core (makeEtag mtime size) mtime status) := by
  unfold serveFile
  simp only [hm,Bool.not_true,Bool.false_and,Bool.false_eq_true,if_false,he]

theorem serveFile_passes (he : evaluatePreconditions env ctx core (makeEtag mtime size) mtime = none)
    (hr : serveFile env ctx core path file size mtime = .ok r) : r.resp.status ≠ 412 := by
  have hreply : ∀ (resp : Resp) (start len : ℕ),
      (fileReply env ctx core path file resp start len).resp.status = resp.status := by
    intro resp start len
    unfold fileReply
    split
    · rfl
    · rfl
  unfold serveFile at hr
  split at hr
  · cases hr
  · dsimp only at hr
    rw [he] at hr
    dsimp only at hr
    split at hr
    · cases hr
      rw [hreply]
      exact show (200 : ℕ) ≠ 412 by decide
    · cases hr
      exact show (416 : ℕ) ≠ 412 by decide
    · cases hr
      rw [hreply]
      exact show (206 : ℕ) ≠ 412 by decide

end Replies

/-- An unchanged file is treated as such just when the full time is not compared or the
file has none beyond the date it was given. -/
theorem unchanged_iff {c : Ctx} {conf : CoreConf} {sent r : Reply}
    (hp : env.parseHttpDate (httpDate mtime) = some ((wholeSecs mtime : Int) * 1000000000))
    (hs : serveFile env.dated c conf path file size mtime = .ok sent) (he : Echoes ctx sent.resp)
    (hr : serveFile env.dated ctx core path file size mtime = .ok r) :
    Unchanged env.dated ctx core size mtime r ↔ ¬ LaterThanSent ctx mtime := by
  have hvalid := serveFile_validated hs
  rw [env.dated_httpDate] at hvalid
  have hrep := he.repeats hvalid
  have hwhole : wholeSecs mtime = truncateSecs mtime := rfl
  rw [hwhole] at hp
  rw [← env.dated_parseHttpDate] at hp
  have hiff : preconditionFailed env.dated ctx (makeEtag mtime size) mtime = true ↔ LaterThanSent ctx mtime :=
    preconditionFailed_iff hrep hp
  constructor
  · intro hu hlater
    have hfail : evaluatePreconditions env.dated ctx core (makeEtag mtime size) mtime = some 412 := by
      rw [evaluatePreconditions,hiff.mpr hlater,if_pos rfl]
    exact hu.passes (serveFile_of_precondition hfail hr)
  · intro hn
    have hpass : preconditionFailed env.dated ctx (makeEtag mtime size) mtime = false :=
      Bool.eq_false_iff.mpr (fun h => hn (hiff.mp h))
    have hnot : ctx.req.hotValue ctx.buf .ifNoneMatch ≠ none ∨
        ctx.req.hotValue ctx.buf .ifModifiedSince ≠ none ∧ core.ifModifiedSince ≠ .off → r.resp.status = 304 :=
      fun hc => serveFile_of_precondition (notModified hrep hp hpass hc) hr
    refine ⟨?_,?_,?_,?_⟩
    · intro h412
      rcases evaluatePreconditions_passes core hpass with h | h
      · exact serveFile_passes h hr h412
      · rw [serveFile_of_precondition h hr] at h412
        cases h412
    · intro v hv
      exact hnot (Or.inl (Option.ne_none_iff_exists'.mpr ⟨v,hv⟩))
    · intro v hv hoff
      exact hnot (Or.inr ⟨Option.ne_none_iff_exists'.mpr ⟨v,hv⟩,hoff⟩)
    · intro v hv hmax
      have hmatch := ifRangeMatches_of_repeats hrep (trim_httpDate mtime) (httpDate_untagged mtime) hp
      simp only [rangeOf,hv,hmatch,Bool.and_true,decide_eq_true_eq]
      rw [if_pos hmax]

section Instances

/-- A world that reads one date. -/
def reading (t : Int) : Env :=
  { Env.idle with
    parseHttpDate := fun s => if s = httpDate t then some ((wholeSecs t : Int) * 1000000000) else none }

/-- A request for a page with these fields. -/
def stampedCtx (fields : List (Bytes × Bytes)) : Ctx :=
  let (buf,req) := Request.Req.fromParts (lit "GET") (lit "/a.html") fields
  Ctx.new buf req [] .bare .bare (lit "/a.html") none none (lit "http") 1 1

def aPath : Bytes := lit "/srv/a.html"

/-- The reply to a request without conditions. -/
def stampedReply (t : Int) : Reply :=
  fileReply (reading t).dated (stampedCtx []) defaultCore aPath (.ofBytes hello)
    (fileHead (reading t).dated (stampedCtx []) defaultCore aPath (makeEtag t 20) t) 0 20

theorem stampedReply_served (t : Int) :
    serveFile (reading t).dated (stampedCtx []) defaultCore aPath (.ofBytes hello) 20 t = .ok (stampedReply t) := by
  have hsafe : (stampedCtx []).req.method.isSafe = true := rfl
  have hhot : ∀ k, (stampedCtx []).req.hotValue (stampedCtx []).buf k = none := by
    intro k
    cases k <;> rfl
  apply serveFile_of_part hsafe
  simp only [part,evaluatePreconditions,preconditionFailed,rangeOf,hhot,Option.bind_none,if_neg Bool.false_ne_true,ite_self]

theorem stampedReply_validators (t : Int) :
    (stampedReply t).resp.get (lit "etag") = some (makeEtag t 20) ∧
      (stampedReply t).resp.get (lit "last-modified") = some (httpDate t) := by
  have hget : (stampedCtx []).req.method ≠ .head := by decide
  have hnames : eqIgnoreAsciiCase (lit "Content-Type") (lit "etag") = false ∧
      eqIgnoreAsciiCase (lit "Last-Modified") (lit "etag") = false ∧ eqIgnoreAsciiCase (lit "ETag") (lit "etag") = true ∧
      eqIgnoreAsciiCase (lit "Content-Type") (lit "last-modified") = false ∧
      eqIgnoreAsciiCase (lit "Last-Modified") (lit "last-modified") = true :=
    ⟨rfl,rfl,rfl,rfl,rfl⟩
  have hetag : defaultCore.etag = true := by decide
  simp [stampedReply,fileReply,if_neg hget,fileHead,Resp.get,Env.dated_httpDate,hnames,hetag]

/-- A file changed half a second past a full one. -/
def halfPast : Int := 784111777500000000

/-- The requests that send its tag back, and its date. -/
def taggedCtx : Ctx := stampedCtx [(lit "If-None-Match",makeEtag halfPast 20)]

def datedCtx : Ctx := stampedCtx [(lit "If-Unmodified-Since",httpDate halfPast)]

theorem taggedCtx_echoes : Echoes taggedCtx (stampedReply halfPast).resp := by
  obtain ⟨he,-⟩ := stampedReply_validators halfPast
  have hhot : taggedCtx.req.hotValue taggedCtx.buf .ifNoneMatch = some (makeEtag halfPast 20) := by decide +kernel
  refine ⟨?_,?_,?_,?_,?_⟩
  · exact nofun
  · exact nofun
  · intro v hv
    rw [hhot] at hv
    cases hv
    exact ⟨_,he,Or.inl rfl⟩
  · exact nofun
  · exact nofun

theorem datedCtx_echoes : Echoes datedCtx (stampedReply halfPast).resp := by
  obtain ⟨-,hd⟩ := stampedReply_validators halfPast
  have hhot : datedCtx.req.hotValue datedCtx.buf .ifUnmodifiedSince = some (httpDate halfPast) := by decide +kernel
  refine ⟨?_,?_,?_,?_,?_⟩
  · exact nofun
  · intro v hv
    rw [hhot] at hv
    cases hv
    exact hd
  · exact nofun
  · exact nofun
  · exact nofun

example : datedCtx.req.hotValue datedCtx.buf .ifNoneMatch = none := by decide +kernel

theorem reading_parses (t : Int) :
    (reading t).parseHttpDate (httpDate t) = some ((wholeSecs t : Int) * 1000000000) := by
  unfold reading
  dsimp only
  rw [if_pos rfl]

theorem taggedCtx_served :
    serveFile (reading halfPast).dated taggedCtx defaultCore aPath (.ofBytes hello) 20 halfPast =
      .ok (shortReply (reading halfPast).dated defaultCore (makeEtag halfPast 20) halfPast 304) :=
  serveFile_short (by decide +kernel) (by decide +kernel)

theorem datedCtx_served :
    serveFile (reading halfPast).dated datedCtx defaultCore aPath (.ofBytes hello) 20 halfPast =
      .ok (shortReply (reading halfPast).dated defaultCore (makeEtag halfPast 20) halfPast 412) :=
  serveFile_short (by decide +kernel) (by decide +kernel)

end Instances

/-- Its tag sent back is known. -/
theorem taggedCtx_unchanged :
    Unchanged (reading halfPast).dated taggedCtx defaultCore 20 halfPast
        (shortReply (reading halfPast).dated defaultCore (makeEtag halfPast 20) halfPast 304) ↔
      ¬ LaterThanSent taggedCtx halfPast :=
  unchanged_iff (reading_parses halfPast) (stampedReply_served halfPast) taggedCtx_echoes taggedCtx_served

/-- Its date sent back is refused as out of date. -/
theorem datedCtx_refused :
    serveFile (reading halfPast).dated (stampedCtx []) defaultCore aPath (.ofBytes hello) 20 halfPast =
        .ok (stampedReply halfPast) ∧
      Echoes datedCtx (stampedReply halfPast).resp ∧
      ∃ r, serveFile (reading halfPast).dated datedCtx defaultCore aPath (.ofBytes hello) 20 halfPast = .ok r ∧
        ¬ Unchanged (reading halfPast).dated datedCtx defaultCore 20 halfPast r := by
  refine ⟨stampedReply_served halfPast,datedCtx_echoes,_,datedCtx_served,?_⟩
  intro hu
  exact hu.passes rfl

end OxiServe.Server
