import OxiServe.Lib.Counting
import OxiServe.Lib.Numerals
import OxiServe.Lib.Delimited
import OxiServe.Server.Ctx
import Mathlib.Data.List.Forall2

/-! # The access log

A log line is the format rendered against the request and its response, written as it is
and ended by a line feed. What a request adds to a log file, and when that is one line for
each entry with no control byte but those of the format.
-/
namespace OxiServe.Server.AccessLog
open Config Response

/-- What the variables of a log line are resolved with. -/
structure LogVars where
  ctx : Ctx
  resp : Resp
  status : ℕ
  bodyBytes : ℕ
  totalBytes : ℕ

def LogVars.var (env : Env) (self : LogVars) (v : Var) : Bytes :=
  match v with
  | .status => decimal self.status
  | .bodyBytesSent => decimal self.bodyBytes
  | .bytesSent => decimal self.totalBytes
  | .sentHttp name => (self.resp.get name).getD []
  | v => self.ctx.var env v

/-- An open log file. Its bytes are all that was written by way of it, under whatever name
the file has by now; an unbuffered one holds none back. -/
structure Sink where
  file : Bytes
  buf : Bytes
  cap : ℕ
  unbuffered : cap = 0 → buf = []

namespace Sink

def flush (self : Sink) : Sink := { self with file := self.file ++ self.buf, buf := [], unbuffered := fun _ => rfl }

def writeLine (self : Sink) (line : Bytes) : Sink :=
  if h : self.cap = 0 then { self with file := self.file ++ (line ++ [10]) }
  else
    let s : Sink := { self with buf := self.buf ++ line ++ [10], unbuffered := fun h0 => absurd h0 h }
    if s.cap ≤ s.buf.length then s.flush else s

/-- Written, or to be written. -/
def content (self : Sink) : Bytes := self.file ++ self.buf

end Sink

/-- The log files of a worker, and whether they are to be opened again. -/
structure Logs where
  access : Bytes → Option Sink
  reopenAsked : Bool

namespace Logs

/-- What is buffered goes to the file that is open, before it is opened again by name. -/
def reopenIfAsked (self : Logs) : Logs :=
  if self.reopenAsked then ⟨fun p => (self.access p).map Sink.flush,false⟩ else self

def writeAccess (self : Logs) (conf : AccessLogConf) (line : Bytes) : Logs :=
  let l := self.reopenIfAsked
  match conf.sink with
  | .file path => { l with access := fun p => if p = path then (l.access p).map (fun s => s.writeLine line) else l.access p }
  | .oxiDb _ _ => l

/-- What was logged to a file, when it is open. -/
def content (self : Logs) (path : Bytes) : Option Bytes := (self.access path).map Sink.content

end Logs

/-- A record for a collector is not a line of a file. -/
def logEntry (env : Env) (vars : LogVars) (logs : Logs) (c : AccessLogConf) : Logs :=
  match c.sink with
  | .file _ => logs.writeAccess c (c.format.render (vars.var env))
  | .oxiDb _ _ => logs

def logRequest (env : Env) (logs : Logs) (ctx : Ctx) (resp : Resp) (status bodyBytes totalBytes : ℕ) : Logs :=
  ctx.server.accessLogs.foldl (logEntry env ⟨ctx,resp,status,bodyBytes,totalBytes⟩) logs

section Contents
variable {env : Env} {vars : LogVars} {logs : Logs} {c : AccessLogConf} {p : Bytes}

theorem content_flush (s : Sink) : s.flush.content = s.content := by
  unfold Sink.flush Sink.content
  rw [List.append_nil]

theorem content_writeLine (s : Sink) (line : Bytes) : (s.writeLine line).content = s.content ++ (line ++ [10]) := by
  unfold Sink.writeLine
  split
  · rename_i h
    unfold Sink.content
    dsimp only
    rw [s.unbuffered h,List.append_nil,List.append_nil]
  · dsimp only
    split
    · rw [content_flush]
      unfold Sink.content
      simp only [List.append_assoc]
    · unfold Sink.content
      simp only [List.append_assoc]

theorem content_reopenIfAsked (logs : Logs) (p : Bytes) : logs.reopenIfAsked.content p = logs.content p := by
  unfold Logs.reopenIfAsked
  split
  · unfold Logs.content
    rw [Option.map_map]
    exact congrArg (fun f => Option.map f (logs.access p)) (funext content_flush)
  · rfl

/-- Where an entry writes to. -/
def logsTo (p : Bytes) (c : AccessLogConf) : Bool := c.sink == .file p

theorem content_logEntry : (logEntry env vars logs c).content p =
    if logsTo p c then (logs.content p).map (fun b => b ++ (c.format.render (vars.var env) ++ [10])) else logs.content p := by
  unfold logEntry logsTo
  cases hs : c.sink with
  | oxiDb addr db => rfl
  | file path =>
    dsimp only
    unfold Logs.writeAccess
    rw [hs]
    dsimp only
    unfold Logs.content
    dsimp only
    by_cases hp : p = path
    · subst hp
      rw [if_pos rfl,if_pos (beq_self_eq_true _),Option.map_map]
      have hr := content_reopenIfAsked logs p
      unfold Logs.content at hr
      rw [← hr,Option.map_map]
      exact congrArg (fun f => Option.map f _) (funext (fun s => content_writeLine s _))
    · rw [if_neg hp,if_neg]
      · exact content_reopenIfAsked logs p
      · intro he
        exact hp (LogSink.file.inj (beq_iff_eq.mp he)).symm

/-- What a request adds to a file. -/
theorem content_foldl (cs : List AccessLogConf) : (cs.foldl (logEntry env vars) logs).content p =
    (logs.content p).map (fun b => b ++
      ((cs.filter (logsTo p)).map (fun c => c.format.render (vars.var env))).flatMap (fun l => l ++ [10])) := by
  induction cs generalizing logs with
  | nil => simp only [List.foldl_nil,List.filter_nil,List.map_nil,List.flatMap_nil,List.append_nil,Option.map_id']
  | cons c cs ih =>
    rw [List.foldl_cons,ih,content_logEntry]
    by_cases hc : logsTo p c = true
    · rw [if_pos hc,List.filter_cons_of_pos hc,List.map_cons,List.flatMap_cons,Option.map_map]
      refine congrArg (fun f => Option.map f _) (funext (fun b => ?_))
      rw [Function.comp_apply,List.append_assoc]
    · rw [if_neg hc,List.filter_cons_of_neg hc]

end Contents

/-- Below the space, or the last of ASCII. -/
def isControl (c : UInt8) : Bool := c < 32 || c = 127

/-- The control bytes of the text of a format. -/
def controls (t : Template) : Bytes :=
  t.segs.flatMap (fun s => match s with
    | .text s => s.filter isControl
    | .var _ => [])

def varsOf (t : Template) : List Var :=
  t.segs.filterMap (fun s => match s with
    | .text _ => none
    | .var v => some v)

/-- One line for each format, with no control byte but the format's own. -/
def Gains (formats : List Template) (old new : Bytes) : Prop :=
  ∃ lines : List Bytes, new = old ++ lines.flatMap (fun l => l ++ [10]) ∧
    List.Forall₂ (fun l t => 10 ∉ l ∧ l.filter isControl = controls t) lines formats

/-- Every file entry in effect gains its line. -/
def Intact (confs : List AccessLogConf) (before after : Logs) : Prop :=
  ∀ p, confs.filter (logsTo p) ≠ [] → ∃ old new, before.content p = some old ∧ after.content p = some new ∧
    Gains ((confs.filter (logsTo p)).map AccessLogConf.format) old new

/-- Variables that are made of digits, or of text that is the server's own. -/
def isCount : Var → Bool
  | .status | .bodyBytesSent | .bytesSent | .serverPort | .remotePort | .requestLength | .requestTime | .msec
  | .connection | .connectionRequests | .pid | .upstreamStatus | .upstreamResponseTime | .upstreamConnectTime
  | .isArgs | .serverProtocol | .https => true
  | _ => false

/-- The file is open, and no variable of the format has a value with a control byte. -/
def Harmless (env : Env) (vars : LogVars) (logs : Logs) (c : AccessLogConf) : Prop :=
  ∀ p, c.sink = .file p → (logs.content p).isSome = true ∧
    ∀ v ∈ varsOf c.format, isCount v = false → ∀ b ∈ vars.var env v, isControl b = false

section Integrity
variable {env : Env} {vars : LogVars} {logs : Logs} {t : Template} {p : Bytes}

theorem isControl_of_isAsciiDigit {c : UInt8} (h : isAsciiDigit c = true) : isControl c = false := by
  simp only [isAsciiDigit,Bool.and_eq_true,decide_eq_true_eq,UInt8.le_iff_toNat_le] at h
  simp only [isControl,Bool.or_eq_false_iff,decide_eq_false_iff_not,UInt8.lt_iff_toNat_lt,← UInt8.toNat_inj]
  have h32 : (32 : UInt8).toNat = 32 := rfl
  have h48 : (48 : UInt8).toNat = 48 := rfl
  have h57 : (57 : UInt8).toNat = 57 := rfl
  have h127 : (127 : UInt8).toNat = 127 := rfl
  omega

theorem decimal_harmless (n : ℕ) : ∀ b ∈ decimal n, isControl b = false := by
  intro b hb
  have hd := (decimal_denotes n).1
  simp only [isDecimal,Bool.and_eq_true,List.all_eq_true] at hd
  exact isControl_of_isAsciiDigit (hd.2 b hb)

theorem lit_harmless {s : Bytes} (h : s.all (fun b => !isControl b) = true) : ∀ b ∈ s, isControl b = false := by
  intro b hb
  have hall := List.all_eq_true.mp h b hb
  rw [Bool.not_eq_true'] at hall
  exact hall

theorem ite_harmless {P : Prop} [Decidable P] {s u : Bytes} (hs : ∀ b ∈ s, isControl b = false)
    (hu : ∀ b ∈ u, isControl b = false) : ∀ b ∈ (if P then s else u), isControl b = false := by
  split
  · exact hs
  · exact hu

theorem nil_harmless : ∀ b ∈ ([] : Bytes), isControl b = false := fun _ hb => nomatch hb

theorem pushSecs_harmless (ms : ℕ) : ∀ b ∈ pushSecs ms, isControl b = false := by
  unfold pushSecs
  have hzero : ∀ b ∈ lit "0", isControl b = false := lit_harmless (by decide)
  refine List.forall_mem_append.mpr ⟨List.forall_mem_append.mpr ⟨List.forall_mem_append.mpr
    ⟨List.forall_mem_append.mpr ⟨decimal_harmless _,lit_harmless (by decide)⟩,?_⟩,?_⟩,decimal_harmless _⟩
  · exact ite_harmless hzero nil_harmless
  · exact ite_harmless hzero nil_harmless

/-- What is counted, timed or named by the server itself holds no control byte. -/
theorem count_harmless {v : Var} (h : isCount v = true) : ∀ b ∈ vars.var env v, isControl b = false := by
  cases v with
  | status => exact decimal_harmless _
  | bodyBytesSent => exact decimal_harmless _
  | bytesSent => exact decimal_harmless _
  | serverPort => exact decimal_harmless _
  | remotePort => exact decimal_harmless _
  | requestLength => exact decimal_harmless _
  | requestTime => exact pushSecs_harmless _
  | msec => exact pushSecs_harmless _
  | connection => exact decimal_harmless _
  | connectionRequests => exact decimal_harmless _
  | pid => exact decimal_harmless _
  | upstreamStatus => exact ite_harmless (decimal_harmless _) nil_harmless
  | upstreamResponseTime => exact ite_harmless (pushSecs_harmless _) nil_harmless
  | upstreamConnectTime => exact ite_harmless (pushSecs_harmless _) nil_harmless
  | isArgs => exact ite_harmless (lit_harmless (by decide)) nil_harmless
  | serverProtocol => exact ite_harmless (lit_harmless (by decide)) (lit_harmless (by decide))
  | https => exact ite_harmless (lit_harmless (by decide)) nil_harmless
  | _ => cases h

/-- The control bytes of a line are those of its format exactly when no variable brings one. -/
theorem controls_render (t : Template) (src : Var → Bytes) :
    (t.render src).filter isControl = controls t ↔ ∀ v ∈ varsOf t, ∀ b ∈ src v, isControl b = false := by
  have hrender : (t.render src).filter isControl = t.segs.flatMap (fun s => (match s with
      | .text s => s
      | .var v => src v).filter isControl) := by
    unfold Template.render
    refine List.filter_flatMap.trans (List.flatMap_congr (fun s _ => ?_))
    cases s with
    | text s => rfl
    | var v => rfl
  have hle : ∀ s : Seg, (match s with
      | .text s => s.filter isControl
      | .var _ => []).length ≤ ((match s with
      | .text s => s
      | .var v => src v).filter isControl).length := by
    intro s
    cases s with
    | text s => exact Nat.le_refl _
    | var v => exact Nat.zero_le _
  rw [hrender]
  constructor
  · intro he v hv b hb
    obtain ⟨s,hs,hsv⟩ := List.mem_filterMap.mp hv
    have hlen := (length_eq_of_flatMap hle t.segs).2 (congrArg List.length he) s hs
    cases s with
    | text s => cases hsv
    | var w =>
      cases hsv
      have hnil := List.length_eq_zero_iff.mp hlen
      exact Bool.eq_false_iff.mpr (List.filter_eq_nil_iff.mp hnil b hb)
  · intro hv
    refine List.flatMap_congr (fun s hs => ?_)
    cases s with
    | text s => rfl
    | var v =>
      have hmem : v ∈ varsOf t := List.mem_filterMap.mpr ⟨.var v,hs,rfl⟩
      exact List.filter_eq_nil_iff.mpr (fun b hb => Bool.eq_false_iff.mp (hv v hmem b hb))

theorem newline_of_controls {l : Bytes} (h : l.filter isControl = controls t) (ht : 10 ∉ controls t) : 10 ∉ l := by
  intro hm
  rw [← h] at ht
  exact ht (List.mem_filter.mpr ⟨hm,by decide⟩)

/-- Rendered lines are what is gained exactly when each has the controls of its format. -/
theorem gains_iff (src : Var → Bytes) {formats : List Template} (old : Bytes) (hf : ∀ t ∈ formats, 10 ∉ controls t) :
    Gains formats old (old ++ (formats.map (fun t => t.render src)).flatMap (fun l => l ++ [10])) ↔
      ∀ t ∈ formats, (t.render src).filter isControl = controls t := by
  constructor
  · rintro ⟨lines,he,hall⟩
    have hlines : ∀ l ∈ lines, 10 ∉ l := by
      intro l hl
      obtain ⟨i,hi,rfl⟩ := List.mem_iff_getElem.mp hl
      have hi' : i < formats.length := hall.length_eq ▸ hi
      exact (List.forall₂_iff_get.mp hall).2 i hi hi' |>.1
    have hmap := Delimited.lines_unique hlines (by rw [List.length_map,hall.length_eq]) (List.append_cancel_left he)
    rw [← hmap] at hall
    intro t ht
    obtain ⟨i,hi,rfl⟩ := List.mem_iff_getElem.mp ht
    have h2 := ((List.forall₂_iff_get.mp hall).2 i (by rw [List.length_map]; exact hi) hi).2
    rw [List.get_eq_getElem,List.getElem_map] at h2
    exact h2
  · intro hall
    refine ⟨_,rfl,?_⟩
    rw [List.forall₂_map_left_iff,List.forall₂_same]
    exact fun t ht => ⟨newline_of_controls (hall t ht) (hf t ht),hall t ht⟩

/-- Whatever the request and the formats, if these have no line feed of their own: every
file entry in effect gains exactly one line, without a control byte that is not its
format's, exactly when its file is open and its variables bring none. -/
theorem intact_iff_harmless (env : Env) (logs : Logs) (ctx : Ctx) (resp : Resp) (status bodyBytes totalBytes : ℕ)
    (hf : ∀ c ∈ ctx.server.accessLogs, 10 ∉ controls c.format) :
    Intact ctx.server.accessLogs logs (logRequest env logs ctx resp status bodyBytes totalBytes) ↔
      ∀ c ∈ ctx.server.accessLogs, Harmless env ⟨ctx,resp,status,bodyBytes,totalBytes⟩ logs c := by
  have hvars (c : AccessLogConf) : (c.format.render (LogVars.var env ⟨ctx,resp,status,bodyBytes,totalBytes⟩)).filter isControl =
      controls c.format ↔ ∀ v ∈ varsOf c.format, isCount v = false →
        ∀ b ∈ LogVars.var env ⟨ctx,resp,status,bodyBytes,totalBytes⟩ v, isControl b = false := by
    rw [controls_render]
    refine forall_congr' (fun v => forall_congr' (fun _ => ?_))
    cases hv : isCount v with
    | true => exact ⟨(fun _ he => nomatch he),fun _ => count_harmless hv⟩
    | false => exact ⟨fun h _ => h,fun h => h rfl⟩
  have hgains (p old : Bytes) : Gains ((ctx.server.accessLogs.filter (logsTo p)).map AccessLogConf.format) old
      (old ++ ((ctx.server.accessLogs.filter (logsTo p)).map
        (fun c => c.format.render (LogVars.var env ⟨ctx,resp,status,bodyBytes,totalBytes⟩))).flatMap (fun l => l ++ [10])) ↔
        ∀ c ∈ ctx.server.accessLogs.filter (logsTo p),
          (c.format.render (LogVars.var env ⟨ctx,resp,status,bodyBytes,totalBytes⟩)).filter isControl = controls c.format := by
    have hformats : ∀ t ∈ (ctx.server.accessLogs.filter (logsTo p)).map AccessLogConf.format, 10 ∉ controls t := by
      intro t ht
      obtain ⟨c,hc,rfl⟩ := List.mem_map.mp ht
      exact hf c (List.mem_of_mem_filter hc)
    have hg := gains_iff (LogVars.var env ⟨ctx,resp,status,bodyBytes,totalBytes⟩) old hformats
    rw [List.map_map,List.forall_mem_map] at hg
    exact hg
  unfold Intact logRequest
  constructor
  · intro h c hc p hp
    have hmem : c ∈ ctx.server.accessLogs.filter (logsTo p) :=
      List.mem_filter.mpr ⟨hc,by rw [logsTo,hp]; exact beq_self_eq_true _⟩
    obtain ⟨old,new,hold,hnew,hg⟩ := h p (List.ne_nil_of_mem hmem)
    rw [content_foldl,hold] at hnew
    cases hnew
    exact ⟨by rw [hold]; rfl,(hvars c).mp ((hgains p old).mp hg c hmem)⟩
  · intro h p hp
    obtain ⟨c,hc⟩ := List.exists_mem_of_ne_nil _ hp
    have hto {c : AccessLogConf} (hc : c ∈ ctx.server.accessLogs.filter (logsTo p)) : c.sink = .file p :=
      beq_iff_eq.mp (List.mem_filter.mp hc).2
    obtain ⟨old,hold⟩ := Option.isSome_iff_exists.mp (h c (List.mem_of_mem_filter hc) p (hto hc)).1
    refine ⟨old,_,hold,by rw [content_foldl,hold]; rfl,(hgains p old).mpr (fun c hc => ?_)⟩
    exact (hvars c).mpr (h c (List.mem_of_mem_filter hc) p (hto hc)).2

/-- A log of nothing but `$uri`. -/
def uriLog : AccessLogConf := ⟨.file [97],⟨[.var .uri]⟩,0,none⟩

def uriLogged (uri : Bytes) : Ctx := { getCtx uri with server := { ServerConf.bare with accessLogs := [uriLog] } }

def emptyLogs : Logs := ⟨fun _ => some ⟨[],[],0,fun _ => rfl⟩,false⟩

theorem intact_plain_uri : Intact [uriLog] emptyLogs (logRequest .idle emptyLogs (uriLogged [47,97]) .new 200 0 0) := by
  have hf : ∀ c ∈ (uriLogged [47,97]).server.accessLogs, 10 ∉ controls c.format := by
    intro c hc
    cases List.mem_singleton.mp hc
    decide
  refine (intact_iff_harmless .idle emptyLogs (uriLogged [47,97]) .new 200 0 0 hf).mpr (fun c hc p _ => ⟨rfl,fun v hv _ => ?_⟩)
  cases List.mem_singleton.mp hc
  cases List.mem_singleton.mp hv
  exact lit_harmless (by decide)

/-- `GET /%0A` writes an empty second line. -/
theorem uri_splits_line : ¬ ∀ raw uri, Uri.normalize raw = .ok uri →
    Intact [uriLog] emptyLogs (logRequest .idle emptyLogs (uriLogged uri) .new 200 0 0) := by
  intro hall
  have h := hall [47,37,48,65] [47,10] (by decide)
  obtain ⟨old,new,hold,hnew,lines,he,hlines⟩ := h [97] (by decide)
  cases hold
  have hnew' : some [47,10,10] = some new := hnew
  cases hnew'
  cases hlines with
  | cons hl hrest =>
    cases hrest with
    | nil =>
      rename_i l
      have hcat : [47,10] ++ [10] = [] ++ ([l].flatMap (fun l => l ++ [10])) := he
      rw [List.nil_append,List.flatMap_singleton] at hcat
      rw [← List.append_cancel_right hcat] at hl
      exact hl.1 (by decide)

end Integrity

end OxiServe.Server.AccessLog
