import OxiServe.Http.RequestFraming
import OxiServe.Lib.Numerals
import OxiServe.Server.ProxyHead

/-! # Configured fields of the head sent upstream

Client fields of a configured name are dropped and `Host` is written only when
it is not configured, but `Content-Length` and `Connection` are written after
everything else whatever is configured.
-/
namespace OxiServe.Server
open Config Response Request

section Values

theorem fieldValues_append (xs ys : List (Bytes × Bytes)) (name : Bytes) :
    fieldValues (xs ++ ys) name = fieldValues xs name ++ fieldValues ys name := by
  simp only [fieldValues,List.filter_append,List.map_append]

theorem fieldValues_eq_nil {fs : List (Bytes × Bytes)} {name : Bytes}
    (h : ∀ f ∈ fs, eqIgnoreAsciiCase f.1 name = false) : fieldValues fs name = [] := by
  unfold fieldValues
  rw [List.map_eq_nil_iff,List.filter_eq_nil_iff]
  intro f hf
  simp [h f hf]

theorem fieldValues_singleton (n v name : Bytes) :
    fieldValues [(n,v)] name = if eqIgnoreAsciiCase n name = true then [v] else [] := by
  by_cases h : eqIgnoreAsciiCase n name = true
  · simp [fieldValues,h]
  · simp [fieldValues,h]

theorem fieldValues_congr {fs : List (Bytes × Bytes)} {n m : Bytes} (h : eqIgnoreAsciiCase n m = true) :
    fieldValues fs n = fieldValues fs m := by
  have hl := eqIgnoreAsciiCase_iff.mp h
  simp only [fieldValues,eqIgnoreAsciiCase,hl]

end Values

section Names

/-- The names the head writes itself: what they are in small letters, and that they differ. -/
structure HopNames : Prop where
  host : lit "host" = toAsciiLowercase (lit "host")
  connection : lit "connection" = toAsciiLowercase (lit "connection")
  length : lit "content-length" = toAsciiLowercase (lit "content-length")
  writtenHost : toAsciiLowercase (lit "Host") = lit "host"
  writtenConnection : toAsciiLowercase (lit "Connection") = lit "connection"
  writtenLength : toAsciiLowercase (lit "Content-Length") = lit "content-length"
  host_ne_connection : lit "host" ≠ lit "connection"
  host_ne_length : lit "host" ≠ lit "content-length"
  connection_ne_length : lit "connection" ≠ lit "content-length"
  hop : hopByHop.contains (lit "connection") = true

theorem hopNames : HopNames := by constructor <;> decide +kernel

theorem host_lower : lit "host" = toAsciiLowercase (lit "host") := hopNames.host

theorem connection_lower : lit "connection" = toAsciiLowercase (lit "connection") := hopNames.connection

theorem contentLength_lower : lit "content-length" = toAsciiLowercase (lit "content-length") := hopNames.length

end Names

section Fields
variable (env : Env) (ctx : Ctx) (conf : ProxyConf)

/-- The values the configuration gives a name; one that renders empty is none. -/
def configuredValues (name : Bytes) : List Bytes :=
  ((conf.setHeaders.filter (fun h => eqIgnoreAsciiCase h.1 name)).map (fun h => ctx.render env h.2)).filter
    (fun v => v ≠ [])

def isConfigured (name : Bytes) : Bool := conf.setHeaders.any (fun h => eqIgnoreAsciiCase h.1 name)

/-- Configured names have their configured values only, and the fields of the hop
occur once at most. -/
structure ConfiguredWin (addr : Bytes) (keep : Bool) : Prop where
  values : ∀ h ∈ conf.setHeaders,
    fieldValues (requestFields env ctx conf addr keep) h.1 = configuredValues env ctx conf h.1
  host : (fieldValues (requestFields env ctx conf addr keep) (lit "host")).length ≤ 1
  connection : (fieldValues (requestFields env ctx conf addr keep) (lit "connection")).length ≤ 1
  length : (fieldValues (requestFields env ctx conf addr keep) (lit "content-length")).length ≤ 1
  body : ∀ v ∈ fieldValues (requestFields env ctx conf addr keep) (lit "content-length"),
    Denotes v ctx.body.length

/-- What is configured leaves the fields that are written regardless alone. -/
structure LeavesTrailers : Prop where
  connection : isConfigured conf (lit "connection") = false
  body : ctx.body ≠ [] → isConfigured conf (lit "content-length") = false
  host : (configuredValues env ctx conf (lit "host")).length ≤ 1
  length : (configuredValues env ctx conf (lit "content-length")).length ≤ 1
  zero : ∀ v ∈ configuredValues env ctx conf (lit "content-length"), Denotes v 0

variable {env ctx conf}

theorem fieldValues_setFields (name : Bytes) :
    fieldValues (setFields env ctx conf) name = configuredValues env ctx conf name := by
  simp only [fieldValues,setFields,configuredValues,List.filter_filter,List.filter_map,List.map_map,
    Function.comp_def]
  congr 2
  funext h
  exact Bool.and_comm _ _

theorem configuredValues_eq_nil {name : Bytes} (h : isConfigured conf name = false) :
    configuredValues env ctx conf name = [] := by
  simp only [isConfigured,List.any_eq_false] at h
  have hn : conf.setHeaders.filter (fun k => eqIgnoreAsciiCase k.1 name) = [] := List.filter_eq_nil_iff.mpr h
  rw [configuredValues,hn]
  rfl

/-- No client field of a configured name, of the host, of the length or of the hop is forwarded. -/
theorem fieldValues_clientFields {name : Bytes}
    (h : isConfigured conf name = true ∨ toAsciiLowercase name = lit "host" ∨
      toAsciiLowercase name = lit "connection" ∨ toAsciiLowercase name = lit "content-length") :
    fieldValues (clientFields ctx conf) name = [] := by
  apply fieldValues_eq_nil
  intro f hf
  have hfwd := (List.mem_filter.mp hf).2
  by_contra hne
  have hl : toAsciiLowercase f.1 = toAsciiLowercase name := eqIgnoreAsciiCase_iff.mp (by simpa using hne)
  simp only [isForwarded,hl,Bool.not_eq_true',Bool.or_eq_false_iff,beq_eq_false_iff_ne] at hfwd
  obtain ⟨⟨⟨⟨⟨hhop,hhost⟩,hlen⟩,-⟩,hover⟩,-⟩ := hfwd
  rcases h with h | h | h | h
  · obtain ⟨k,hk,he⟩ := List.any_eq_true.mp h
    have hm : toAsciiLowercase name ∈ overridden conf :=
      List.mem_map.mpr ⟨k,hk,eqIgnoreAsciiCase_iff.mp he⟩
    rw [List.contains_eq_mem,decide_eq_false_iff_not] at hover
    exact hover hm
  · exact hhost h
  · rw [h,hopNames.hop] at hhop
    cases hhop
  · exact hlen h

theorem fieldValues_requestFields (addr : Bytes) (keep : Bool) (name : Bytes) :
    fieldValues (requestFields env ctx conf addr keep) name =
      configuredValues env ctx conf name ++ fieldValues (hostField conf addr) name ++
        fieldValues (clientFields ctx conf) name ++ fieldValues (lengthField ctx) name ++
          fieldValues (Server.connectionField keep) name := by
  simp only [requestFields,fieldValues_append,fieldValues_setFields]

/-- A field of another name has no value of this one. -/
theorem fieldValues_hostField {name : Bytes} (addr : Bytes) (h : toAsciiLowercase name ≠ lit "host") :
    fieldValues (hostField conf addr) name = [] := by
  unfold hostField
  split
  · rfl
  · rw [fieldValues_singleton,if_neg]
    intro he
    exact h ((eqIgnoreAsciiCase_iff.mp he).symm.trans hopNames.writtenHost)

theorem fieldValues_lengthField {name : Bytes} (h : toAsciiLowercase name ≠ lit "content-length") :
    fieldValues (lengthField ctx) name = [] := by
  unfold lengthField
  split
  · rw [fieldValues_singleton,if_neg]
    intro he
    exact h ((eqIgnoreAsciiCase_iff.mp he).symm.trans hopNames.writtenLength)
  · rfl

theorem fieldValues_connectionField {name : Bytes} (keep : Bool)
    (h : toAsciiLowercase name ≠ lit "connection") : fieldValues (Server.connectionField keep) name = [] := by
  unfold Server.connectionField
  rw [fieldValues_singleton,if_neg]
  intro he
  exact h ((eqIgnoreAsciiCase_iff.mp he).symm.trans hopNames.writtenConnection)

theorem isConfigured_of_mem {h : Bytes × Template} (hm : h ∈ conf.setHeaders) {name : Bytes}
    (hn : toAsciiLowercase h.1 = toAsciiLowercase name) : isConfigured conf name = true :=
  List.any_eq_true.mpr ⟨h,hm,eqIgnoreAsciiCase_iff.mpr hn⟩

theorem hostField_of_configured (addr : Bytes) (h : isConfigured conf (lit "host") = true) :
    hostField conf addr = [] :=
  if_pos h

theorem hostField_of_not_configured (addr : Bytes) (h : isConfigured conf (lit "host") = false) :
    hostField conf addr = [(lit "Host",hostOf addr)] :=
  if_neg (fun hc => Bool.false_ne_true (h.symm.trans hc))

/-- The values of the host, of the connection and of the length in the head. -/
theorem fieldValues_host (addr : Bytes) (keep : Bool) :
    fieldValues (requestFields env ctx conf addr keep) (lit "host") =
      configuredValues env ctx conf (lit "host") ++ fieldValues (hostField conf addr) (lit "host") := by
  rw [fieldValues_requestFields,fieldValues_clientFields (Or.inr (Or.inl host_lower.symm)),
    fieldValues_lengthField (host_lower ▸ hopNames.host_ne_length),
    fieldValues_connectionField keep (host_lower ▸ hopNames.host_ne_connection)]
  simp only [List.append_nil]

theorem fieldValues_connection (addr : Bytes) (keep : Bool) :
    fieldValues (requestFields env ctx conf addr keep) (lit "connection") =
      configuredValues env ctx conf (lit "connection") ++
        fieldValues (Server.connectionField keep) (lit "connection") := by
  rw [fieldValues_requestFields,fieldValues_clientFields (Or.inr (Or.inr (Or.inl connection_lower.symm))),
    fieldValues_lengthField (connection_lower ▸ hopNames.connection_ne_length),
    fieldValues_hostField addr (connection_lower ▸ hopNames.host_ne_connection.symm)]
  simp only [List.append_nil]

theorem fieldValues_length (addr : Bytes) (keep : Bool) :
    fieldValues (requestFields env ctx conf addr keep) (lit "content-length") =
      configuredValues env ctx conf (lit "content-length") ++
        fieldValues (lengthField ctx) (lit "content-length") := by
  rw [fieldValues_requestFields,fieldValues_clientFields (Or.inr (Or.inr (Or.inr contentLength_lower.symm))),
    fieldValues_connectionField keep (contentLength_lower ▸ hopNames.connection_ne_length.symm),
    fieldValues_hostField addr (contentLength_lower ▸ hopNames.host_ne_length.symm)]
  simp only [List.append_nil]

theorem fieldValues_lengthField_self :
    fieldValues (lengthField ctx) (lit "content-length") = if ctx.body ≠ [] then [decimal ctx.body.length] else [] := by
  unfold lengthField
  split
  · rw [fieldValues_singleton,if_pos (eqIgnoreAsciiCase_iff.mpr (hopNames.writtenLength.trans contentLength_lower))]
  · rfl

theorem length_fieldValues_connectionField (keep : Bool) :
    (fieldValues (Server.connectionField keep) (lit "connection")).length = 1 := by
  unfold Server.connectionField
  rw [fieldValues_singleton,if_pos (eqIgnoreAsciiCase_iff.mpr (hopNames.writtenConnection.trans connection_lower))]
  rfl

theorem ConfiguredWin.leavesTrailers {addr : Bytes} {keep : Bool} (h : ConfiguredWin env ctx conf addr keep) :
    LeavesTrailers env ctx conf := by
  have hrest : ∀ name : Bytes, isConfigured conf name = true →
      fieldValues (lengthField ctx) name = [] ∧ fieldValues (Server.connectionField keep) name = [] := by
    intro name hn
    obtain ⟨k,hk,he⟩ := List.any_eq_true.mp hn
    have hv := h.values k hk
    rw [fieldValues_requestFields] at hv
    simp only [List.append_assoc,List.append_right_eq_self,List.append_eq_nil_iff] at hv
    rw [← fieldValues_congr he,← fieldValues_congr he]
    exact hv.2.2
  have hbody : ctx.body ≠ [] → isConfigured conf (lit "content-length") = false := by
    intro hb
    by_contra hc
    have hl := (hrest _ (by simpa using hc)).1
    rw [fieldValues_lengthField_self,if_pos hb] at hl
    cases hl
  refine ⟨?_,hbody,?_,?_,?_⟩
  · by_contra hc
    have hl := congrArg List.length (hrest _ (by simpa using hc)).2
    rw [length_fieldValues_connectionField] at hl
    cases hl
  · have hh := h.host
    rw [fieldValues_host,List.length_append] at hh
    omega
  · have hl := h.length
    rw [fieldValues_length,List.length_append] at hl
    omega
  · intro v hv
    have hd := h.body v (by rw [fieldValues_length]; exact List.mem_append_left _ hv)
    by_cases hb : ctx.body = []
    · rw [hb] at hd
      exact hd
    · rw [configuredValues_eq_nil (hbody hb)] at hv
      cases hv

theorem LeavesTrailers.configuredWin (h : LeavesTrailers env ctx conf) (addr : Bytes) (keep : Bool) :
    ConfiguredWin env ctx conf addr keep := by
  have hlen : fieldValues (requestFields env ctx conf addr keep) (lit "content-length") =
      if ctx.body ≠ [] then [decimal ctx.body.length] else configuredValues env ctx conf (lit "content-length") := by
    rw [fieldValues_length,fieldValues_lengthField_self]
    split
    · rename_i hb
      rw [configuredValues_eq_nil (h.body hb)]
      rfl
    · exact List.append_nil _
  refine ⟨?_,?_,?_,?_,?_⟩
  · intro k hk
    have hcl : isConfigured conf k.1 = true := isConfigured_of_mem hk rfl
    have hconn : toAsciiLowercase k.1 ≠ lit "connection" := by
      intro he
      have hc := isConfigured_of_mem hk (he.trans connection_lower)
      rw [h.connection] at hc
      cases hc
    have hhost : fieldValues (hostField conf addr) k.1 = [] := by
      by_cases he : toAsciiLowercase k.1 = lit "host"
      · rw [hostField_of_configured addr (isConfigured_of_mem hk (he.trans host_lower))]
        rfl
      · exact fieldValues_hostField addr he
    have hl : fieldValues (lengthField ctx) k.1 = [] := by
      by_cases he : toAsciiLowercase k.1 = lit "content-length"
      · have hb : ctx.body = [] := by
          by_contra hb
          have hc := isConfigured_of_mem hk (he.trans contentLength_lower)
          rw [h.body hb] at hc
          cases hc
        rw [lengthField,if_neg (fun hn => hn hb)]
        rfl
      · exact fieldValues_lengthField he
    rw [fieldValues_requestFields,hhost,fieldValues_clientFields (Or.inl hcl),hl,
      fieldValues_connectionField keep hconn]
    simp only [List.append_nil]
  · rw [fieldValues_host]
    by_cases hc : isConfigured conf (lit "host") = true
    · rw [hostField_of_configured addr hc]
      exact (congrArg List.length (List.append_nil _)).trans_le h.host
    · rw [configuredValues_eq_nil (by simpa using hc),List.nil_append,
        hostField_of_not_configured addr (by simpa using hc),fieldValues_singleton]
      split
      · exact Nat.le_refl 1
      · exact Nat.zero_le 1
  · rw [fieldValues_connection,configuredValues_eq_nil h.connection,List.nil_append,
      length_fieldValues_connectionField]
  · rw [hlen]
    split
    · exact Nat.le_refl 1
    · exact h.length
  · rw [hlen]
    intro v hv
    split at hv
    · rw [List.mem_singleton.mp hv]
      exact decimal_denotes _
    · rename_i hb
      rw [Classical.not_not.mp hb]
      exact h.zero v hv

/-- Configured fields win exactly when none of them is the connection, the host is
configured once, and a configured length is the only one and is right. -/
theorem configuredWin_iff (addr : Bytes) (keep : Bool) :
    ConfiguredWin env ctx conf addr keep ↔ LeavesTrailers env ctx conf :=
  ⟨ConfiguredWin.leavesTrailers,fun h => h.configuredWin addr keep⟩

/-- `proxy_set_header Connection "upgrade"`. -/
def setsConnection : ProxyConf := { ProxyConf.default with setHeaders := [(lit "Connection",⟨[.text (lit "upgrade")]⟩)] }

/-- The upstream is told both to upgrade and to close. -/
theorem upgradeConnection_doubled :
    fieldValues (requestFields .idle (getCtx (lit "/ws")) setsConnection (lit "app:80") false) (lit "connection") =
        [lit "upgrade",lit "close"] ∧
      ¬ ConfiguredWin .idle (getCtx (lit "/ws")) setsConnection (lit "app:80") false := by
  have hv : fieldValues (requestFields .idle (getCtx (lit "/ws")) setsConnection (lit "app:80") false)
      (lit "connection") = [lit "upgrade",lit "close"] := by decide +kernel
  refine ⟨hv,?_⟩
  intro h
  have hc := h.connection
  rw [hv] at hc
  exact absurd hc (by decide)

end Fields

end OxiServe.Server
