import OxiServe.Server.Preread

/-! # Well-formed ClientHello messages

A message with at most one extension of each type, and what is read off it: the host
name and the protocols it carries, whatever stands around them.
-/
namespace OxiServe.Server
open Cursor

section Grammar

/-- A list of names by type, a list of protocols, or any other extension. -/
inductive Extension
  | serverName (entries : List (UInt8 × Bytes))
  | alpn (names : List Bytes)
  | other (ty : ℕ) (data : Bytes)

namespace Extension

def ty : Extension → ℕ
  | .serverName _ => Preread.extServerName
  | .alpn _ => Preread.extAlpn
  | .other ty _ => ty

def entry (e : UInt8 × Bytes) : Bytes := e.1 :: vector 2 e.2

def data : Extension → Bytes
  | .serverName entries => vector 2 (entries.flatMap entry)
  | .alpn names => vector 2 (names.flatMap (vector 1))
  | .other _ data => data

def bytes (e : Extension) : Bytes := toBe 2 e.ty ++ vector 2 e.data

/-- One name of each type at most, the host name a text; the protocols texts that are
not empty. -/
def WellFormed : Extension → Prop
  | .serverName entries => (entries.map Prod.fst).Nodup ∧ (∀ e ∈ entries, e.2.length < 2 ^ 16) ∧
      ∀ e ∈ entries, e.1 = 0 → utf8Valid e.2 = true ∧ e.2 ≠ []
  | .alpn names => ∀ n ∈ names, n ≠ [] ∧ utf8Valid n = true ∧ n.length < 2 ^ 8
  | .other ty _ => ty < 2 ^ 16 ∧ ty ≠ Preread.extServerName ∧ ty ≠ Preread.extAlpn

instance : DecidablePred WellFormed
  | .serverName entries => inferInstanceAs (Decidable ((entries.map Prod.fst).Nodup ∧ _ ∧ _))
  | .alpn names => inferInstanceAs (Decidable (∀ n ∈ names, _))
  | .other ty _ => inferInstanceAs (Decidable (ty < 2 ^ 16 ∧ _ ∧ _))

/-- The host name it carries. -/
def host : Extension → Option Bytes
  | .serverName entries => entries.lookup 0
  | _ => none

def protocols : Extension → Option (List Bytes)
  | .alpn names => some names
  | _ => none

end Extension

structure ClientHello where
  legacy : ℕ
  random : Bytes
  sessionId : Bytes
  suites : Bytes
  compression : Bytes
  extensions : Option (List Extension)
  legacy_lt : legacy < 2 ^ 16
  random_length : random.length = 32
  sessionId_lt : sessionId.length < 2 ^ 8
  suites_even : suites.length % 2 = 0
  suites_lt : suites.length < 2 ^ 16
  compression_lt : compression.length < 2 ^ 8
  wellFormed : ∀ e ∈ extensions.getD [], e.WellFormed ∧ e.data.length < 2 ^ 16
  distinct : ((extensions.getD []).map Extension.ty).Nodup
  extensions_lt : ((extensions.getD []).flatMap Extension.bytes).length < 2 ^ 16

namespace ClientHello
variable (h : ClientHello)

def block : Bytes :=
  match h.extensions with
  | none => []
  | some es => vector 2 (es.flatMap Extension.bytes)

def body : Bytes :=
  toBe 2 h.legacy ++ (h.random ++ (vector 1 h.sessionId ++ (vector 2 h.suites ++ (vector 1 h.compression ++ h.block))))

def message : Bytes := Preread.msgClientHello :: vector 3 h.body

/-- Empty when the client names no host. -/
def serverName : Bytes := ((h.extensions.getD []).findSome? Extension.host).getD []

def alpn : List Bytes := ((h.extensions.getD []).findSome? Extension.protocols).getD []

theorem length_body_lt : h.body.length < 2 ^ 24 := by
  have hb : h.block.length < 2 ^ 16 + 2 := by
    have he := h.extensions_lt
    unfold block
    cases hx : h.extensions with
    | none => exact Nat.zero_lt_succ _
    | some es =>
      rw [hx] at he
      simp only [length_vector]
      simp only [Option.getD_some] at he
      omega
  have h1 := h.random_length
  have h2 := h.sessionId_lt
  have h3 := h.suites_lt
  have h4 := h.compression_lt
  simp only [body,List.length_append,length_toBe,length_vector]
  omega

end ClientHello

end Grammar

namespace Preread
variable {fuel : ℕ} {out : Hello}

section Lists

theorem hostName_entries {es : List (UInt8 × Bytes)} (hlt : ∀ e ∈ es, e.2.length < 2 ^ 16)
    (ht : ∀ e ∈ es, e.1 = 0 → utf8Valid e.2 = true ∧ e.2 ≠ []) (hf : es.length < fuel) :
    hostName fuel (es.flatMap Extension.entry) = es.lookup 0 := by
  induction es generalizing fuel with
  | nil =>
    cases fuel with
    | zero => rfl
    | succ fuel => rfl
  | cons e es ih =>
    obtain ⟨ty,name⟩ := e
    cases fuel with
    | zero => exact absurd hf (Nat.not_lt_zero _)
    | succ fuel =>
      have hname : name.length < 2 ^ 16 := hlt (ty,name) List.mem_cons_self
      have hc : ((ty,name) :: es).flatMap Extension.entry = ty :: (vector 2 name ++ es.flatMap Extension.entry) := rfl
      rw [hc,hostName,if_neg (List.cons_ne_nil _ _)]
      simp only [u8_cons,Option.bind_eq_bind,Option.bind_some,take_u16_vector hname,take_append]
      by_cases h0 : ty = 0
      · subst h0
        obtain ⟨hu,hn⟩ := ht (0,name) List.mem_cons_self rfl
        simp [hu,hn,List.lookup_cons]
      · have hne : ((0 : UInt8) == ty) = false := by simpa using fun h => h0 h.symm
        rw [if_neg h0,List.lookup_cons,hne]
        exact ih (fun e he => hlt e (List.mem_cons_of_mem _ he)) (fun e he => ht e (List.mem_cons_of_mem _ he))
          (Nat.lt_of_succ_lt_succ hf)

theorem protocolNames_all {names : List Bytes}
    (hn : ∀ n ∈ names, n ≠ [] ∧ utf8Valid n = true ∧ n.length < 2 ^ 8) (hf : names.length < fuel) :
    protocolNames fuel (names.flatMap (vector 1)) = some names := by
  induction names generalizing fuel with
  | nil =>
    cases fuel with
    | zero => exact absurd hf (Nat.not_lt_zero _)
    | succ fuel => rfl
  | cons n names ih =>
    cases fuel with
    | zero => exact absurd hf (Nat.not_lt_zero _)
    | succ fuel =>
      obtain ⟨hne,hu,hlt⟩ := hn n List.mem_cons_self
      obtain ⟨a,ha,hl⟩ := take_u8_vector hlt (names.flatMap (vector 1))
      have hc : (n :: names).flatMap (vector 1) = vector 1 n ++ names.flatMap (vector 1) := rfl
      have hnil : vector 1 n ++ names.flatMap (vector 1) ≠ [] := by simp [vector,toBe]
      rw [hc,protocolNames,if_neg hnil]
      simp only [ha,hl,Option.bind_eq_bind,Option.bind_some,take_append,
        ih (fun m hm => hn m (List.mem_cons_of_mem _ hm)) (Nat.lt_of_succ_lt_succ hf)]
      simp [hne,hu]

theorem length_le_flatMap {α : Type*} {f : α → Bytes} (hf : ∀ a, 0 < (f a).length) (l : List α) :
    l.length ≤ (l.flatMap f).length := by
  induction l with
  | nil => exact Nat.le_refl _
  | cons a l ih =>
    have ha := hf a
    rw [List.flatMap_cons,List.length_append,List.length_cons]
    omega

theorem length_entry_pos (e : UInt8 × Bytes) : 0 < (Extension.entry e).length := by
  rw [Extension.entry,List.length_cons]
  omega

theorem serverName_data {es : List (UInt8 × Bytes)} (h : (Extension.serverName es).WellFormed)
    (hl : (Extension.serverName es).data.length < 2 ^ 16) : serverName (Extension.serverName es).data = es.lookup 0 := by
  obtain ⟨-,hlt,ht⟩ := h
  have hlist : (es.flatMap Extension.entry).length < 2 ^ 16 := by
    simp only [Extension.data,length_vector] at hl
    omega
  have hr := take_u16_vector hlist []
  have ht' := take_append (es.flatMap Extension.entry) []
  rw [List.append_nil] at hr
  rw [List.append_nil] at hr ht'
  simp only [serverName,Extension.data,hr,Option.bind_eq_bind,Option.bind_some,ht']
  exact hostName_entries hlt ht (Nat.lt_succ_of_le (length_le_flatMap length_entry_pos es))

theorem alpn_data {names : List Bytes} (h : (Extension.alpn names).WellFormed)
    (hl : (Extension.alpn names).data.length < 2 ^ 16) : alpn (Extension.alpn names).data = some names := by
  have hlist : (names.flatMap (vector 1)).length < 2 ^ 16 := by
    simp only [Extension.data,length_vector] at hl
    omega
  have hr := take_u16_vector hlist []
  have ht' := take_append (names.flatMap (vector 1)) []
  rw [List.append_nil] at hr
  rw [List.append_nil] at hr ht'
  simp only [alpn,Extension.data,hr,Option.bind_eq_bind,Option.bind_some,ht']
  have hpos : ∀ n : Bytes, 0 < (vector 1 n).length := by
    intro n
    rw [length_vector]
    omega
  exact protocolNames_all h (Nat.lt_succ_of_le (length_le_flatMap hpos names))

end Lists

section Extensions

/-- What a list of extensions adds. -/
def extendAll (es : List Extension) (out : Hello) : Hello := es.foldl (fun out e => extend out e.ty e.data) out

theorem extensions_all {es : List Extension} (h : ∀ e ∈ es, e.WellFormed ∧ e.data.length < 2 ^ 16)
    (hf : es.length < fuel) : extensions fuel (es.flatMap Extension.bytes) out = some (extendAll es out) := by
  induction es generalizing fuel out with
  | nil =>
    cases fuel with
    | zero => exact absurd hf (Nat.not_lt_zero _)
    | succ fuel => rfl
  | cons e es ih =>
    cases fuel with
    | zero => exact absurd hf (Nat.not_lt_zero _)
    | succ fuel =>
      obtain ⟨hw,hl⟩ := h e List.mem_cons_self
      have hty : e.ty < 2 ^ 16 := by
        cases e with
        | serverName entries => exact (by decide : extServerName < 2 ^ 16)
        | alpn names => exact (by decide : extAlpn < 2 ^ 16)
        | other ty data => exact hw.1
      have hc : (e :: es).flatMap Extension.bytes =
          toBe 2 e.ty ++ (vector 2 e.data ++ es.flatMap Extension.bytes) := by
        rw [List.flatMap_cons,Extension.bytes,List.append_assoc]
      have hnil : toBe 2 e.ty ++ (vector 2 e.data ++ es.flatMap Extension.bytes) ≠ [] := by simp [toBe]
      rw [hc,extensions,if_neg hnil]
      simp only [u16_toBe hty,take_u16_vector hl,Option.bind_eq_bind,Option.bind_some,take_append]
      exact ih (fun e he => h e (List.mem_cons_of_mem _ he)) (Nat.lt_of_succ_lt_succ hf)

theorem extend_serverName {ty : ℕ} {data : Bytes} (h : ty ≠ extServerName) :
    (extend out ty data).serverName = out.serverName := by
  rw [extend,if_neg h]
  split
  · rfl
  · split
    · rfl
    · rfl

theorem extend_alpn {ty : ℕ} {data : Bytes} (h : ty ≠ extAlpn) : (extend out ty data).alpn = out.alpn := by
  unfold extend
  split
  · rfl
  · split
    · rfl
    · rfl

theorem extend_host {e : Extension} (hw : e.WellFormed) (hl : e.data.length < 2 ^ 16) :
    (extend out e.ty e.data).serverName = e.host.getD out.serverName := by
  cases e with
  | serverName entries => exact congrArg (fun o : Option Bytes => o.getD out.serverName) (serverName_data hw hl)
  | alpn names => rfl
  | other ty data => exact extend_serverName hw.2.1

theorem extend_protocols {e : Extension} (hw : e.WellFormed) (hl : e.data.length < 2 ^ 16) :
    (extend out e.ty e.data).alpn = e.protocols.getD out.alpn := by
  cases e with
  | serverName entries => rfl
  | alpn names => exact congrArg (fun o : Option (List Bytes) => o.getD out.alpn) (alpn_data hw hl)
  | other ty data => exact extend_alpn hw.2.2

/-- What one extension at most carries is what is read, if the others leave it alone. -/
theorem extendAll_field {α : Type*} {field : Hello → α} {carries : Extension → Option α} {t : ℕ}
    (ht : ∀ e x, carries e = some x → e.ty = t)
    (hstep : ∀ e out, e.WellFormed → e.data.length < 2 ^ 16 →
      field (extend out e.ty e.data) = (carries e).getD (field out))
    {es : List Extension} (h : ∀ e ∈ es, e.WellFormed ∧ e.data.length < 2 ^ 16) (hd : (es.map Extension.ty).Nodup) :
    field (extendAll es out) = (es.findSome? carries).getD (field out) := by
  induction es generalizing out with
  | nil => rfl
  | cons e es ih =>
    obtain ⟨hw,hl⟩ := h e List.mem_cons_self
    rw [List.map_cons,List.nodup_cons] at hd
    have hrest := @ih (extend out e.ty e.data) (fun e he => h e (List.mem_cons_of_mem _ he)) hd.2
    have hall : extendAll (e :: es) out = extendAll es (extend out e.ty e.data) := rfl
    rw [hall,hrest,hstep e out hw hl,List.findSome?_cons]
    cases hc : carries e with
    | none => rfl
    | some x =>
      have hnone : es.findSome? carries = none := by
        rw [List.findSome?_eq_none_iff]
        intro d hmem
        cases hcd : carries d with
        | none => rfl
        | some y =>
          have hty : d.ty = e.ty := (ht d y hcd).trans (ht e x hc).symm
          exact absurd (List.mem_map.mpr ⟨d,hmem,hty⟩) hd.1
      rw [hnone]
      rfl

theorem host_ty {e : Extension} {n : Bytes} (h : e.host = some n) : e.ty = extServerName := by
  cases e with
  | serverName entries => rfl
  | alpn names => cases h
  | other ty data => cases h

theorem protocols_ty {e : Extension} {names : List Bytes} (h : e.protocols = some names) : e.ty = extAlpn := by
  cases e with
  | serverName entries => cases h
  | alpn names => rfl
  | other ty data => cases h

end Extensions

section Message
variable (h : ClientHello)

theorem extensionBlock_block : extensionBlock h.block out = some (.hello (extendAll (h.extensions.getD []) out)) := by
  have hw := h.wellFormed
  have hl := h.extensions_lt
  unfold ClientHello.block
  cases hx : h.extensions with
  | none => rfl
  | some es =>
    rw [hx] at hw hl
    simp only [Option.getD_some] at hw hl ⊢
    have hr := take_u16_vector hl []
    have ht := take_append (es.flatMap Extension.bytes) []
    rw [List.append_nil] at hr
    rw [List.append_nil] at hr ht
    have hnil : vector 2 (es.flatMap Extension.bytes) ≠ [] := by simp [vector,toBe]
    have hpos : ∀ e : Extension, 0 < e.bytes.length := by
      intro e
      simp only [Extension.bytes,List.length_append,length_toBe]
      omega
    rw [extensionBlock,if_neg hnil]
    simp only [hr,ht,Option.bind_eq_bind,Option.bind_some,
      extensions_all hw (Nat.lt_succ_of_le (length_le_flatMap hpos es))]

/-- The message is read for what it carries, and what follows it does not matter. -/
theorem handshake_message (rest : Bytes) : ∃ out, handshake (h.message ++ rest) = some (.hello out) ∧
    out.serverName = h.serverName ∧ out.alpn = h.alpn := by
  obtain ⟨sidLen,hsid,hsl⟩ := take_u8_vector h.sessionId_lt (vector 2 h.suites ++ (vector 1 h.compression ++ h.block))
  obtain ⟨compLen,hcomp,hcl⟩ := take_u8_vector h.compression_lt h.block
  have hrandom := take_append h.random
    (vector 1 h.sessionId ++ (vector 2 h.suites ++ (vector 1 h.compression ++ h.block)))
  rw [h.random_length] at hrandom
  have hbody : clientHello h.body = some (.hello (extendAll (h.extensions.getD []) ⟨[],[],versionName h.legacy⟩)) := by
    rw [clientHello,ClientHello.body]
    simp only [u16_toBe h.legacy_lt,hrandom,hsid,hsl,take_u16_vector h.suites_lt,hcomp,hcl,take_append,
      Option.bind_eq_bind,Option.bind_some,extensionBlock_block]
    rw [if_neg (by rw [h.suites_even]; decide)]
  refine ⟨extendAll (h.extensions.getD []) ⟨[],[],versionName h.legacy⟩,?_,?_,?_⟩
  · have hlen : u24 (vector 3 h.body ++ rest) = some (h.body.length,h.body ++ rest) := by
      rw [vector,List.append_assoc]
      exact u24_toBe h.length_body_lt _
    rw [handshake,ClientHello.message,List.cons_append]
    simp only [u8_cons,hlen,Option.bind_eq_bind,Option.bind_some,take_append,hbody]
    rw [if_neg (fun hne => hne rfl)]
  · exact extendAll_field (fun _ _ => host_ty) (fun _ _ => extend_host) h.wellFormed h.distinct
  · exact extendAll_field (fun _ _ => protocols_ty) (fun _ _ => extend_protocols) h.wellFormed h.distinct

end Message

end Preread

end OxiServe.Server
