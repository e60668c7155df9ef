import OxiServe.Lib.Numerals
import OxiServe.Lib.Delimited
import OxiServe.Lib.Http1Head
import OxiServe.Server.Env

/-! # Cache entries on disk

A fixed head of 37 bytes with three lengths, then the key, the header lines and
the body. The lengths are written in two, four and eight bytes, whatever the
parts measure, and are the only account a reader has of where the parts end.
-/
namespace OxiServe.Server.Cache
open Http1Head

section Format

def magic : Bytes := lit "OXCH"
def version : UInt8 := 1
def headerLen : ℕ := 4 + 1 + 2 + 8 + 8 + 2 + 4 + 8

/-- The part of an entry in front of the key. -/
def fixedHead (now ttl status key hdr body : ℕ) : Bytes :=
  magic ++ [version] ++ toBe 2 status ++ toBe 8 now ++ toBe 8 (now + ttl / 1000) ++ toBe 2 key ++ toBe 4 hdr ++
    toBe 8 body

/-- Serialises a response. Times are seconds, the lifetime is in milliseconds. -/
def encodeEntry (now : ℕ) (key : Bytes) (status : ℕ) (headers : List (Bytes × Bytes)) (body : Bytes) (ttl : ℕ) :
    Bytes :=
  let hdr := headers.flatMap fieldLine
  fixedHead now ttl status key.length hdr.length body.length ++ key ++ hdr ++ body

/-- A decoded entry with the times it carries. -/
structure Dated extends Decoded where
  expires : ℕ
  created : ℕ
deriving DecidableEq, Repr

inductive DecodeError
  | notAnEntry | truncated | keyMismatch
deriving DecidableEq, Repr

/-- `buf[lo..hi]`; none when it panics. -/
def slice? (buf : Bytes) (lo hi : ℕ) : Option Bytes :=
  if lo ≤ hi ∧ hi ≤ buf.length then some ((buf.drop lo).take (hi - lo)) else none

def checkedAdd (a b : ℕ) : Option ℕ := if a + b < 2 ^ 64 then some (a + b) else none

def parseHeaders (block : Bytes) : List (Bytes × Bytes) :=
  let text := if utf8Valid block then block else []
  ((Delimited.pieces [13,10] text).filter (fun l => l ≠ [])).filterMap (Delimited.cut [58,32])

/-- The numbers of the fixed head. -/
structure Lengths where
  status : ℕ
  created : ℕ
  expires : ℕ
  key : ℕ
  hdr : ℕ
  body : ℕ
deriving DecidableEq, Repr

def readLengths (buf : Bytes) : Option Lengths := do
  let status ← slice? buf 5 7
  let created ← slice? buf 7 15
  let expires ← slice? buf 15 23
  let key ← slice? buf 23 25
  let hdr ← slice? buf 25 29
  let body ← slice? buf 29 37
  some ⟨ofBe status,ofBe created,ofBe expires,ofBe key,ofBe hdr,ofBe body⟩

def Lengths.total (n : Lengths) : Option ℕ :=
  ((checkedAdd headerLen n.key).bind (fun t => checkedAdd t n.hdr)).bind (fun t => checkedAdd t n.body)

/-- What follows the fixed head, once the whole entry is known to be there. -/
def readParts (buf key : Bytes) (n : Lengths) : Option (Except DecodeError Dated) := do
  let stored ← slice? buf headerLen (headerLen + n.key)
  if stored ≠ key then some (.error .keyMismatch)
  else
    let start := headerLen + n.key
    let block ← slice? buf start (start + n.hdr)
    let body ← slice? buf (start + n.hdr) (start + n.hdr + n.body)
    some (.ok ⟨⟨n.status,parseHeaders block,body⟩,n.expires,n.created⟩)

/-- Parses an entry and verifies that it belongs to `key`; none is a panic. -/
def decodeEntry (buf key : Bytes) : Option (Except DecodeError Dated) := do
  if buf.length < headerLen then some (.error .truncated)
  else
    let m ← slice? buf 0 4
    let v ← slice? buf 4 5
    if m ≠ magic ∨ v ≠ [version] then some (.error .notAnEntry)
    else
      let n ← readLengths buf
      match n.total with
      | none => some (.error .truncated)
      | some total =>
        if buf.length < total then some (.error .truncated)
        else readParts buf key n

end Format

section Slices
variable {a b r s t : Bytes} {lo hi : ℕ}

theorem slice?_eq_some {x : Bytes} :
    slice? s lo hi = some x ↔ (lo ≤ hi ∧ hi ≤ s.length) ∧ x = (s.drop lo).take (hi - lo) := by
  unfold slice?
  constructor
  · intro h
    split at h
    · rename_i hb
      exact ⟨hb,(Option.some.inj h).symm⟩
    · cases h
  · rintro ⟨hb,rfl⟩
    rw [if_pos hb]

theorem slice?_some (h1 : lo ≤ hi) (h2 : hi ≤ s.length) : ∃ x, slice? s lo hi = some x :=
  ⟨_,slice?_eq_some.mpr ⟨⟨h1,h2⟩,rfl⟩⟩

/-- What lies within a prefix does not depend on the rest. -/
theorem slice?_append_left (h : hi ≤ s.length) : slice? (s ++ t) lo hi = slice? s lo hi := by
  unfold slice?
  have hl : hi ≤ (s ++ t).length := by
    rw [List.length_append]
    omega
  by_cases hb : lo ≤ hi
  · rw [if_pos ⟨hb,hl⟩,if_pos ⟨hb,h⟩,List.drop_append_of_le_length (hb.trans h),List.take_append_of_le_length]
    rw [List.length_drop]
    omega
  · rw [if_neg (fun hc => hb hc.1),if_neg (fun hc => hb hc.1)]

theorem slice?_part (lo hi : ℕ) (h1 : a.length = lo) (h2 : a.length + b.length = hi) :
    slice? (a ++ (b ++ r)) lo hi = some b := by
  subst h1
  subst h2
  refine slice?_eq_some.mpr ⟨⟨Nat.le_add_right _ _,?_⟩,?_⟩
  · simp only [List.length_append]
    omega
  · rw [List.drop_left,Nat.add_sub_cancel_left,List.take_left]

end Slices

section Decoding
variable {buf key s t : Bytes} {n : Lengths} {d : Dated}

/-- The length of the entry that the fixed head declares. -/
def Lengths.declared (n : Lengths) : ℕ := headerLen + n.key + n.hdr + n.body

theorem checkedAdd_eq_some {a b m : ℕ} : checkedAdd a b = some m ↔ m = a + b ∧ a + b < 2 ^ 64 := by
  unfold checkedAdd
  constructor
  · intro h
    split at h
    · rename_i hb
      exact ⟨(Option.some.inj h).symm,hb⟩
    · cases h
  · rintro ⟨rfl,hb⟩
    rw [if_pos hb]

theorem total_eq_some {m : ℕ} : n.total = some m ↔ m = n.declared ∧ n.declared < 2 ^ 64 := by
  unfold Lengths.total Lengths.declared
  constructor
  · intro h
    obtain ⟨x,hx,h3⟩ := Option.bind_eq_some_iff.mp h
    obtain ⟨y,h1,h2⟩ := Option.bind_eq_some_iff.mp hx
    obtain ⟨rfl,-⟩ := checkedAdd_eq_some.mp h1
    obtain ⟨rfl,-⟩ := checkedAdd_eq_some.mp h2
    exact checkedAdd_eq_some.mp h3
  · rintro ⟨rfl,hb⟩
    have h1 : checkedAdd headerLen n.key = some (headerLen + n.key) := checkedAdd_eq_some.mpr ⟨rfl,by omega⟩
    have h2 : checkedAdd (headerLen + n.key) n.hdr = some (headerLen + n.key + n.hdr) :=
      checkedAdd_eq_some.mpr ⟨rfl,by omega⟩
    rw [h1,Option.bind_some,h2]
    exact checkedAdd_eq_some.mpr ⟨rfl,hb⟩

theorem readLengths_some (h : headerLen ≤ buf.length) : ∃ n, readLengths buf = some n := by
  have hs (lo hi : ℕ) (h1 : lo ≤ hi) (h2 : hi ≤ 37) : ∃ x, slice? buf lo hi = some x :=
    slice?_some h1 (h2.trans h)
  obtain ⟨status,h1⟩ := hs 5 7 (by decide) (by decide)
  obtain ⟨created,h2⟩ := hs 7 15 (by decide) (by decide)
  obtain ⟨expires,h3⟩ := hs 15 23 (by decide) (by decide)
  obtain ⟨k,h4⟩ := hs 23 25 (by decide) (by decide)
  obtain ⟨hdr,h5⟩ := hs 25 29 (by decide) (by decide)
  obtain ⟨body,h6⟩ := hs 29 37 (by decide) (by decide)
  simp only [readLengths,h1,h2,h3,h4,h5,h6,Option.bind_eq_bind,Option.bind_some]
  exact ⟨_,rfl⟩

theorem readLengths_append (h : headerLen ≤ s.length) : readLengths (s ++ t) = readLengths s := by
  have hs (lo hi : ℕ) (hb : hi ≤ 37) : slice? (s ++ t) lo hi = slice? s lo hi := slice?_append_left (hb.trans h)
  unfold readLengths
  rw [hs 5 7 (by decide),hs 7 15 (by decide),hs 15 23 (by decide),hs 23 25 (by decide),hs 25 29 (by decide),
    hs 29 37 (by decide)]

theorem readParts_ok : readParts buf key n = some (.ok d) ↔
    slice? buf headerLen (headerLen + n.key) = some key ∧
      ∃ block body, slice? buf (headerLen + n.key) (headerLen + n.key + n.hdr) = some block ∧
        slice? buf (headerLen + n.key + n.hdr) (headerLen + n.key + n.hdr + n.body) = some body ∧
          d = ⟨⟨n.status,parseHeaders block,body⟩,n.expires,n.created⟩ := by
  constructor
  · intro h
    obtain ⟨stored,hk,h⟩ := Option.bind_eq_some_iff.mp h
    split at h
    · cases h
    · rename_i hs
      obtain ⟨block,hb,h⟩ := Option.bind_eq_some_iff.mp h
      obtain ⟨body,hc,h⟩ := Option.bind_eq_some_iff.mp h
      cases h
      exact ⟨(not_not.mp hs) ▸ hk,block,body,hb,hc,rfl⟩
  · rintro ⟨hk,block,body,hb,hc,rfl⟩
    simp only [readParts,hk,hb,hc,Option.bind_eq_bind,Option.bind_some,ne_eq,not_true_eq_false,if_false]

theorem readParts_some (h : n.declared ≤ buf.length) : ∃ r, readParts buf key n = some r := by
  unfold Lengths.declared at h
  obtain ⟨stored,hk⟩ := slice?_some (s := buf) (Nat.le_add_right headerLen n.key) (by omega)
  obtain ⟨block,hb⟩ := slice?_some (s := buf) (Nat.le_add_right (headerLen + n.key) n.hdr) (by omega)
  obtain ⟨body,hc⟩ := slice?_some (s := buf) (Nat.le_add_right (headerLen + n.key + n.hdr) n.body) h
  simp only [readParts,hk,hb,hc,Option.bind_eq_bind,Option.bind_some]
  split
  · exact ⟨_,rfl⟩
  · exact ⟨_,rfl⟩

theorem decodeEntry_ok : decodeEntry buf key = some (.ok d) ↔
    headerLen ≤ buf.length ∧ slice? buf 0 4 = some magic ∧ slice? buf 4 5 = some [version] ∧
      ∃ n, readLengths buf = some n ∧ n.declared < 2 ^ 64 ∧ n.declared ≤ buf.length ∧
        readParts buf key n = some (.ok d) := by
  unfold decodeEntry
  constructor
  · intro h
    split at h
    · cases h
    · rename_i hl
      obtain ⟨m,hm,h1⟩ := Option.bind_eq_some_iff.mp h
      obtain ⟨v,hv,h2⟩ := Option.bind_eq_some_iff.mp h1
      clear h h1
      split at h2
      · cases h2
      · rename_i hc
        obtain ⟨hmagic,hversion⟩ : m = magic ∧ v = [version] := by
          simpa only [ne_eq,not_or,not_not] using hc
        obtain ⟨n,hn,h3⟩ := Option.bind_eq_some_iff.mp h2
        split at h3
        · cases h3
        · rename_i m ht
          obtain ⟨rfl,hd⟩ := total_eq_some.mp ht
          split at h3
          · cases h3
          · rename_i hf
            exact ⟨Nat.le_of_not_lt hl,hmagic ▸ hm,hversion ▸ hv,n,hn,hd,Nat.le_of_not_lt hf,h3⟩
  · rintro ⟨hl,hm,hv,n,hn,hd,hf,h⟩
    have ht : n.total = some n.declared := total_eq_some.mpr ⟨rfl,hd⟩
    simp only [if_neg (Nat.not_lt.mpr hl),hm,hv,hn,ht,Option.bind_eq_bind,Option.bind_some,ne_eq,
      not_true_eq_false,or_self,if_false,if_neg (Nat.not_lt.mpr hf)]
    exact h

/-- No byte string makes the decoder index out of bounds. -/
theorem decodeEntry_some (buf key : Bytes) : ∃ r, decodeEntry buf key = some r := by
  unfold decodeEntry
  by_cases hl : buf.length < headerLen
  · rw [if_pos hl]
    exact ⟨_,rfl⟩
  · rw [if_neg hl]
    have hl : 37 ≤ buf.length := Nat.le_of_not_lt hl
    obtain ⟨m,hm⟩ := slice?_some (s := buf) (Nat.zero_le 4) (by omega)
    obtain ⟨v,hv⟩ := slice?_some (s := buf) (show 4 ≤ 5 by decide) (by omega)
    obtain ⟨n,hn⟩ := readLengths_some hl
    simp only [hm,hv,hn,Option.bind_eq_bind,Option.bind_some]
    split
    · exact ⟨_,rfl⟩
    · split
      · exact ⟨_,rfl⟩
      · rename_i ht
        obtain ⟨rfl,-⟩ := total_eq_some.mp ht
        split
        · exact ⟨_,rfl⟩
        · rename_i hf
          exact readParts_some (Nat.le_of_not_lt hf)

/-- An entry is read from the bytes it declares and no others. -/
theorem decodeEntry_append (h : decodeEntry (s ++ t) key = some (.ok d)) (hn : readLengths (s ++ t) = some n)
    (hs : n.declared ≤ s.length) : decodeEntry s key = some (.ok d) := by
  obtain ⟨-,hm,hv,n',hn',hd,-,hp⟩ := decodeEntry_ok.mp h
  obtain rfl : n = n' := Option.some.inj (hn.symm.trans hn')
  obtain ⟨hk,block,body,hb,hc,rfl⟩ := readParts_ok.mp hp
  unfold Lengths.declared at hs hd
  have hl : headerLen ≤ s.length := by omega
  have hl' : 37 ≤ s.length := hl
  rw [slice?_append_left (by omega)] at hk hb hc hm hv
  rw [readLengths_append hl] at hn
  exact decodeEntry_ok.mpr ⟨hl,hm,hv,n,hn,hd,hs,readParts_ok.mpr ⟨hk,block,body,hb,hc,rfl⟩⟩

end Decoding

section Encoding
variable {now ttl status k h b : ℕ} {r : Bytes}

theorem length_magic : magic.length = 4 := rfl

@[simp] theorem length_fixedHead : (fixedHead now ttl status k h b).length = headerLen := by
  simp [fixedHead,headerLen,length_magic]

/-- The numbers come back cut to the width of their field. -/
def cutLengths (now ttl status k h b : ℕ) : Lengths :=
  ⟨status % 256 ^ 2,now % 256 ^ 8,(now + ttl / 1000) % 256 ^ 8,k % 256 ^ 2,h % 256 ^ 4,b % 256 ^ 8⟩

theorem readLengths_fixedHead :
    readLengths (fixedHead now ttl status k h b ++ r) = some (cutLengths now ttl status k h b) := by
  have h1 : slice? (fixedHead now ttl status k h b ++ r) 5 7 = some (toBe 2 status) := by
    simpa only [fixedHead,List.append_assoc] using slice?_part (a := magic ++ [version]) 5 7
      (by simp [length_magic]) (by simp [length_magic])
  have h2 : slice? (fixedHead now ttl status k h b ++ r) 7 15 = some (toBe 8 now) := by
    simpa only [fixedHead,List.append_assoc] using slice?_part (a := magic ++ [version] ++ toBe 2 status)
      7 15 (by simp [length_magic]) (by simp [length_magic])
  have h3 : slice? (fixedHead now ttl status k h b ++ r) 15 23 = some (toBe 8 (now + ttl / 1000)) := by
    simpa only [fixedHead,List.append_assoc] using
      slice?_part (a := magic ++ [version] ++ toBe 2 status ++ toBe 8 now) 15 23
        (by simp [length_magic]) (by simp [length_magic])
  have h4 : slice? (fixedHead now ttl status k h b ++ r) 23 25 = some (toBe 2 k) := by
    simpa only [fixedHead,List.append_assoc] using
      slice?_part (a := magic ++ [version] ++ toBe 2 status ++ toBe 8 now ++ toBe 8 (now + ttl / 1000)) 23
        25 (by simp [length_magic]) (by simp [length_magic])
  have h5 : slice? (fixedHead now ttl status k h b ++ r) 25 29 = some (toBe 4 h) := by
    simpa only [fixedHead,List.append_assoc] using
      slice?_part (a := magic ++ [version] ++ toBe 2 status ++ toBe 8 now ++ toBe 8 (now + ttl / 1000) ++ toBe 2 k)
        25 29 (by simp [length_magic]) (by simp [length_magic])
  have h6 : slice? (fixedHead now ttl status k h b ++ r) 29 37 = some (toBe 8 b) := by
    simpa only [fixedHead,List.append_assoc] using
      slice?_part (a := magic ++ [version] ++ toBe 2 status ++ toBe 8 now ++ toBe 8 (now + ttl / 1000) ++ toBe 2 k ++
        toBe 4 h) 29 37 (by simp [length_magic]) (by simp [length_magic])
  simp only [readLengths,h1,h2,h3,h4,h5,h6,Option.bind_eq_bind,Option.bind_some,ofBe_toBe,cutLengths]

/-- A header as the proxy collects it: strings, a name without colon or line
end, and a value on one line. -/
def isCollected (f : Bytes × Bytes) : Bool :=
  !f.1.contains 58 && isLine f.1 && isLine f.2 && utf8Valid f.1 && utf8Valid f.2

/-- A response as the proxy collects it. -/
structure Collected where
  status : ℕ
  headers : List (Bytes × Bytes)
  body : Bytes
  status_lt : status < 2 ^ 16
  collected : ∀ f ∈ headers, isCollected f = true

def Collected.decoded (c : Collected) : Decoded := ⟨c.status,c.headers,c.body⟩

theorem utf8Valid_block {hs : List (Bytes × Bytes)} (h : ∀ f ∈ hs, isCollected f = true) :
    utf8Valid (hs.flatMap fieldLine) = true := by
  induction hs with
  | nil => rfl
  | cons f hs ih =>
    have hf := h f List.mem_cons_self
    simp only [isCollected,Bool.and_eq_true] at hf
    have h1 : utf8Valid [58,32] = true := by decide
    have h2 : utf8Valid [13,10] = true := by decide
    rw [List.flatMap_cons]
    exact utf8Valid_append (utf8Valid_append (utf8Valid_append (utf8Valid_append hf.1.2 h1) hf.2) h2)
      (ih (fun f hm => h f (List.mem_cons_of_mem _ hm)))

def lineText (f : Bytes × Bytes) : Bytes := f.1 ++ [58,32] ++ f.2

/-- The header block reads back as the fields it was written from. -/
theorem parseHeaders_block {hs : List (Bytes × Bytes)} (h : ∀ f ∈ hs, isCollected f = true) :
    parseHeaders (hs.flatMap fieldLine) = hs := by
  have hb : hs.flatMap fieldLine = (hs.map lineText).flatMap (fun l => l ++ [13,10]) := by
    rw [List.flatMap_map]
    rfl
  have hl : ∀ l ∈ hs.map lineText, (13 : UInt8) ∉ l := by
    intro l hm h13
    obtain ⟨f,hf,rfl⟩ := List.mem_map.mp hm
    have hc := h f hf
    simp only [isCollected,Bool.and_eq_true,isLine,List.all_eq_true] at hc
    rcases List.mem_append.mp h13 with h13 | h13
    · rcases List.mem_append.mp h13 with h13 | h13
      · have hn := hc.1.1.1.2 13 h13
        simp at hn
      · simp at h13
    · have hv := hc.1.1.2 13 h13
      simp at hv
  have hne : (hs.map lineText ++ [[]]).filter (fun l => l ≠ []) = hs.map lineText := by
    rw [List.filter_append,List.filter_eq_self.mpr]
    · simp
    · intro l hm
      obtain ⟨f,-,rfl⟩ := List.mem_map.mp hm
      simp [lineText]
  have hp : Delimited.pieces [13,10] (hs.flatMap fieldLine) = hs.map lineText ++ [[]] := by
    rw [hb]
    exact Delimited.pieces_lines hl
  simp only [parseHeaders,utf8Valid_block h,if_true,hp,hne]
  clear hb hl hne hp
  induction hs with
  | nil => rfl
  | cons f hs ih =>
    have hf := h f List.mem_cons_self
    simp only [isCollected,Bool.and_eq_true] at hf
    have hc : (58 : UInt8) ∉ f.1 := by simpa using hf.1.1.1.1
    have he : Delimited.cut [58,32] (lineText f) = some f := by
      rw [lineText,List.append_assoc]
      exact Delimited.cut_append f.2 hc
    rw [List.map_cons,List.filterMap_cons,he]
    exact congrArg (f :: ·) (ih (fun f hm => h f (List.mem_cons_of_mem _ hm)))

end Encoding

section Written
variable {now ttl status : ℕ} {key body : Bytes} {hs : List (Bytes × Bytes)}

/-- Every length is one its field can hold. -/
structure Fits (key : Bytes) (hs : List (Bytes × Bytes)) (body : Bytes) : Prop where
  key_lt : key.length < 2 ^ 16
  block_lt : (hs.flatMap fieldLine).length < 2 ^ 32
  entry_lt : headerLen + key.length + (hs.flatMap fieldLine).length + body.length < 2 ^ 64

theorem encodeEntry_eq : encodeEntry now key status hs body ttl =
    fixedHead now ttl status key.length (hs.flatMap fieldLine).length body.length ++
      (key ++ (hs.flatMap fieldLine ++ body)) := by
  simp only [encodeEntry,List.append_assoc]

theorem length_encodeEntry : (encodeEntry now key status hs body ttl).length =
    headerLen + key.length + (hs.flatMap fieldLine).length + body.length := by
  simp only [encodeEntry_eq,List.length_append,length_fixedHead]
  omega

theorem readLengths_encodeEntry : readLengths (encodeEntry now key status hs body ttl) =
    some (cutLengths now ttl status key.length (hs.flatMap fieldLine).length body.length) := by
  rw [encodeEntry_eq]
  exact readLengths_fixedHead

theorem Fits.lengths (h : Fits key hs body) :
    cutLengths now ttl status key.length (hs.flatMap fieldLine).length body.length =
      ⟨status % 256 ^ 2,now % 256 ^ 8,(now + ttl / 1000) % 256 ^ 8,key.length,(hs.flatMap fieldLine).length,
        body.length⟩ := by
  have h1 := h.key_lt
  have h2 := h.block_lt
  have h3 := h.entry_lt
  have hk : key.length % 256 ^ 2 = key.length := Nat.mod_eq_of_lt (by omega)
  have hb : (hs.flatMap fieldLine).length % 256 ^ 4 = (hs.flatMap fieldLine).length := Nat.mod_eq_of_lt (by omega)
  have hc : body.length % 256 ^ 8 = body.length := Nat.mod_eq_of_lt (by omega)
  simp only [cutLengths,hk,hb,hc]

theorem Fits.declared (h : Fits key hs body) :
    (cutLengths now ttl status key.length (hs.flatMap fieldLine).length body.length).declared =
      (encodeEntry now key status hs body ttl).length := by
  rw [length_encodeEntry,h.lengths]
  rfl

theorem slice?_key :
    slice? (encodeEntry now key status hs body ttl) headerLen (headerLen + key.length) = some key := by
  rw [encodeEntry_eq]
  exact slice?_part _ _ length_fixedHead (by rw [length_fixedHead])

theorem slice?_block : slice? (encodeEntry now key status hs body ttl) (headerLen + key.length)
    (headerLen + key.length + (hs.flatMap fieldLine).length) = some (hs.flatMap fieldLine) := by
  simpa only [encodeEntry_eq,List.append_assoc] using slice?_part
    (a := fixedHead now ttl status key.length (hs.flatMap fieldLine).length body.length ++ key)
    (headerLen + key.length) (headerLen + key.length + (hs.flatMap fieldLine).length)
      (by simp) (by simp)

theorem slice?_body : slice? (encodeEntry now key status hs body ttl)
    (headerLen + key.length + (hs.flatMap fieldLine).length)
    (headerLen + key.length + (hs.flatMap fieldLine).length + body.length) = some body := by
  simpa only [encodeEntry_eq,List.append_assoc,List.append_nil] using slice?_part (r := [])
    (a := fixedHead now ttl status key.length (hs.flatMap fieldLine).length body.length ++ key ++ hs.flatMap fieldLine)
    (headerLen + key.length + (hs.flatMap fieldLine).length)
    (headerLen + key.length + (hs.flatMap fieldLine).length + body.length)
      (by simp [Nat.add_assoc]) (by simp [Nat.add_assoc])

/-- An entry that fits is read under its own key, as what was written. -/
theorem Fits.decodeEntry_iff (h : Fits key hs body) {k : Bytes} {d : Dated} :
    decodeEntry (encodeEntry now key status hs body ttl) k = some (.ok d) ↔ k = key ∧
      d = ⟨⟨status % 256 ^ 2,parseHeaders (hs.flatMap fieldLine),body⟩,(now + ttl / 1000) % 256 ^ 8,now % 256 ^ 8⟩ := by
  have hm : slice? (encodeEntry now key status hs body ttl) 0 4 = some magic := by
    simpa only [encodeEntry_eq,fixedHead,List.append_assoc,List.nil_append] using
      slice?_part (a := []) 0 4 rfl (by simp [length_magic])
  have hv : slice? (encodeEntry now key status hs body ttl) 4 5 = some [version] := by
    simpa only [encodeEntry_eq,fixedHead,List.append_assoc] using
      slice?_part (a := magic) 4 5 length_magic (by simp [length_magic])
  have hl : headerLen ≤ (encodeEntry now key status hs body ttl).length := by
    rw [length_encodeEntry]
    omega
  have hd : (encodeEntry now key status hs body ttl).length < 2 ^ 64 := by
    rw [length_encodeEntry]
    exact h.entry_lt
  rw [decodeEntry_ok]
  constructor
  · rintro ⟨-,-,-,n,hn,-,-,hp⟩
    rw [readLengths_encodeEntry,h.lengths] at hn
    obtain rfl := Option.some.inj hn
    obtain ⟨hk,block,b,hb,hc,rfl⟩ := readParts_ok.mp hp
    obtain rfl := Option.some.inj (hk.symm.trans slice?_key)
    obtain rfl := Option.some.inj (hb.symm.trans slice?_block)
    obtain rfl := Option.some.inj (hc.symm.trans slice?_body)
    exact ⟨rfl,rfl⟩
  · rintro ⟨rfl,rfl⟩
    refine ⟨hl,hm,hv,_,readLengths_encodeEntry,by rw [h.declared]; exact hd,h.declared.le,?_⟩
    rw [h.lengths]
    exact readParts_ok.mpr ⟨slice?_key,_,_,slice?_block,slice?_body,rfl⟩

end Written

section Whole
variable {now ttl : ℕ} {key : Bytes} {c : Collected}

def Collected.encode (c : Collected) (now ttl : ℕ) (key : Bytes) : Bytes :=
  encodeEntry now key c.status c.headers c.body ttl

/-- An entry stands for one response under one key, and no part of it for any. -/
structure Faithful (now ttl : ℕ) (key : Bytes) (c : Collected) : Prop where
  roundTrip : ∃ d, decodeEntry (c.encode now ttl key) key = some (.ok d) ∧ d.toDecoded = c.decoded
  own : ∀ k d, decodeEntry (c.encode now ttl key) k = some (.ok d) → k = key
  whole : ∀ s k d, s <+: c.encode now ttl key → s ≠ c.encode now ttl key → decodeEntry s k ≠ some (.ok d)

theorem Fits.faithful (h : Fits key c.headers c.body) : Faithful now ttl key c where
  roundTrip := by
    refine ⟨_,h.decodeEntry_iff.mpr ⟨rfl,rfl⟩,?_⟩
    have hs : c.status % 256 ^ 2 = c.status := Nat.mod_eq_of_lt c.status_lt
    rw [hs,parseHeaders_block c.collected]
    rfl
  own := fun k d hd => (h.decodeEntry_iff.mp hd).1
  whole := by
    intro s k d hs hne hd
    obtain ⟨t,ht⟩ := hs
    obtain ⟨hl,-,-,n,hn,-,hf,-⟩ := decodeEntry_ok.mp hd
    rw [← readLengths_append (t := t) hl,ht,Collected.encode,readLengths_encodeEntry] at hn
    obtain rfl := Option.some.inj hn
    rw [h.declared] at hf
    have hlen := congrArg List.length ht
    rw [List.length_append,Collected.encode] at hlen
    have h0 : t = [] := List.eq_nil_of_length_eq_zero (by omega)
    rw [h0,List.append_nil] at ht
    exact hne ht

theorem Faithful.fits (h : Faithful now ttl key c) : Fits key c.headers c.body := by
  obtain ⟨d,hd,-⟩ := h.roundTrip
  obtain ⟨-,-,-,n,hn,hlt,hle,-⟩ := decodeEntry_ok.mp hd
  have hcut : n = cutLengths now ttl c.status key.length (c.headers.flatMap fieldLine).length c.body.length :=
    Option.some.inj (hn.symm.trans readLengths_encodeEntry)
  have he : (c.encode now ttl key).length ≤ n.declared := by
    by_contra hc
    have hc := Nat.lt_of_not_le hc
    have hsplit := List.take_append_drop n.declared (c.encode now ttl key)
    have hlen : ((c.encode now ttl key).take n.declared).length = n.declared := List.length_take_of_le hc.le
    have hshort : (c.encode now ttl key).take n.declared ≠ c.encode now ttl key := by
      intro heq
      rw [heq] at hlen
      omega
    rw [← hsplit] at hd hn
    exact h.whole _ key d (List.take_prefix _ _) hshort (decodeEntry_append hd hn hlen.ge)
  rw [Collected.encode,length_encodeEntry] at he
  rw [hcut] at he hlt
  simp only [cutLengths,Lengths.declared] at he hlt
  have h1 := Nat.mod_le key.length (256 ^ 2)
  have h2 := Nat.mod_le (c.headers.flatMap fieldLine).length (256 ^ 4)
  have h3 := Nat.mod_le c.body.length (256 ^ 8)
  have hk : key.length % 256 ^ 2 = key.length := by omega
  have hb : (c.headers.flatMap fieldLine).length % 256 ^ 4 = (c.headers.flatMap fieldLine).length := by omega
  have hc : c.body.length % 256 ^ 8 = c.body.length := by omega
  refine ⟨?_,?_,?_⟩
  · rw [← hk]
    exact Nat.mod_lt _ (by decide)
  · rw [← hb]
    exact Nat.mod_lt _ (by decide)
  · rw [hk,hb,hc] at hlt
    exact hlt

/-- Entries are faithful exactly as long as their parts fit their length fields;
reading any bytes at all is in bounds and keeps to the stored key. -/
theorem decodeEntry_faithful_iff (buf k key : Bytes) (now ttl : ℕ) (c : Collected) :
    (decodeEntry buf k ≠ none ∧ ∀ d, decodeEntry buf k = some (.ok d) →
      ∃ n, readLengths buf = some n ∧ slice? buf headerLen (headerLen + n.key) = some k) ∧
    (Faithful now ttl key c ↔ Fits key c.headers c.body) := by
  refine ⟨⟨?_,?_⟩,Faithful.fits,Fits.faithful⟩
  · obtain ⟨r,hr⟩ := decodeEntry_some buf k
    rw [hr]
    exact Option.some_ne_none r
  · intro d hd
    obtain ⟨-,-,-,n,hn,-,-,hp⟩ := decodeEntry_ok.mp hd
    exact ⟨n,hn,(readParts_ok.mp hp).1⟩

/-- A key of 65536 bytes is stored as one of length zero. -/
theorem longKey_unfaithful : ¬ ∀ now ttl key c, Faithful now ttl key c := by
  intro h
  have hf := (h 0 60000 (List.replicate 65536 97) ⟨200,[],lit "hi",by decide,by simp⟩).fits.key_lt
  rw [List.length_replicate] at hf
  omega

end Whole

end OxiServe.Server.Cache
