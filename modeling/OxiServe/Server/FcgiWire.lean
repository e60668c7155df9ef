import OxiServe.Lib.Numerals
import OxiServe.Server.FcgiBody

/-! # Record streams and their reader

What the application sends is a sequence of records, cut into reads anywhere. The
reader consumes each record with the read that completes it, so what it has
decoded after some bytes is the payload of the records complete by then.
-/
namespace OxiServe.Fcgi

def maxContent : ℕ := 0xFFFF

def RecordType.code : RecordType → UInt8
  | .beginRequest => 1
  | .abortRequest => 2
  | .endRequest => 3
  | .params => 4
  | .stdin => 5
  | .stdout => 6
  | .stderr => 7
  | .data => 8
  | .getValues => 9
  | .getValuesResult => 10
  | .unknownType => 11

theorem RecordType.fromU8_code (ty : RecordType) : RecordType.fromU8 ty.code = some ty := by
  cases ty <;> rfl

theorem be16_bytes {n : ℕ} (h : n ≤ maxContent) : be16 (n / 256).toUInt8 n.toUInt8 = n := by
  unfold maxContent at h
  simp only [be16,Nat.toUInt8_eq,UInt8.toNat_ofNat']
  omega

/-- A record as the other side may send it, with any padding. -/
structure WireRecord where
  ty : RecordType
  id1 : UInt8
  id0 : UInt8
  reserved : UInt8
  body : Bytes
  pad : Bytes
  body_le : body.length ≤ maxContent
  pad_le : pad.length ≤ 255

namespace WireRecord

def size (r : WireRecord) : ℕ := headerLen + r.body.length + r.pad.length

def encode (r : WireRecord) : Bytes :=
  recordVersion :: r.ty.code :: r.id1 :: r.id0 :: (r.body.length / 256).toUInt8 :: r.body.length.toUInt8 ::
    r.pad.length.toUInt8 :: r.reserved :: (r.body ++ r.pad)

/-- The payload of `STDOUT`. -/
def stdout (r : WireRecord) : Bytes := if r.ty = .stdout then r.body else []

@[simp] theorem length_encode (r : WireRecord) : r.encode.length = r.size := by
  simp only [encode,size,headerLen,List.length_cons,List.length_append]
  omega

theorem size_pos (r : WireRecord) : 8 ≤ r.size := by
  simp only [size,headerLen]
  omega

theorem pad_byte (r : WireRecord) : r.pad.length.toUInt8.toNat = r.pad.length := by
  have := r.pad_le
  simp only [Nat.toUInt8_eq,UInt8.toNat_ofNat']
  omega

/-- A whole record is read whatever follows it. -/
theorem parseRecord_encode (r : WireRecord) (rest : Bytes) :
    parseRecord (r.encode ++ rest) = .ok ⟨r.ty,be16 r.id1 r.id0,r.body,r.size⟩ := by
  have hb := be16_bytes r.body_le
  simp only [encode,List.cons_append,parseRecord,ne_eq,not_true_eq_false,if_false,RecordType.fromU8_code,hb,
    r.pad_byte,List.length_cons,List.length_append]
  rw [if_neg (by simp only [headerLen]; omega),List.append_assoc,List.take_left' rfl]
  rfl

/-- A part of a record is no record yet. -/
theorem parseRecord_short {r : WireRecord} {p q s : Bytes} (h : p ++ q = r.encode ++ s)
    (hl : p.length < r.size) : parseRecord p = .error .incomplete := by
  match p with
  | [] | [_] | [_,_] | [_,_,_] | [_,_,_,_] | [_,_,_,_,_] | [_,_,_,_,_,_] | [_,_,_,_,_,_,_] => rfl
  | v :: t :: i1 :: i0 :: c1 :: c0 :: padding :: x :: rest =>
    simp only [encode,List.cons_append,List.cons.injEq] at h
    obtain ⟨rfl,rfl,rfl,rfl,rfl,rfl,rfl,-,-⟩ := h
    have hb := be16_bytes r.body_le
    simp only [parseRecord,ne_eq,not_true_eq_false,if_false,RecordType.fromU8_code,hb,r.pad_byte]
    exact if_pos hl

end WireRecord

/-- The payload of a sequence of records. -/
def payload (rs : List WireRecord) : Bytes := rs.flatMap WireRecord.stdout

/-- The payload of the records complete within the first `n` bytes. -/
def arrived : List WireRecord → ℕ → Bytes
  | [], _ => []
  | r :: rs, n => if n < r.size then [] else r.stdout ++ arrived rs (n - r.size)

def wire (rs : List WireRecord) (fin : Option WireRecord) : Bytes :=
  rs.flatMap WireRecord.encode ++ (fin.map WireRecord.encode).getD []

def sizes (rs : List WireRecord) : ℕ := (rs.flatMap WireRecord.encode).length

/-- The record a reader waits for. -/
def awaited (rs : List WireRecord) (fin : Option WireRecord) : Option WireRecord := rs.head?.or fin

/-- What is buffered is too short for the next record. -/
def Waiting (raw : Bytes) (rs : List WireRecord) (fin : Option WireRecord) : Prop :=
  ∀ r ∈ awaited rs fin, raw.length < r.size

section Arrived

@[simp] theorem payload_cons (r : WireRecord) (rs : List WireRecord) : payload (r :: rs) = r.stdout ++ payload rs :=
  rfl

@[simp] theorem sizes_cons (r : WireRecord) (rs : List WireRecord) : sizes (r :: rs) = r.size + sizes rs := by
  simp only [sizes,List.flatMap_cons,List.length_append,WireRecord.length_encode]

theorem wire_cons (r : WireRecord) (rs : List WireRecord) (fin : Option WireRecord) :
    wire (r :: rs) fin = r.encode ++ wire rs fin := by
  simp only [wire,List.flatMap_cons,List.append_assoc]

/-- What is decoded is settled by how many bytes came. -/
theorem arrived_append {done rs : List WireRecord} {fin : Option WireRecord} {raw : Bytes}
    (h : Waiting raw rs fin) : arrived (done ++ rs) (sizes done + raw.length) = payload done := by
  induction done with
  | nil =>
    cases rs with
    | nil => rfl
    | cons r rs =>
      have hr : raw.length < r.size := h r rfl
      simp only [List.nil_append,arrived]
      rw [if_pos (by simpa [sizes] using hr)]
      rfl
  | cons d done ih =>
    have he : d.size + sizes done + raw.length - d.size = sizes done + raw.length := by omega
    simp only [List.cons_append,arrived,sizes_cons,payload_cons]
    rw [if_neg (by omega),he,ih]

theorem arrived_prefix (rs : List WireRecord) {n m : ℕ} (h : n ≤ m) : arrived rs n <+: arrived rs m := by
  induction rs generalizing n m with
  | nil => exact List.prefix_rfl
  | cons r rs ih =>
    simp only [arrived]
    by_cases hn : n < r.size
    · rw [if_pos hn]
      exact List.nil_prefix
    · rw [if_neg hn,if_neg (by omega)]
      exact (List.prefix_append_right_inj _).mpr (ih (by omega))

end Arrived

end OxiServe.Fcgi
