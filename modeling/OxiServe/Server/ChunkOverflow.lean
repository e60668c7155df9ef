import OxiServe.Server.ChunkLine

/-! # Chunk sizes near the end of their type

The size of a chunk is a number below `2 ^ 64` that the client chooses. It is added to the
length of the body, and two are added to it, before anything of the chunk has arrived.
-/
namespace OxiServe.Server
open Chunked (crlf)

section Checked

/-- `read_chunked_body` with checked additions; none when one of them overflows. -/
def readChunksChecked (timesOut : Bool) (max : ℕ) : ℕ → Bytes → Source → Bytes → Option BodyRead
  | 0, _, _, body => some ⟨body,.refused 400⟩
  | fuel + 1, rest, reads, body =>
    match fillUntil timesOut sizeLine reads rest with
    | .error status => some ⟨body,.refused status⟩
    | .ok (i,rest,reads) =>
      match parseHex (sizeText (rest.take i)) with
      | none => some ⟨body,.refused 400⟩
      | some size =>
        if size = 0 then
          match readTrailers timesOut fuel (rest.drop (i + 2)) reads with
          | .error status => some ⟨body,.refused status⟩
          | .ok (rest,reads) => some ⟨body,.done rest reads⟩
        else if 2 ^ 64 ≤ body.length + size then none
        else if max < body.length + size then some ⟨body,.refused 413⟩
        else if 2 ^ 64 ≤ size + 2 then none
        else
          match fillUntil timesOut (holds (size + 2)) reads (rest.drop (i + 2)) with
          | .error status => some ⟨body,.refused status⟩
          | .ok (_,rest,reads) =>
            if (rest.drop size).take 2 ≠ crlf then some ⟨body ++ rest.take size,.refused 400⟩
            else readChunksChecked timesOut max fuel (rest.drop (size + 2)) reads (body ++ rest.take size)

/-- Behind chunks that are well formed and keep to the limit the stream announces one of
`size` bytes, when the body has `n`. -/
inductive Announced (timesOut : Bool) (max : ℕ) : Bytes → Source → ℕ → ℕ → ℕ → Prop
  | here {rest rest' : Bytes} {reads reads' : Source} {b i size : ℕ} :
    fillUntil timesOut sizeLine reads rest = .ok (i,rest',reads') → parseHex (sizeText (rest'.take i)) = some size →
      size ≠ 0 → Announced timesOut max rest reads b b size
  | behind {rest rest' rest'' : Bytes} {reads reads' reads'' : Source} {b i size n size' : ℕ} {u : Unit} :
    fillUntil timesOut sizeLine reads rest = .ok (i,rest',reads') → parseHex (sizeText (rest'.take i)) = some size →
      size ≠ 0 → b + size ≤ max → size + 2 < 2 ^ 64 →
      fillUntil timesOut (holds (size + 2)) reads' (rest'.drop (i + 2)) = .ok (u,rest'',reads'') →
      (rest''.drop size).take 2 = crlf →
      Announced timesOut max (rest''.drop (size + 2)) reads'' (b + size) n size' →
      Announced timesOut max rest reads b n size'

/-- The body is read without a panic, and within the limit. -/
structure Contained (timesOut : Bool) (max : ℕ) (rest : Bytes) (reads : Source) : Prop where
  returns : ∀ fuel, rest.length + Source.size reads < fuel →
    readChunks timesOut max fuel rest reads [] = readChunkedBody timesOut max rest reads
  checked : readChunksChecked timesOut max (rest.length + Source.size reads + 1) rest reads [] =
    some (readChunkedBody timesOut max rest reads)
  noPanic : (readChunkedBody timesOut max rest reads).ended ≠ .panic
  bounded : (readChunkedBody timesOut max rest reads).body.length ≤ max
  refuses : ∀ n size, Announced timesOut max rest reads 0 n size → max < n + size →
    (readChunkedBody timesOut max rest reads).ended = .refused 413

end Checked

section Fuel
variable {timesOut : Bool} {max : ℕ} {rest rest' body : Bytes} {reads reads' : Source} {i : ℕ}

/-- What is read on is some pieces of the socket, and then the bytes are as they are wanted. -/
theorem fillUntil_ok {α : Type} {ready : Bytes → Except ℕ (Option α)} {a : α}
    (h : fillUntil timesOut ready reads rest = .ok (a,rest',reads')) : ready rest' = .ok (some a) ∧
    ∃ bs : List Bytes, (∀ b ∈ bs, b ≠ []) ∧ reads = bs.map .data ++ reads' ∧ rest' = rest ++ bs.flatten := by
  induction reads generalizing rest with
  | nil =>
    unfold fillUntil at h
    cases hr : ready rest with
    | error e =>
      rw [hr] at h
      cases h
    | ok o =>
      cases o with
      | none =>
        rw [hr] at h
        cases h
      | some b =>
        rw [hr] at h
        cases h
        exact ⟨hr,[],(by intro _ h; cases h),rfl,(List.append_nil _).symm⟩
  | cons d reads ih =>
    unfold fillUntil at h
    cases hr : ready rest with
    | error e =>
      rw [hr] at h
      cases h
    | ok o =>
      cases o with
      | some b =>
        rw [hr] at h
        cases h
        exact ⟨hr,[],(by intro _ h; cases h),rfl,(List.append_nil _).symm⟩
      | none =>
        rw [hr] at h
        cases d with
        | failed => cases h
        | data b =>
          dsimp only at h
          split_ifs at h with hb
          obtain ⟨hready,bs,hbs,rfl,hrest⟩ := ih h
          refine ⟨hready,b :: bs,List.forall_mem_cons.mpr ⟨hb,hbs⟩,rfl,?_⟩
          rw [hrest,List.flatten_cons,List.append_assoc]

theorem size_pieces (bs : List Bytes) (reads : Source) :
    bs.flatten.length + Source.size reads ≤ Source.size (bs.map .data ++ reads) := by
  induction bs with
  | nil => exact Nat.le_of_eq (Nat.zero_add _)
  | cons b bs ih =>
    simp only [List.flatten_cons,List.map_cons,List.cons_append,List.length_append,Source.size]
    omega

/-- Reading on does not add to what there is. -/
theorem fillUntil_size {α : Type} {ready : Bytes → Except ℕ (Option α)} {a : α}
    (h : fillUntil timesOut ready reads rest = .ok (a,rest',reads')) :
    rest'.length + Source.size reads' ≤ rest.length + Source.size reads ∧ ready rest' = .ok (some a) := by
  obtain ⟨hready,bs,-,rfl,rfl⟩ := fillUntil_ok h
  have hsize := size_pieces bs reads'
  refine ⟨?_,hready⟩
  rw [List.length_append]
  omega

theorem sizeLine_some (h : sizeLine rest = .ok (some i)) : i + 2 ≤ rest.length := by
  unfold sizeLine at h
  cases hf : findCrlf rest with
  | some j =>
    rw [hf] at h
    cases h
    exact findCrlf_lt hf
  | none =>
    rw [hf] at h
    dsimp only at h
    split_ifs at h
    cases h

theorem holds_some {n : ℕ} {u : Unit} (h : holds n rest = .ok (some u)) : n ≤ rest.length := by
  unfold holds at h
  split_ifs at h with hn
  · exact hn
  · cases h

/-- Every line takes two bytes at least. -/
theorem sizeLine_size (h : fillUntil timesOut sizeLine reads rest = .ok (i,rest',reads')) :
    (rest'.drop (i + 2)).length + Source.size reads' + 2 ≤ rest.length + Source.size reads := by
  obtain ⟨hle,hr⟩ := fillUntil_size h
  have hi := sizeLine_some hr
  rw [List.length_drop]
  omega

theorem trailerLine_size (h : fillUntil timesOut trailerLine reads rest = .ok (i,rest',reads')) :
    (rest'.drop (i + 2)).length + Source.size reads' + 2 ≤ rest.length + Source.size reads := by
  obtain ⟨hle,hr⟩ := fillUntil_size h
  have hi : i + 2 ≤ rest'.length := findCrlf_lt (Except.ok.inj hr)
  rw [List.length_drop]
  omega

theorem readTrailers_fuel (fuel fuel' : ℕ) (h : rest.length + Source.size reads < fuel)
    (h' : rest.length + Source.size reads < fuel') :
    readTrailers timesOut fuel rest reads = readTrailers timesOut fuel' rest reads := by
  induction fuel generalizing rest reads fuel' with
  | zero => omega
  | succ fuel ih =>
    cases fuel' with
    | zero => omega
    | succ fuel' =>
      simp only [readTrailers]
      rcases hf : fillUntil timesOut trailerLine reads rest with e | ⟨i,rest',reads'⟩
      · rfl
      · have hlt := trailerLine_size hf
        dsimp only
        split
        · rfl
        · exact ih fuel' (by omega) (by omega)

/-- A fuel above the number of bytes to come is enough. -/
theorem readChunks_fuel (fuel fuel' : ℕ) (h : rest.length + Source.size reads < fuel)
    (h' : rest.length + Source.size reads < fuel') :
    readChunks timesOut max fuel rest reads body = readChunks timesOut max fuel' rest reads body := by
  induction fuel generalizing rest reads fuel' body with
  | zero => omega
  | succ fuel ih =>
    cases fuel' with
    | zero => omega
    | succ fuel' =>
      rcases hf : fillUntil timesOut sizeLine reads rest with e | ⟨i,rest',reads'⟩
      · simp only [readChunks,hf]
      · have hlt := sizeLine_size hf
        rw [readChunks_line max fuel body hf,readChunks_line max fuel' body hf]
        cases parseHex (sizeText (rest'.take i)) with
        | none => rfl
        | some size =>
          dsimp only
          unfold afterSize
          rw [readTrailers_fuel fuel fuel' (by omega) (by omega)]
          rcases hh : fillUntil timesOut (holds ((size + 2) % 2 ^ 64)) reads' (rest'.drop (i + 2)) with
            e | ⟨u,rest'',reads''⟩
          · rfl
          · have hle := (fillUntil_size hh).1
            have hdrop : (rest''.drop (size + 2)).length ≤ rest''.length := by
              rw [List.length_drop]
              exact Nat.sub_le _ _
            have hnext : readChunks timesOut max fuel (rest''.drop (size + 2)) reads'' (body ++ rest''.take size) =
                readChunks timesOut max fuel' (rest''.drop (size + 2)) reads'' (body ++ rest''.take size) :=
              ih fuel' (by omega) (by omega)
            dsimp only
            rw [hnext]

end Fuel

section Sums
variable {timesOut : Bool} {max b n size : ℕ} {rest body : Bytes} {reads : Source}

/-- A sum overflows, or two more than a size that fits. -/
def Overflows (max n size : ℕ) : Prop := 2 ^ 64 ≤ n + size ∨ (n + size ≤ max ∧ 2 ^ 64 ≤ size + 2)

theorem holds_length {u : Unit} {rest' : Bytes} {reads' : Source}
    (h : fillUntil timesOut (holds n) reads rest = .ok (u,rest',reads')) : n ≤ rest'.length :=
  holds_some (fillUntil_size h).2

/-- What the loop does at a size that it takes. -/
theorem readChunks_taken {rest' rest'' : Bytes} {reads' reads'' : Source} {i fuel : ℕ} {u : Unit}
    (hl : fillUntil timesOut sizeLine reads rest = .ok (i,rest',reads'))
    (hs : parseHex (sizeText (rest'.take i)) = some size) (h0 : size ≠ 0) (hfit : body.length + size ≤ max)
    (hsum : body.length + size < 2 ^ 64) (htwo : size + 2 < 2 ^ 64)
    (hh : fillUntil timesOut (holds (size + 2)) reads' (rest'.drop (i + 2)) = .ok (u,rest'',reads'')) :
    readChunks timesOut max (fuel + 1) rest reads body =
      if (rest''.drop size).take 2 ≠ crlf then ⟨body ++ rest''.take size,.refused 400⟩
      else readChunks timesOut max fuel (rest''.drop (size + 2)) reads'' (body ++ rest''.take size) := by
  rw [readChunks_line max fuel body hl,hs]
  dsimp only
  unfold afterSize
  rw [if_neg h0,Nat.mod_eq_of_lt hsum,if_neg (Nat.not_lt.mpr hfit),Nat.mod_eq_of_lt htwo,hh]
  dsimp only
  rw [if_neg (Nat.not_le.mpr htwo)]

theorem length_taken {r : Bytes} {u : Unit} {rest' : Bytes} {reads' : Source} (body : Bytes)
    (hh : fillUntil timesOut (holds (size + 2)) reads r = .ok (u,rest',reads')) :
    (body ++ rest'.take size).length = body.length + size := by
  have hlen := holds_length hh
  rw [List.length_append,List.length_take]
  omega

/-- An announced size that overflows stops the checked loop. -/
theorem checked_none (ha : Announced timesOut max rest reads b n size) (ho : Overflows max n size)
    (hb : body.length = b) (fuel : ℕ) (hf : rest.length + Source.size reads < fuel) :
    readChunksChecked timesOut max fuel rest reads body = none := by
  induction ha generalizing body fuel with
  | @here rest rest' reads reads' b i size hl hs h0 =>
    cases fuel with
    | zero => omega
    | succ fuel =>
      subst hb
      simp only [readChunksChecked,hl,hs,if_neg h0]
      rcases ho with ho | ⟨hfit,htwo⟩
      · rw [if_pos ho]
      · split
        · rfl
        · rw [if_neg (Nat.not_lt.mpr hfit)]
  | @behind rest rest' rest'' reads reads' reads'' b i size n size' u hl hs h0 hfit htwo hh hcr _ ih =>
    cases fuel with
    | zero => omega
    | succ fuel =>
      subst hb
      simp only [readChunksChecked,hl,hs,if_neg h0]
      split
      · rfl
      · have hlt := sizeLine_size hl
        have hle := (fillUntil_size hh).1
        have hdrop : (rest''.drop (size + 2)).length ≤ rest''.length := by
          rw [List.length_drop]
          exact Nat.sub_le _ _
        rw [if_neg (Nat.not_lt.mpr hfit),if_neg (Nat.not_le.mpr htwo),hh]
        dsimp only
        rw [if_neg (not_not.mpr hcr)]
        exact ih ho (length_taken body hh) fuel (by omega)

theorem Announced.le (ha : Announced timesOut max rest reads b n size) : b ≤ n := by
  induction ha with
  | here _ _ _ => exact Nat.le_refl _
  | behind _ _ _ _ _ _ _ _ ih => exact Nat.le_trans (Nat.le_add_right _ _) ih

/-- An announced size that does not fit is refused, when the sum does not overflow. -/
theorem announced_refused (ha : Announced timesOut max rest reads b n size) (hsum : n + size < 2 ^ 64)
    (hbig : max < n + size) (hb : body.length = b) (fuel : ℕ) (hf : rest.length + Source.size reads < fuel) :
    (readChunks timesOut max fuel rest reads body).ended = .refused 413 := by
  induction ha generalizing body fuel with
  | @here rest rest' reads reads' b i size hl hs h0 =>
    cases fuel with
    | zero => omega
    | succ fuel =>
      subst hb
      rw [readChunks_line max fuel body hl,hs]
      dsimp only
      unfold afterSize
      rw [if_neg h0,Nat.mod_eq_of_lt hsum,if_pos hbig]
  | @behind rest rest' rest'' reads reads' reads'' b i size n size' u hl hs h0 hfit htwo hh hcr hnext ih =>
    cases fuel with
    | zero => omega
    | succ fuel =>
      subst hb
      have hlt := sizeLine_size hl
      have hle := (fillUntil_size hh).1
      have hdrop : (rest''.drop (size + 2)).length ≤ rest''.length := by
        rw [List.length_drop]
        exact Nat.sub_le _ _
      have hmono : body.length + size ≤ n := hnext.le
      rw [readChunks_taken hl hs h0 hfit (by omega) htwo hh,if_neg (not_not.mpr hcr)]
      exact ih hsum hbig (length_taken body hh) fuel (by omega)

/-- The loop without an overflow is the checked one. -/
theorem readChunks_contained (hok : ∀ n size, Announced timesOut max rest reads b n size → ¬ Overflows max n size)
    (hb : body.length = b) (hmax : b ≤ max) (fuel : ℕ) :
    readChunksChecked timesOut max fuel rest reads body = some (readChunks timesOut max fuel rest reads body) ∧
      (readChunks timesOut max fuel rest reads body).ended ≠ .panic ∧
      (readChunks timesOut max fuel rest reads body).body.length ≤ max := by
  induction fuel generalizing rest reads body b with
  | zero => exact ⟨rfl,(by intro h; cases h),hb ▸ hmax⟩
  | succ fuel ih =>
    subst hb
    rcases hl : fillUntil timesOut sizeLine reads rest with e | ⟨i,rest',reads'⟩
    · simp only [readChunksChecked,readChunks,hl]
      exact ⟨trivial,(by intro h; cases h),hmax⟩
    rw [readChunks_line max fuel body hl]
    simp only [readChunksChecked,hl]
    cases hs : parseHex (sizeText (rest'.take i)) with
    | none => exact ⟨rfl,(by intro h; cases h),hmax⟩
    | some size =>
      dsimp only
      unfold afterSize
      by_cases h0 : size = 0
      · rw [if_pos h0,if_pos h0]
        cases readTrailers timesOut fuel (rest'.drop (i + 2)) reads' with
        | error e => exact ⟨rfl,(by intro h; cases h),hmax⟩
        | ok p => exact ⟨rfl,(by intro h; cases h),hmax⟩
      have hno := hok body.length size (.here hl hs h0)
      rw [Overflows,not_or,Nat.not_le] at hno
      obtain ⟨hsum,htwo⟩ := hno
      rw [if_neg h0,if_neg h0,Nat.mod_eq_of_lt hsum,if_neg (Nat.not_le.mpr hsum)]
      by_cases hbig : max < body.length + size
      · rw [if_pos hbig,if_pos hbig]
        exact ⟨rfl,(by intro h; cases h),hmax⟩
      have hfit := Nat.not_lt.mp hbig
      have htwo := Nat.not_le.mp (fun h => htwo ⟨hfit,h⟩)
      rw [if_neg hbig,if_neg hbig,Nat.mod_eq_of_lt htwo,if_neg (Nat.not_le.mpr htwo)]
      rcases hh : fillUntil timesOut (holds (size + 2)) reads' (rest'.drop (i + 2)) with e | ⟨u,rest'',reads''⟩
      · exact ⟨rfl,(by intro h; cases h),hmax⟩
      have hlen := length_taken body hh
      dsimp only
      rw [if_neg (Nat.not_le.mpr htwo)]
      by_cases hcr : (rest''.drop size).take 2 ≠ crlf
      · rw [if_pos hcr,if_pos hcr]
        exact ⟨rfl,(by intro h; cases h),hlen ▸ hfit⟩
      · rw [if_neg hcr,if_neg hcr]
        exact ih (fun n m ha => hok n m (.behind hl hs h0 hfit htwo hh (not_not.mp hcr) ha)) hlen hfit

/-- Every chunked body is read without a panic and within the limit exactly when no size
that the stream announces makes a sum overflow. -/
theorem contained_iff (timesOut : Bool) (max : ℕ) (rest : Bytes) (reads : Source) :
    Contained timesOut max rest reads ↔
      ∀ n size, Announced timesOut max rest reads 0 n size → ¬ Overflows max n size := by
  constructor
  · intro h n size ha ho
    have hn := checked_none ha ho (rfl : ([] : Bytes).length = 0) _ (Nat.lt_succ_self _)
    rw [h.checked] at hn
    cases hn
  · intro hok
    obtain ⟨hc,hp,hb⟩ := readChunks_contained hok (rfl : ([] : Bytes).length = 0) (Nat.zero_le _)
      (rest.length + Source.size reads + 1)
    refine ⟨fun fuel hf => readChunks_fuel _ _ hf (Nat.lt_succ_self _),hc,hp,hb,fun n size ha hbig => ?_⟩
    have hsum : n + size < 2 ^ 64 := Nat.not_le.mp (fun h => hok n size ha (.inl h))
    exact announced_refused ha hsum hbig rfl _ (Nat.lt_succ_self _)

/-- One byte, and then a chunk of `2 ^ 64 - 1`. -/
def wrapping : Bytes := lit "1\r\na\r\nffffffffffffffff\r\nX"

/-- A limit of one megabyte does not keep the worker from its panic. -/
theorem wrapping_panics : ¬ ∀ (timesOut : Bool) (max : ℕ) (rest : Bytes) (reads : Source),
    max < 2 ^ 64 → Contained timesOut max rest reads := by
  intro h
  exact (h false (1024 * 1024) wrapping [] (by decide)).noPanic (by decide +kernel)

end Sums

end OxiServe.Server
