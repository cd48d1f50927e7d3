import Tpde.Library.Bytes
import Tpde.Util.Leb

/-!
# Writing LEB128 to vectors

`VectorWriter`: a cursor in a vector of bytes that makes room for what is written. What it
writes are the bytes of `uleb_write` and `sleb_write`, between bytes that it leaves alone.
Together with the functions of `Leb` this is the round trip of 64-bit numbers: it holds for
the unsigned ones, and for those signed ones that `SlebFits`.
-/

namespace Tpde.Util

open Bytes Leb128

/-! ### The model -/

/-- `uleb_len`, on 64 bits. -/
def ulebLen64 (value : BitVec 64) : ℕ := if value ≠ 0 then (64 - value.clz.toNat + 6) / 7 else 1

/-- A `SmallVectorBase<u8>`: its buffer, and how much of it is in use. -/
structure ByteVector where
  mem : Mem
  sz : ℕ
  cap : ℕ
  sz_le : sz ≤ cap

/-- `calc_new_capacity`. -/
def calcNewCapacity (cap minSize : ℕ) : ℕ := if 2 * cap + 1 < minSize then minSize else 2 * cap + 1

/-- `reserve` of the vector. Behind the elements that it copies, a new buffer has some `fresh` bytes. -/
def ByteVector.reserve (v : ByteVector) (fresh : Mem) (newCap : ℕ) : ByteVector :=
  if v.cap < newCap then
    { mem := fun i => if i < v.sz then v.mem i else fresh i
      sz := v.sz
      cap := calcNewCapacity v.cap newCap
      sz_le := by
        have := v.sz_le
        unfold calcNewCapacity
        split <;> omega }
  else v

/-- A writer: the offsets of `cur` and `end` in the vector. -/
structure VectorWriter where
  vector : ByteVector
  cur : ℕ
  stop : ℕ
  cur_le : cur ≤ stop
  stop_eq : stop = vector.sz

namespace VectorWriter

/-- `reserve`. -/
def reserve (w : VectorWriter) (fresh : Mem) (extra : ℕ) : VectorWriter :=
  if w.stop - w.cur < extra then
    let vector := if w.vector.cap < w.cur + extra then w.vector.reserve fresh (w.cur + extra) else w.vector
    { vector := { vector with sz := vector.cap, sz_le := le_rfl }
      cur := w.cur
      stop := vector.cap
      cur_le := by
        have h := w.vector.sz_le
        have hcur := w.stop_eq ▸ w.cur_le
        dsimp only [vector]
        split
        · unfold ByteVector.reserve calcNewCapacity
          split
          · dsimp only
            split <;> omega
          · omega
        · omega
      stop_eq := rfl }
  else w

/-- What `dst` is written with, and `cur += n`. -/
def advance (w : VectorWriter) (bs : List UInt8) (h : bs.length ≤ w.stop - w.cur) : VectorWriter :=
  { vector := { w.vector with mem := w.vector.mem.store w.cur bs }
    cur := w.cur + bs.length
    stop := w.stop
    cur_le := by
      have := w.cur_le
      omega
    stop_eq := w.stop_eq }

end VectorWriter

/-! ### Lengths -/

theorem ulebLen64_eq (value : BitVec 64) : ulebLen64 value = ulebLen value.toNat := by
  unfold ulebLen64 ulebLen
  by_cases h : value = 0
  · rw [if_neg (not_not.mpr h), if_pos (by rw [h]; rfl)]
  · have hne : value.toNat ≠ 0 := fun h0 => h (BitVec.eq_of_toNat_eq h0)
    have hlow := BitVec.two_pow_sub_clz_le_toNat_of_ne_zero (by decide) h
    have hhigh := @BitVec.toNat_lt_two_pow_sub_clz 64 value
    have hclz := Nat.le_of_lt (BitVec.lt_def.mp (BitVec.clz_lt_iff_ne_zero.mpr h))
    have hlog : value.toNat.log2 + 1 = 64 - value.clz.toNat := by
      apply le_antisymm
      · exact (Nat.log2_lt hne).mpr hhigh
      · have := (Nat.le_log2 hne).mpr hlow
        omega
    rw [if_pos h, if_neg hne, hlog]

theorem ulebLen64_le (value : BitVec 64) : ulebLen64 value ≤ 10 := by
  unfold ulebLen64
  split <;> omega

theorem length_slebGroups_le : ∀ {k n : ℕ} {value : ℤ}, magnitude value < 128 ^ (k + 1) →
    (slebGroups n value).length ≤ k + 1
  | _, 0, _, _ => Nat.zero_le _
  | k, n + 1, value, h => by
    rw [slebGroups_succ]
    split
    · simp
    · rename_i hbig
      obtain _ | k := k
      · exact absurd h hbig
      · have hdiv : magnitude (value / 128) < 128 ^ (k + 1) := by
          rw [magnitude_div, Nat.div_lt_iff_lt_mul (by decide), ← pow_succ]
          exact h
        rw [List.length_cons]
        exact Nat.succ_le_succ (length_slebGroups_le hdiv)

/-- Ten bytes are enough, as `write_sleb` assumes. -/
theorem length_slebWrite_le (value : BitVec 64) : (slebWrite value.toInt).length ≤ 10 := by
  have hle := value.toInt_le
  have hge := value.le_toInt
  have hmag : magnitude value.toInt < 128 ^ (8 + 1) := by
    unfold magnitude
    split <;> omega
  exact (length_slebGroups_le hmag).trans (by decide)

/-! ### The writer -/

namespace VectorWriter

/-- `write_uleb_unchecked`. -/
def writeUlebUnchecked (w : VectorWriter) (value : BitVec 64) : Option VectorWriter :=
  if h : ulebLen64 value ≤ w.stop - w.cur then
    some (w.advance (ulebWrite value.toNat) (by rwa [length_ulebWrite, ← ulebLen64_eq]))
  else none

/-- `write_uleb`. -/
def writeUleb (w : VectorWriter) (fresh : Mem) (value : BitVec 64) : Option VectorWriter :=
  (w.reserve fresh 10).writeUlebUnchecked value

/-- `write_sleb_unchecked`. -/
def writeSlebUnchecked (w : VectorWriter) (value : BitVec 64) : Option VectorWriter :=
  if h : 10 ≤ w.stop - w.cur then
    some (w.advance (slebWrite value.toInt) ((length_slebWrite_le value).trans h))
  else none

/-- `write_sleb`. -/
def writeSleb (w : VectorWriter) (fresh : Mem) (value : BitVec 64) : Option VectorWriter :=
  (w.reserve fresh 10).writeSlebUnchecked value

/-- The bytes in front of the cursor: what `flush` leaves in the vector. -/
def written (w : VectorWriter) : List UInt8 := w.vector.mem.load 0 w.cur

/-- Some bytes were written at the cursor. The elements of the vector behind them are what they were. -/
structure Writes (w w' : VectorWriter) (bs : List UInt8) : Prop where
  written : w'.written = w.written ++ bs
  behind : ∀ i < w.vector.sz, w.cur + bs.length ≤ i → w'.vector.mem i = w.vector.mem i

variable {w : VectorWriter} {fresh : Mem}

@[simp] theorem advance_cur (bs : List UInt8) (h : bs.length ≤ w.stop - w.cur) :
    (w.advance bs h).cur = w.cur + bs.length := rfl

@[simp] theorem advance_mem (bs : List UInt8) (h : bs.length ≤ w.stop - w.cur) :
    (w.advance bs h).vector.mem = w.vector.mem.store w.cur bs := rfl

@[simp] theorem reserve_cur (extra : ℕ) : (w.reserve fresh extra).cur = w.cur := by
  unfold reserve
  split <;> rfl

theorem reserve_mem {extra i : ℕ} (h : i < w.vector.sz) :
    (w.reserve fresh extra).vector.mem i = w.vector.mem i := by
  unfold reserve ByteVector.reserve
  split
  · dsimp only
    split
    · exact if_pos h
    · rfl
  · rfl

theorem reserve_room (extra : ℕ) : extra ≤ (w.reserve fresh extra).stop - (w.reserve fresh extra).cur := by
  unfold reserve ByteVector.reserve calcNewCapacity
  split
  · dsimp only
    split
    · dsimp only
      split <;> omega
    · omega
  · omega

/-- Writing behind what `reserve` keeps. -/
theorem writes_reserve {extra : ℕ} {bs : List UInt8}
    (h : bs.length ≤ (w.reserve fresh extra).stop - (w.reserve fresh extra).cur) :
    w.Writes ((w.reserve fresh extra).advance bs h) bs := by
  have hsz : w.cur ≤ w.vector.sz := w.stop_eq ▸ w.cur_le
  refine ⟨?_, fun i hi hbehind => ?_⟩
  · simp only [written, advance_mem, advance_cur, reserve_cur, Mem.load, List.range_add,
      List.map_append, List.map_map]
    congr 1
    · refine List.map_congr_left fun i hi => ?_
      have hi := List.mem_range.mp hi
      rw [Mem.store_of_not_mem (by omega), reserve_mem (by omega)]
    · refine List.ext_getElem (by simp) fun i _ hi => ?_
      simp only [List.getElem_map, List.getElem_range, Function.comp_apply, Nat.zero_add]
      exact Mem.store_apply hi
  · rw [advance_mem, reserve_cur]
    exact (Mem.store_of_not_mem (.inr hbehind)).trans (reserve_mem hi)

theorem writeUleb_spec (w : VectorWriter) (fresh : Mem) (value : BitVec 64) :
    ∃ w', w.writeUleb fresh value = some w' ∧ w.Writes w' (ulebWrite value.toNat) :=
  ⟨_, dif_pos ((ulebLen64_le value).trans (reserve_room 10)), writes_reserve _⟩

theorem writeSleb_spec (w : VectorWriter) (fresh : Mem) (value : BitVec 64) :
    ∃ w', w.writeSleb fresh value = some w' ∧ w.Writes w' (slebWrite value.toInt) :=
  ⟨_, dif_pos (reserve_room 10), writes_reserve _⟩

end VectorWriter

/-! ### Round trips -/

/-- An unsigned and a signed number are read back from what is written for them, on its own and by a
writer. -/
structure RoundTrip (w : VectorWriter) (fresh : Mem) (u v : BitVec 64) : Prop where
  uleb : IsUleb u.toNat (ulebWrite u.toNat)
  ulebLen : ulebLen64 u = (ulebWrite u.toNat).length
  sleb : IsSleb v.toInt (slebWrite v.toInt)
  writeUleb : ∃ w', w.writeUleb fresh u = some w' ∧ w.Writes w' (ulebWrite u.toNat)
  writeSleb : ∃ w', w.writeSleb fresh v = some w' ∧ w.Writes w' (slebWrite v.toInt)

theorem isSleb_slebWrite_iff {value : ℤ} : IsSleb value (slebWrite value) ↔ SlebFits value := by
  rw [← slebReadBack_eq_iff]
  refine ⟨fun h => ?_, fun h => ?_⟩
  · have hread := (slebWrite_isSleb value []).symm.trans (h [])
    exact (Prod.mk.inj (Option.some.inj hread)).1
  · have hread := slebWrite_isSleb value
    rwa [h] at hread

/-- **LEB128 round trips**: all is read back exactly if the signed number has room for its sign. -/
theorem leb_roundTrip_iff (w : VectorWriter) (fresh : Mem) (u v : BitVec 64) : RoundTrip w fresh u v ↔
    SlebFits v.toInt := by
  refine ⟨fun h => isSleb_slebWrite_iff.mp h.sleb,
    fun h => ⟨ulebWrite_isUleb _, ?_, isSleb_slebWrite_iff.mpr h, ?_, ?_⟩⟩
  · rw [ulebLen64_eq, length_ulebWrite]
  · exact w.writeUleb_spec fresh u
  · exact w.writeSleb_spec fresh v

/-- The byte of 64 has the bit of the sign. -/
theorem sleb_sixtyFour : ¬ IsSleb (64#64).toInt (slebWrite (64#64).toInt) := by
  rw [isSleb_slebWrite_iff]
  decide

end Tpde.Util
