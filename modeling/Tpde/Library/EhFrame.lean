import Tpde.Library.Bytes
import Tpde.Library.Leb128

/-!
# Exception frames

The records of an `.eh_frame` section, as an unwinder walks over them: each one starts
with its length, and a length of zero is the terminator. A record is a common
information entry, whose augmentation string says what the fields of the entries of
functions are, or the entry of a function.
-/

namespace EhFrame

open Bytes Leb128

/-! ### Records -/

/-- A record: where its length is, and what is behind the length. -/
structure Rec where
  off : ℕ
  body : List UInt8
  deriving DecidableEq

/-- A record with its length. -/
def Rec.bytes (r : Rec) : List UInt8 := ofNat 4 r.body.length ++ r.body

/-- The records from an offset on, at most `n`, and whether there is a terminator behind them; none where
a record does not end in the section. -/
def walk : ℕ → ℕ → List UInt8 → Option (List Rec × Bool)
  | _, _, [] => some ([], false)
  | 0, _, _ :: _ => none
  | n + 1, off, b :: bs =>
    let len := toNat ((b :: bs).take 4)
    if (b :: bs).length < 4 then none
    else if len = 0 then some ([], true)
    else if (b :: bs).length < 4 + len then none
    else (walk n (off + 4 + len) ((b :: bs).drop (4 + len))).map fun x =>
      (⟨off, ((b :: bs).drop 4).take len⟩ :: x.1, x.2)

/-- The records of a section. -/
def records (data : List UInt8) : Option (List Rec × Bool) := walk data.length 0 data

/-- Records one behind the other, with lengths that can be written. -/
def Placed : ℕ → List Rec → Prop
  | _, [] => True
  | off, r :: rs => r.off = off ∧ 0 < r.body.length ∧ r.body.length < 2 ^ 32 ∧
    Placed (off + 4 + r.body.length) rs

theorem Rec.length_bytes (r : Rec) : r.bytes.length = 4 + r.body.length := by
  rw [Rec.bytes, List.length_append, length_ofNat]

theorem Placed.append {rs' : List Rec} : ∀ {off : ℕ} {rs : List Rec}, Placed off rs →
    Placed (off + (rs.flatMap Rec.bytes).length) rs' → Placed off (rs ++ rs')
  | _, [], _, h' => h'
  | off, r :: rs, h, h' => by
    refine ⟨h.1, h.2.1, h.2.2.1, h.2.2.2.append ?_⟩
    rw [List.flatMap_cons, List.length_append, r.length_bytes] at h'
    rwa [show off + 4 + r.body.length + (rs.flatMap Rec.bytes).length =
      off + (4 + r.body.length + (rs.flatMap Rec.bytes).length) by omega]

/-- What is behind the last record. -/
def tail (terminated : Bool) : List UInt8 := if terminated then [0, 0, 0, 0] else []

/-- **The walk** finds the records, up to the end of the section or the terminator. -/
theorem walk_placed {terminated : Bool} : ∀ {rs : List Rec} {n off : ℕ}, Placed off rs →
    (rs.flatMap Rec.bytes ++ tail terminated).length ≤ n →
      walk n off (rs.flatMap Rec.bytes ++ tail terminated) = some (rs, terminated)
  | [], n, off, _, hn => by
    cases terminated with
    | false => cases n <;> rfl
    | true =>
      obtain ⟨n, rfl⟩ : ∃ m, n = m + 1 := ⟨n - 1, by simp [tail] at hn; omega⟩
      rfl
  | r :: rs, n, off, h, hn => by
    obtain ⟨rfl, hpos, hlt, hrs⟩ := h
    set rest := rs.flatMap Rec.bytes ++ tail terminated with hrest
    have hbytes :
      (r :: rs).flatMap Rec.bytes ++ tail terminated = ofNat 4 r.body.length ++ (r.body ++ rest) := by
      rw [List.flatMap_cons, Rec.bytes, List.append_assoc, List.append_assoc]
    rw [hbytes] at hn ⊢
    have hlen : (ofNat 4 r.body.length ++ (r.body ++ rest)).length = 4 + r.body.length + rest.length := by
      rw [List.length_append, List.length_append, length_ofNat]
      omega
    rw [hlen] at hn
    obtain ⟨n, rfl⟩ : ∃ m, n = m + 1 := ⟨n - 1, by omega⟩
    obtain ⟨b, bs, hcons⟩ :=
      List.exists_cons_of_length_pos (show 0 < (ofNat 4 r.body.length ++ (r.body ++ rest)).length by omega)
    have htake : toNat ((b :: bs).take 4) = r.body.length := by
      rw [← hcons, List.take_append_of_le_length (by rw [length_ofNat]),
        List.take_of_length_le (by rw [length_ofNat]),
        toNat_ofNat, Nat.mod_eq_of_lt (show r.body.length < 256 ^ 4 from hlt)]
    have hdrop : (b :: bs).drop 4 = r.body ++ rest := by
      rw [← hcons, List.drop_append_of_le_length (by rw [length_ofNat]),
        List.drop_of_length_le (by rw [length_ofNat]),
        List.nil_append]
    have hrec : walk n (r.off + 4 + r.body.length) ((b :: bs).drop (4 + r.body.length)) =
      some (rs, terminated) := by
      rw [← List.drop_drop, hdrop, List.drop_left]
      exact walk_placed hrs (by rw [← hrest]; omega)
    rw [hcons] at hlen ⊢
    rw [walk]
    simp only [htake]
    rw [if_neg (by omega), if_neg (by omega), if_neg (by omega), hrec, hdrop, List.take_left]
    rfl

theorem records_placed {rs : List Rec} (terminated : Bool) (h : Placed 0 rs) :
    records (rs.flatMap Rec.bytes ++ tail terminated) = some (rs, terminated) := walk_placed h le_rfl

/-! ### The fields of a common information entry -/

/-- The fields that an augmentation string announces: the personality's encoding with the offset of its
pointer in the record, and the encodings of pointers to the data of a function, and to functions. -/
structure Augmentation where
  personality : Option (UInt8 × ℕ) := none
  lsda : Option UInt8 := none
  fde : Option UInt8 := none
  deriving DecidableEq

/-- The fields from an offset of the record on. Pointers of four bytes are understood. -/
def readAugmentation : List UInt8 → ℕ → List UInt8 → Augmentation → Option Augmentation
  | [], _, _, aug => some aug
  | letter :: letters, pos, enc :: bs, aug =>
    if letter = 0x50 then
      if enc &&& 0x0f = 0x0b then readAugmentation letters (pos + 5) (bs.drop 4) { aug with
        personality := some (enc, pos + 1) }
      else none
    else if letter = 0x4c then readAugmentation letters (pos + 1) bs { aug with lsda := some enc }
    else if letter = 0x52 then readAugmentation letters (pos + 1) bs { aug with fde := some enc }
    else none
  | _ :: _, _, [], _ => none

/-- A common information entry. -/
structure Cie where
  codeAlign : ℕ
  dataAlign : ℤ
  returnReg : UInt8
  aug : Augmentation
  insts : List UInt8
  deriving DecidableEq

/-- The part behind the augmentation string, in a record of `n` bytes. -/
def readCieTail (n : ℕ) (letters bs : List UInt8) : Option Cie := do
  let (codeAlign, bs) ← readUleb bs
  let (dataAlign, bs) ← readSleb bs
  let (returnReg, bs) ← bs.head?.map fun b => (b, bs.tail)
  let (augLen, bs) ← readUleb bs
  let aug ← readAugmentation letters (n - bs.length) bs {}
  return ⟨codeAlign, dataAlign, returnReg, aug, bs.drop augLen⟩

/-- A common information entry of version 1, whose augmentation has its length. -/
def readCie (body : List UInt8) : Option Cie :=
  if body.take 5 = [0, 0, 0, 0, 1] then
    let letters := (body.drop 5).takeWhile fun b => b ≠ 0
    if letters.head? = some 0x7a then
      readCieTail body.length letters.tail (body.drop (5 + letters.length + 1))
    else none
  else none

/-! ### The fields of the entry of a function -/

/-- The entry of a function. Its start is a field at offset 4 of the record; what the augmentation announces
is given by the offset of its field. -/
structure Fde where
  cieOff : ℕ
  pcRange : ℕ
  lsda : Option ℕ
  insts : List UInt8
  deriving DecidableEq

/-- The entry of a function, with pointers of four bytes. Its first field is the distance from itself to the
common entry. -/
def readFde (off : ℕ) (aug : Augmentation) (body : List UInt8) : Option Fde :=
  let id := toNat (body.take 4)
  if id = 0 ∨ off + 4 < id ∨ aug.fde.map (fun enc => enc &&& 0x0f) ≠ some 0x0b then none
  else (readUleb (body.drop 12)).bind fun x =>
    let field := body.length - x.2.length
    match aug.lsda with
    | none => some ⟨off + 4 - id, toNat ((body.drop 8).take 4), none, x.2.drop x.1⟩
    | some enc =>
      if enc &&& 0x0f = 0x0b ∧ 4 ≤ x.1 then
        some ⟨off + 4 - id, toNat ((body.drop 8).take 4), some field, x.2.drop x.1⟩
      else none

end EhFrame
