import Tpde.Library.Bytes

/-!
# Jumps of x86-64, and patches

Relative jumps as bytes: `jmp` and the 16 conditional jumps, with a displacement of 8 or of 32 bits that
counts from the end of the instruction. `relJump` takes the short form where it reaches
(`decodeJump_relJump`). A field of bytes is patched by what is computed from its old contents; patches
of fields that are apart do not see each other (`load_patchAll`).
-/

namespace X64Code

open Bytes

/-! ### Jumps -/

/-- The number in two's complement. -/
def signed (bs : List UInt8) : ℤ := (BitVec.ofNat (8 * bs.length) (toNat bs)).toInt

theorem signed_word {bs : List UInt8} (h : bs.length = 4) :
    signed bs = (BitVec.ofNat 32 (toNat bs)).toInt := by
  rw [signed, h]

/-- The number in a word of 32 bits. -/
theorem signed_ofNat (v : BitVec 32) : signed (ofNat 4 v.toNat) = v.toInt := by
  rw [signed_word (length_ofNat ..), toNat_ofNat, show 256 ^ 4 = 2 ^ 32 by norm_num,
    Nat.mod_eq_of_lt v.isLt, BitVec.ofNat_toNat,
    BitVec.setWidth_eq]

/-- A relative jump: its condition code, its length, and the displacement from its end. -/
structure RelJump where
  cond : Option ℕ
  length : ℕ
  disp : ℤ
  deriving DecidableEq

/-- The displacement of `n` bytes behind an opcode of `len` bytes. -/
def withDisp (cond : Option ℕ) (len n : ℕ) (bs : List UInt8) : Option RelJump :=
  if n ≤ bs.length then some ⟨cond, len + n, signed (bs.take n)⟩ else none

/-- The jump that starts with the first byte. -/
def decodeJump : List UInt8 → Option RelJump
  | [] => none
  | op :: bs =>
    if op = 0xe9 then withDisp none 1 4 bs
    else if op = 0xeb then withDisp none 1 1 bs
    else if op.toNat / 16 = 7 then withDisp (some (op.toNat % 16)) 1 1 bs
    else if op = 0x0f then
      match bs with
      | [] => none
      | op :: bs => if op.toNat / 16 = 8 then withDisp (some (op.toNat % 16)) 2 4 bs else none
    else none

/-- The opcode of a jump with a displacement of 32 bits. -/
def longOpcode : Option ℕ → List UInt8
  | none => [0xe9]
  | some cond => [0x0f, UInt8.ofNat (0x80 + cond)]

theorem withDisp_append {cond : Option ℕ} {len n : ℕ} {disp rest : List UInt8} (h : disp.length = n) :
    withDisp cond len n (disp ++ rest) = some ⟨cond, len + n, signed disp⟩ := by
  rw [withDisp, if_pos (by rw [List.length_append]; omega), ← h, List.take_left]

/-- A jump with a displacement of 32 bits. -/
theorem decodeJump_long {cond : Option ℕ} (hcond : ∀ c ∈ cond, c < 16) {disp rest : List UInt8}
    (h : disp.length = 4) :
    decodeJump (longOpcode cond ++ disp ++ rest) = some ⟨cond, (longOpcode cond).length + 4,
      signed disp⟩ := by
  rw [List.append_assoc]
  cases cond with
  | none => exact withDisp_append h
  | some c =>
    have hc : c < 16 := hcond c rfl
    have hop : (UInt8.ofNat (0x80 + c)).toNat = 0x80 + c := by
      rw [UInt8.toNat_ofNat']
      omega
    change decodeJump (0x0f :: UInt8.ofNat (0x80 + c) :: (disp ++ rest)) = _
    rw [decodeJump, if_neg (by decide), if_neg (by decide), if_neg (by decide), if_pos rfl, hop,
      if_pos (by omega),
      show (0x80 + c) % 16 = c by omega, withDisp_append h]
    rfl

/-! ### Encoding -/

/-- The number of `n` bytes in two's complement. -/
def relBytes (n : ℕ) (d : ℤ) : List UInt8 := ofNat n (d % (2 ^ (8 * n) : ℕ)).toNat

def Fits (n : ℕ) (d : ℤ) : Prop := -2 ^ (8 * n - 1) ≤ d ∧ d < 2 ^ (8 * n - 1)

instance (n : ℕ) (d : ℤ) : Decidable (Fits n d) := inferInstanceAs (Decidable (_ ∧ _))

theorem signed_relBytes {n : ℕ} {d : ℤ} (hn : 0 < n) (h : Fits n d) : signed (relBytes n d) = d := by
  have hpos : (0 : ℤ) < (2 ^ (8 * n) : ℕ) := by positivity
  have hpow : 256 ^ n = 2 ^ (8 * n) := by rw [pow_mul]; norm_num
  have hmod : (d % (2 ^ (8 * n) : ℕ)).toNat % 2 ^ (8 * n) = (d % (2 ^ (8 * n) : ℕ)).toNat :=
    Nat.mod_eq_of_lt (by have := Int.emod_lt_of_pos d hpos; have := Int.emod_nonneg d hpos.ne'; omega)
  have hhalf : (2 : ℤ) ^ (8 * n) = 2 * 2 ^ (8 * n - 1) := by rw [← pow_succ', Nat.sub_add_cancel (by omega)]
  rw [signed, relBytes, length_ofNat, toNat_ofNat, hpow, hmod, BitVec.toInt_ofNat',
    Int.toNat_of_nonneg (Int.emod_nonneg d hpos.ne'), Int.emod_bmod]
  obtain ⟨hlo, hhi⟩ := h
  apply Int.bmod_eq_of_le <;> push_cast <;> omega

/-- A short jump if it may be one and reaches, and else a long one if that reaches. -/
def relJump (short long : List UInt8) (isLong : Bool) (d : ℤ) : List UInt8 :=
  if isLong = false ∧ Fits 1 (d - (short.length + 1 : ℕ)) then
    short ++ relBytes 1 (d - (short.length + 1 : ℕ))
  else if Fits 4 (d - (long.length + 4 : ℕ)) then long ++ relBytes 4 (d - (long.length + 4 : ℕ)) else []

theorem length_relBytes (n : ℕ) (d : ℤ) : (relBytes n d).length = n := length_ofNat ..

theorem length_relJump_le {short long : List UInt8} {isLong : Bool} {d : ℤ} (hshort : short.length ≤ 1)
    (hlong : long.length ≤ 2) :
    (relJump short long isLong d).length ≤ 6 := by
  rw [relJump]
  split
  · rw [List.length_append, length_relBytes]
    omega
  · split
    · rw [List.length_append, length_relBytes]
      omega
    · exact Nat.zero_le _

theorem relJump_ne_nil {short long : List UInt8} {isLong : Bool} {d : ℤ} (hlong : long.length ≤ 2)
    (hlo : -2 ^ 31 + 6 ≤ d) (hhi : d < 2 ^ 31) :
    relJump short long isLong d ≠ [] := by
  have hne {n : ℕ} (hn : 0 < n) (pre : List UInt8) (d : ℤ) : pre ++ relBytes n d ≠ [] :=
    List.ne_nil_of_length_pos (by rw [List.length_append, length_relBytes]; omega)
  have hfits : Fits 4 (d - (long.length + 4 : ℕ)) := by
    constructor <;> norm_num <;> omega
  rw [relJump, if_pos hfits]
  split
  · exact hne Nat.one_pos _ _
  · exact hne (Nat.succ_pos 3) _ _

theorem relJump_long (short : List UInt8) {long : List UInt8} {d : ℤ} (h : relJump short long true d ≠ []) :
    ∃ disp, disp.length = 4 ∧ relJump short long true d = long ++ disp := by
  rw [relJump, if_neg (by simp)] at h ⊢
  split at h
  · rw [if_pos ‹_›]
    exact ⟨_, length_relBytes .., rfl⟩
  · exact absurd rfl h

/-- A jump leads to its target if both opcodes are understood. -/
theorem decodeJump_relJump {cond : Option ℕ} {short long : List UInt8} {isLong : Bool} {d : ℤ}
    {rest : List UInt8}
    (hshort : ∀ disp rest, disp.length = 1 →
      decodeJump (short ++ disp ++ rest) = some ⟨cond, short.length + 1, signed disp⟩)
    (hlong : ∀ disp rest, disp.length = 4 →
      decodeJump (long ++ disp ++ rest) = some ⟨cond, long.length + 4, signed disp⟩)
    (h : relJump short long isLong d ≠ []) :
    decodeJump (relJump short long isLong d ++ rest) =
      some ⟨cond, (relJump short long isLong d).length, d - ((relJump short long isLong d).length : ℕ)⟩ := by
  rw [relJump] at *
  split at h <;> rename_i hfits
  · rw [if_pos hfits, hshort _ _ (length_relBytes ..), signed_relBytes Nat.one_pos hfits.2,
      List.length_append, length_relBytes]
  · rw [if_neg hfits]
    split at h <;> rename_i hfits
    · rw [if_pos hfits, hlong _ _ (length_relBytes ..), signed_relBytes (by norm_num) hfits,
        List.length_append, length_relBytes]
    · exact absurd rfl h

theorem decodeJump_short {disp rest : List UInt8} (h : disp.length = 1) :
    decodeJump ([0xeb] ++ disp ++ rest) = some ⟨none, 1 + 1, signed disp⟩ :=
  (congrArg decodeJump (List.append_assoc ..)).trans (withDisp_append h)

theorem decodeJump_shortCond {cond : ℕ} (hcond : cond < 16) {disp rest : List UInt8} (h : disp.length = 1) :
    decodeJump ([UInt8.ofNat (0x70 + cond)] ++ disp ++ rest) = some ⟨some cond, 1 + 1, signed disp⟩ := by
  have hop : (UInt8.ofNat (0x70 + cond)).toNat = 0x70 + cond := by
    rw [UInt8.toNat_ofNat']
    omega
  have hne {b : UInt8} (hb : 0x80 ≤ b.toNat) : UInt8.ofNat (0x70 + cond) ≠ b := by
    rintro rfl
    omega
  change decodeJump (UInt8.ofNat (0x70 + cond) :: (disp ++ rest)) = _
  rw [decodeJump.eq_def]
  dsimp only
  rw [if_neg (hne (by decide)), if_neg (hne (by decide)), hop, if_pos (by omega),
    show (0x70 + cond) % 16 = cond by omega,
    withDisp_append h]

/-! ### Patches -/

section
variable {ι : Type} (place : ι → ℕ) (n : ℕ) (value : ι → List UInt8 → List UInt8)

/-- Patches a field of `n` bytes. -/
def patch (m : Mem) (i : ι) : Mem := m.store (place i) (value i (m.load (place i) n))

def patchAll (m : Mem) (is : List ι) : Mem := is.foldl (patch place n value) m

variable {place n value} {m : Mem} {is : List ι}

theorem patch_of_not_mem {i : ι} {a : ℕ} (hlen : ∀ bs, (value i bs).length = n)
    (h : a < place i ∨ place i + n ≤ a) :
    patch place n value m i a = m a :=
  Mem.store_of_not_mem (by rwa [hlen])

/-- Outside the fields nothing changes. -/
theorem patchAll_of_not_mem {a : ℕ} (hlen : ∀ i ∈ is, ∀ bs, (value i bs).length = n)
    (h : ∀ i ∈ is, a < place i ∨ place i + n ≤ a) :
    patchAll place n value m is a = m a := by
  induction is generalizing m with
  | nil => rfl
  | cons i is ih =>
    rw [patchAll, List.foldl_cons, ← patchAll,
      ih (fun j hj => hlen j (List.mem_cons_of_mem _ hj)) fun j hj => h j (List.mem_cons_of_mem _ hj),
      patch_of_not_mem (hlen i List.mem_cons_self) (h i List.mem_cons_self)]

/-- **Each field is patched by its own contents**, if the fields are apart. -/
theorem load_patchAll (hlen : ∀ i ∈ is, ∀ bs, (value i bs).length = n)
    (hapart : is.Pairwise fun i j => place i + n ≤ place j ∨ place j + n ≤ place i) {i : ι} (hi : i ∈ is) :
    (patchAll place n value m is).load (place i) n = value i (m.load (place i) n) := by
  induction is generalizing m with
  | nil => exact absurd hi List.not_mem_nil
  | cons j js ih =>
    obtain ⟨hhead, htail⟩ := List.pairwise_cons.mp hapart
    have hlen' : ∀ k ∈ js, ∀ bs, (value k bs).length = n := fun k hk => hlen k (List.mem_cons_of_mem _ hk)
    rw [patchAll, List.foldl_cons, ← patchAll]
    rcases List.mem_cons.mp hi with rfl | hi
    · -- The other patches are elsewhere.
      have hkeep : (patchAll place n value (patch place n value m i) js).load (place i) n =
        (patch place n value m i).load (place i) n := by
        refine Mem.load_congr fun a hlo hhi => patchAll_of_not_mem hlen' fun k hk => ?_
        have := hhead k hk
        omega
      have hself := Mem.load_store m (place i) (value i (m.load (place i) n))
      rw [hlen i List.mem_cons_self] at hself
      rw [hkeep, patch, hself]
    · have hfirst : (patch place n value m j).load (place i) n = m.load (place i) n := by
        refine Mem.load_congr fun a hlo hhi => patch_of_not_mem (hlen j List.mem_cons_self) ?_
        have := hhead i hi
        omega
      rw [ih hlen' htail hi, hfirst]

end

end X64Code
