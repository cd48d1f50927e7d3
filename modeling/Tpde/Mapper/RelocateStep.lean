import Mathlib
import Tpde.Mapper.Relocate

/-!
# One relocation

What the processor makes of a relocated field (`Applied`), when `resolve_reloc`
refuses a relocation (`Refused`), when it should (`Unservable`), and when it goes
wrong (`Wrong`). A relocation writes its field and at most one new PLT/GOT slot.
If it is not refused its field is right exactly if it is not a wrong one.
-/

namespace Tpde.Mapper

open Bytes BitFields

/-! ### What is computed -/

/-- The word at an address. -/
def word32 (m : Mem) (pc : ℕ) : BitVec 32 := .ofNat 32 (m.loadNat pc 4)

/-- The double word at an address. -/
def word64 (m : Mem) (pc : ℕ) : BitVec 64 := .ofNat 64 (m.loadNat pc 8)

/-- The distance that `B` and `BL` branch. -/
def branch26 (w : BitVec 32) : BitVec 64 := (w.extractLsb' 0 26 ++ 0#2).signExtend 64

/-- The distance in bytes between the pages of `ADRP`. -/
def pages21 (w : BitVec 32) : BitVec 64 := ((w.extractLsb' 5 19 ++ w.extractLsb' 29 2) ++ 0#12).signExtend 64

/-- The immediate of `ADD`, and of `LDR` in units of the access size. -/
def imm12 (w : BitVec 32) : BitVec 64 := (w.extractLsb' 10 12).setWidth 64

/-- Where a PLT slot jumps: `jmp [rip + disp32]`, or `ldr x16, pc + imm19; br x16`. -/
def jumpTarget (m : Mem) (pc : ℕ) : Arch → Option (BitVec 64)
  | .x86_64 =>
    if m.load pc 2 = [0xff, 0x25] then
      some (word64 m (BitVec.ofNat 64 (pc + 6) + (word32 m (pc + 2)).signExtend 64).toNat)
    else none
  | .aarch64 =>
    if word32 m pc &&& 0xff00001f = 0x58000010 ∧ word32 m (pc + 4) = 0xd61f0200 then
      some (word64 m (BitVec.ofNat 64 pc + ((word32 m pc).extractLsb' 5 19 ++ 0#2).signExtend 64).toNat)
    else none

section
variable (arch : Arch) (st : MapState) (pc idx : ℕ)

/-- The PLT slot of the symbol is at `slot`, and jumps to `v`. -/
def PltSlot (v : BitVec 64) (slot : ℕ) : Prop :=
  st.gotPltSlots idx = some slot ∧ jumpTarget st.mem slot arch = some v

/-- The GOT slot of the symbol is at `got`, and holds `v`. -/
def GotSlot (v : BitVec 64) (got : ℕ) : Prop :=
  ∃ slot, st.gotPltSlots idx = some slot ∧ got = slot + 8 ∧ word64 st.mem got = v

/-- The instruction at `pc` is `orig` but for the field. -/
def Keeps (mask orig : BitVec 32) : Prop := word32 st.mem pc &&& ~~~mask = orig &&& ~~~mask

/-- What the relocation type specifies, for the symbol's value `S`, the addend `A`, and the
instruction `orig` that is relocated. -/
def Applied (orig : BitVec 32) (S A : BitVec 64) (type : RelocType) : Prop :=
  let P := BitVec.ofNat 64 pc
  let w := word32 st.mem pc
  match arch, type with
  | .x86_64, .R_X86_64_64 | .aarch64, .R_AARCH64_ABS64 => word64 st.mem pc = S + A
  | .x86_64, .R_X86_64_PC32 | .aarch64, .R_AARCH64_PREL32 => P + w.signExtend 64 = S + A
  | .x86_64, .R_X86_64_PLT32 =>
    P + w.signExtend 64 = S + A ∨
      ∃ slot, PltSlot arch st idx S slot ∧ P + w.signExtend 64 = BitVec.ofNat 64 slot + A
  | .x86_64, .R_X86_64_GOTPCREL => ∃ got, GotSlot st idx S got ∧ P + w.signExtend 64 = BitVec.ofNat 64 got + A
  | .aarch64, .R_AARCH64_CALL26 =>
    Keeps st pc 0x03ffffff orig ∧ (P + branch26 w = S + A ∨
      ∃ slot, PltSlot arch st idx (S + A) slot ∧ P + branch26 w = BitVec.ofNat 64 slot)
  | .aarch64, .R_AARCH64_ADR_PREL_PG_HI21 =>
    Keeps st pc 0x60ffffe0 orig ∧ alignDownPage P + pages21 w = alignDownPage (S + A)
  | .aarch64, .R_AARCH64_ADD_ABS_LO12_NC => Keeps st pc (0xfff <<< 10) orig ∧ imm12 w = (S + A) &&& 0xfff
  | .aarch64, .R_AARCH64_ADR_GOT_PAGE =>
    Keeps st pc 0x60ffffe0 orig ∧ ∃ got, GotSlot st idx (S + A) got ∧
      alignDownPage P + pages21 w = alignDownPage (BitVec.ofNat 64 got)
  | .aarch64, .R_AARCH64_LD64_GOT_LO12_NC =>
    Keeps st pc (0xfff <<< 10) orig ∧ ∃ got, GotSlot st idx (S + A) got ∧
      imm12 w <<< 3 = BitVec.ofNat 64 got &&& 0xfff
  | _, _ => False

end

/-! ### What is refused -/

/-- A distance that `B` and `BL` can branch. -/
def Short (v : BitVec 64) : Prop := v &&& 3 = 0 ∧ Fits 28 v

section
variable (st : MapState) (pc idx : ℕ) (S A : BitVec 64)

/-- The slot that the symbol has, or would be given. -/
def MapState.slotOf : ℕ := (st.gotPltSlots idx).getD st.nextPltEntry

/-- The distance to the symbol. -/
def direct : BitVec 64 := S + A - .ofNat 64 pc

/-- The distance to the symbol's PLT slot. -/
def viaSlot : BitVec 64 := .ofNat 64 (st.slotOf idx) + A - .ofNat 64 pc

/-- The distance to the symbol's GOT slot. -/
def viaGot : BitVec 64 := .ofNat 64 (st.slotOf idx + 8) + A - .ofNat 64 pc

/-- The distance between the page of an address and the one of `pc`. -/
def pageDist (v : BitVec 64) : BitVec 64 := alignDownPage v - alignDownPage (.ofNat 64 pc)

/-- The relocation fails a check of `resolve_reloc`. -/
def Refused (arch : Arch) (symOk : Bool) (type : RelocType) : Prop :=
  symOk = false ∨ match arch, type with
    | .x86_64, .R_X86_64_64 | .aarch64, .R_AARCH64_ABS64 | .aarch64, .R_AARCH64_ADD_ABS_LO12_NC
    | .aarch64, .R_AARCH64_LD64_GOT_LO12_NC => False
    | .x86_64, .R_X86_64_PC32 | .aarch64, .R_AARCH64_PREL32 => ¬ Fits 32 (direct pc S A)
    | .x86_64, .R_X86_64_PLT32 => ¬ Fits 32 (direct pc S A) ∧ ¬ Fits 32 (viaSlot st pc idx A)
    | .x86_64, .R_X86_64_GOTPCREL => ¬ Fits 32 (viaGot st pc idx A)
    | .aarch64, .R_AARCH64_CALL26 => ¬ Short (direct pc S A) ∧ ¬ Fits 32 (viaSlot st pc idx A)
    | .aarch64, .R_AARCH64_ADR_PREL_PG_HI21 => ¬ Fits 33 (pageDist pc (S + A))
    | .aarch64, .R_AARCH64_ADR_GOT_PAGE => ¬ Fits 33 (pageDist pc (.ofNat 64 (st.slotOf idx + 8)))
    | _, _ => True

/-- The relocation's value does not fit its field, and no PLT entry can serve. -/
def Unservable (arch : Arch) (type : RelocType) : Prop :=
  match arch, type with
  | .x86_64, .R_X86_64_PC32 | .aarch64, .R_AARCH64_PREL32 => ¬ Fits 32 (direct pc S A)
  | .x86_64, .R_X86_64_PLT32 => ¬ Fits 32 (direct pc S A) ∧ ¬ Fits 32 (viaSlot st pc idx A)
  | .x86_64, .R_X86_64_GOTPCREL => ¬ Fits 32 (viaGot st pc idx A)
  | .aarch64, .R_AARCH64_CALL26 => ¬ Short (direct pc S A) ∧ ¬ (A = 0 ∧ Short (viaSlot st pc idx A))
  | .aarch64, .R_AARCH64_ADR_PREL_PG_HI21 => ¬ Fits 33 (pageDist pc (S + A))
  | .aarch64, .R_AARCH64_ADR_GOT_PAGE => ¬ Fits 33 (pageDist pc (.ofNat 64 (st.slotOf idx + 8)))
  | _, _ => False

/-- A call that reaches neither its target nor, at 26 bits, a slot that jumps there; or an access
through the GOT to an address behind a symbol. -/
def Wrong (arch : Arch) (type : RelocType) : Prop :=
  match arch, type with
  | .aarch64, .R_AARCH64_CALL26 => ¬ Short (direct pc S A) ∧ ¬ (A = 0 ∧ Short (viaSlot st pc idx A))
  | .aarch64, .R_AARCH64_ADR_GOT_PAGE | .aarch64, .R_AARCH64_LD64_GOT_LO12_NC => A ≠ 0
  | _, _ => False

/-- What should be refused is refused, or is a wrong call. -/
theorem Unservable.refused_or_wrong {st : MapState} {pc idx : ℕ} {S A : BitVec 64} {arch : Arch}
    {type : RelocType} (h : Unservable st pc idx S A arch type) (symOk : Bool) :
    Refused st pc idx S A arch symOk type ∨ Wrong st pc idx S A arch type := by
  cases arch with
  | x86_64 => cases type with
    | R_X86_64_PC32 | R_X86_64_PLT32 | R_X86_64_GOTPCREL => exact .inl (.inr h)
    | _ => exact h.elim
  | aarch64 => cases type with
    | R_AARCH64_PREL32 | R_AARCH64_ADR_PREL_PG_HI21 | R_AARCH64_ADR_GOT_PAGE => exact .inl (.inr h)
    | R_AARCH64_CALL26 => exact .inr h
    | _ => exact h.elim

end

/-! ### Fields -/

theorem sext_eq_iff {v : BitVec 64} {bits : ℕ} (h₀ : 0 < bits) (h : bits ≤ 64) : sext v bits = v ↔
    Fits bits v :=
  shift_eq_iff_fits h₀ h v

theorem word32_storeNat (m : Mem) (pc n : ℕ) : word32 (m.storeNat pc 4 n) pc = BitVec.ofNat 32 n := by
  rw [word32, Mem.loadNat_storeNat]
  apply BitVec.eq_of_toNat_eq
  simp

theorem word64_storeNat (m : Mem) (pc n : ℕ) : word64 (m.storeNat pc 8 n) pc = BitVec.ofNat 64 n := by
  rw [word64, Mem.loadNat_storeNat]
  apply BitVec.eq_of_toNat_eq
  simp

theorem and_three_eq_zero_iff (v : BitVec 64) : v &&& 3 = 0 ↔ ∀ i < 2, v.getLsbD i = false :=
  and_lowMask_eq_zero_iff 2 v

theorem word32_congr {m m' : Mem} {pc : ℕ} (h : ∀ x, pc ≤ x → x < pc + 4 → m x = m' x) :
    word32 m pc = word32 m' pc :=
  congrArg (BitVec.ofNat 32) (Mem.loadNat_congr h)

theorem word64_congr {m m' : Mem} {pc : ℕ} (h : ∀ x, pc ≤ x → x < pc + 8 → m x = m' x) :
    word64 m pc = word64 m' pc :=
  congrArg (BitVec.ofNat 64) (Mem.loadNat_congr h)

/-- What can be branched is short. -/
theorem short_branch26 (w : BitVec 32) : Short (branch26 w) := by
  refine ⟨(and_three_eq_zero_iff _).mpr fun i hi => ?_, fits_signExtend (by decide) _⟩
  have h₁ : i < 28 := by omega
  rw [branch26, BitVec.getLsbD_signExtend, if_pos h₁, BitVec.getLsbD_append]
  simp [hi]

/-- A short distance is branched. -/
theorem branch26_blend {v : BitVec 64} (h : Short v) (dest : BitVec 32) :
    branch26 (BitFields.blend 0x03ffffff ((v >>> 2).setWidth 32) dest) = v := by
  have hdata : ((v >>> 2).setWidth 32).extractLsb' 0 26 ++ 0#2 = v.setWidth 28 := by
    apply BitVec.eq_of_getLsbD_eq
    intro i hi
    rw [BitVec.getLsbD_append]
    by_cases hlow : i < 2
    · simp [hlow, hi, (and_three_eq_zero_iff v).mp h.1 i hlow]
    · have h₁ : i - 2 < 26 := by omega
      have h₂ : 2 + (i - 2) = i := by omega
      have h₃ : i - 2 < 32 := by omega
      simp [hlow, hi, h₁, h₂, h₃]
  rw [branch26, extractLsb'_blend _ _ _ 0 26 (by decide) (by decide), hdata]
  exact h.2

/-- A page distance in the bits of `ADRP`. -/
def pageBits (v : BitVec 64) : BitVec 32 := ((v &&& 3) <<< 29 ||| ((v >>> 2) &&& 0x7ffff) <<< 5).setWidth 32

theorem getLsbD_pageBits (v : BitVec 64) {i : ℕ} (hi : i < 32) :
    (pageBits v).getLsbD i = (!decide (i < 29) && (v.getLsbD (i - 29) && decide (i - 29 < 2)) ||
      !decide (i < 5) && (v.getLsbD (2 + (i - 5)) && decide (i - 5 < 19))) := by
  have hmask (x : BitVec 64) (n j : ℕ) (hj : j < 64) :
      (x &&& BitVec.ofNat 64 (2 ^ n - 1)).getLsbD j = (x.getLsbD j && decide (j < n)) := by
    rw [BitVec.getLsbD_and, getLsbD_lowMask n hj]
  have h₁ := hmask v 2 (i - 29) (by omega)
  have h₂ := hmask (v >>> 2) 19 (i - 5) (by omega)
  have h₃ : i < 64 := by omega
  rw [pageBits, BitVec.getLsbD_setWidth, BitVec.getLsbD_or, BitVec.getLsbD_shiftLeft,
    BitVec.getLsbD_shiftLeft]
  rw [BitVec.getLsbD_ushiftRight] at h₂
  erw [h₁, h₂]
  simp [hi, h₃]

theorem extractLsb'_pageBits_low (v : BitVec 64) : (pageBits v).extractLsb' 29 2 = v.extractLsb' 0 2 := by
  apply BitVec.eq_of_getLsbD_eq
  intro i hi
  have h₁ : 29 + i < 32 := by omega
  have h₂ : ¬ 29 + i - 5 < 19 := by omega
  have h₃ := getLsbD_pageBits v h₁
  simp [hi, h₂] at h₃ ⊢
  exact h₃

theorem extractLsb'_pageBits_high (v : BitVec 64) : (pageBits v).extractLsb' 5 19 = v.extractLsb' 2 19 := by
  apply BitVec.eq_of_getLsbD_eq
  intro i hi
  have h₁ : 5 + i < 32 := by omega
  have h₂ : 5 + i < 29 := by omega
  have h₃ := getLsbD_pageBits v h₁
  simp [hi, h₂] at h₃ ⊢
  exact h₃

/-- A distance between pages is what `ADRP` adds. -/
theorem pages21_blend {v : BitVec 64} (hlow : ∀ i < 12, v.getLsbD i = false) (h : Fits 33 v)
    (dest : BitVec 32) :
    pages21 (BitFields.blend 0x60ffffe0 (pageBits (v >>> 12)) dest) = v := by
  have hdata : ((v >>> 12).extractLsb' 2 19 ++ (v >>> 12).extractLsb' 0 2) ++ 0#12 = v.setWidth 33 := by
    apply BitVec.eq_of_getLsbD_eq
    intro i hi
    rw [BitVec.getLsbD_append, BitVec.getLsbD_append, BitVec.getLsbD_extractLsb', BitVec.getLsbD_extractLsb',
      BitVec.getLsbD_ushiftRight, BitVec.getLsbD_ushiftRight, BitVec.getLsbD_setWidth]
    by_cases h₁ : i < 12
    · simp [h₁, hlow i h₁]
    · by_cases h₂ : i - 12 < 2
      · have h₃ : 12 + (i - 12) = i := by omega
        simp [h₁, h₂, h₃, hi]
      · have h₃ : 12 + (2 + (i - 12 - 2)) = i := by omega
        have h₄ : i - 12 - 2 < 19 := by omega
        simp [h₁, h₂, h₃, h₄, hi]
  rw [pages21, extractLsb'_blend _ _ _ 5 19 (by decide) (by decide),
    extractLsb'_blend _ _ _ 29 2 (by decide) (by decide),
    extractLsb'_pageBits_high, extractLsb'_pageBits_low, hdata]
  exact h

theorem imm12_blend (data dest : BitVec 32) :
    imm12 (BitFields.blend (0xfff <<< 10) data dest) = (data.extractLsb' 10 12).setWidth 64 := by
  rw [imm12, extractLsb'_blend _ _ _ 10 12 (by decide) (by decide)]

/-- Pages are a multiple of their size apart. -/
theorem getLsbD_pageDist (v w : BitVec 64) {i : ℕ} (hi : i < 12) :
    (alignDownPage v - alignDownPage w).getLsbD i = false := by
  have hlow (x : BitVec 64) : (alignDownPage x).setWidth 12 = 0 := by
    rw [alignDownPage, BitVec.setWidth_and]
    exact BitVec.and_zero
  have hsub : (alignDownPage v - alignDownPage w).setWidth 12 = 0 := by
    rw [BitVec.sub_eq_add_neg, BitVec.setWidth_add _ _ (by decide),
      BitVec.setWidth_neg_of_le (by decide), hlow, hlow]
    rfl
  have h := congrArg (BitVec.getLsbD · i) hsub
  simpa [hi] using h

/-! ### Slots -/

section
variable {arch : Arch} {base n : ℕ} {val : ℕ → BitVec 64}

/-- The PLT/GOT area has `n` slots from `base` on. Each one that is in use jumps to its symbol. -/
structure SlotsOk (arch : Arch) (base n : ℕ) (val : ℕ → BitVec 64) (st : MapState) : Prop where
  next : st.nextPltEntry = base + 16 * ((Finset.range n).filter fun i => (st.gotPltSlots i).isSome).card
  bound : ∀ i slot, st.gotPltSlots i = some slot → i < n ∧ base ≤ slot ∧
    slot + 16 ≤ st.nextPltEntry ∧ 8 ∣ slot
  code : ∀ i slot, st.gotPltSlots i = some slot → st.mem.load slot 8 = pltCode arch
  word : ∀ i slot, st.gotPltSlots i = some slot → word64 st.mem (slot + 8) = val i

/-- Slots that are in use stay. -/
def Extends (st st' : MapState) : Prop := ∀ i slot, st.gotPltSlots i = some slot →
    st'.gotPltSlots i = some slot

theorem Extends.trans {st₁ st₂ st₃ : MapState} (h : Extends st₁ st₂) (h' : Extends st₂ st₃) :
    Extends st₁ st₃ :=
  fun i slot hs => h' i slot (h i slot hs)

namespace SlotsOk

variable {st st' : MapState}

/-- Only the slots count. -/
theorem congr (h : SlotsOk arch base n val st) (hslots : st'.gotPltSlots = st.gotPltSlots)
    (hnext : st'.nextPltEntry = st.nextPltEntry)
    (hmem : ∀ x, base ≤ x → x < st.nextPltEntry → st'.mem x = st.mem x) : SlotsOk arch base n val st' := by
  refine ⟨by rw [hnext, hslots, h.next], fun i slot hs => ?_, fun i slot hs => ?_, fun i slot hs => ?_⟩ <;>
    rw [hslots] at hs <;> have hb := h.bound i slot hs
  · rw [hnext]
    exact hb
  · rw [← h.code i slot hs]
    exact Mem.load_congr fun x h₁ h₂ => hmem x (by omega) (by omega)
  · rw [← h.word i slot hs]
    exact word64_congr fun x h₁ h₂ => hmem x (by omega) (by omega)

theorem next_le (h : SlotsOk arch base n val st) : st.nextPltEntry ≤ base + 16 * n := by
  have hcard := Finset.card_filter_le (Finset.range n) fun i => (st.gotPltSlots i).isSome
  rw [Finset.card_range] at hcard
  rw [h.next]
  omega

/-- There is a slot left for a symbol without one. -/
theorem next_lt (h : SlotsOk arch base n val st) {idx : ℕ} (hidx : idx < n)
    (hnone : st.gotPltSlots idx = none) :
    st.nextPltEntry + 16 ≤ base + 16 * n := by
  have hcard : ((Finset.range n).filter fun i => (st.gotPltSlots i).isSome).card < (Finset.range n).card := by
    apply Finset.card_lt_card
    refine Finset.filter_ssubset.mpr ⟨idx, Finset.mem_range.mpr hidx, ?_⟩
    simp [hnone]
  rw [Finset.card_range] at hcard
  rw [h.next]
  omega

theorem newSlot_mem {idx x : ℕ} {addr : BitVec 64} (h : x < st.nextPltEntry ∨ st.nextPltEntry + 16 ≤ x) :
    (st.newSlot arch idx addr).mem x = st.mem x := by
  have hlen : (pltCode arch).length = 8 := by cases arch <;> rfl
  show ((st.mem.store st.nextPltEntry (pltCode arch)).storeNat (st.nextPltEntry + 8) 8 addr.toNat) x =
    st.mem x
  rw [Mem.storeNat_of_not_mem (by omega), Mem.store_of_not_mem (by omega)]

theorem newSlot_slots {idx i slot : ℕ} {addr : BitVec 64}
    (h : (st.newSlot arch idx addr).gotPltSlots i = some slot) :
    (i = idx ∧ slot = st.nextPltEntry) ∨ st.gotPltSlots i = some slot := by
  have h' : Function.update st.gotPltSlots idx (some st.nextPltEntry) i = some slot := h
  by_cases hi : i = idx
  · subst hi
    rw [Function.update_self] at h'
    exact .inl ⟨rfl, (Option.some.inj h').symm⟩
  · rw [Function.update_of_ne hi] at h'
    exact .inr h'

theorem newSlot_code {idx : ℕ} {addr : BitVec 64} :
    (st.newSlot arch idx addr).mem.load st.nextPltEntry 8 = pltCode arch := by
  have hlen : (pltCode arch).length = 8 := by cases arch <;> rfl
  have hload := Mem.load_store st.mem st.nextPltEntry (pltCode arch)
  rw [hlen] at hload
  show ((st.mem.store st.nextPltEntry (pltCode arch)).store (st.nextPltEntry + 8) (ofNat 8 addr.toNat)).load
    st.nextPltEntry 8 = pltCode arch
  rw [Mem.load_store_of_apart (.inl le_rfl), hload]

theorem newSlot_word {idx : ℕ} {addr : BitVec 64} :
    word64 (st.newSlot arch idx addr).mem (st.nextPltEntry + 8) = addr := by
  show word64 ((st.mem.store st.nextPltEntry (pltCode arch)).storeNat (st.nextPltEntry + 8) 8 addr.toNat)
    (st.nextPltEntry + 8) = addr
  rw [word64_storeNat]
  simp

/-- A new slot is in order. -/
theorem newSlot (h : SlotsOk arch base n val st) (hbase : 8 ∣ base) {idx : ℕ} (hidx : idx < n)
    (hnone : st.gotPltSlots idx = none) : SlotsOk arch base n val (st.newSlot arch idx (val idx)) := by
  have hlow : base ≤ st.nextPltEntry := by
    rw [h.next]
    omega
  have hdvd : 8 ∣ st.nextPltEntry := by
    rw [h.next]
    omega
  have hnext : (st.newSlot arch idx (val idx)).nextPltEntry = st.nextPltEntry + 16 := rfl
  refine ⟨?_, fun i slot hi => ?_, fun i slot hi => ?_, fun i slot hi => ?_⟩
  · have hset : ((Finset.range n).filter fun i => ((st.newSlot arch idx (val idx)).gotPltSlots i).isSome) =
        insert idx ((Finset.range n).filter fun i => (st.gotPltSlots i).isSome) := by
      ext i
      rw [Finset.mem_filter, Finset.mem_insert, Finset.mem_filter]
      by_cases hi : i = idx
      · subst hi
        simp [hidx, MapState.newSlot]
      · simp [hi, MapState.newSlot]
    rw [hnext, hset, Finset.card_insert_of_notMem (by simp [hnone]), h.next]
    ring
  · rw [hnext]
    rcases newSlot_slots hi with ⟨rfl, rfl⟩ | hi
    · exact ⟨hidx, hlow, le_rfl, hdvd⟩
    · obtain ⟨h₁, h₂, h₃, h₄⟩ := h.bound i slot hi
      exact ⟨h₁, h₂, by omega, h₄⟩
  · rcases newSlot_slots hi with ⟨rfl, rfl⟩ | hi
    · exact newSlot_code
    · have hb := h.bound i slot hi
      rw [← h.code i slot hi]
      exact Mem.load_congr fun x h₁ h₂ => newSlot_mem (by omega)
  · rcases newSlot_slots hi with ⟨rfl, rfl⟩ | hi
    · exact newSlot_word
    · have hb := h.bound i slot hi
      rw [← h.word i slot hi]
      exact word64_congr fun x h₁ h₂ => newSlot_mem (by omega)

/-- What `pltEntry` does: the symbol has its slot, the others keep theirs, and memory outside the
area stays. -/
theorem pltEntry (h : SlotsOk arch base n val st) (hbase : 8 ∣ base) {idx : ℕ} (hidx : idx < n) :
    SlotsOk arch base n val (st.pltEntry arch idx (val idx)).1 ∧
      Extends st (st.pltEntry arch idx (val idx)).1 ∧
      (st.pltEntry arch idx (val idx)).1.gotPltSlots idx = some (st.slotOf idx) ∧
      ∀ x, x < base ∨ base + 16 * n ≤ x → (st.pltEntry arch idx (val idx)).1.mem x = st.mem x := by
  rw [MapState.pltEntry, MapState.slotOf]
  cases hs : st.gotPltSlots idx with
  | some slot => exact ⟨h, fun _ _ h => h, hs, fun _ _ => rfl⟩
  | none =>
    have hlt := h.next_lt hidx hs
    have hlow : base ≤ st.nextPltEntry := by
      rw [h.next]
      omega
    refine ⟨h.newSlot hbase hidx hs, fun i slot hi => ?_, Function.update_self ..,
      fun x hx => newSlot_mem (by omega)⟩
    show Function.update st.gotPltSlots idx (some st.nextPltEntry) i = some slot
    rw [Function.update_of_ne]
    · exact hi
    · rintro rfl
      rw [hs] at hi
      cases hi

end SlotsOk

end

/-! ### The step -/

section
variable {arch : Arch} {st : MapState} {pc idx : ℕ} {S A : BitVec 64} {symOk : Bool} {type : RelocType}

/-- The bytes of the field. -/
def RelocType.width : RelocType → ℕ
  | .R_X86_64_64 | .R_AARCH64_ABS64 => 8
  | _ => 4

theorem pltEntry_check (ok : Bool) :
    (st.check ok).pltEntry arch idx S = ((st.pltEntry arch idx S).1.check ok, st.slotOf idx) := by
  rw [MapState.pltEntry, MapState.pltEntry, MapState.slotOf]
  have hslots : (st.check ok).gotPltSlots idx = st.gotPltSlots idx := rfl
  rw [hslots]
  cases st.gotPltSlots idx <;> rfl

@[simp] theorem pltEntry_success : (st.pltEntry arch idx S).1.success = st.success := by
  rw [MapState.pltEntry]
  cases st.gotPltSlots idx <;> rfl

/-- The direct call is taken if the distance is short. -/
theorem call26_iff (v : BitVec 64) : (v &&& 3 ≠ 0 ∨ sext v 28 ≠ v) ↔ ¬ Short v := by
  rw [Short, not_and_or, ne_eq, ne_eq, sext_eq_iff (by decide) (by decide)]

section
variable (st pc idx symOk S A)

attribute [local simp] resolveReloc

theorem resolveReloc_plt32_direct (h : Fits 32 (direct pc S A)) :
    resolveReloc .x86_64 st pc .R_X86_64_PLT32 idx symOk S A = (st.check symOk).put pc 4 (direct pc S A) := by
  have h' : sext (S + A - BitVec.ofNat 64 pc) 32 = S + A - BitVec.ofNat 64 pc :=
    (sext_eq_iff (by decide) (by decide)).mpr h
  simp only [resolveReloc, if_pos h']
  rfl

theorem resolveReloc_plt32_slot (h : ¬ Fits 32 (direct pc S A)) :
    resolveReloc .x86_64 st pc .R_X86_64_PLT32 idx symOk S A =
      (((st.pltEntry .x86_64 idx S).1.check symOk).check
        (sext (viaSlot st pc idx A) 32 = viaSlot st pc idx A)).put pc 4 (viaSlot st pc idx A) := by
  have h' : ¬ sext (S + A - BitVec.ofNat 64 pc) 32 = S + A - BitVec.ofNat 64 pc :=
    fun h' => h ((sext_eq_iff (by decide) (by decide)).mp h')
  simp only [resolveReloc, if_neg h', pltEntry_check]
  rfl

theorem resolveReloc_gotpcrel :
    resolveReloc .x86_64 st pc .R_X86_64_GOTPCREL idx symOk S A =
      (((st.pltEntry .x86_64 idx S).1.check symOk).check
        (sext (viaGot st pc idx A) 32 = viaGot st pc idx A)).put pc 4 (viaGot st pc idx A) := by
  simp only [resolveReloc, pltEntry_check]
  rfl

theorem resolveReloc_call26_direct (h : Short (direct pc S A)) :
    resolveReloc .aarch64 st pc .R_AARCH64_CALL26 idx symOk S A =
      ((st.check symOk).check (sext (direct pc S A) 32 = direct pc S A)).blend pc 0x03ffffff
        ((direct pc S A >>> 2).setWidth 32) := by
  have h' : ¬ (S + A - BitVec.ofNat 64 pc &&& 3 ≠ 0 ∨
      sext (S + A - BitVec.ofNat 64 pc) 28 ≠ S + A - BitVec.ofNat 64 pc) := fun h' => (call26_iff _).mp h' h
  simp only [resolveReloc, if_neg h']
  rfl

theorem resolveReloc_call26_slot (h : ¬ Short (direct pc S A)) :
    resolveReloc .aarch64 st pc .R_AARCH64_CALL26 idx symOk S A =
      (((st.pltEntry .aarch64 idx S).1.check symOk).check
        (sext (viaSlot st pc idx A) 32 = viaSlot st pc idx A)).blend pc 0x03ffffff
          ((viaSlot st pc idx A >>> 2).setWidth 32) := by
  have h' : S + A - BitVec.ofNat 64 pc &&& 3 ≠ 0 ∨
      sext (S + A - BitVec.ofNat 64 pc) 28 ≠ S + A - BitVec.ofNat 64 pc := (call26_iff _).mpr h
  simp only [resolveReloc, if_pos h', pltEntry_check]
  rfl

theorem resolveReloc_adrGotPage :
    resolveReloc .aarch64 st pc .R_AARCH64_ADR_GOT_PAGE idx symOk S A =
      (((st.pltEntry .aarch64 idx S).1.check symOk).check
        (sext (pageDist pc (.ofNat 64 (st.slotOf idx + 8))) 33 =
          pageDist pc (.ofNat 64 (st.slotOf idx + 8)))).blendPage
          pc (pageDist pc (.ofNat 64 (st.slotOf idx + 8))) := by
  simp only [resolveReloc, pltEntry_check]
  rfl

theorem resolveReloc_ld64Got :
    resolveReloc .aarch64 st pc .R_AARCH64_LD64_GOT_LO12_NC idx symOk S A =
      ((st.pltEntry .aarch64 idx S).1.check symOk).blend pc (0xfff <<< 10)
        (((BitVec.ofNat 64 (st.slotOf idx + 8) &&& 0xfff) <<< 7).setWidth 32) := by
  simp only [resolveReloc, pltEntry_check]

end

/-- A step makes a slot or not, writes the field, and notes whether the checks are passed. -/
theorem resolveReloc_shape (arch : Arch) (st : MapState) (pc : ℕ) (type : RelocType) (idx : ℕ) (symOk : Bool)
    (S A : BitVec 64) : ∃ (slot ok : Bool) (k v : ℕ), k ≤ type.width ∧
      resolveReloc arch st pc type idx symOk S A =
        let st₁ := if slot then (st.pltEntry arch idx S).1 else st
        { st₁ with mem := st₁.mem.storeNat pc k v, success := ok } := by
  have hnone : (st.check symOk).check false =
      { st with mem := st.mem.storeNat pc 0 0, success := st.success && symOk && false } := by
    rw [MapState.check, MapState.check]
    congr 1
    exact (funext fun x => Mem.storeNat_of_not_mem (by omega)).symm
  cases arch with
  | x86_64 => cases type with
    | R_X86_64_64 => exact ⟨false, _, 8, _, le_rfl, rfl⟩
    | R_X86_64_PC32 => exact ⟨false, _, 4, _, le_rfl, rfl⟩
    | R_X86_64_PLT32 =>
      by_cases h : Fits 32 (direct pc S A)
      · exact ⟨false, _, 4, _, le_rfl, resolveReloc_plt32_direct _ _ _ _ _ _ h⟩
      · exact ⟨true, _, 4, _, le_rfl, resolveReloc_plt32_slot _ _ _ _ _ _ h⟩
    | R_X86_64_GOTPCREL => exact ⟨true, _, 4, _, le_rfl, resolveReloc_gotpcrel _ _ _ _ _ _⟩
    | _ => exact ⟨false, _, 0, 0, Nat.zero_le _, hnone⟩
  | aarch64 => cases type with
    | R_AARCH64_ABS64 => exact ⟨false, _, 8, _, le_rfl, rfl⟩
    | R_AARCH64_PREL32 => exact ⟨false, _, 4, _, le_rfl, rfl⟩
    | R_AARCH64_CALL26 =>
      by_cases h : Short (direct pc S A)
      · exact ⟨false, _, 4, _, le_rfl, resolveReloc_call26_direct _ _ _ _ _ _ h⟩
      · exact ⟨true, _, 4, _, le_rfl, resolveReloc_call26_slot _ _ _ _ _ _ h⟩
    | R_AARCH64_ADR_PREL_PG_HI21 => exact ⟨false, _, 4, _, le_rfl, rfl⟩
    | R_AARCH64_ADD_ABS_LO12_NC => exact ⟨false, _, 4, _, le_rfl, rfl⟩
    | R_AARCH64_ADR_GOT_PAGE => exact ⟨true, _, 4, _, le_rfl, resolveReloc_adrGotPage _ _ _ _ _ _⟩
    | R_AARCH64_LD64_GOT_LO12_NC => exact ⟨true, _, 4, _, le_rfl, resolveReloc_ld64Got _ _ _ _ _ _⟩
    | _ => exact ⟨false, _, 0, 0, Nat.zero_le _, hnone⟩

theorem check_success {ok : Bool} {R : Prop} (h : ok = true ↔ ¬ R) :
    (st.success && symOk && ok) = true ↔ st.success = true ∧ ¬ (symOk = false ∨ R) := by
  rw [Bool.and_eq_true, Bool.and_eq_true, h, not_or, Bool.not_eq_false, and_assoc]

theorem check_pltEntry_success {ok : Bool} {R : Prop} (h : ok = true ↔ ¬ R) :
    ((st.pltEntry arch idx S).1.success && symOk && ok) = true ↔ st.success = true ∧
      ¬ (symOk = false ∨ R) := by
  rw [pltEntry_success]
  exact check_success h

theorem unchecked_success {R : Prop} (h : ¬ R) :
    (st.success && symOk) = true ↔ st.success = true ∧ ¬ (symOk = false ∨ R) := by
  rw [Bool.and_eq_true, or_iff_left h, Bool.not_eq_false]

theorem decide_sext_iff {v : BitVec 64} {bits : ℕ} (h₀ : 0 < bits) (h : bits ≤ 64) :
    decide (sext v bits = v) = true ↔ ¬ ¬ Fits bits v := by
  rw [decide_eq_true_iff, sext_eq_iff h₀ h, not_not]

/-- The checks, as `Refused` says them. -/
theorem resolveReloc_success :
    (resolveReloc arch st pc type idx symOk S A).success = true ↔
      st.success = true ∧ ¬ Refused st pc idx S A arch symOk type := by
  have hfalse : (st.success && symOk && false) = true ↔ st.success = true ∧ ¬ (symOk = false ∨ True) :=
    check_success (by simp)
  cases arch with
  | x86_64 => cases type with
    | R_X86_64_64 => exact unchecked_success not_false
    | R_X86_64_PC32 => exact check_success (decide_sext_iff (by decide) (by decide))
    | R_X86_64_PLT32 =>
      by_cases h : Fits 32 (direct pc S A)
      · rw [resolveReloc_plt32_direct _ _ _ _ _ _ h]
        exact unchecked_success fun h' => h'.1 h
      · rw [resolveReloc_plt32_slot _ _ _ _ _ _ h]
        refine check_pltEntry_success ?_
        rw [decide_sext_iff (by decide) (by decide)]
        exact not_congr ⟨fun hv => ⟨h, hv⟩, And.right⟩
    | R_X86_64_GOTPCREL =>
      rw [resolveReloc_gotpcrel]
      exact check_pltEntry_success (decide_sext_iff (by decide) (by decide))
    | _ => exact hfalse
  | aarch64 => cases type with
    | R_AARCH64_ABS64 => exact unchecked_success not_false
    | R_AARCH64_PREL32 => exact check_success (decide_sext_iff (by decide) (by decide))
    | R_AARCH64_CALL26 =>
      by_cases h : Short (direct pc S A)
      · rw [resolveReloc_call26_direct _ _ _ _ _ _ h]
        refine check_success ?_
        rw [decide_sext_iff (by decide) (by decide)]
        exact not_congr ⟨fun hv => absurd (h.2.mono (by decide) (by decide)) hv, fun hv => absurd h hv.1⟩
      · rw [resolveReloc_call26_slot _ _ _ _ _ _ h]
        refine check_pltEntry_success ?_
        rw [decide_sext_iff (by decide) (by decide)]
        exact not_congr ⟨fun hv => ⟨h, hv⟩, And.right⟩
    | R_AARCH64_ADR_PREL_PG_HI21 => exact check_success (decide_sext_iff (by decide) (by decide))
    | R_AARCH64_ADD_ABS_LO12_NC => exact unchecked_success not_false
    | R_AARCH64_ADR_GOT_PAGE =>
      rw [resolveReloc_adrGotPage]
      exact check_pltEntry_success (decide_sext_iff (by decide) (by decide))
    | R_AARCH64_LD64_GOT_LO12_NC =>
      rw [resolveReloc_ld64Got]
      show ((st.pltEntry .aarch64 idx S).1.success && symOk) = true ↔ _
      rw [pltEntry_success]
      exact unchecked_success not_false
    | _ => exact hfalse

/-- The code of a slot jumps to the address behind it. -/
theorem jumpTarget_of_code {m : Mem} {slot : ℕ} (hcode : m.load slot 8 = pltCode arch)
    (hlt : slot + 16 ≤ 2 ^ 64) :
    jumpTarget m slot arch = some (word64 m (slot + 8)) := by
  have hword {i : ℕ} (hi : i + 4 ≤ 8) :
    word32 m (slot + i) = .ofNat 32 (toNat (((pltCode arch).drop i).take 4)) := by
    rw [← hcode, Mem.load_slice m hi]
    rfl
  cases arch with
  | x86_64 =>
    have hop : m.load slot 2 = [0xff, 0x25] := by
      rw [← Nat.add_zero slot, ← Mem.load_slice m (show 0 + 2 ≤ 8 by decide), hcode]
      rfl
    have haddr : (BitVec.ofNat 64 (slot + 6) + (2#32).signExtend 64).toNat = slot + 8 := by
      have : (2#32).signExtend 64 = 2#64 := by decide
      rw [this, BitVec.toNat_add, BitVec.toNat_ofNat, BitVec.toNat_ofNat]
      omega
    have hdisp : word32 m (slot + 2) = 2#32 := hword (by decide)
    rw [jumpTarget, if_pos hop, hdisp, haddr]
  | aarch64 =>
    have hldr : word32 m slot = 0x58000050 := hword (show 0 + 4 ≤ 8 by decide)
    have hbr : word32 m (slot + 4) = 0xd61f0200 := hword (by decide)
    have haddr :
      (BitVec.ofNat 64 slot + ((0x58000050#32).extractLsb' 5 19 ++ 0#2).signExtend 64).toNat = slot + 8 := by
      have : ((0x58000050#32).extractLsb' 5 19 ++ 0#2).signExtend 64 = 8#64 := by decide
      rw [this, BitVec.toNat_add, BitVec.toNat_ofNat, BitVec.toNat_ofNat]
      omega
    rw [jumpTarget, if_pos (by rw [hldr, hbr]; decide), hldr]
    exact congrArg _ (congrArg _ haddr)

end

section
variable {arch : Arch} {base n : ℕ} {val : ℕ → BitVec 64} {st : MapState} {pc idx : ℕ} {A : BitVec 64}
    {symOk : Bool}
  {type : RelocType}

/-- **A step** keeps the slots, adds at most one, and writes nothing else than it and the field. -/
theorem resolveReloc_keeps (h : SlotsOk arch base n val st) (hbase : 8 ∣ base) (hidx : idx < n)
    (hpc : pc + type.width ≤ base ∨ base + 16 * n ≤ pc) :
    SlotsOk arch base n val (resolveReloc arch st pc type idx symOk (val idx) A) ∧
      Extends st (resolveReloc arch st pc type idx symOk (val idx) A) ∧
      ∀ x, x < base ∨ base + 16 * n ≤ x → x < pc ∨ pc + type.width ≤ x →
        (resolveReloc arch st pc type idx symOk (val idx) A).mem x = st.mem x := by
  obtain ⟨slot, ok, k, v, hk, heq⟩ := resolveReloc_shape arch st pc type idx symOk (val idx) A
  rw [heq]
  have hst : SlotsOk arch base n val (if slot then (st.pltEntry arch idx (val idx)).1 else st) ∧
      Extends st (if slot then (st.pltEntry arch idx (val idx)).1 else st) ∧
      ∀ x, x < base ∨ base + 16 * n ≤ x →
        (if slot then (st.pltEntry arch idx (val idx)).1 else st).mem x = st.mem x := by
    cases slot with
    | false => exact ⟨h, fun _ _ h => h, fun _ _ => rfl⟩
    | true =>
      obtain ⟨h₁, h₂, -, h₄⟩ := h.pltEntry hbase hidx
      exact ⟨h₁, h₂, h₄⟩
  generalize (if slot then (st.pltEntry arch idx (val idx)).1 else st) = st₁ at hst ⊢
  obtain ⟨h₁, h₂, h₃⟩ := hst
  refine ⟨h₁.congr rfl rfl fun x hx hx' => Mem.storeNat_of_not_mem ?_, h₂, fun x hx hx' => ?_⟩
  · have := h₁.next_le
    omega
  · show (st₁.mem.storeNat pc k v) x = st.mem x
    rw [Mem.storeNat_of_not_mem (by omega), h₃ x hx]

/-- The low 12 bits in `ADD`. -/
theorem imm12_lo12 (v : BitVec 64) (dest : BitVec 32) :
    imm12 (BitFields.blend (0xfff <<< 10) ((v <<< 10).setWidth 32) dest) = v &&& 0xfff := by
  rw [imm12_blend]
  apply BitVec.eq_of_getLsbD_eq
  intro i hi
  have hmask : (0xfff : BitVec 64).getLsbD i = decide (i < 12) := getLsbD_lowMask 12 hi
  rw [BitVec.getLsbD_setWidth, BitVec.getLsbD_extractLsb', BitVec.getLsbD_and, hmask, BitVec.getLsbD_setWidth,
    BitVec.getLsbD_shiftLeft]
  by_cases h : i < 12
  · have h₁ : 10 + i < 32 := by omega
    have h₂ : 10 + i < 64 := by omega
    simp [hi, h, h₁, h₂]
  · simp [h]

/-- The low 12 bits of a multiple of eight in `LDR`. -/
theorem imm12_ld64 {v : BitVec 64} (hv : ∀ i < 3, v.getLsbD i = false) (dest : BitVec 32) :
    imm12 (BitFields.blend (0xfff <<< 10) (((v &&& 0xfff) <<< 7).setWidth 32) dest) <<< 3 = v &&& 0xfff := by
  rw [imm12_blend]
  apply BitVec.eq_of_getLsbD_eq
  intro i hi
  have hmask {j : ℕ} (hj : j < 64) : (0xfff : BitVec 64).getLsbD j = decide (j < 12) := getLsbD_lowMask 12 hj
  rw [BitVec.getLsbD_shiftLeft, BitVec.getLsbD_setWidth, BitVec.getLsbD_extractLsb', BitVec.getLsbD_setWidth,
    BitVec.getLsbD_shiftLeft, BitVec.getLsbD_and, BitVec.getLsbD_and, hmask hi, hmask (by omega)]
  by_cases h : i < 3
  · simp [h, hv i h]
  · have h₁ : 10 + (i - 3) - 7 = i := by omega
    have h₂ : i - 3 < 64 := by omega
    by_cases h₃ : i < 12
    · have h₄ : 10 + (i - 3) < 32 := by omega
      have h₅ : 10 + (i - 3) < 64 := by omega
      have h₆ : i - 3 < 12 := by omega
      have h₇ : ¬ 10 + (i - 3) < 7 := by omega
      simp [hi, h, h₁, h₂, h₃, h₄, h₅, h₆, h₇]
    · simp [h₁, h₃]

/-- The symbol's PLT slot, in a state that is in order. -/
theorem SlotsOk.pltSlot_iff (h : SlotsOk arch base n val st) (hend : base + 16 * n ≤ 2 ^ 64) {s t : ℕ}
    (hs : st.gotPltSlots idx = some s) {v : BitVec 64} : PltSlot arch st idx v t ↔ t = s ∧ v = val idx := by
  have hb := h.bound idx s hs
  have hle := h.next_le
  have hjump := jumpTarget_of_code (h.code idx s hs) (by omega)
  rw [h.word idx s hs] at hjump
  rw [PltSlot, hs, Option.some.injEq]
  constructor
  · rintro ⟨rfl, hv⟩
    rw [hjump, Option.some.injEq] at hv
    exact ⟨rfl, hv.symm⟩
  · rintro ⟨rfl, rfl⟩
    exact ⟨rfl, hjump⟩

/-- The symbol's GOT slot, in a state that is in order. -/
theorem SlotsOk.gotSlot_iff (h : SlotsOk arch base n val st) {s g : ℕ} (hs : st.gotPltSlots idx = some s)
    {v : BitVec 64} : GotSlot st idx v g ↔ g = s + 8 ∧ v = val idx := by
  constructor
  · rintro ⟨slot, hslot, rfl, hv⟩
    obtain rfl : s = slot := by rwa [hs, Option.some.injEq] at hslot
    exact ⟨rfl, by rw [← hv, h.word idx s hs]⟩
  · rintro ⟨rfl, rfl⟩
    exact ⟨s, hs, rfl, h.word idx s hs⟩

end

/-! ### What is applied -/

theorem add_dist (v P : BitVec 64) : P + (v - P) = v := by
  rw [BitVec.add_comm, BitVec.sub_add_cancel]

/-- A distance that fits, from where it is counted. -/
theorem add_disp {v P : BitVec 64} (h : Fits 32 (v - P)) : P + ((v - P).setWidth 32).signExtend 64 = v := by
  have h' : ((v - P).setWidth 32).signExtend 64 = v - P := h
  rw [h', add_dist]

theorem getLsbD_ofNat_of_dvd {a i : ℕ} (ha : 8 ∣ a) (hi : i < 3) : (BitVec.ofNat 64 a).getLsbD i = false := by
  obtain ⟨k, rfl⟩ := ha
  rw [BitVec.getLsbD_ofNat, show 8 * k = 2 ^ 3 * k from rfl, Nat.testBit_two_pow_mul]
  simp [hi]

/-- A relocation in a state that is in order, and a later state of the run. -/
structure Seen (arch : Arch) (base n : ℕ) (val : ℕ → BitVec 64) (st : MapState) (pc : ℕ)
    (type : RelocType) (idx : ℕ)
    (symOk : Bool) (A : BitVec 64) (fin : MapState) : Prop where
  slots : SlotsOk arch base n val st
  base_dvd : 8 ∣ base
  end_le : base + 16 * n ≤ 2 ^ 64
  idx_lt : idx < n
  apart : pc + type.width ≤ base ∨ base + 16 * n ≤ pc
  passed : ¬ Refused st pc idx (val idx) A arch symOk type
  slotsEnd : SlotsOk arch base n val fin
  ext : Extends (resolveReloc arch st pc type idx symOk (val idx) A) fin
  field : ∀ x, pc ≤ x → x < pc + type.width →
    fin.mem x = (resolveReloc arch st pc type idx symOk (val idx) A).mem x

namespace Seen

variable {arch : Arch} {base n : ℕ} {val : ℕ → BitVec 64} {st fin : MapState} {pc idx : ℕ}
    {A : BitVec 64} {symOk : Bool}
  {type : RelocType}

theorem word32_eq (h : Seen arch base n val st pc type idx symOk A fin) (hw : type.width = 4) :
    word32 fin.mem pc = word32 (resolveReloc arch st pc type idx symOk (val idx) A).mem pc :=
  word32_congr fun x h₁ h₂ => h.field x h₁ (by omega)

theorem word64_eq (h : Seen arch base n val st pc type idx symOk A fin) (hw : type.width = 8) :
    word64 fin.mem pc = word64 (resolveReloc arch st pc type idx symOk (val idx) A).mem pc :=
  word64_congr fun x h₁ h₂ => h.field x h₁ (by omega)

/-- The field is still what it was when a slot is made. -/
theorem word32_pltEntry (h : Seen arch base n val st pc type idx symOk A fin) (hw : type.width = 4) :
    word32 (st.pltEntry arch idx (val idx)).1.mem pc = word32 st.mem pc := by
  obtain ⟨-, -, -, hmem⟩ := h.slots.pltEntry h.base_dvd h.idx_lt
  have hap := h.apart
  exact word32_congr fun x h₁ h₂ => hmem x (by omega)

/-- The slot that is used stays. -/
theorem slot_eq (h : Seen arch base n val st pc type idx symOk A fin)
    (huse : (resolveReloc arch st pc type idx symOk (val idx) A).gotPltSlots =
      (st.pltEntry arch idx (val idx)).1.gotPltSlots) : fin.gotPltSlots idx = some (st.slotOf idx) := by
  obtain ⟨-, -, hslot, -⟩ := h.slots.pltEntry h.base_dvd h.idx_lt
  exact h.ext idx _ (huse ▸ hslot)

theorem viaSlot_zero : viaSlot st pc idx 0 = .ofNat 64 (st.slotOf idx) - .ofNat 64 pc := by
  rw [viaSlot]
  congr 1
  exact BitVec.add_zero _

theorem word32_put (m : Mem) (v : BitVec 64) : word32 (m.storeNat pc 4 v.toNat) pc = v.setWidth 32 := by
  rw [word32_storeNat, BitVec.ofNat_toNat]

theorem word32_blend (st₁ : MapState) (mask data : BitVec 32) :
    word32 (st₁.blend pc mask data).mem pc = BitFields.blend mask data (word32 st₁.mem pc) := by
  show word32 (st₁.mem.storeNat pc 4 _) pc = _
  rw [word32_storeNat, BitVec.ofNat_toNat, BitVec.setWidth_eq]
  rfl

theorem plt32 (h : Seen .x86_64 base n val st pc .R_X86_64_PLT32 idx symOk A fin) :
    Applied .x86_64 fin pc idx (word32 st.mem pc) (val idx) A .R_X86_64_PLT32 := by
  have hw := h.word32_eq rfl
  show BitVec.ofNat 64 pc + (word32 fin.mem pc).signExtend 64 = val idx + A ∨ _
  by_cases hfits : Fits 32 (direct pc (val idx) A)
  · left
    rw [resolveReloc_plt32_direct _ _ _ _ _ _ hfits] at hw
    rw [hw.trans (word32_put _ _)]
    exact add_disp hfits
  · right
    have hs := h.slot_eq (by rw [resolveReloc_plt32_slot _ _ _ _ _ _ hfits]; rfl)
    rw [resolveReloc_plt32_slot _ _ _ _ _ _ hfits] at hw
    have hvia : Fits 32 (viaSlot st pc idx A) := by
      by_contra hvia
      exact h.passed (.inr ⟨hfits, hvia⟩)
    refine ⟨st.slotOf idx, (h.slotsEnd.pltSlot_iff h.end_le hs).mpr ⟨rfl, rfl⟩, ?_⟩
    rw [hw.trans (word32_put _ _)]
    exact add_disp hvia

theorem gotpcrel (h : Seen .x86_64 base n val st pc .R_X86_64_GOTPCREL idx symOk A fin) :
    Applied .x86_64 fin pc idx (word32 st.mem pc) (val idx) A .R_X86_64_GOTPCREL := by
  have hw := h.word32_eq rfl
  have hs := h.slot_eq (by rw [resolveReloc_gotpcrel]; rfl)
  rw [resolveReloc_gotpcrel] at hw
  have hvia : Fits 32 (viaGot st pc idx A) := by
    by_contra hvia
    exact h.passed (.inr hvia)
  refine ⟨st.slotOf idx + 8, (h.slotsEnd.gotSlot_iff hs).mpr ⟨rfl, rfl⟩, ?_⟩
  rw [hw.trans (word32_put _ _)]
  exact add_disp hvia

/-- A call is right if it is direct, or if it is to the slot of a symbol without an addend. -/
theorem call26_iff (h : Seen .aarch64 base n val st pc .R_AARCH64_CALL26 idx symOk A fin) :
    Applied .aarch64 fin pc idx (word32 st.mem pc) (val idx) A .R_AARCH64_CALL26 ↔
      Short (direct pc (val idx) A) ∨ (A = 0 ∧ Short (viaSlot st pc idx A)) := by
  have hw := h.word32_eq rfl
  by_cases hshort : Short (direct pc (val idx) A)
  · rw [resolveReloc_call26_direct _ _ _ _ _ _ hshort, word32_blend] at hw
    refine iff_of_true ⟨?_, .inl ?_⟩ (.inl hshort)
    · rw [Keeps, hw, blend_and_not]
      rfl
    · rw [hw, branch26_blend hshort]
      exact add_dist _ _
  · have hs := h.slot_eq (by rw [resolveReloc_call26_slot _ _ _ _ _ _ hshort]; rfl)
    have hplt {v : BitVec 64} {slot : ℕ} := h.slotsEnd.pltSlot_iff h.end_le hs (v := v) (t := slot)
    rw [resolveReloc_call26_slot _ _ _ _ _ _ hshort, word32_blend] at hw
    constructor
    · rintro ⟨-, hdirect | ⟨slot, hslot, hto⟩⟩
      · left
        rw [direct, ← hdirect, BitVec.add_comm, BitVec.add_sub_cancel]
        exact short_branch26 _
      · obtain ⟨rfl, hA⟩ := hplt.mp hslot
        obtain rfl : A = 0 := BitVec.add_right_eq_self.mp hA
        refine .inr ⟨rfl, ?_⟩
        rw [viaSlot_zero, ← hto, BitVec.add_comm, BitVec.add_sub_cancel]
        exact short_branch26 _
    · rintro (hd | ⟨rfl, hvia⟩)
      · exact absurd hd hshort
      · refine ⟨?_, .inr ⟨st.slotOf idx, hplt.mpr ⟨rfl, BitVec.add_zero _⟩, ?_⟩⟩
        · rw [Keeps, hw, blend_and_not]
          exact congrArg (· &&& _) (h.word32_pltEntry rfl)
        · rw [hw, branch26_blend hvia, viaSlot_zero]
          exact add_dist _ _

theorem word32_blendPage (st₁ : MapState) {v : BitVec 64} :
    word32 (st₁.blendPage pc v).mem pc =
      BitFields.blend 0x60ffffe0 (pageBits (v >>> 12)) (word32 st₁.mem pc) :=
  word32_blend st₁ _ _

theorem adrPage (h : Seen .aarch64 base n val st pc .R_AARCH64_ADR_PREL_PG_HI21 idx symOk A fin) :
    Applied .aarch64 fin pc idx (word32 st.mem pc) (val idx) A .R_AARCH64_ADR_PREL_PG_HI21 := by
  have hw : word32 fin.mem pc = _ := (h.word32_eq rfl).trans (word32_blendPage _)
  have hfits : Fits 33 (pageDist pc (val idx + A)) := by
    by_contra hfits
    exact h.passed (.inr hfits)
  refine ⟨?_, ?_⟩
  · rw [Keeps, hw, blend_and_not]
    rfl
  · rw [hw, pages21_blend (fun i hi => getLsbD_pageDist _ _ hi) hfits]
    exact add_dist _ _

theorem adrGotPage_iff (h : Seen .aarch64 base n val st pc .R_AARCH64_ADR_GOT_PAGE idx symOk A fin) :
    Applied .aarch64 fin pc idx (word32 st.mem pc) (val idx) A .R_AARCH64_ADR_GOT_PAGE ↔ A = 0 := by
  have hs := h.slot_eq (by rw [resolveReloc_adrGotPage]; rfl)
  have hgot {v : BitVec 64} {got : ℕ} := h.slotsEnd.gotSlot_iff hs (v := v) (g := got)
  constructor
  · rintro ⟨-, got, hslot, -⟩
    exact BitVec.add_right_eq_self.mp (hgot.mp hslot).2
  · rintro rfl
    have hw := h.word32_eq rfl
    rw [resolveReloc_adrGotPage, word32_blendPage] at hw
    have hlow : ∀ i < 12, (pageDist pc (.ofNat 64 (st.slotOf idx + 8))).getLsbD i = false :=
      fun i hi => getLsbD_pageDist _ _ hi
    have hfits : Fits 33 (pageDist pc (.ofNat 64 (st.slotOf idx + 8))) := by
      by_contra hfits
      exact h.passed (.inr hfits)
    refine ⟨?_, st.slotOf idx + 8, hgot.mpr ⟨rfl, BitVec.add_zero _⟩, ?_⟩
    · rw [Keeps, hw, blend_and_not]
      exact congrArg (· &&& _) (h.word32_pltEntry rfl)
    · rw [hw, pages21_blend hlow hfits]
      exact add_dist _ _

theorem ld64Got_iff (h : Seen .aarch64 base n val st pc .R_AARCH64_LD64_GOT_LO12_NC idx symOk A fin) :
    Applied .aarch64 fin pc idx (word32 st.mem pc) (val idx) A .R_AARCH64_LD64_GOT_LO12_NC ↔ A = 0 := by
  have hs := h.slot_eq (by rw [resolveReloc_ld64Got]; rfl)
  have hgot {v : BitVec 64} {got : ℕ} := h.slotsEnd.gotSlot_iff hs (v := v) (g := got)
  constructor
  · rintro ⟨-, got, hslot, -⟩
    exact BitVec.add_right_eq_self.mp (hgot.mp hslot).2
  · rintro rfl
    have hw := h.word32_eq rfl
    rw [resolveReloc_ld64Got, word32_blend] at hw
    have hdvd : 8 ∣ st.slotOf idx := (h.slotsEnd.bound idx _ hs).2.2.2
    refine ⟨?_, st.slotOf idx + 8, hgot.mpr ⟨rfl, BitVec.add_zero _⟩, ?_⟩
    · rw [Keeps, hw, blend_and_not]
      exact congrArg (· &&& _) (h.word32_pltEntry rfl)
    · rw [hw, imm12_ld64 fun i hi => getLsbD_ofNat_of_dvd (by omega) hi]

/-- **A relocation that is not refused** is applied, as it is seen later in the run, exactly if it is
not a wrong one. -/
theorem applied_iff (h : Seen arch base n val st pc type idx symOk A fin) :
    Applied arch fin pc idx (word32 st.mem pc) (val idx) A type ↔
      ¬ Wrong st pc idx (val idx) A arch type := by
  have hpassed := (not_or.mp h.passed).2
  cases arch with
  | x86_64 => cases type with
    | R_X86_64_64 =>
      refine iff_of_true ?_ id
      show word64 fin.mem pc = val idx + A
      rw [h.word64_eq rfl]
      exact (word64_storeNat _ _ _).trans (BitVec.ofNat_toNat 64 _)
    | R_X86_64_PC32 =>
      refine iff_of_true ?_ id
      show BitVec.ofNat 64 pc + (word32 fin.mem pc).signExtend 64 = val idx + A
      rw [(h.word32_eq rfl).trans (word32_put _ _)]
      exact add_disp (not_not.mp hpassed)
    | R_X86_64_PLT32 => exact iff_of_true h.plt32 id
    | R_X86_64_GOTPCREL => exact iff_of_true h.gotpcrel id
    | _ => exact absurd trivial hpassed
  | aarch64 => cases type with
    | R_AARCH64_ABS64 =>
      refine iff_of_true ?_ id
      show word64 fin.mem pc = val idx + A
      rw [h.word64_eq rfl]
      exact (word64_storeNat _ _ _).trans (BitVec.ofNat_toNat 64 _)
    | R_AARCH64_PREL32 =>
      refine iff_of_true ?_ id
      show BitVec.ofNat 64 pc + (word32 fin.mem pc).signExtend 64 = val idx + A
      rw [(h.word32_eq rfl).trans (word32_put _ _)]
      exact add_disp (not_not.mp hpassed)
    | R_AARCH64_CALL26 =>
      rw [h.call26_iff, Wrong]
      tauto
    | R_AARCH64_ADR_PREL_PG_HI21 => exact iff_of_true h.adrPage id
    | R_AARCH64_ADD_ABS_LO12_NC =>
      refine iff_of_true ⟨?_, ?_⟩ id
      · rw [Keeps, (h.word32_eq rfl).trans (word32_blend _ _ _), blend_and_not]
        rfl
      · rw [(h.word32_eq rfl).trans (word32_blend _ _ _)]
        exact imm12_lo12 _ _
    | R_AARCH64_ADR_GOT_PAGE => exact h.adrGotPage_iff.trans not_not.symm
    | R_AARCH64_LD64_GOT_LO12_NC => exact h.ld64Got_iff.trans not_not.symm
    | _ => exact absurd trivial hpassed

end Seen

end Tpde.Mapper
