import Tpde.Library.Carving
import Tpde.Library.While
import Tpde.Library.FlowGraph

/-!
# Stack slots

`allocate_stack_slot` and `free_stack_slot`. Slots are rounded to 1, 2, 4, 8 or
16 bytes or to a multiple of 16; each of these sizes has a list of free slots.
When the list is empty the slot is cut off the end of the frame, after gaps that
align it have been put on the lists. Offsets are negative on a target that
addresses its frame downwards.
-/

namespace Tpde.Compiler

/-! ### The model -/

/-- A `u32` as an `i32`. -/
def toI32 (n : ℤ) : ℤ := Int.bmod n (2 ^ 32)

/-- `cnt_tz<u32>`, which is 32 for 0 here. -/
def cntTz : ℕ → ℕ → ℕ
  | 0, _ => 0
  | bits + 1, n => if n % 2 = 1 then 0 else cntTz bits (n / 2) + 1

/-- `cnt_lz<u32>`. -/
def cntLz (n : ℕ) : ℕ := if n = 0 then 32 else 31 - Nat.log2 n

/-- `align_up(size, 16)` in `u32`. -/
def alignUp16 (size : ℕ) : ℕ := (size + 15) % 2 ^ 32 / 16 * 16

/-- The part of `stack` for slots. The end of a list is its head here. -/
structure StackFrame where
  frameSize : ℕ
  fixedFreeLists : ℕ → List ℤ
  dynamicFreeLists : ℕ → List ℤ

/-- The frame when the prologue has reserved its area. -/
def StackFrame.init (reserved : ℕ) : StackFrame := ⟨reserved, fun _ => [], fun _ => []⟩

/-- `free_list_idx`, for at most 16 bytes. -/
def freeListIdx (size : ℕ) : ℕ := if size = 1 then 0 else 32 - cntLz (size - 1)

section
variable (neg : Bool)

/-- The slot of `size` bytes at the end of the frame. -/
def endSlot (frameSize size : ℕ) : ℤ := toI32 (if neg then -((frameSize : ℤ) + size) else frameSize)

/-- A round of the loop that aligns the frame: the gap goes to a list. -/
def alignStep (s : StackFrame) : StackFrame :=
  let listIdx := cntTz 32 s.frameSize
  { s with
    fixedFreeLists := Function.update s.fixedFreeLists listIdx
      (endSlot neg s.frameSize (2 ^ listIdx) :: s.fixedFreeLists listIdx)
    frameSize := (s.frameSize + 2 ^ listIdx) % 2 ^ 32 }

/-- Align the frame to `alignBits` bits. -/
def alignFrame (alignBits : ℕ) (s : StackFrame) : StackFrame :=
  While.run (fun s => decide (cntTz 32 s.frameSize < alignBits)) (alignStep neg) alignBits s

/-- Cut a slot off the frame. -/
def cutSlot (alignBits size : ℕ) (s : StackFrame) : StackFrame × ℤ :=
  let s := alignFrame neg alignBits s
  ({ s with frameSize := (s.frameSize + size) % 2 ^ 32 }, endSlot neg s.frameSize size)

/-- `allocate_stack_slot`. -/
def allocateStackSlot (s : StackFrame) (size : ℕ) : StackFrame × ℤ :=
  if size = 0 then (s, 0)
  else if size ≤ 16 then
    let idx := freeListIdx size
    match s.fixedFreeLists idx with
    | slot :: rest => ({ s with fixedFreeLists := Function.update s.fixedFreeLists idx rest }, slot)
    | [] => cutSlot neg idx (2 ^ idx) s
  else
    let size := alignUp16 size
    match s.dynamicFreeLists size with
    | slot :: rest => ({ s with dynamicFreeLists := Function.update s.dynamicFreeLists size rest }, slot)
    | [] => cutSlot neg 4 size s

end

/-- `free_stack_slot`, whose slot is a `u32`. -/
def freeStackSlot (s : StackFrame) (slot : ℤ) (size : ℕ) : StackFrame :=
  let slot := toI32 (slot % 2 ^ 32)
  if size = 0 then s
  else if size ≤ 16 then
    let idx := freeListIdx size
    { s with fixedFreeLists := Function.update s.fixedFreeLists idx (slot :: s.fixedFreeLists idx) }
  else
    let size := alignUp16 size
    { s with dynamicFreeLists := Function.update s.dynamicFreeLists size (slot :: s.dynamicFreeLists size) }

/-! ### Classes of slots -/

/-- The classes of slots, one for each free list. -/
inductive SlotClass where
  | fixed (idx : ℕ)
  | dynamic (size : ℕ)
  deriving DecidableEq

namespace SlotClass

/-- The bytes of a slot. -/
def size : SlotClass → ℕ
  | fixed idx => 2 ^ idx
  | dynamic size => size

/-- How a slot is aligned. -/
def alignBits : SlotClass → ℕ
  | fixed idx => idx
  | dynamic _ => 4

/-- The class that serves a request. -/
def ofSize (size : ℕ) : SlotClass := if size ≤ 16 then fixed (freeListIdx size) else dynamic (alignUp16 size)

end SlotClass

namespace StackFrame

/-- The free list of a class. -/
def freeList (s : StackFrame) : SlotClass → List ℤ
  | .fixed idx => s.fixedFreeLists idx
  | .dynamic size => s.dynamicFreeLists size

/-- Replace the free list of a class. -/
def setFreeList (s : StackFrame) (l : List ℤ) : SlotClass → StackFrame
  | .fixed idx => { s with fixedFreeLists := Function.update s.fixedFreeLists idx l }
  | .dynamic size => { s with dynamicFreeLists := Function.update s.dynamicFreeLists size l }

@[simp] theorem setFreeList_frameSize (s : StackFrame) (l : List ℤ) (c : SlotClass) :
    (s.setFreeList l c).frameSize = s.frameSize := by
  cases c <;> rfl

@[simp] theorem freeList_mk (s : StackFrame) (n : ℕ) (c : SlotClass) :
    freeList ⟨n, s.fixedFreeLists, s.dynamicFreeLists⟩ c = s.freeList c := by
  cases c <;> rfl

theorem freeList_setFreeList (s : StackFrame) (l : List ℤ) (c d : SlotClass) :
    (s.setFreeList l c).freeList d = if d = c then l else s.freeList d := by
  cases c with
  | fixed i =>
    cases d with
    | fixed j => by_cases h : j = i <;> simp [setFreeList, freeList, h]
    | dynamic _ => rfl
  | dynamic i =>
    cases d with
    | fixed _ => rfl
    | dynamic j => by_cases h : j = i <;> simp [setFreeList, freeList, h]

end StackFrame

theorem allocateStackSlot_eq (neg : Bool) (s : StackFrame) {size : ℕ} (h : size ≠ 0) :
    allocateStackSlot neg s size = match s.freeList (.ofSize size) with
      | slot :: rest => (s.setFreeList rest (.ofSize size), slot)
      | [] => cutSlot neg (SlotClass.ofSize size).alignBits (SlotClass.ofSize size).size s := by
  unfold allocateStackSlot SlotClass.ofSize
  rw [if_neg h]
  split_ifs <;> rfl

theorem freeStackSlot_eq (s : StackFrame) (slot : ℤ) {size : ℕ} (h : size ≠ 0) :
    freeStackSlot s slot size = s.setFreeList (toI32 (slot % 2 ^ 32) :: s.freeList (.ofSize size))
      (.ofSize size) := by
  unfold freeStackSlot SlotClass.ofSize
  dsimp only
  rw [if_neg h]
  split_ifs <;> rfl

/-! ### Arithmetic -/

/-- `cnt_tz` counts the powers of two that divide. -/
theorem two_pow_dvd_iff {bits n j : ℕ} (h0 : 0 < n) (hn : n < 2 ^ bits) : 2 ^ j ∣ n ↔ j ≤ cntTz bits n := by
  induction bits generalizing n j with
  | zero => omega
  | succ bits ih =>
    rw [cntTz]
    split_ifs with hodd
    · constructor
      · intro hj
        by_contra hc
        have := (pow_dvd_pow 2 (Nat.one_le_iff_ne_zero.mpr (by omega) : 1 ≤ j)).trans hj
        omega
      · intro hj
        rw [Nat.le_zero.mp hj]
        exact one_dvd n
    · have heven : n = 2 * (n / 2) := by omega
      cases j with
      | zero => simp
      | succ j =>
        rw [Nat.succ_le_succ_iff, ← ih (by omega) (by omega)]
        nth_rewrite 1 [heven]
        rw [pow_succ, mul_comm]
        exact Nat.mul_dvd_mul_iff_left two_pos

theorem toI32_eq {n : ℤ} (h : -2 ^ 31 ≤ n) (h' : n < 2 ^ 31) : toI32 n = n := by
  unfold toI32
  rw [Int.bmod_eq_iff (by norm_num)]
  norm_num
  omega

theorem toI32_emod {n : ℤ} (h : -2 ^ 31 ≤ n) (h' : n < 2 ^ 31) : toI32 (n % 2 ^ 32) = n := by
  have hmod : toI32 (n % 2 ^ 32) = toI32 n := Int.emod_bmod n (2 ^ 32)
  rw [hmod, toI32_eq h h']

/-- The slots of the free lists that serve at most 16 bytes: the next power of two. -/
theorem freeListIdx_eq {size : ℕ} (h : size ≤ 16) : freeListIdx size = Nat.clog 2 size := by
  interval_cases size <;> decide

/-- A class has room for what it serves, and slots as long as they are aligned. -/
theorem ofSize_spec {size : ℕ} (h : size ≤ 2 ^ 31) :
    size ≤ (SlotClass.ofSize size).size ∧
      2 ^ (SlotClass.ofSize size).alignBits ∣ (SlotClass.ofSize size).size ∧
      min 16 (2 ^ Nat.clog 2 size) ∣ 2 ^ (SlotClass.ofSize size).alignBits := by
  unfold SlotClass.ofSize
  split_ifs with hsmall
  · rw [freeListIdx_eq hsmall]
    refine ⟨Nat.le_pow_clog one_lt_two size, dvd_rfl, ?_⟩
    have hpow : 2 ^ Nat.clog 2 size ≤ 16 :=
      calc 2 ^ Nat.clog 2 size ≤ 2 ^ 4 := Nat.pow_le_pow_right two_pos (Nat.clog_le_of_le_pow hsmall)
        _ = 16 := rfl
    rw [min_eq_right hpow]
    exact dvd_rfl
  · have hmod : alignUp16 size = (size + 15) / 16 * 16 := by
      rw [alignUp16, Nat.mod_eq_of_lt (by omega)]
    refine ⟨?_, ?_, ?_⟩
    · rw [SlotClass.size, hmod]
      omega
    · rw [SlotClass.size, SlotClass.alignBits, hmod]
      exact Dvd.intro_left _ rfl
    · have hlt : 4 < Nat.clog 2 size := (Nat.lt_clog_iff_pow_lt one_lt_two).mpr (by omega)
      have hpow : 16 ≤ 2 ^ Nat.clog 2 size :=
        calc 16 = 2 ^ 4 := rfl
          _ ≤ 2 ^ Nat.clog 2 size := Nat.pow_le_pow_right two_pos hlt.le
      rw [min_eq_left hpow]
      exact dvd_rfl

/-! ### The invariant -/

open Carving

/-- A slot with its class. -/
abbrev Block : Type := ℤ × SlotClass

/-- Where a slot is in the frame, from the end that does not move. -/
def Block.off (neg : Bool) (b : Block) : ℤ := if neg then -b.1 - b.2.size else b.1

/-- The bytes of a slot. -/
def Block.len (b : Block) : ℤ := b.2.size

/-- What holds of the frame and the slots in use: all slots have been cut off the frame behind the reserved
area, aligned, and each is in use or on its free list once. -/
structure SlotInv (neg : Bool) (reserved : ℕ) (used : List Block) (s : StackFrame) : Prop where
  pos : 0 < reserved
  le : s.frameSize ≤ 2 ^ 31
  carved : ∃ bs, Carved (Block.off neg) Block.len reserved s.frameSize bs ∧
    Held bs (fun b => used.count b + (s.freeList b.2).count b.1) ∧ ∀ b ∈ bs, (2 ^ b.2.alignBits : ℤ) ∣ b.1

section
variable {neg : Bool} {reserved : ℕ} {used : List Block} {s : StackFrame}

theorem SlotInv.frameSize_pos (h : SlotInv neg reserved used s) : 0 < s.frameSize := by
  obtain ⟨bs, hc, -⟩ := h.carved
  have := hc.bounds.1
  have := h.pos
  omega

theorem SlotInv.perm {used' : List Block} (h : SlotInv neg reserved used s) (hp : used.Perm used') :
    SlotInv neg reserved used' s := by
  obtain ⟨bs, hc, hh, ha⟩ := h.carved
  refine ⟨h.pos, h.le, bs, hc, fun b => ?_, ha⟩
  have hb := hh b
  dsimp only at hb ⊢
  rwa [hp.count_eq] at hb

/-- The slot at the end of the frame. -/
theorem endSlot_spec {frameSize : ℕ} {c : SlotClass} (hpos : 0 < c.size) (hle : frameSize + c.size ≤ 2 ^ 31) :
    Block.off neg (endSlot neg frameSize c.size, c) = frameSize ∧
      (2 ^ c.alignBits ∣ frameSize → 2 ^ c.alignBits ∣ c.size →
        (2 ^ c.alignBits : ℤ) ∣ endSlot neg frameSize c.size) := by
  unfold endSlot Block.off
  have hcast : ∀ n : ℕ, 2 ^ c.alignBits ∣ n → (2 ^ c.alignBits : ℤ) ∣ n := fun n hn => by exact_mod_cast hn
  cases neg with
  | true =>
    simp only [if_true]
    rw [toI32_eq (by omega) (by omega)]
    exact ⟨by omega, fun h1 h2 => (dvd_neg).mpr (dvd_add (hcast _ h1) (hcast _ h2))⟩
  | false =>
    simp only [Bool.false_eq_true, if_false]
    rw [toI32_eq (by omega) (by omega)]
    exact ⟨rfl, fun h1 _ => hcast _ h1⟩

/-- Cutting a slot of a class off the frame, to be held at one place. -/
theorem SlotInv.cut {used' : List Block} {s' : StackFrame} (h : SlotInv neg reserved used s) (c : SlotClass)
    (hpos : 0 < c.size) (hle : s.frameSize + c.size ≤ 2 ^ 31) (ha : 2 ^ c.alignBits ∣ s.frameSize)
    (hc : 2 ^ c.alignBits ∣ c.size) (hsize : s'.frameSize = s.frameSize + c.size)
    (hheld : ∀ b : Block,
      used'.count b + (s'.freeList b.2).count b.1 ≤ used.count b + (s.freeList b.2).count b.1 +
      if (endSlot neg s.frameSize c.size, c) = b then 1 else 0) :
    SlotInv neg reserved used' s' := by
  obtain ⟨bs, hcarved, hh, halign⟩ := h.carved
  obtain ⟨hoff, hdvd⟩ := @endSlot_spec neg _ _ hpos hle
  refine ⟨h.pos, hsize ▸ hle, (endSlot neg s.frameSize c.size, c) :: bs, ?_, ?_, ?_⟩
  · refine .cut hcarved hoff.ge (by simpa [Block.len] using hpos) ?_
    rw [hoff, hsize, Block.len]
    push_cast
    exact le_rfl
  · refine hh.cut ?_ fun b hb => ?_
    · simpa using hheld (endSlot neg s.frameSize c.size, c)
    · simpa [Ne.symm hb] using hheld b
  · intro b hb
    rcases List.mem_cons.mp hb with rfl | hb
    · exact hdvd ha hc
    · exact halign b hb

/-- A round of the loop that aligns the frame, below a multiple of the alignment. -/
theorem SlotInv.alignStep {alignBits top : ℕ} (h : SlotInv neg reserved used s) (hle : s.frameSize ≤ top)
    (htop : 2 ^ alignBits ∣ top) (ht : top ≤ 2 ^ 31) (hc : cntTz 32 s.frameSize < alignBits) :
    SlotInv neg reserved used (alignStep neg s) ∧ (Compiler.alignStep neg s).frameSize ≤ top ∧
      cntTz 32 s.frameSize < cntTz 32 (Compiler.alignStep neg s).frameSize := by
  have hpos := h.frameSize_pos
  have hlt : s.frameSize < 2 ^ 32 := by omega
  generalize hk : cntTz 32 s.frameSize = k at hc
  have hdvd : 2 ^ k ∣ s.frameSize := (two_pow_dvd_iff hpos hlt).mpr hk.ge
  have hndvd : ¬ 2 ^ (k + 1) ∣ s.frameSize := fun hd => by
    have := (two_pow_dvd_iff hpos hlt).mp hd
    omega
  have hkt : 2 ^ k ∣ top := (pow_dvd_pow 2 hc.le).trans htop
  have hne : s.frameSize ≠ top := by
    rintro heq
    exact hndvd (heq ▸ (pow_dvd_pow 2 hc).trans htop)
  -- both are multiples of the gap
  have hgap : s.frameSize + 2 ^ k ≤ top := by
    obtain ⟨a, ha⟩ := hdvd
    obtain ⟨b, hb⟩ := hkt
    rw [ha, hb] at hne hle ⊢
    have hab : a < b := lt_of_le_of_ne (Nat.le_of_mul_le_mul_left hle (by positivity)) fun h => hne (h ▸ rfl)
    calc 2 ^ k * a + 2 ^ k = 2 ^ k * (a + 1) := by ring
      _ ≤ 2 ^ k * b := Nat.mul_le_mul_left _ hab
  have hsize : (Compiler.alignStep neg s).frameSize = s.frameSize + 2 ^ k := by
    simp only [Compiler.alignStep, hk]
    exact Nat.mod_eq_of_lt (by omega)
  have hlist : ∀ c, (Compiler.alignStep neg s).freeList c =
      if c = .fixed k then endSlot neg s.frameSize (2 ^ k) :: s.freeList (.fixed k) else s.freeList c := by
    intro c
    have heq : Compiler.alignStep neg s = ⟨(s.frameSize + 2 ^ k) % 2 ^ 32,
        (s.setFreeList (endSlot neg s.frameSize (2 ^ k) :: s.freeList (.fixed k)) (.fixed k)).fixedFreeLists,
        (s.setFreeList (endSlot neg s.frameSize (2 ^ k) :: s.freeList (.fixed k))
          (.fixed k)).dynamicFreeLists⟩ := by
      simp only [Compiler.alignStep, hk]
      rfl
    rw [heq, StackFrame.freeList_mk, StackFrame.freeList_setFreeList]
  refine ⟨h.cut (.fixed k) (by simp [SlotClass.size]) (by simp only [SlotClass.size]; omega) hdvd
    dvd_rfl hsize ?_,
    hsize ▸ hgap, ?_⟩
  · rintro ⟨slot, c⟩
    rw [hlist]
    by_cases hck : c = .fixed k
    · subst hck
      simp only [if_true, List.count_cons, beq_iff_eq, Prod.mk.injEq, and_true, SlotClass.size]
      omega
    · simp [hck]
  · rw [hsize]
    refine (two_pow_dvd_iff (by positivity) (by omega)).mp ?_
    obtain ⟨a, ha⟩ := hdvd
    have hodd : ¬ 2 ∣ a := by
      rintro ⟨b, rfl⟩
      exact hndvd ⟨b, by rw [ha, pow_succ]; ring⟩
    obtain ⟨b, hb⟩ : 2 ∣ a + 1 := by omega
    exact ⟨b, by rw [ha, pow_succ, mul_assoc, ← hb]; ring⟩

/-- The frame is aligned, below any multiple of the alignment that it was below. -/
theorem SlotInv.alignFrame {alignBits top : ℕ} (h : SlotInv neg reserved used s) (hle : s.frameSize ≤ top)
    (htop : 2 ^ alignBits ∣ top) (ht : top ≤ 2 ^ 31) :
    SlotInv neg reserved used (alignFrame neg alignBits s) ∧
      (Compiler.alignFrame neg alignBits s).frameSize ≤ top ∧
      2 ^ alignBits ∣ (Compiler.alignFrame neg alignBits s).frameSize := by
  have hstep : ∀ s, SlotInv neg reserved used s ∧ s.frameSize ≤ top →
      decide (cntTz 32 s.frameSize < alignBits) = true →
      SlotInv neg reserved used (Compiler.alignStep neg s) ∧ (Compiler.alignStep neg s).frameSize ≤ top :=
    fun s hs hc => (hs.1.alignStep hs.2 htop ht (by simpa using hc)).imp_right And.left
  have hend := While.run_end hstep (fun s => alignBits - cntTz 32 s.frameSize) (fun s hs hc => by
    have hlt := (hs.1.alignStep hs.2 htop ht (by simpa using hc)).2.2
    have : cntTz 32 s.frameSize < alignBits := by simpa using hc
    omega) alignBits s ⟨h, hle⟩ (Nat.sub_le _ _)
  obtain ⟨hinv, hle'⟩ := While.run_inv hstep alignBits s ⟨h, hle⟩
  refine ⟨hinv, hle', (@two_pow_dvd_iff 32 _ _ hinv.frameSize_pos ?_).mpr (by simpa using hend)⟩
  exact hinv.le.trans_lt (by norm_num)

/-- The frame size rounded up to the alignment of a class. -/
def alignedSize (alignBits frameSize : ℕ) : ℕ :=
  (frameSize + 2 ^ alignBits - 1) / 2 ^ alignBits * 2 ^ alignBits

theorem le_alignedSize (alignBits frameSize : ℕ) : frameSize ≤ alignedSize alignBits frameSize := by
  have hpos : 0 < 2 ^ alignBits := by positivity
  have hmod := Nat.div_add_mod (frameSize + 2 ^ alignBits - 1) (2 ^ alignBits)
  have hlt := Nat.mod_lt (frameSize + 2 ^ alignBits - 1) hpos
  rw [mul_comm] at hmod
  unfold alignedSize
  omega

/-- The frame has a slot for the request: none is needed, one is free, or the frame stays below 2 GiB
with it. -/
def Fits (s : StackFrame) (size : ℕ) : Prop :=
  size ≤ 2 ^ 31 ∧ (size = 0 ∨ s.freeList (.ofSize size) ≠ [] ∨
    alignedSize (SlotClass.ofSize size).alignBits s.frameSize + (SlotClass.ofSize size).size ≤ 2 ^ 31)

instance (s : StackFrame) (size : ℕ) : Decidable (Fits s size) :=
  inferInstanceAs (Decidable (_ ∧ (_ ∨ _ ∨ _)))

/-- `allocate_stack_slot` puts a slot into use. -/
theorem SlotInv.allocate {size : ℕ} (h : SlotInv neg reserved used s) (h0 : size ≠ 0) (hfit : Fits s size) :
    SlotInv neg reserved (((allocateStackSlot neg s size).2, .ofSize size) :: used)
      (allocateStackSlot neg s size).1 := by
  obtain ⟨hsize, hroom⟩ := hfit
  obtain ⟨hle, hdvd, -⟩ := ofSize_spec hsize
  rw [allocateStackSlot_eq neg s h0]
  generalize SlotClass.ofSize size = c at hle hdvd hroom ⊢
  cases hlist : s.freeList c with
  | cons slot rest =>
    obtain ⟨bs, hcarved, hh, halign⟩ := h.carved
    refine ⟨h.pos, by simpa using h.le, bs, by simpa using hcarved, fun b => ?_, halign⟩
    -- the slot goes from the list to those in use
    have hb := hh b
    dsimp only at hb ⊢
    rw [StackFrame.freeList_setFreeList]
    by_cases hbc : b.2 = c
    · obtain ⟨bslot, bc⟩ := b
      obtain rfl := hbc
      rw [if_pos rfl]
      simp only [hlist, List.count_cons, beq_iff_eq, Prod.mk.injEq, and_true] at hb ⊢
      omega
    · have hne : (slot, c) ≠ b := fun heq => hbc (heq ▸ rfl)
      rw [if_neg hbc, List.count_cons_of_ne hne]
      exact hb
  | nil =>
    have htop := (hroom.resolve_left h0).resolve_left (fun hne => hne hlist)
    obtain ⟨hinv, hfs, hal⟩ := h.alignFrame (le_alignedSize c.alignBits _)
      (show 2 ^ c.alignBits ∣ alignedSize c.alignBits s.frameSize from Dvd.intro_left _ rfl)
      (by omega)
    dsimp only [cutSlot]
    have hbound : (Compiler.alignFrame neg c.alignBits s).frameSize + c.size ≤ 2 ^ 31 := by omega
    refine hinv.cut c (by omega) hbound hal hdvd (Nat.mod_eq_of_lt (by omega)) fun b => ?_
    rw [List.count_cons]
    rw [StackFrame.freeList_mk]
    simp only [beq_iff_eq]
    omega

/-- `free_stack_slot` puts a slot that is in use on its list. -/
theorem SlotInv.free {size : ℕ} {slot : ℤ} {used' : List Block} (h : SlotInv neg reserved used s)
    (h0 : size ≠ 0)
    (hused : used.Perm ((slot, .ofSize size) :: used')) :
    SlotInv neg reserved used' (freeStackSlot s slot size) := by
  obtain ⟨bs, hcarved, hh, halign⟩ := h.carved
  have hmem : (slot, SlotClass.ofSize size) ∈ bs := by
    refine hh.mem (Nat.add_pos_left (List.count_pos_iff.mpr ?_) _)
    exact hused.mem_iff.mpr List.mem_cons_self
  -- the slot is an `i32`
  have hslot : toI32 (slot % 2 ^ 32) = slot := by
    have hb := hcarved.bounds.2 _ hmem
    have hle := h.le
    unfold Block.off Block.len at hb
    dsimp only at hb
    cases neg with
    | true =>
      simp only [if_true] at hb
      exact toI32_emod (by omega) (by omega)
    | false =>
      simp only [Bool.false_eq_true, if_false] at hb
      exact toI32_emod (by omega) (by omega)
  rw [freeStackSlot_eq s slot h0, hslot]
  refine ⟨h.pos, by simpa using h.le, bs, by simpa using hcarved, fun b => ?_, halign⟩
  have hb := hh b
  dsimp only at hb ⊢
  rw [hused.count_eq, List.count_cons] at hb
  rw [StackFrame.freeList_setFreeList]
  by_cases hbc : b.2 = .ofSize size
  · obtain ⟨bslot, bc⟩ := b
    dsimp only at hbc
    subst hbc
    rw [if_pos rfl]
    simp only [List.count_cons, beq_iff_eq, Prod.mk.injEq, and_true] at hb ⊢
    omega
  · rw [if_neg hbc]
    omega

end

/-! ### Runs -/

/-- The frame, and the slots in use with the sizes they were requested with. -/
structure SlotRun where
  frame : StackFrame
  live : List (ℤ × ℕ)

/-- A request. -/
def SlotRun.allocate (neg : Bool) (r : SlotRun) (size : ℕ) : SlotRun where
  frame := (allocateStackSlot neg r.frame size).1
  live := ((allocateStackSlot neg r.frame size).2, size) :: r.live

/-- The release of a slot. -/
def SlotRun.free (r : SlotRun) (slot : ℤ) (size : ℕ) : SlotRun where
  frame := freeStackSlot r.frame slot size
  live := r.live.erase (slot, size)

/-- A call: a request that `ok` allows, or the release of a slot in use with its size. -/
inductive SlotStep (neg : Bool) (ok : StackFrame → ℕ → Prop) (r : SlotRun) : SlotRun → Prop where
  | allocate {size : ℕ} (hsize : size < 2 ^ 32) (hok : ok r.frame size) :
    SlotStep neg ok r (r.allocate neg size)
  | free {slot : ℤ} {size : ℕ} (h : (slot, size) ∈ r.live) : SlotStep neg ok r (r.free slot size)

/-- Byte `n` is one of the slot. -/
def InSlot (x : ℤ × ℕ) (n : ℤ) : Prop := x.1 ≤ n ∧ n < x.1 + x.2

/-- Byte `n` is one of a frame of the given size. -/
def InFrame (neg : Bool) (size : ℕ) (n : ℤ) : Prop := if neg then -(size : ℤ) ≤ n ∧ n < 0
    else 0 ≤ n ∧ n < size

/-- What the slots in use are to satisfy. -/
structure SlotsOk (neg : Bool) (reserved : ℕ) (r : SlotRun) : Prop where
  disjoint : r.live.Pairwise fun a b => ∀ n, InSlot a n → ¬ InSlot b n
  inside : ∀ x ∈ r.live, ∀ n, InSlot x n → InFrame neg r.frame.frameSize n ∧ ¬ InFrame neg reserved n
  aligned : ∀ x ∈ r.live, ((min 16 (2 ^ Nat.clog 2 x.2) : ℕ) : ℤ) ∣ x.1

/-- The slots in use that have bytes, with their classes. -/
def usedBlocks (live : List (ℤ × ℕ)) : List Block :=
  (live.filter fun x => x.2 ≠ 0).map fun x => (x.1, .ofSize x.2)

/-- What a run keeps. -/
structure RunInv (neg : Bool) (reserved : ℕ) (r : SlotRun) : Prop where
  slots : SlotInv neg reserved (usedBlocks r.live) r.frame
  size_le : ∀ x ∈ r.live, x.2 ≤ 2 ^ 31

section
variable {neg : Bool} {reserved : ℕ} {r r' : SlotRun}

/-- A call keeps the invariant. -/
theorem RunInv.step (h : RunInv neg reserved r) (hs : SlotStep neg Fits r r') : RunInv neg reserved r' := by
  cases hs with
  | @allocate size hsize hok =>
    refine ⟨?_, fun x hx => ?_⟩
    · by_cases h0 : size = 0
      · subst h0
        exact h.slots
      · have hused : usedBlocks (r.allocate neg size).live =
            ((allocateStackSlot neg r.frame size).2, .ofSize size) :: usedBlocks r.live := by
          simp [usedBlocks, SlotRun.allocate, h0]
        rw [hused]
        exact h.slots.allocate h0 hok
    · rcases List.mem_cons.mp hx with rfl | hx
      · exact hok.1
      · exact h.size_le x hx
  | @free slot size hmem =>
    refine ⟨?_, fun x hx => h.size_le x (List.mem_of_mem_erase hx)⟩
    have hperm := List.perm_cons_erase hmem
    have hused := (hperm.filter fun x => x.2 ≠ 0).map fun x : ℤ × ℕ => ((x.1, SlotClass.ofSize x.2) : Block)
    by_cases h0 : size = 0
    · subst h0
      have heq : (usedBlocks r.live).Perm (usedBlocks (r.live.erase (slot, 0))) := by
        simpa [usedBlocks] using hused
      exact h.slots.perm heq
    · exact h.slots.free h0 (by simpa [usedBlocks, SlotRun.free, h0] using hused)

/-- The invariant is what is wanted of the slots in use. -/
theorem RunInv.ok (h : RunInv neg reserved r) : SlotsOk neg reserved r := by
  obtain ⟨bs, hc, hh, ha⟩ := h.slots.carved
  have hmem : ∀ x ∈ r.live, x.2 ≠ 0 → ((x.1, SlotClass.ofSize x.2) : Block) ∈ bs := by
    intro x hx h0
    refine hh.mem (Nat.add_pos_left (List.count_pos_iff.mpr ?_) _)
    exact List.mem_map.mpr ⟨x, List.mem_filter.mpr ⟨hx, by simpa using h0⟩, rfl⟩
  -- a byte of a slot, from the end of the frame that does not move
  have hbyte : ∀ x ∈ r.live, ∀ n, InSlot x n → x.2 ≠ 0 ∧
      Block.off neg (x.1, .ofSize x.2) ≤ (if neg then -n - 1 else n) ∧
      (if neg then -n - 1 else n) < Block.off neg (x.1, .ofSize x.2) + Block.len (x.1, .ofSize x.2) := by
    rintro x hx n ⟨hn, hn'⟩
    have h0 : x.2 ≠ 0 := by
      intro h0
      rw [h0] at hn'
      omega
    have hle := (ofSize_spec (h.size_le x hx)).1
    unfold Block.off Block.len
    dsimp only
    cases neg <;> simp <;> omega
  constructor
  · have hpair := hh.pairwise (l := usedBlocks r.live) hc fun b => Nat.le_add_right _ _
    rw [usedBlocks, List.pairwise_map, List.pairwise_filter] at hpair
    refine List.Pairwise.imp_of_mem (fun {a b} ha hb hab n hna hnb => ?_) hpair
    obtain ⟨ha0, ha1, ha2⟩ := hbyte a ha n hna
    obtain ⟨hb0, hb1, hb2⟩ := hbyte b hb n hnb
    have hor := hab (by simpa using ha0) (by simpa using hb0)
    omega
  · intro x hx n hn
    obtain ⟨h0, h1, h2⟩ := hbyte x hx n hn
    obtain ⟨hlo, hhi, -⟩ := hc.bounds.2 _ (hmem x hx h0)
    unfold InFrame
    cases neg <;> simp at h1 h2 ⊢ <;> omega
  · intro x hx
    by_cases h0 : x.2 = 0
    · simp [h0]
    · have hd := (ofSize_spec (h.size_le x hx)).2.2
      refine dvd_trans ?_ (ha _ (hmem x hx h0))
      exact_mod_cast hd

/-- A run of calls keeps it. -/
theorem RunInv.of_run (hr : 0 < reserved) (hr' : reserved ≤ 2 ^ 31)
    (h : Relation.ReflTransGen (SlotStep neg Fits) ⟨.init reserved, []⟩ r) : RunInv neg reserved r := by
  have hinit : RunInv neg reserved ⟨.init reserved, []⟩ := by
    refine ⟨⟨hr, hr', [], .nil le_rfl, fun b => ?_, nofun⟩, nofun⟩
    obtain ⟨slot, c⟩ := b
    cases c <;> simp [usedBlocks, StackFrame.init, StackFrame.freeList]
  induction h with
  | refl => exact hinit
  | tail _ hs ih => exact ih.step hs

/-- **The slots in use do not overlap**: they lie in the frame behind the reserved area, aligned, as long as
the frame stays below 2 GiB. -/
theorem slots_ok (hr : 0 < reserved) (hr' : reserved ≤ 2 ^ 31)
    (h : Relation.ReflTransGen (SlotStep neg Fits) ⟨.init reserved, []⟩ r) : SlotsOk neg reserved r :=
      (RunInv.of_run hr hr' h).ok

/-- A request of nearly 4 GiB is rounded up to nothing, and its slot does not lie in the frame. -/
theorem slot_outside_frame : ¬ ∀ (neg : Bool) (reserved : ℕ) (r : SlotRun), 0 < reserved → reserved ≤ 2 ^ 31 →
    Relation.ReflTransGen (SlotStep neg fun _ _ => True) ⟨.init reserved, []⟩ r → SlotsOk neg reserved r := by
  intro hall
  have hok := hall true 40 _ (by decide) (by decide)
    (.single (@SlotStep.allocate _ _ _ 0xFFFFFFFF (by decide) trivial))
  have hslot : (allocateStackSlot true (.init 40) 0xFFFFFFFF).2 = -48 := by decide +kernel
  have hin := hok.inside _ List.mem_cons_self 0
  rw [hslot] at hin
  exact absurd (hin (by unfold InSlot; norm_num)).1 (by unfold InFrame; norm_num)

end

/-- Two requests, a release and another request: the slots in use are in order. -/
theorem slots_ok_release : SlotsOk true 40
    (((SlotRun.mk (.init 40) []).allocate true 8 |>.allocate true 24).free (-48) 8 |>.allocate true 3) :=
  slots_ok (by decide) (by decide) <|
    (((Relation.ReflTransGen.single (.allocate (by decide) (by decide +kernel))).tail
      (.allocate (by decide) (by decide +kernel))).tail
        (.free (by decide +kernel))).tail (.allocate (by decide) (by decide +kernel))

end Tpde.Compiler
