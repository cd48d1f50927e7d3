import Mathlib
import Tpde.Compiler.StackSlots
import Tpde.Library.FreeList
import Tpde.Util.BumpAllocator

/-!
# Memory for assignments

`AssignmentAllocator` gives each assignment a block for its parts: one of 16 or 32 bytes, which
is taken from a free list or cut off a slab, or one of its own from the system. A free block is
linked through a field of the assignment that was in it. The size of a block is computed in 32
bits, which is enough for less than 2^31 - 7 parts; then the blocks of live assignments are apart
and large enough (`assignments_correct_iff`).
-/

namespace Tpde.Compiler

open Bytes FreeList Ranges Runs Storage Util

namespace AssignmentAllocator

/-! ### The model -/

/-- `sizeof(ValueAssignment)`, and where its fields are. -/
def vaSize : ℕ := 16
def partCountOff : ℕ := 4
def nextFreeOff : ℕ := 8
def firstPartOff : ℕ := 14

/-- `sizeof(ValueAssignment::Part)`. -/
def partSize : ℕ := 2

def slabSize : ℕ := 16 * 1024
def numFreeLists : ℕ := 2
def numPartsIncluded : ℕ := (vaSize - firstPartOff) / partSize

structure AllocInfo where
  size : ℕ
  allocSize : ℕ
  freeListIdx : ℕ

/-- `AssignmentAllocInfo`, in 32 bits. A shift by the width of a word or more is not looked at. -/
def allocInfo (partCount : ℕ) : AllocInfo :=
  if numPartsIncluded < partCount then
    let size := (vaSize + (partCount - numPartsIncluded) * partSize) % 2 ^ 32
    let clzOff := cntLz (vaSize / 2)
    let freeListIdx := (clzOff + 2 ^ 32 - cntLz ((size + 2 ^ 32 - 1) % 2 ^ 32)) % 2 ^ 32
    { size, freeListIdx, allocSize := if freeListIdx < clzOff then 2 ^ (32 - clzOff + freeListIdx) else 0 }
  else { size := vaSize, allocSize := vaSize, freeListIdx := 0 }

/-- An assignment that is in use: where it is, and how many parts it has. -/
structure Assignment where
  addr : ℕ
  partCount : ℕ
  deriving DecidableEq

/-- The bytes that are needed for some parts. -/
def need (partCount : ℕ) : ℕ := max vaSize (firstPartOff + partCount * partSize)

end AssignmentAllocator

/-- An allocator with the system and the memory it works on. Beside that the ranges that were cut off
slabs, the blocks that were obtained one by one, and the assignments in use are listed. -/
structure AssignmentAllocator where
  alloc : BumpAllocator := {}
  fixedFreeLists : Fin 2 → ℕ := fun _ => 0
  sys : Sys := {}
  mem : Mem := fun _ => 0
  handed : List BumpAllocator.Range := []
  heap : List Storage.Block := []
  live : List AssignmentAllocator.Assignment := []

namespace AssignmentAllocator

local instance neZero_two : NeZero 2 := ⟨by decide⟩

local instance neZero_sixtyFour : NeZero 64 := ⟨by decide⟩

variable (s : AssignmentAllocator)

/-- Take the first block of a free list. -/
def popFreeList (i : Fin 2) : Option (ℕ × AssignmentAllocator) :=
  if s.fixedFreeLists i = 0 then none
  else some (s.fixedFreeLists i,
    { s with
      fixedFreeLists :=
        Function.update s.fixedFreeLists i (s.mem.loadNat (s.fixedFreeLists i + nextFreeOff) 8) })

/-- Put a block in front of a free list. -/
def pushFreeList (i : Fin 2) (addr : ℕ) : AssignmentAllocator :=
  { s with
    mem := s.mem.storeNat (addr + nextFreeOff) 8 (s.fixedFreeLists i)
    fixedFreeLists := Function.update s.fixedFreeLists i addr }

/-- A block from the slabs. -/
def bumpAllocate (size : ℕ) (k : Fin 64) (answer : ℕ) : Option (ℕ × AssignmentAllocator) :=
  (s.alloc.allocate slabSize s.sys size (2 ^ k.val) answer).map fun (addr, alloc, sys) =>
    (addr, { s with alloc, sys, handed := ⟨addr, size, 2 ^ k.val⟩ :: s.handed })

/-- `ValueAssignment{}`. -/
def construct (addr : ℕ) : AssignmentAllocator := { s with mem := s.mem.store addr (List.replicate vaSize 0) }

/-- A block of its own; without memory the program ends. -/
def heapAllocate (size answer : ℕ) : Option (ℕ × AssignmentAllocator) :=
  if answer = 0 then none
  else
    let (ptr, sys) := s.sys.new size answer
    some (ptr.addr, { s with sys, heap := (ptr, size) :: s.heap })

/-- `allocate_slow`. -/
def allocateSlow (partCount : ℕ) (skipFreeList : Bool) (answer : ℕ) : Option (ℕ × AssignmentAllocator) :=
  let aai := allocInfo partCount
  if h : aai.freeListIdx < numFreeLists then
    match if skipFreeList then none else s.popFreeList ⟨aai.freeListIdx, h⟩ with
    | some r => some r
    | none => (s.bumpAllocate aai.allocSize 3 answer).map fun (addr, s) => (addr, s.construct addr)
  else (s.heapAllocate aai.size answer).map fun (addr, s) => (addr, s.construct addr)

/-- `allocate`. -/
def allocate (partCount answer : ℕ) : Option (ℕ × AssignmentAllocator) :=
  if numPartsIncluded < partCount then s.allocateSlow partCount false answer
  else
    match s.popFreeList 0 with
    | some r => some r
    | none => s.bumpAllocate vaSize 4 answer

/-- The caller notes the number of parts in the assignment. A null pointer gets it no further. -/
def init (partCount addr : ℕ) : Option AssignmentAllocator :=
  if addr = 0 then none
  else some { s with
    mem := s.mem.storeNat (addr + partCountOff) 4 partCount, live := ⟨addr, partCount⟩ :: s.live }

/-- `delete[]` of a block of its own. -/
def heapDelete (addr : ℕ) : Option AssignmentAllocator :=
  (s.heap.find? fun b => b.1.addr = addr).map fun b =>
    { s with sys := s.sys.deleteAll [b], heap := s.heap.erase b }

/-- `deallocate_slow`. -/
def deallocateSlow (addr : ℕ) : Option AssignmentAllocator :=
  let aai := allocInfo (s.mem.loadNat (addr + partCountOff) 4)
  if h : aai.freeListIdx < numFreeLists then some (s.pushFreeList ⟨aai.freeListIdx, h⟩ addr)
    else s.heapDelete addr

/-- `deallocate`. -/
def deallocate (addr : ℕ) : Option AssignmentAllocator :=
  if numPartsIncluded < s.mem.loadNat (addr + partCountOff) 4 then s.deallocateSlow addr
    else some (s.pushFreeList 0 addr)

/-! ### Runs -/

/-- The calls, with what the system answers; and a store of the caller to a live assignment, which may
be to its fields in front of the number of parts, or behind it. -/
inductive Op where
  | allocate (partCount : BitVec 32) (answer : ℕ)
  | allocateSlow (partCount : BitVec 32) (skipFreeList : Bool) (answer : ℕ)
  | write (a : Assignment) (off : ℕ) (bytes : List UInt8)
  | deallocate (a : Assignment)

def step : Op → Option AssignmentAllocator
  | .allocate partCount answer => (s.allocate partCount.toNat answer).bind fun (addr, s) =>
    s.init partCount.toNat addr
  | .allocateSlow partCount skipFreeList answer =>
    (s.allocateSlow partCount.toNat skipFreeList answer).bind fun (addr, s) => s.init partCount.toNat addr
  | .write a off bytes =>
    if a ∈ s.live ∧
      (off + bytes.length ≤ partCountOff ∨ nextFreeOff ≤ off ∧ off + bytes.length ≤ need a.partCount) then
      some { s with mem := s.mem.store (a.addr + off) bytes }
    else none
  | .deallocate a => if a ∈ s.live then { s with live := s.live.erase a }.deallocate a.addr else none

/-- The blocks: those that were cut off slabs, and those obtained one by one. -/
def blocks : List (ℕ × ℕ) := s.handed.map BumpAllocator.Range.range ++ s.heap.map fun b => (b.1.addr, b.2)

/-- What must hold after every call. -/
structure Correct : Prop where
  fits : ∀ a ∈ s.live, ∃ b ∈ s.blocks, b.1 = a.addr ∧ need a.partCount ≤ b.2
  disjoint : s.live.Pairwise fun a a' => Apart (a.addr, need a.partCount) (a'.addr, need a'.partCount)
  apart : s.blocks.Pairwise Apart
  storage : ∀ b ∈ s.blocks, ∃ c, s.sys.Live c ∧ c.1.addr ≤ b.1 ∧ b.1 + b.2 ≤ c.1.addr + c.2

/-- What is asked of the system for some parts, if it is asked. -/
def request (partCount : ℕ) : ℕ :=
  if (allocInfo partCount).freeListIdx < numFreeLists then
    s.alloc.request slabSize (allocInfo partCount).allocSize
  else (allocInfo partCount).size

variable {s}

/-- The system keeps its promise, or has no more memory. -/
def Answered (t : Step AssignmentAllocator Op) : Prop :=
  match t.op with
  | .allocate partCount answer | .allocateSlow partCount _ answer =>
    answer = 0 ∨ t.before.sys.Fresh (t.before.request partCount.toNat) answer
  | _ => True

/-- The condition on a call: the size of the parts does not take more than 32 bits. -/
def Meets (t : Step AssignmentAllocator Op) : Prop :=
  match t.op with
  | .allocate partCount _ | .allocateSlow partCount _ _ => partCount.toNat < 2 ^ 31 - 7
  | _ => True

/-! ### Sizes -/

/-- The block that a list has. -/
def classSize (i : Fin 2) : ℕ := 16 * 2 ^ i.val

/-- The block that is made for some parts. -/
def blockSize (partCount : ℕ) : ℕ := if partCount ≤ 1 then 16 else if partCount ≤ 9 then 32
    else 14 + 2 * partCount

theorem need_le_blockSize (partCount : ℕ) : need partCount ≤ blockSize partCount := by
  unfold need blockSize vaSize firstPartOff partSize
  split_ifs <;> omega

theorem classSize_cases (i : Fin 2) : classSize i = 16 ∨ classSize i = 32 := by
  fin_cases i
  · exact .inl rfl
  · exact .inr rfl

theorem sixteen_le_blockSize (partCount : ℕ) : 16 ≤ blockSize partCount := by
  unfold blockSize
  split_ifs <;> omega

/-- The class of a size, by the position of the highest bit of the number below it. -/
theorem freeListIdx_eq {partCount : ℕ} (h : 1 < partCount) {x : ℕ} (hx : x ≠ 0) (hx' : x < 2 ^ 32)
    (hsize : (14 + 2 * partCount) % 2 ^ 32 = (x + 1) % 2 ^ 32) :
    (allocInfo partCount).freeListIdx = (28 + 2 ^ 32 - (31 - x.log2)) % 2 ^ 32 := by
  have hnum : numPartsIncluded < partCount := h
  have hpred : ((vaSize + (partCount - numPartsIncluded) * partSize) % 2 ^ 32 + 2 ^ 32 - 1) % 2 ^ 32 = x := by
    have hsum : vaSize + (partCount - numPartsIncluded) * partSize = 14 + 2 * partCount := by
      unfold vaSize numPartsIncluded vaSize firstPartOff partSize
      omega
    rw [hsum, hsize]
    omega
  have hoff : cntLz (vaSize / 2) = 28 := by decide +kernel
  rw [allocInfo, if_pos hnum]
  dsimp only
  rw [hpred, hoff, cntLz, if_neg hx]

theorem allocInfo_included {partCount : ℕ} (h : partCount ≤ 1) : allocInfo partCount = ⟨16, 16, 0⟩ :=
  if_neg (not_lt.mpr h)

/-- A class of a free list makes blocks of its size. -/
theorem allocSize_eq {partCount : ℕ} (i : Fin 2) (h : (allocInfo partCount).freeListIdx = i.val) :
    (allocInfo partCount).allocSize = classSize i := by
  by_cases hnum : partCount ≤ 1
  · rw [allocInfo_included hnum] at h ⊢
    have hi : i = 0 := Fin.ext h.symm
    rw [hi]
    rfl
  · have hoff : cntLz (vaSize / 2) = 28 := by decide +kernel
    have hnum : numPartsIncluded < partCount := not_le.mp hnum
    unfold allocInfo at h ⊢
    rw [if_pos hnum] at h ⊢
    dsimp only at h ⊢
    rw [h, hoff, if_pos (by omega), classSize, show 32 - 28 + i.val = 4 + i.val by omega, pow_add]
    rfl

/-- The class of some parts has their block. -/
theorem blockSize_eq {partCount : ℕ} (h : partCount < 2 ^ 31 - 7) :
    (∃ i : Fin 2, (allocInfo partCount).freeListIdx = i.val ∧ blockSize partCount = classSize i) ∨
      2 ≤ (allocInfo partCount).freeListIdx ∧ 32 < blockSize partCount ∧
        blockSize partCount = (allocInfo partCount).size := by
  by_cases hone : partCount ≤ 1
  · exact .inl ⟨0, by rw [allocInfo_included hone]; rfl, if_pos hone⟩
  · have hx : 13 + 2 * partCount ≠ 0 := by omega
    have hidx := freeListIdx_eq (not_le.mp hone) hx (by omega) (by congr 1; omega)
    by_cases hnine : partCount ≤ 9
    · have hlog : (13 + 2 * partCount).log2 = 4 := (Nat.log2_eq_iff hx).mpr (by omega)
      rw [hlog] at hidx
      exact .inl ⟨1, hidx, by rw [blockSize, if_neg hone, if_pos hnine]; rfl⟩
    · have hlow : 5 ≤ (13 + 2 * partCount).log2 := (Nat.le_log2 hx).mpr (by omega)
      have hhigh : (13 + 2 * partCount).log2 < 32 := (Nat.log2_lt hx).mpr (by omega)
      have hblock : blockSize partCount = 14 + 2 * partCount := by rw [blockSize, if_neg hone, if_neg hnine]
      refine .inr ⟨by omega, by omega, ?_⟩
      have hnum : numPartsIncluded < partCount := not_le.mp hone
      have hsize : vaSize + (partCount - numPartsIncluded) * partSize = 14 + 2 * partCount := by
        unfold vaSize numPartsIncluded vaSize firstPartOff partSize
        omega
      rw [hblock, allocInfo, if_pos hnum]
      dsimp only
      rw [hsize, Nat.mod_eq_of_lt (by omega)]

/-- Where the size does not fit 32 bits, no block is large enough. -/
theorem size_lt_need {partCount : ℕ} (h : 2 ^ 31 - 7 ≤ partCount) :
    (allocInfo partCount).size < need partCount := by
  have hnum : numPartsIncluded < partCount := by
    unfold numPartsIncluded vaSize firstPartOff partSize
    omega
  have hmod : (vaSize + (partCount - numPartsIncluded) * partSize) % 2 ^ 32 < 2 ^ 32 :=
    Nat.mod_lt _ (by decide)
  rw [allocInfo, if_pos hnum]
  dsimp only
  unfold need firstPartOff partSize at *
  omega

theorem classSize_lt_need {partCount : ℕ} (h : 2 ^ 31 - 7 ≤ partCount) (i : Fin 2) :
    classSize i < need partCount := by
  unfold need firstPartOff partSize
  rcases classSize_cases i with hi | hi <;> omega

/-! ### Where a block comes from -/

/-- A block comes from a free list, off a slab, or from the system. -/
inductive Source (s : AssignmentAllocator) (partCount answer : ℕ) : ℕ → AssignmentAllocator → Prop where
  | recycled (i : Fin 2) (hi : (allocInfo partCount).freeListIdx = i.val) (hne : s.fixedFreeLists i ≠ 0) :
    Source s partCount answer (s.fixedFreeLists i)
      { s with
        fixedFreeLists :=
          Function.update s.fixedFreeLists i (s.mem.loadNat (s.fixedFreeLists i + nextFreeOff) 8) }
  | cut (i : Fin 2) (hi : (allocInfo partCount).freeListIdx = i.val) {k : Fin 64} (hk : k.val ≤ 4)
    {addr : ℕ} {alloc : BumpAllocator}
    {sys : Sys} {mem : Mem} (halloc : s.alloc.allocate slabSize s.sys (classSize i) (2 ^ k.val) answer =
      some (addr, alloc, sys))
    (hmem : ∀ x, x < addr ∨ addr + 16 ≤ x → mem x = s.mem x) :
    Source s partCount answer addr { s with
      alloc, sys, mem, handed := ⟨addr, classSize i, 2 ^ k.val⟩ :: s.handed }
  | heap (hi : 2 ≤ (allocInfo partCount).freeListIdx) (hne : answer ≠ 0) {mem : Mem}
    (hmem : ∀ x, x < answer ∨ answer + 16 ≤ x → mem x = s.mem x) :
    Source s partCount answer answer
      { s with
        sys := (s.sys.new (allocInfo partCount).size answer).2
        mem
        heap := ((s.sys.new (allocInfo partCount).size answer).1, (allocInfo partCount).size) :: s.heap }

section
variable {partCount answer addr : ℕ} {skip : Bool} {s' : AssignmentAllocator}

/-- What `ValueAssignment{}` leaves alone. -/
theorem construct_mem (s : AssignmentAllocator) (addr : ℕ) : ∀ x, x < addr ∨ addr + 16 ≤ x →
    (s.construct addr).mem x = s.mem x :=
  fun x hx => Mem.store_of_not_mem (by rwa [List.length_replicate])

theorem popFreeList_source (i : Fin 2) (hi : (allocInfo partCount).freeListIdx = i.val)
    {r : ℕ × AssignmentAllocator}
    (h : s.popFreeList i = some r) : Source s partCount answer r.1 r.2 := by
  unfold popFreeList at h
  split at h
  case isTrue => cases h
  case isFalse hne =>
    cases h
    exact .recycled i hi hne

theorem bumpAllocate_source (i : Fin 2) (hi : (allocInfo partCount).freeListIdx = i.val) {k : Fin 64}
    (hk : k.val ≤ 4)
    {r : ℕ × AssignmentAllocator} (h : s.bumpAllocate (classSize i) k answer = some r) {mem : Mem}
    (hmem : ∀ x, x < r.1 ∨ r.1 + 16 ≤ x → mem x = s.mem x) :
    Source s partCount answer r.1 { r.2 with mem } := by
  obtain ⟨⟨addr, alloc, sys⟩, halloc, rfl⟩ := Option.map_eq_some_iff.mp h
  exact .cut i hi hk halloc hmem

theorem allocateSlow_source (h : s.allocateSlow partCount skip answer = some (addr, s')) :
    Source s partCount answer addr s' := by
  unfold allocateSlow at h
  dsimp only at h
  split at h
  case isTrue hidx =>
    split at h
    case h_1 r hr =>
      cases h
      split at hr
      · cases hr
      · exact popFreeList_source ⟨_, hidx⟩ rfl hr
    case h_2 =>
      obtain ⟨⟨addr', s₁⟩, hbump, heq⟩ := Option.map_eq_some_iff.mp h
      cases heq
      rw [allocSize_eq ⟨_, hidx⟩ rfl] at hbump
      have hmem : s₁.mem = s.mem := by
        obtain ⟨⟨addr, alloc, sys⟩, -, heq⟩ := Option.map_eq_some_iff.mp hbump
        cases heq
        rfl
      exact bumpAllocate_source _ rfl (by decide) hbump (hmem ▸ construct_mem s₁ addr')
  case isFalse hidx =>
    obtain ⟨⟨addr', s₁⟩, hheap, heq⟩ := Option.map_eq_some_iff.mp h
    cases heq
    unfold heapAllocate at hheap
    split at hheap
    case isTrue => cases hheap
    case isFalse hne =>
      cases hheap
      exact .heap (not_lt.mp hidx) hne (construct_mem _ answer)

theorem allocate_source (h : s.allocate partCount answer = some (addr, s')) :
    Source s partCount answer addr s' := by
  unfold allocate at h
  split at h
  case isTrue => exact allocateSlow_source h
  case isFalse hnum =>
    have hi : (allocInfo partCount).freeListIdx = (0 : Fin 2).val := by
      rw [allocInfo_included (not_lt.mp hnum)]
      rfl
    split at h
    case h_1 r hr =>
      cases h
      exact popFreeList_source 0 hi hr
    case h_2 =>
      obtain ⟨⟨addr', alloc, sys⟩, halloc, heq⟩ := Option.map_eq_some_iff.mp h
      cases heq
      exact .cut 0 hi (by decide) halloc fun _ _ => rfl

end

/-! ### The invariant -/

/-- The block of an assignment. -/
def Assignment.block (a : Assignment) : ℕ × ℕ := (a.addr, blockSize a.partCount)

/-- The blocks in the free lists. -/
def freeBlocks (free : Fin 2 → List ℕ) : List (ℕ × ℕ) :=
  (free 0).map (fun a => (a, classSize 0)) ++ (free 1).map fun a => (a, classSize 1)

/-- The words in memory that the allocator reads: the links of the free lists, and the numbers of parts. -/
structure Words (mem : Mem) (lists : Fin 2 → ℕ) (free : Fin 2 → List ℕ) (live : List Assignment) : Prop where
  linked : ∀ i, Linked mem nextFreeOff (lists i) (free i)
  counts : ∀ a ∈ live, mem.loadNat (a.addr + partCountOff) 4 = a.partCount

/-- Every block is in use or free. -/
structure InvWith (s : AssignmentAllocator) (free : Fin 2 → List ℕ) : Prop where
  bump : BumpAllocator.Inv slabSize s.alloc s.sys s.heap s.handed
  sizes : ∀ r ∈ s.handed, r.size = 16 ∨ r.size = 32
  perm : (s.live.map Assignment.block ++ freeBlocks free).Perm s.blocks
  words : Words s.mem s.fixedFreeLists free s.live
  small : ∀ a ∈ s.live, a.partCount < 2 ^ 31 - 7

def Inv (s : AssignmentAllocator) : Prop := ∃ free, s.InvWith free

section
variable {free : Fin 2 → List ℕ} {live : List Assignment} {mem mem' : Mem} {lists : Fin 2 →
    ℕ} {i : Fin 2} {a b : ℕ × ℕ} {addr n : ℕ} {s' : AssignmentAllocator}

instance : Std.Symm Apart := ⟨fun _ _ => apart_comm.mp⟩

theorem mem_freeBlocks (i : Fin 2) (h : addr ∈ free i) : (addr, classSize i) ∈ freeBlocks free := by
  fin_cases i
  · exact List.mem_append_left _ (List.mem_map_of_mem h)
  · exact List.mem_append_right _ (List.mem_map_of_mem h)

/-- A block in front of a list. -/
theorem freeBlocks_cons (i : Fin 2) (addr : ℕ) :
    (freeBlocks (Function.update free i (addr :: free i))).Perm ((addr, classSize i) :: freeBlocks free) := by
  fin_cases i
  · exact .refl _
  · exact List.perm_middle

theorem sixteen_le_of_mem (h : b ∈ live.map Assignment.block ++ freeBlocks free) : 16 ≤ b.2 := by
  rcases List.mem_append.mp h with h | h
  · obtain ⟨a, -, rfl⟩ := List.mem_map.mp h
    exact sixteen_le_blockSize _
  · rcases List.mem_append.mp h with h | h
    all_goals
      obtain ⟨a, -, rfl⟩ := List.mem_map.mp h
      dsimp only
      decide

/-- A store in a block leaves the words of the blocks apart from it alone. -/
theorem Words.congr (h : Words mem lists free live) (hmem : ∀ x, x < a.1 ∨ a.1 + a.2 ≤ x → mem' x = mem x)
    (hapart : ∀ b ∈ live.map Assignment.block ++ freeBlocks free, Apart a b) :
      Words mem' lists free live := by
  have hload {b : ℕ × ℕ} (hb : b ∈ live.map Assignment.block ++ freeBlocks free) {off k : ℕ}
    (hk : off + k ≤ 16) :
      mem'.loadNat (b.1 + off) k = mem.loadNat (b.1 + off) k := by
    have hap := hapart b hb
    have hsize := sixteen_le_of_mem hb
    unfold Apart at hap
    exact Mem.loadNat_congr fun x hx hx' => hmem x (by omega)
  refine ⟨fun i => (h.linked i).congr fun a ha => ?_, fun a ha => ?_⟩
  · exact hload (b := (a, classSize i)) (List.mem_append_right _ (mem_freeBlocks i ha)) (by decide)
  · rw [← h.counts a ha]
    exact hload (List.mem_append_left _ (List.mem_map_of_mem ha)) (by decide)

/-- The blocks are in storage. -/
theorem mem_storage (h : BumpAllocator.Inv slabSize s.alloc s.sys s.heap s.handed) (hb : b ∈ s.blocks) :
    ∃ c, s.sys.Live c ∧ 0 < c.1.addr ∧ c.1.addr + c.2 ≤ 2 ^ 63 ∧ c.1.addr ≤ b.1 ∧
      b.1 + b.2 ≤ c.1.addr + c.2 := by
  rcases List.mem_append.mp hb with hb | hb
  · obtain ⟨r, hr, rfl⟩ := List.mem_map.mp hb
    obtain ⟨c, hc, hlow, hhigh⟩ := h.inside r hr
    have hc := List.mem_append_left s.heap hc
    exact ⟨c, h.blocks.live hc, h.blocks.pos c hc, h.blocks.bound c hc, hlow, hhigh⟩
  · obtain ⟨c, hc, rfl⟩ := List.mem_map.mp hb
    have hc := List.mem_append_right (s.alloc.held slabSize) hc
    exact ⟨c, h.blocks.live hc, h.blocks.pos c hc, h.blocks.bound c hc, le_rfl, le_rfl⟩

/-- The blocks are apart, and even empty ones have different addresses. -/
theorem pairwise_blocks (h : BumpAllocator.Inv slabSize s.alloc s.sys s.heap s.handed)
    (hsizes : ∀ r ∈ s.handed, r.size = 16 ∨ r.size = 32) :
    s.blocks.Pairwise fun b b' => Apart (b.1, max b.2 1) (b'.1, max b'.2 1) := by
  obtain ⟨-, hheap, hcross⟩ := List.pairwise_append.mp h.blocks.apart
  refine List.pairwise_append.mpr ⟨List.pairwise_map.mpr ?_, List.pairwise_map.mpr hheap, fun b hb c hc => ?_⟩
  · refine h.disjoint.imp_of_mem fun {r r'} hr hr' hap => ?_
    have hsize := hsizes r hr
    have hsize' := hsizes r' hr'
    unfold Apart BumpAllocator.Range.range at *
    dsimp only at *
    omega
  · obtain ⟨r, hr, rfl⟩ := List.mem_map.mp hb
    obtain ⟨d, hd, rfl⟩ := List.mem_map.mp hc
    obtain ⟨e, he, hlow, hhigh⟩ := h.inside r hr
    have hsize := hsizes r hr
    have hap := hcross e he d hd
    unfold Apart BumpAllocator.Range.range at *
    unfold Block.range at hap
    dsimp only at *
    omega

theorem apart_blocks (h : BumpAllocator.Inv slabSize s.alloc s.sys s.heap s.handed)
    (hsizes : ∀ r ∈ s.handed, r.size = 16 ∨ r.size = 32) :
    s.blocks.Pairwise Apart := by
  refine (pairwise_blocks h hsizes).imp fun {b b'} hap => ?_
  unfold Apart at *
  dsimp only at *
  omega

theorem InvWith.apart (h : s.InvWith free) :
    (s.live.map Assignment.block ++ freeBlocks free).Pairwise Apart :=
  (h.perm.pairwise_iff fun hab => apart_comm.mp hab).mpr (apart_blocks h.bump h.sizes)

theorem InvWith.block_mem (h : s.InvWith free) {a : Assignment} (ha : a ∈ s.live) : a.block ∈ s.blocks :=
  h.perm.subset (List.mem_append_left _ (List.mem_map_of_mem ha))

theorem InvWith.correct (h : s.InvWith free) : s.Correct where
  fits a ha := ⟨a.block, h.block_mem ha, rfl, need_le_blockSize _⟩
  disjoint := by
    have hlive := List.pairwise_map.mp (List.pairwise_append.mp h.apart).1
    refine hlive.imp fun {a a'} hap => ?_
    have hle := need_le_blockSize a.partCount
    have hle' := need_le_blockSize a'.partCount
    unfold Apart Assignment.block at hap
    unfold Apart
    dsimp only at hap ⊢
    omega
  apart := apart_blocks h.bump h.sizes
  storage b hb := by
    obtain ⟨c, hc, -, -, hin⟩ := mem_storage h.bump hb
    exact ⟨c, hc, hin⟩

theorem inv_init : Inv {} := ⟨fun _ => [], BumpAllocator.inv_init, nofun, .nil, ⟨fun _ => rfl, nofun⟩, nofun⟩

/-! ### The calls -/

/-- A block of a free list that is taken. -/
theorem InvWith.pop (h : s.InvWith free) (hne : s.fixedFreeLists i ≠ 0) : ∃ free',
    (freeBlocks free).Perm ((s.fixedFreeLists i, classSize i) :: freeBlocks free') ∧
    ∀ j, Linked s.mem nextFreeOff
      (Function.update s.fixedFreeLists i (s.mem.loadNat (s.fixedFreeLists i + nextFreeOff) 8) j)
        (free' j) := by
  obtain ⟨rest, heq, htail⟩ := (h.words.linked i).pop hne
  refine ⟨Function.update free i rest, ?_, fun j => ?_⟩
  · have hcons := @freeBlocks_cons (Function.update free i rest) i (s.fixedFreeLists i)
    rwa [Function.update_self, Function.update_idem, ← heq, Function.update_eq_self] at hcons
  · by_cases hj : j = i
    · subst hj
      rwa [Function.update_self, Function.update_self]
    · rw [Function.update_of_ne hj, Function.update_of_ne hj]
      exact h.words.linked j

/-- What an allocation leads to before it is in use: its block, apart from those of all others. -/
structure Made (s : AssignmentAllocator) (free : Fin 2 → List ℕ) (addr size : ℕ) : Prop where
  bump : BumpAllocator.Inv slabSize s.alloc s.sys s.heap s.handed
  sizes : ∀ r ∈ s.handed, r.size = 16 ∨ r.size = 32
  perm : ((addr, size) :: (s.live.map Assignment.block ++ freeBlocks free)).Perm s.blocks
  words : 16 ≤ size → Words s.mem s.fixedFreeLists free s.live
  small : ∀ a ∈ s.live, a.partCount < 2 ^ 31 - 7

theorem Made.apart (h : Made s free addr n) : ∀ b ∈ s.live.map Assignment.block ++ freeBlocks free,
    Apart (addr, n) b :=
  (List.pairwise_cons.mp
    ((h.perm.pairwise_iff fun hab => apart_comm.mp hab).mpr (apart_blocks h.bump h.sizes))).1

/-- It is put in use. -/
theorem Made.init (h : Made s free addr n) {partCount : ℕ} (hn : blockSize partCount = n)
    (hsmall : partCount < 2 ^ 31 - 7)
    (hinit : s.init partCount addr = some s') : s'.InvWith free := by
  unfold AssignmentAllocator.init at hinit
  split at hinit
  case isTrue => cases hinit
  case isFalse =>
    cases hinit
    have hsize := sixteen_le_blockSize partCount
    have hkept : ∀ x, x < addr ∨ addr + n ≤ x →
      s.mem.storeNat (addr + partCountOff) 4 partCount x = s.mem x := fun x hx =>
      Mem.storeNat_of_not_mem (by unfold partCountOff; omega)
    have hwords := (h.words (hn ▸ hsize)).congr hkept h.apart
    refine ⟨h.bump, h.sizes, ?_, ⟨hwords.linked, List.forall_mem_cons.mpr ⟨?_, hwords.counts⟩⟩,
      List.forall_mem_cons.mpr ⟨hsmall, h.small⟩⟩
    · rw [List.map_cons, List.cons_append, Assignment.block, hn]
      exact h.perm
    · rw [Mem.loadNat_storeNat]
      exact Nat.mod_eq_of_lt (by omega)

/-- An allocator whose blocks are new or old. -/
theorem Source.made {partCount answer : ℕ} (hsource : Source s partCount answer addr s') (h : s.InvWith free)
    (hanswer : answer = 0 ∨ s.sys.Fresh (s.request partCount) answer) (hne : addr ≠ 0) :
    ∃ free' n, Made s' free' addr n ∧
      ((∃ i : Fin 2, (allocInfo partCount).freeListIdx = i.val ∧ n = classSize i) ∨
        2 ≤ (allocInfo partCount).freeListIdx ∧ n = (allocInfo partCount).size) := by
  cases hsource with
  | recycled i hi hne =>
    obtain ⟨free', hperm, hlinked⟩ := h.pop hne
    refine ⟨free', classSize i, ⟨h.bump, h.sizes, ?_, fun _ => ⟨hlinked, h.words.counts⟩, h.small⟩,
      .inl ⟨i, hi, rfl⟩⟩
    exact (List.perm_middle.symm.trans (hperm.symm.append_left _)).trans h.perm
  | @cut i hi k hk addr alloc sys mem halloc hmem =>
    have hbump :
      BumpAllocator.Inv slabSize alloc sys s.heap (⟨addr, classSize i, 2 ^ k.val⟩ :: s.handed) := by
      obtain ⟨hsize, ⟨hfit, rfl, rfl, rfl⟩ | ⟨hfit, hslow⟩⟩ := BumpAllocator.allocate_cases halloc
      · refine h.bump.fast hsize hfit ?_
        have hpow : 2 ^ k.val ≤ 2 ^ 4 := Nat.pow_le_pow_right (by decide) hk
        have hcur := h.bump.le.trans h.bump.stop_le
        have halign := alignUp_le_add s.alloc.cur (2 ^ k.val)
        rcases classSize_cases i with hcls | hcls <;> omega
      · have hnull : answer ≠ 0 := by
          rintro rfl
          exact hne (BumpAllocator.allocateSlab_null hslow).1
        have hfresh := hanswer.resolve_left hnull
        rw [request, if_pos (hi ▸ i.isLt), allocSize_eq i hi] at hfresh
        exact h.bump.slow hsize hfresh hslow
    have hperm :
      ((addr, classSize i) :: (s.live.map Assignment.block ++ freeBlocks free)).Perm
      ((addr, classSize i) :: s.blocks) :=
      h.perm.cons _
    have hsizes : ∀ r ∈ (⟨addr, classSize i, 2 ^ k.val⟩ : BumpAllocator.Range) :: s.handed,
      r.size = 16 ∨ r.size = 32 :=
      List.forall_mem_cons.mpr ⟨classSize_cases i, h.sizes⟩
    refine ⟨free, classSize i, ⟨hbump, hsizes, hperm, fun hsize => ?_, h.small⟩, .inl ⟨i, hi, rfl⟩⟩
    have hapart := (hperm.pairwise_iff fun hab => apart_comm.mp hab).mpr
      (apart_blocks (s := { s with
        alloc, sys, mem, handed := ⟨addr, classSize i, 2 ^ k.val⟩ :: s.handed }) hbump hsizes)
    exact h.words.congr (fun x hx => hmem x (by omega)) (List.pairwise_cons.mp hapart).1
  | @heap hi hnull mem hmem =>
    have hfresh := hanswer.resolve_left hnull
    rw [request,
      if_neg (show ¬ (allocInfo partCount).freeListIdx < numFreeLists from not_lt.mpr hi)] at hfresh
    have hbump := h.bump.other hfresh
    have hperm : ((addr, (allocInfo partCount).size) :: (s.live.map Assignment.block ++ freeBlocks free)).Perm
        (s.handed.map BumpAllocator.Range.range ++ (addr, (allocInfo partCount).size) :: s.heap.map
          fun b => (b.1.addr, b.2)) :=
      (h.perm.cons _).trans List.perm_middle.symm
    refine ⟨free, (allocInfo partCount).size, ⟨hbump, h.sizes, hperm, fun hsize => ?_, h.small⟩,
      .inr ⟨hi, rfl⟩⟩
    have hapart := (hperm.pairwise_iff fun hab => apart_comm.mp hab).mpr (apart_blocks
      (s := { s with
        sys := (s.sys.new (allocInfo partCount).size addr).2
        heap := ((s.sys.new (allocInfo partCount).size addr).1, (allocInfo partCount).size) :: s.heap })
          hbump h.sizes)
    exact h.words.congr (fun x hx => hmem x (by omega)) (List.pairwise_cons.mp hapart).1

/-- An assignment that is not in use any more. -/
theorem InvWith.made (h : s.InvWith free) {a : Assignment} (ha : a ∈ s.live) :
    Made { s with live := s.live.erase a } free a.addr (blockSize a.partCount) where
  bump := h.bump
  sizes := h.sizes
  perm := by
    have herase := ((List.perm_cons_erase ha).map Assignment.block).append_right (freeBlocks free)
    exact herase.symm.trans h.perm
  words _ := ⟨h.words.linked, fun a' ha' => h.words.counts a' (List.mem_of_mem_erase ha')⟩
  small a' ha' := h.small a' (List.mem_of_mem_erase ha')

theorem Made.block_mem (h : Made s free addr n) : (addr, n) ∈ s.blocks := h.perm.subset List.mem_cons_self

theorem Made.ne_zero (h : Made s free addr n) : addr ≠ 0 := by
  obtain ⟨c, -, hpos, -, hlow, -⟩ := mem_storage h.bump h.block_mem
  exact (hpos.trans_le hlow).ne'

/-- Its block goes to a free list. -/
theorem Made.push (h : Made s free addr (classSize i)) :
    (s.pushFreeList i addr).InvWith (Function.update free i (addr :: free i)) := by
  have hsize : 16 ≤ classSize i := by rcases classSize_cases i with hi | hi <;> omega
  have hmem : ∀ x, x < addr ∨ addr + classSize i ≤ x →
      s.mem.storeNat (addr + nextFreeOff) 8 (s.fixedFreeLists i) x = s.mem x :=
    fun x hx => Mem.storeNat_of_not_mem (by unfold nextFreeOff; omega)
  have hwords := (h.words hsize).congr (a := (addr, classSize i)) hmem h.apart
  refine ⟨h.bump, h.sizes, ?_, ⟨fun j => ?_, hwords.counts⟩, h.small⟩
  · exact (((freeBlocks_cons i addr).append_left _).trans List.perm_middle).trans h.perm
  · by_cases hj : j = i
    · subst hj
      -- The head of the list is an address, or 0.
      have hhead : s.fixedFreeLists j < 256 ^ 8 := by
        have hlinked := (h.words hsize).linked j
        cases hfree : free j with
        | nil =>
          rw [hfree] at hlinked
          rw [show s.fixedFreeLists j = 0 from hlinked]
          decide
        | cons a as =>
          rw [hfree] at hlinked
          have ha : (a, classSize j) ∈ s.blocks := h.perm.subset (List.mem_cons_of_mem _
            (List.mem_append_right _ (mem_freeBlocks j (hfree ▸ List.mem_cons_self))))
          obtain ⟨c, -, -, hbound, -, hhigh⟩ := mem_storage h.bump ha
          rw [hlinked.1]
          dsimp only at hhigh
          omega
      show Linked _ _ (Function.update s.fixedFreeLists j addr j) (Function.update free j (addr :: free j) j)
      rw [Function.update_self, Function.update_self]
      have hlink : (s.mem.storeNat (addr + nextFreeOff) 8 (s.fixedFreeLists j)).loadNat
        (addr + nextFreeOff) 8 = s.fixedFreeLists j := by
        rw [Mem.loadNat_storeNat, Nat.mod_eq_of_lt hhead]
      exact ⟨rfl, h.ne_zero, hlink.symm ▸ hwords.linked j⟩
    · show Linked _ _ (Function.update s.fixedFreeLists i addr j) (Function.update free i (addr :: free i) j)
      rw [Function.update_of_ne hj, Function.update_of_ne hj]
      exact hwords.linked j

/-- Its block goes back to the system. -/
theorem Made.heapDelete (h : Made s free addr n) (hn : 32 < n) : ∃ s', s.heapDelete addr = some s' ∧
    s'.InvWith free := by
  have hheap : ∃ b ∈ s.heap, b.1.addr = addr ∧ b.2 = n := by
    rcases List.mem_append.mp h.block_mem with hb | hb
    · obtain ⟨r, hr, heq⟩ := List.mem_map.mp hb
      have hsize := h.sizes r hr
      have := congrArg Prod.snd heq
      unfold BumpAllocator.Range.range at this
      dsimp only at this
      omega
    · obtain ⟨b, hb, heq⟩ := List.mem_map.mp hb
      obtain ⟨haddr, hsize⟩ := Prod.mk.inj heq
      exact ⟨b, hb, haddr, hsize⟩
  obtain ⟨b, hb, haddr, hsize⟩ := hheap
  have hfind : s.heap.find? (fun b => b.1.addr = addr) = some b := by
    cases hf : s.heap.find? (fun b => b.1.addr = addr) with
    | none => exact absurd (decide_eq_true haddr) (List.find?_eq_none.mp hf b hb)
    | some c =>
      have hc := List.mem_of_find?_eq_some hf
      have hcaddr : decide (c.1.addr = addr) = true :=
        List.find?_some (p := fun b : Storage.Block => decide (b.1.addr = addr)) hf
      have hcaddr := of_decide_eq_true hcaddr
      by_contra hne
      have hap := h.bump.blocks.apart_of_mem (List.mem_append_right _ hc) (List.mem_append_right _ hb)
        fun heq => hne (congrArg some heq)
      unfold Apart Block.range at hap
      dsimp only at hap
      omega
  have hperm := List.perm_cons_erase hb
  refine ⟨{ s with
    sys := s.sys.deleteAll [b], heap := s.heap.erase b }, by rw [AssignmentAllocator.heapDelete, hfind]; rfl,
    h.bump.otherDeleted hperm, h.sizes, ?_, h.words (by omega), h.small⟩
  have hblocks :
    s.blocks.Perm
    ((addr, n) :: (s.handed.map BumpAllocator.Range.range ++ (s.heap.erase b).map fun b =>
    (b.1.addr, b.2))) := by
    have hmap := (hperm.map fun b => (b.1.addr, b.2)).append_left (s.handed.map BumpAllocator.Range.range)
    rw [List.map_cons, haddr, hsize] at hmap
    exact hmap.trans List.perm_middle
  exact (h.perm.trans hblocks).cons_inv

/-- A call of `deallocate` for an assignment in use. -/
theorem InvWith.deallocate (h : s.InvWith free) {a : Assignment} (ha : a ∈ s.live) :
    ∃ s', AssignmentAllocator.deallocate { s with live := s.live.erase a } a.addr = some s' ∧ Inv s' := by
  have hmade := h.made ha
  have hcount := h.words.counts a ha
  have hsmall := h.small a ha
  unfold AssignmentAllocator.deallocate deallocateSlow
  dsimp only
  rw [hcount]
  split
  case isTrue hnum =>
    rcases blockSize_eq hsmall with ⟨i, hi, hsize⟩ | ⟨hi, hlarge, -⟩
    · rw [hsize] at hmade
      rw [dif_pos (show (allocInfo a.partCount).freeListIdx < numFreeLists from hi ▸ i.isLt)]
      have heq : (⟨(allocInfo a.partCount).freeListIdx, hi ▸ i.isLt⟩ : Fin 2) = i := Fin.ext hi
      exact ⟨_, rfl, _, heq ▸ hmade.push⟩
    · rw [dif_neg (show ¬ (allocInfo a.partCount).freeListIdx < numFreeLists from not_lt.mpr hi)]
      obtain ⟨s', hs', hinv⟩ := hmade.heapDelete hlarge
      exact ⟨s', hs', free, hinv⟩
  case isFalse hnum =>
    have hsize : blockSize a.partCount = classSize 0 := if_pos (not_lt.mp hnum)
    rw [hsize] at hmade
    exact ⟨_, rfl, _, hmade.push⟩

/-- A store to an assignment in use. -/
theorem InvWith.write (h : s.InvWith free) {a : Assignment} (ha : a ∈ s.live) {off : ℕ} {bytes : List UInt8}
    (hoff : off + bytes.length ≤ partCountOff ∨ nextFreeOff ≤ off ∧ off + bytes.length ≤ need a.partCount) :
    InvWith { s with mem := s.mem.store (a.addr + off) bytes } free := by
  have hmade := h.made ha
  have hsize := sixteen_le_blockSize a.partCount
  have hneed := need_le_blockSize a.partCount
  unfold partCountOff nextFreeOff at hoff
  have hkept : ∀ x, x < a.block.1 ∨ a.block.1 + a.block.2 ≤ x →
    s.mem.store (a.addr + off) bytes x = s.mem x := fun x hx =>
    Mem.store_of_not_mem (by unfold Assignment.block at hx; dsimp only at hx; omega)
  have hwords := (hmade.words hsize).congr hkept hmade.apart
  refine ⟨h.bump, h.sizes, h.perm, ⟨hwords.linked, fun a' ha' => ?_⟩, h.small⟩
  by_cases heq : a' = a
  · subst heq
    rw [← h.words.counts a' ha']
    exact Mem.loadNat_congr fun x hx hx' => Mem.store_of_not_mem (by unfold partCountOff at *; omega)
  · exact hwords.counts a' ((List.mem_erase_of_ne heq).mpr ha')

/-- A new assignment: the invariant holds with it exactly if its size does not take more than 32 bits. -/
theorem InvWith.init {partCount answer : ℕ} {s'' : AssignmentAllocator} (h : s.InvWith free)
    (hsource : Source s partCount answer addr s')
    (hanswer : answer = 0 ∨ s.sys.Fresh (s.request partCount) answer)
    (hinit : s'.init partCount addr = some s'') :
    (partCount < 2 ^ 31 - 7 → Inv s'') ∧ (2 ^ 31 - 7 ≤ partCount → ¬ s''.Correct) := by
  have hne : addr ≠ 0 := by
    rintro rfl
    cases hinit
  obtain ⟨free', n, hmade, hn⟩ := hsource.made h hanswer hne
  constructor
  · intro hsmall
    refine ⟨free', hmade.init ?_ hsmall hinit⟩
    rcases hn with ⟨i, hi, rfl⟩ | ⟨hi, rfl⟩ <;>
      rcases blockSize_eq hsmall with ⟨j, hj, hsize⟩ | ⟨hj, -, hsize⟩
    · rw [hsize, Fin.ext (hj.symm.trans hi)]
    · have := i.isLt
      omega
    · have := j.isLt
      omega
    · exact hsize
  · intro hlarge hcorrect
    have hlt : n < need partCount := by
      rcases hn with ⟨i, -, rfl⟩ | ⟨-, rfl⟩
      · exact classSize_lt_need hlarge i
      · exact size_lt_need hlarge
    unfold AssignmentAllocator.init at hinit
    rw [if_neg hne] at hinit
    cases hinit
    obtain ⟨b, hb, haddr, hfits⟩ := hcorrect.fits ⟨addr, partCount⟩ List.mem_cons_self
    have hbne : b ≠ (addr, n) := by
      rintro rfl
      exact absurd hfits (not_le.mpr hlt)
    have : Std.Symm fun b b' : ℕ × ℕ => Apart (b.1, max b.2 1) (b'.1, max b'.2 1) :=
      ⟨fun _ _ => apart_comm.mp⟩
    have hap := (pairwise_blocks hmade.bump hmade.sizes).forall hb hmade.block_mem hbne
    unfold Apart at hap
    dsimp only at hap haddr
    omega

variable {t : Step AssignmentAllocator Op}

/-- A step is good exactly if it meets the condition, and then keeps the invariant. -/
theorem Inv.step (h : t.before.Inv) (hstep : AssignmentAllocator.step t.before t.op = some t.after)
    (hanswer : Answered t) :
    (Meets t → t.after.Inv) ∧ (¬ Meets t → ¬ t.after.Correct) := by
  obtain ⟨free, h⟩ := h
  obtain ⟨s, op, s''⟩ := t
  cases op with
  | allocate partCount answer =>
    obtain ⟨⟨addr, s'⟩, halloc, hinit⟩ := Option.bind_eq_some_iff.mp hstep
    obtain ⟨hkeep, hbad⟩ := h.init (allocate_source halloc) hanswer hinit
    exact ⟨hkeep, fun hmeets => hbad (not_lt.mp hmeets)⟩
  | allocateSlow partCount skipFreeList answer =>
    obtain ⟨⟨addr, s'⟩, halloc, hinit⟩ := Option.bind_eq_some_iff.mp hstep
    obtain ⟨hkeep, hbad⟩ := h.init (allocateSlow_source halloc) hanswer hinit
    exact ⟨hkeep, fun hmeets => hbad (not_lt.mp hmeets)⟩
  | write a off bytes =>
    refine ⟨fun _ => ?_, fun hmeets => absurd trivial hmeets⟩
    simp only [AssignmentAllocator.step] at hstep
    split at hstep
    case isTrue hw =>
      cases hstep
      exact ⟨free, h.write hw.1 hw.2⟩
    case isFalse => cases hstep
  | deallocate a =>
    refine ⟨fun _ => ?_, fun hmeets => absurd trivial hmeets⟩
    simp only [AssignmentAllocator.step] at hstep
    split at hstep
    case isTrue ha =>
      obtain ⟨s₁, hdealloc, hinv⟩ := h.deallocate ha
      rw [hdealloc] at hstep
      cases hstep
      exact hinv
    case isFalse => cases hstep

/-- **Blocks are apart and large enough** in every state of a run exactly if no size takes more than 32
bits. -/
theorem assignments_correct_iff {ops : List Op} (hanswers : ∀ t ∈ steps step {} ops, Answered t) :
    (∀ t ∈ steps step {} ops, t.after.Correct) ↔ ∀ t ∈ steps step {} ops, Meets t := by
  refine forall_steps_iff inv_init (fun t ht h => (h.step (step_of_mem ht) (hanswers t ht)).1)
    fun t ht h => ⟨fun hcorrect => ?_, fun hmeets => ?_⟩
  · by_contra hmeets
    exact (h.step (step_of_mem ht) (hanswers t ht)).2 hmeets hcorrect
  · obtain ⟨free, hinv⟩ := (h.step (step_of_mem ht) (hanswers t ht)).1 hmeets
    exact hinv.correct

/-- A call of `deallocate` for an assignment in use is never stuck. -/
theorem deallocate_isSome {ops : List Op} (hanswers : ∀ t ∈ steps step {} ops, Answered t)
    (hmeets : ∀ t ∈ steps step {} ops, Meets t) :
    ∀ t ∈ steps step {} ops, ∀ a ∈ t.after.live, (step t.after (.deallocate a)).isSome := by
  intro t ht a ha
  have hinv :=
    (invariant inv_init (fun t ht h => (h.step (step_of_mem ht) (hanswers t ht)).1 (hmeets t ht)) t ht).2
  obtain ⟨free, hinv⟩ := hinv
  obtain ⟨s', hs', -⟩ := hinv.deallocate ha
  rw [step, if_pos ha, hs', Option.isSome_some]

/-- An assignment whose block is used again. -/
def reused : List Op := [.allocate 1 65536, .deallocate ⟨65536, 1⟩, .allocate 1 0]

theorem assignments_correct_iff_reused : (∀ t ∈ steps step {} reused, t.after.Correct) ↔
    ∀ t ∈ steps step {} reused, Meets t := by
  refine assignments_correct_iff
    (List.forall_mem_cons.mpr ⟨.inr ⟨by decide, by decide, by decide +kernel, fun b hb => ?_⟩, ?_⟩)
  · cases hb.1
  · exact List.forall_mem_cons.mpr ⟨trivial, List.forall_mem_cons.mpr ⟨.inl rfl, List.forall_mem_nil _⟩⟩

/-- An assignment whose size takes 33 bits. -/
def hugeCount : List Op := [.allocate 2147483641 65536]

/-- It gets a block of no bytes. -/
theorem hugeCount_tooSmall : (∀ t ∈ steps step {} hugeCount, Answered t) ∧
    ¬ ∀ t ∈ steps step {} hugeCount, t.after.Correct := by
  obtain ⟨s, hs⟩ :=
    Option.isSome_iff_exists.mp (show (step {} (.allocate 2147483641 65536)).isSome = true by decide +kernel)
  have hanswer : Answered ⟨{}, .allocate 2147483641 65536, s⟩ :=
    .inr ⟨by decide, by decide, show 65536 + request {} 2147483641 ≤ 2 ^ 63 by decide +kernel,
      fun b hb => by cases hb.1⟩
  rw [hugeCount, steps_of_some hs, List.forall_mem_cons, List.forall_mem_cons]
  refine ⟨⟨hanswer, List.forall_mem_nil _⟩, fun h => ?_⟩
  exact (inv_init.step (t := ⟨{}, .allocate 2147483641 65536, s⟩) hs hanswer).2
    (show ¬ (2147483641#32).toNat < 2 ^ 31 - 7 by decide) h.1

end

end AssignmentAllocator

end Tpde.Compiler
