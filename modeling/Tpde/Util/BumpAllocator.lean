import Mathlib
import Tpde.Library.Runs
import Tpde.Library.Storage

/-!
# The bump allocator

`BumpAllocator` cuts allocations off slabs from the system; a request that does not fit a slab
gets one of its own. `reset` frees these large slabs, but keeps them in its list: they are freed
again by the next `reset` or the destructor. Besides, the end of a request is computed modulo
2^64, and an answer of `operator new` is not compared with null. Apart from that, allocations are
disjoint, aligned and inside of live slabs, and every slab is freed exactly once (`slabs_correct_iff`).
-/

namespace Tpde.Util

open Ranges Runs Storage

/-! ### The model -/

/-- `align_up`, on 64 bits. -/
def alignUp64 (val align : ℕ) : ℕ := (val + (align - 1)) % 2 ^ 64 / align * align

structure BumpAllocator where
  cur : ℕ := 0
  stop : ℕ := 0
  slabs : List Ptr := []
  largeSlabs : List Block := []
  deriving DecidableEq

namespace BumpAllocator

section
variable (SlabSize : ℕ)

/-- `slab_size`. -/
def slabSize (i : ℕ) : ℕ := SlabSize * 2 ^ (i / 8) % 2 ^ 64

/-- The slabs, with the sizes that they are freed with. -/
def slabBlocks (a : BumpAllocator) : List Block := a.slabs.mapIdx fun i p => (p, slabSize SlabSize i)

/-- What `allocate_slab` asks of the system. -/
def request (a : BumpAllocator) (size : ℕ) : ℕ :=
  if slabSize SlabSize a.slabs.length < size then size else slabSize SlabSize a.slabs.length

/-- `allocate_slab`, with the address it returns. -/
def allocateSlab (a : BumpAllocator) (sys : Sys) (size align answer : ℕ) : Option (ℕ × BumpAllocator × Sys) :=
  if align ≤ 16 then
    let slabSz := slabSize SlabSize a.slabs.length
    if slabSz < size then
      let (slab, sys) := sys.new size answer
      some (slab.addr, { a with largeSlabs := a.largeSlabs ++ [(slab, size)] }, sys)
    else
      let (slab, sys) := sys.new slabSz answer
      some (slab.addr,
        { a with
          slabs := a.slabs ++ [slab]
          cur := (slab.addr + size) % 2 ^ 64
          stop := (slab.addr + slabSz) % 2 ^ 64 }, sys)
  else none

/-- `alloc_end` in `allocate`. -/
def allocEnd (a : BumpAllocator) (size align : ℕ) : ℕ := (alignUp64 a.cur align + size) % 2 ^ 64

/-- `allocate`, with the address it returns. -/
def allocate (a : BumpAllocator) (sys : Sys) (size align answer : ℕ) : Option (ℕ × BumpAllocator × Sys) :=
  if 0 < size then
    if a.allocEnd size align ≤ a.stop then
      some (alignUp64 a.cur align, { a with cur := a.allocEnd size align }, sys)
    else a.allocateSlab SlabSize sys size align answer
  else none

/-- `deallocate_slabs`. -/
def deallocateSlabs (a : BumpAllocator) (sys : Sys) (skip : ℕ) : Sys :=
  sys.deleteAll ((a.slabBlocks SlabSize).drop skip)

/-- `deallocate_large_slabs`. -/
def deallocateLargeSlabs (a : BumpAllocator) (sys : Sys) : Sys := sys.deleteAll a.largeSlabs

/-- `reset`. -/
def reset (a : BumpAllocator) (sys : Sys) : BumpAllocator × Sys :=
  match a.slabs with
  | [] => (a, a.deallocateLargeSlabs sys)
  | slab :: _ =>
    ({ a with slabs := a.slabs.take 1, cur := slab.addr, stop := (slab.addr + slabSize SlabSize 0) % 2 ^ 64 },
      a.deallocateLargeSlabs (a.deallocateSlabs SlabSize sys 1))

/-- The destructor. -/
def destroy (a : BumpAllocator) (sys : Sys) : Sys := a.deallocateLargeSlabs (a.deallocateSlabs SlabSize sys 0)

end

/-! ### Runs -/

/-- An allocation: its address, its size and the alignment that it was requested with. -/
structure Range where
  addr : ℕ
  size : ℕ
  align : ℕ
  deriving DecidableEq

/-- The addresses of an allocation. -/
def Range.range (r : Range) : ℕ × ℕ := (r.addr, r.size)

/-- An allocation is in some storage. -/
def Range.In (r : Range) (b : Block) : Prop := b.1.addr ≤ r.addr ∧ r.addr + r.size ≤ b.1.addr + b.2

/-- An allocator, the system, and what was handed out since the last `reset`. -/
structure World where
  alloc : BumpAllocator := {}
  sys : Sys := {}
  handed : List Range := []

local instance neZero_sixtyFour : NeZero 64 := ⟨by decide⟩

/-- The calls; `allocate` is for an alignment of 2^`k`, and has what the system answers if it is asked. -/
inductive Op where
  | allocate (size : BitVec 64) (k : Fin 64) (answer : ℕ)
  | reset

variable (SlabSize : ℕ)

def step (w : World) : Op → Option World
  | .allocate size k answer =>
    (w.alloc.allocate SlabSize w.sys size.toNat (2 ^ k.val) answer).map fun (addr, alloc, sys) =>
      { alloc, sys, handed := ⟨addr, size.toNat, 2 ^ k.val⟩ :: w.handed }
  | .reset =>
    let (alloc, sys) := w.alloc.reset SlabSize w.sys
    some { alloc, sys, handed := [] }

/-- What must hold after every call, also if the allocator is destroyed then. -/
structure World.Correct (w : World) : Prop where
  disjoint : w.handed.Pairwise fun r r' => Apart r.range r'.range
  aligned : ∀ r ∈ w.handed, r.align ∣ r.addr
  inside : ∀ r ∈ w.handed, ∃ b, w.sys.Live b ∧ r.In b
  freed : (w.alloc.destroy SlabSize w.sys).Settled

/-- The system keeps its promise, or has no more memory. -/
def Answered (t : Step World Op) : Prop :=
  match t.op with
  | .allocate size _ answer => answer = 0 ∨
    t.before.sys.Fresh (t.before.alloc.request SlabSize size.toNat) answer
  | .reset => True

/-- The condition on a call: a `reset` finds no large slab, and an allocation that is made in the
current slab does not wrap around the address space, while one that is not gets memory from the system.
-/
def Meets (t : Step World Op) : Prop :=
  match t.op with
  | .allocate size k answer =>
    if t.before.alloc.allocEnd size.toNat (2 ^ k.val) ≤ t.before.alloc.stop then
      alignUp t.before.alloc.cur (2 ^ k.val) + size.toNat < 2 ^ 64
    else answer ≠ 0
  | .reset => t.before.alloc.largeSlabs = []

/-! ### The invariant -/

/-- The slabs of an allocator. -/
def held (a : BumpAllocator) : List Block := a.slabBlocks SlabSize ++ a.largeSlabs

/-- The allocator holds its slabs, beside the blocks of others. What was handed out is in them, and
apart from the rest of the current slab. -/
structure Inv (a : BumpAllocator) (sys : Sys) (others : List Block) (handed : List Range) : Prop where
  blocks : Blocks sys (a.held SlabSize ++ others)
  le : a.cur ≤ a.stop
  window : a.stop = 0 ∨ ∃ b ∈ a.slabBlocks SlabSize, b.1.addr ≤ a.cur ∧ a.stop ≤ b.1.addr + b.2
  sizes : ∀ b ∈ a.slabBlocks SlabSize, 0 < b.2
  aligned : ∀ r ∈ handed, r.align ∣ r.addr
  inside : ∀ r ∈ handed, ∃ b ∈ a.held SlabSize, r.In b
  disjoint : handed.Pairwise fun r r' => Apart r.range r'.range
  behind : ∀ r ∈ handed, r.addr + r.size ≤ a.cur ∨ a.stop ≤ r.addr

variable {SlabSize}

theorem alignUp64_eq {val align : ℕ} (h : val + (align - 1) < 2 ^ 64) :
    alignUp64 val align = alignUp val align := by
  rw [alignUp64, Nat.mod_eq_of_lt h, alignUp]

theorem pow_le (k : Fin 64) : 2 ^ k.val ≤ 2 ^ 63 :=
  Nat.pow_le_pow_right (by decide) (Nat.le_of_lt_succ k.isLt)

section
variable {a a' : BumpAllocator} {sys sys' : Sys} {others : List Block} {handed : List Range}
    {size answer addr n : ℕ} {k : Fin 64}

theorem inv_init : Inv SlabSize {} {} [] [] := ⟨.empty, le_rfl, .inl rfl, nofun, nofun, nofun, .nil, nofun⟩

theorem Inv.stop_le (h : Inv SlabSize a sys others handed) : a.stop ≤ 2 ^ 63 := by
  rcases h.window with h0 | ⟨b, hb, -, hstop⟩
  · omega
  · have hbound := h.blocks.bound b (List.mem_append_left _ (List.mem_append_left _ hb))
    exact hstop.trans hbound

/-- `slab_size` never shifts by the width of a word: a slab that is half of the address space is not to
be had. -/
theorem Inv.shift_lt (h : Inv SlabSize a sys others handed) : a.slabs.length / 8 < 64 := by
  by_contra hge
  have hlen : 504 < a.slabs.length := by omega
  have hmem : (a.slabs[504], slabSize SlabSize 504) ∈ a.slabBlocks SlabSize := by
    rw [slabBlocks, List.mem_mapIdx]
    exact ⟨504, hlen, rfl⟩
  have hpos := h.sizes _ hmem
  have haddr := h.blocks.pos _ (List.mem_append_left _ (List.mem_append_left _ hmem))
  have hbound := h.blocks.bound _ (List.mem_append_left _ (List.mem_append_left _ hmem))
  have hsize : slabSize SlabSize 504 = SlabSize * 2 ^ 63 % 2 ^ 64 := rfl
  dsimp only at hpos haddr hbound
  omega

/-- No alignment is computed with a carry. -/
theorem Inv.alignUp_eq (h : Inv SlabSize a sys others handed) (k : Fin 64) :
    alignUp64 a.cur (2 ^ k.val) = alignUp a.cur (2 ^ k.val) := by
  have hcur := h.le.trans h.stop_le
  have hk := pow_le k
  have hpos : 0 < 2 ^ k.val := Nat.two_pow_pos _
  exact alignUp64_eq (by omega)

/-- An allocation in the current slab. -/
theorem Inv.fast (h : Inv SlabSize a sys others handed) (hsize : 0 < size)
    (hfit : a.allocEnd size (2 ^ k.val) ≤ a.stop)
    (hwrap : alignUp a.cur (2 ^ k.val) + size < 2 ^ 64) :
    Inv SlabSize { a with
      cur := a.allocEnd size (2 ^ k.val) } sys others
        (⟨alignUp64 a.cur (2 ^ k.val), size, 2 ^ k.val⟩ :: handed) := by
  have hle := le_alignUp a.cur (Nat.two_pow_pos k.val)
  have hend : a.allocEnd size (2 ^ k.val) = alignUp a.cur (2 ^ k.val) + size := by
    rw [allocEnd, h.alignUp_eq, Nat.mod_eq_of_lt hwrap]
  rw [hend] at hfit ⊢
  rw [h.alignUp_eq]
  obtain ⟨b, hb, hlow, hhigh⟩ := h.window.resolve_left (by omega)
  refine ⟨h.blocks, hfit, .inr ⟨b, hb, by dsimp only; omega, hhigh⟩, h.sizes, ?_, ?_, ?_, ?_⟩
  · exact List.forall_mem_cons.mpr ⟨dvd_alignUp .., h.aligned⟩
  · refine List.forall_mem_cons.mpr ⟨⟨b, List.mem_append_left _ hb, ?_⟩, h.inside⟩
    constructor <;> dsimp only <;> omega
  · refine List.pairwise_cons.mpr ⟨fun r hr => ?_, h.disjoint⟩
    have := h.behind r hr
    unfold Apart Range.range
    dsimp only
    omega
  · refine List.forall_mem_cons.mpr ⟨.inl le_rfl, fun r hr => ?_⟩
    have := h.behind r hr
    dsimp only
    omega

theorem slabBlocks_append (a : BumpAllocator) (slab : Ptr) (cur stop : ℕ) :
    slabBlocks SlabSize { a with slabs := a.slabs ++ [slab], cur, stop } = a.slabBlocks SlabSize ++
      [(slab, slabSize SlabSize a.slabs.length)] := by
  rw [slabBlocks, slabBlocks, List.mapIdx_concat]

/-- What was handed out stays apart from a new block, and from the window where that is kept or cut off
the block. -/
theorem Inv.newBlock (h : Inv SlabSize a sys others handed) (hfresh : sys.Fresh n answer)
    (hsize : size ≤ n) (hk : 2 ^ k.val ≤ 16)
    (hheld : (a'.held SlabSize).Perm (((sys.new n answer).1, n) :: a.held SlabSize)) (hle : a'.cur ≤ a'.stop)
    (hwindow : a'.stop = 0 ∨ ∃ b ∈ a'.slabBlocks SlabSize, b.1.addr ≤ a'.cur ∧ a'.stop ≤ b.1.addr + b.2)
    (hsizes : ∀ b ∈ a'.slabBlocks SlabSize, 0 < b.2) (hbehind : answer + size ≤ a'.cur ∨ a'.stop ≤ answer)
    (hcut : ∀ r ∈ handed, r.addr + r.size ≤ a'.cur ∨ a'.stop ≤ r.addr) :
    Inv SlabSize a' (sys.new n answer).2 others (⟨answer, size, 2 ^ k.val⟩ :: handed) := by
  have hin : ∀ b ∈ a.held SlabSize, b ∈ a'.held SlabSize :=
    fun b hb => hheld.symm.subset (List.mem_cons_of_mem _ hb)
  refine ⟨(h.blocks.new hfresh).perm (hheld.append_right _), hle, hwindow, hsizes, ?_, ?_, ?_, ?_⟩
  · refine List.forall_mem_cons.mpr ⟨dvd_trans ?_ hfresh.aligned, h.aligned⟩
    exact Nat.pow_dvd_pow 2 ((Nat.pow_le_pow_iff_right (by decide)).mp (show 2 ^ k.val ≤ 2 ^ 4 from hk))
  · refine List.forall_mem_cons.mpr
      ⟨⟨_, hheld.symm.subset List.mem_cons_self, le_rfl, Nat.add_le_add_left hsize _⟩, fun r hr => ?_⟩
    obtain ⟨b, hb, hrb⟩ := h.inside r hr
    exact ⟨b, hin b hb, hrb⟩
  · refine List.pairwise_cons.mpr ⟨fun r hr => ?_, h.disjoint⟩
    obtain ⟨b, hb, hlow, hhigh⟩ := h.inside r hr
    have hapart := hfresh.apart b (h.blocks.live (List.mem_append_left _ hb))
    unfold Apart Block.range at hapart
    unfold Apart Range.range
    dsimp only at hapart ⊢
    omega
  · exact List.forall_mem_cons.mpr ⟨hbehind, hcut⟩

/-- An allocation that the system is asked for. -/
theorem Inv.slow (h : Inv SlabSize a sys others handed) (hsize : 0 < size)
    (hfresh : sys.Fresh (a.request SlabSize size) answer)
    (hstep : a.allocateSlab SlabSize sys size (2 ^ k.val) answer = some (addr, a', sys')) :
    Inv SlabSize a' sys' others (⟨addr, size, 2 ^ k.val⟩ :: handed) := by
  have hpos := hfresh.pos
  have hbound := hfresh.bound
  have hinside : ∀ r ∈ handed, ∃ b ∈ a.held SlabSize, r.In b ∧
    Apart (answer, max (a.request SlabSize size) 1) b.range := fun r hr => by
    obtain ⟨b, hb, hrb⟩ := h.inside r hr
    exact ⟨b, hb, hrb, hfresh.apart b (h.blocks.live (List.mem_append_left _ hb))⟩
  unfold allocateSlab at hstep
  split at hstep
  case isFalse => cases hstep
  case isTrue hk =>
    dsimp only at hstep
    unfold request at hfresh hbound hinside
    split at hstep
    case isTrue hlarge =>
      rw [if_pos hlarge] at hfresh hbound
      cases hstep
      have hheld :
        (held SlabSize { a with largeSlabs := a.largeSlabs ++ [((sys.new size answer).1, size)] }).Perm
          (((sys.new size answer).1, size) :: a.held SlabSize) := by
        rw [held, ← List.append_assoc]
        exact List.perm_append_singleton ..
      refine h.newBlock hfresh le_rfl hk hheld h.le h.window h.sizes ?_ h.behind
      -- The current slab is another block.
      rcases h.window with h0 | ⟨b, hb, hlow, hhigh⟩
      · exact .inr (by dsimp only; omega)
      · have hapart := hfresh.apart b (h.blocks.live (List.mem_append_left _ (List.mem_append_left _ hb)))
        have := h.le
        unfold Apart Block.range at hapart
        dsimp only at hapart ⊢
        omega
    case isFalse hsmall =>
      rw [if_neg hsmall] at hfresh hbound hinside
      cases hstep
      have hcur : ((sys.new (slabSize SlabSize a.slabs.length) answer).1.addr + size) % 2 ^ 64 =
        answer + size :=
        Nat.mod_eq_of_lt (show answer + size < 2 ^ 64 by omega)
      have hstop :
        ((sys.new (slabSize SlabSize a.slabs.length) answer).1.addr + slabSize SlabSize
        a.slabs.length) % 2 ^ 64 =
          answer + slabSize SlabSize a.slabs.length :=
            Nat.mod_eq_of_lt (show answer + slabSize SlabSize a.slabs.length < 2 ^ 64 by omega)
      rw [hcur, hstop]
      refine h.newBlock hfresh (not_lt.mp hsmall) hk ?_ (Nat.add_le_add_left (not_lt.mp hsmall) _)
        (.inr ⟨((sys.new (slabSize SlabSize a.slabs.length) answer).1,
          slabSize SlabSize a.slabs.length), ?_, Nat.le_add_right .., le_rfl⟩)
        (fun b hb => ?_) (.inl le_rfl) fun r hr => ?_
      · rw [held, slabBlocks_append, held, List.append_assoc]
        exact List.perm_middle
      · rw [slabBlocks_append]
        exact List.mem_append_right _ (List.mem_singleton_self _)
      · rw [slabBlocks_append] at hb
        rcases List.mem_append.mp hb with hb | hb
        · exact h.sizes b hb
        · rw [List.mem_singleton.mp hb]
          exact hsize.trans_le (not_lt.mp hsmall)
      · obtain ⟨b, hb, ⟨hlow, hhigh⟩, hapart⟩ := hinside r hr
        unfold Apart Block.range at hapart
        dsimp only at hapart ⊢
        omega

/-- A block that another owner obtains, or gives back. -/
theorem Inv.other (h : Inv SlabSize a sys others handed) (hfresh : sys.Fresh n answer) :
    Inv SlabSize a (sys.new n answer).2 (((sys.new n answer).1, n) :: others) handed :=
  { h with blocks := (h.blocks.new hfresh).perm List.perm_middle }

theorem Inv.otherDeleted {others' : List Block} {b : Block} (h : Inv SlabSize a sys others handed)
    (hperm : others.Perm (b :: others')) :
    Inv SlabSize a (sys.deleteAll [b]) others' handed := by
  have hfront : (b :: (a.held SlabSize ++ others')).Perm (a.held SlabSize ++ others) :=
    List.perm_middle.symm.trans (hperm.symm.append_left _)
  exact { h with blocks := (h.blocks.perm hfront).delete }

theorem Inv.deallocate (h : Inv SlabSize a sys others handed) : Blocks (a.destroy SlabSize sys) others := by
  have hblocks := h.blocks
  rw [held, List.append_assoc] at hblocks
  exact hblocks.deleteAll.deleteAll

/-- A `reset` without large slabs. -/
theorem Inv.reset (h : Inv SlabSize a sys others handed) (hlarge : a.largeSlabs = []) :
    Inv SlabSize (a.reset SlabSize sys).1 (a.reset SlabSize sys).2 others [] := by
  have hblocks := h.blocks
  rw [held, hlarge, List.append_nil] at hblocks
  unfold BumpAllocator.reset
  split
  case h_1 hslabs =>
    have hnone : a.slabBlocks SlabSize = [] := by rw [slabBlocks, hslabs, List.mapIdx_nil]
    refine ⟨?_, h.le, h.window, h.sizes, nofun, nofun, .nil, nofun⟩
    rw [hnone] at hblocks
    dsimp only
    rw [held, hnone, deallocateLargeSlabs, hlarge]
    exact hblocks.deleteNone
  case h_2 slab rest hslabs =>
    have hcons : a.slabBlocks SlabSize = (slab, slabSize SlabSize 0) :: (a.slabBlocks SlabSize).drop 1 := by
      rw [slabBlocks, hslabs, List.mapIdx_cons, List.drop_one, List.tail_cons]
    have hbound :=
      hblocks.bound (slab, slabSize SlabSize 0) (List.mem_append_left _ (hcons ▸ List.mem_cons_self))
    have hstop : (slab.addr + slabSize SlabSize 0) % 2 ^ 64 = slab.addr + slabSize SlabSize 0 :=
      Nat.mod_eq_of_lt (by dsimp only at hbound; omega)
    have hfirst : slabBlocks SlabSize { a with
      slabs := a.slabs.take 1, cur := slab.addr, stop := slab.addr + slabSize SlabSize 0 } =
        [(slab, slabSize SlabSize 0)] := by
      rw [slabBlocks, hslabs, List.take_succ_cons, List.take_zero, List.mapIdx_cons, List.mapIdx_nil]
    rw [hstop]
    refine ⟨?_, Nat.le_add_right .., .inr ⟨_, hfirst ▸ List.mem_singleton_self _, le_rfl, le_rfl⟩, ?_,
      nofun, nofun, .nil, nofun⟩
    case refine_2 =>
      rw [hfirst]
      exact List.forall_mem_singleton.mpr (h.sizes _ (hcons ▸ List.mem_cons_self))
    rw [held, hfirst, deallocateLargeSlabs, hlarge, List.append_nil]
    refine (Blocks.deleteAll (hblocks.perm ?_)).deleteNone
    conv_rhs => rw [hcons]
    exact List.perm_middle

end

/-! ### What holds after every call -/

section
variable {w w' : World} {t : Step World Op}

/-- The invariant of a run. -/
def World.Inv (SlabSize : ℕ) (w : World) : Prop := BumpAllocator.Inv SlabSize w.alloc w.sys [] w.handed

theorem World.Inv.correct (h : w.Inv SlabSize) : w.Correct SlabSize where
  disjoint := h.disjoint
  aligned := h.aligned
  inside r hr := by
    obtain ⟨b, hb, hrb⟩ := h.inside r hr
    exact ⟨b, h.blocks.live (List.mem_append_left _ hb), hrb⟩
  freed := (BumpAllocator.Inv.deallocate h).owned.settled

theorem World.inv_init : World.Inv SlabSize {} := BumpAllocator.inv_init

/-- A step of a run is an allocation or a `reset`. -/
theorem step_cases {op : Op} (h : step SlabSize w op = some w') :
    (∃ size k answer addr, op = .allocate size k answer ∧
      w.alloc.allocate SlabSize w.sys size.toNat (2 ^ k.val) answer = some (addr, w'.alloc, w'.sys) ∧
      w'.handed = ⟨addr, size.toNat, 2 ^ k.val⟩ :: w.handed) ∨
    (op = .reset ∧ w.alloc.reset SlabSize w.sys = (w'.alloc, w'.sys) ∧ w'.handed = []) := by
  cases op with
  | allocate size k answer =>
    obtain ⟨⟨addr, alloc, sys⟩, halloc, rfl⟩ := Option.map_eq_some_iff.mp h
    exact .inl ⟨size, k, answer, addr, rfl, halloc, rfl⟩
  | reset =>
    cases h
    exact .inr ⟨rfl, rfl, rfl⟩

/-- `allocate` is the fast or the slow path. -/
theorem allocate_cases {a a' : BumpAllocator} {sys sys' : Sys} {size align answer addr : ℕ}
    (h : a.allocate SlabSize sys size align answer = some (addr, a', sys')) : 0 < size ∧
      (a.allocEnd size align ≤ a.stop ∧ addr = alignUp64 a.cur align ∧ a' = { a with
        cur := a.allocEnd size align } ∧ sys' = sys ∨
        ¬ a.allocEnd size align ≤ a.stop ∧
          a.allocateSlab SlabSize sys size align answer = some (addr, a', sys')) := by
  unfold allocate at h
  split at h
  case isFalse => cases h
  case isTrue hsize =>
    refine ⟨hsize, ?_⟩
    split at h
    case isTrue hfit =>
      cases h
      exact .inl ⟨hfit, rfl, rfl, rfl⟩
    case isFalse hfit => exact .inr ⟨hfit, h⟩

/-- Null is taken for a slab. -/
theorem allocateSlab_null {a a' : BumpAllocator} {sys sys' : Sys} {size align addr : ℕ}
    (h : a.allocateSlab SlabSize sys size align 0 = some (addr, a', sys')) : addr = 0 ∧ sys' = sys := by
  unfold allocateSlab at h
  split at h
  · dsimp only at h
    split at h
    all_goals
      cases h
      exact ⟨rfl, rfl⟩
  · cases h

/-- A call that meets the condition keeps the invariant. -/
theorem World.Inv.step (h : t.before.Inv SlabSize)
    (hstep : BumpAllocator.step SlabSize t.before t.op = some t.after)
    (hanswer : Answered SlabSize t) (hmeets : Meets t) : t.after.Inv SlabSize := by
  obtain ⟨w, op, w'⟩ := t
  unfold World.Inv
  rcases step_cases hstep with ⟨size, k, answer, addr, rfl, halloc, hhanded⟩ | ⟨rfl, hreset, hhanded⟩
  · rw [hhanded]
    obtain ⟨hsize, ⟨hfit, rfl, halloc', hsys⟩ | ⟨hfit, hslow⟩⟩ := allocate_cases halloc
    · have hwrap := hmeets
      simp only [Meets, if_pos hfit] at hwrap
      rw [halloc', hsys]
      exact BumpAllocator.Inv.fast h hsize hfit hwrap
    · have hnull := hmeets
      simp only [Meets, if_neg hfit] at hnull
      exact BumpAllocator.Inv.slow h hsize (hanswer.resolve_left hnull) hslow
  · have hinv := BumpAllocator.Inv.reset h hmeets
    rw [hreset] at hinv
    rw [hhanded]
    exact hinv

/-- What is not in a block. -/
theorem World.Inv.not_correct (h : w.Inv SlabSize) {r : Range} (hr : r ∈ w'.handed) (hsys : w'.sys = w.sys)
    (hout : r.addr = 0 ∨ 2 ^ 63 < r.addr + r.size) : ¬ w'.Correct SlabSize := fun hcorrect => by
  obtain ⟨b, hb, hlow, hhigh⟩ := hcorrect.inside r hr
  have hb : b ∈ w.alloc.held SlabSize ++ [] := h.blocks.mem_of_live (hsys ▸ hb)
  have hpos := h.blocks.pos b hb
  have hbound := h.blocks.bound b hb
  omega

/-- A `reset` with large slabs frees them, and leaves them to be freed again. -/
theorem World.Inv.reset_not_correct (h : w.Inv SlabSize)
    (hreset : w.alloc.reset SlabSize w.sys = (w'.alloc, w'.sys))
    (hlarge : w.alloc.largeSlabs ≠ []) : ¬ w'.Correct SlabSize := fun hcorrect => by
  obtain ⟨b, hb⟩ := List.exists_mem_of_ne_nil _ hlarge
  have hpos := h.blocks.pos b (List.mem_append_left _ (List.mem_append_right _ hb))
  have hkept : w'.alloc.largeSlabs = w.alloc.largeSlabs ∧ b ∈ w'.sys.released := by
    have hfreed (sys : Sys) : b ∈ (w.alloc.deallocateLargeSlabs sys).released := List.mem_append_left _
      (List.mem_reverse.mpr (List.mem_filter.mpr ⟨hb, decide_eq_true hpos.ne'⟩))
    unfold BumpAllocator.reset at hreset
    split at hreset
    all_goals
      obtain ⟨halloc, hsys⟩ := Prod.mk.inj hreset
      rw [← halloc, ← hsys]
      exact ⟨rfl, hfreed _⟩
  refine Blocks.not_settled (hkept.1 ▸ hb) hpos ?_ hcorrect.freed
  exact List.mem_append_right _ hkept.2

theorem World.Inv.correct_iff (h : t.before.Inv SlabSize)
    (hstep : BumpAllocator.step SlabSize t.before t.op = some t.after)
    (hanswer : Answered SlabSize t) : t.after.Correct SlabSize ↔ Meets t := by
  refine ⟨fun hcorrect => ?_, fun hmeets => (h.step hstep hanswer hmeets).correct⟩
  obtain ⟨w, op, w'⟩ := t
  rcases step_cases hstep with ⟨size, k, answer, addr, rfl, halloc, hhanded⟩ | ⟨rfl, hreset, -⟩
  · have hhead : ⟨addr, size.toNat, 2 ^ k.val⟩ ∈ w'.handed := hhanded ▸ List.mem_cons_self
    obtain ⟨-, ⟨hfit, rfl, -, hsys⟩ | ⟨hfit, hslow⟩⟩ := allocate_cases halloc
    · simp only [Meets, if_pos hfit]
      by_contra hwrap
      refine h.not_correct hhead hsys (.inr ?_) hcorrect
      have heq := BumpAllocator.Inv.alignUp_eq h k
      dsimp only at heq ⊢
      omega
    · simp only [Meets, if_neg hfit]
      rintro rfl
      obtain ⟨rfl, hsys⟩ := allocateSlab_null hslow
      exact h.not_correct hhead hsys (.inl rfl) hcorrect
  · by_contra hlarge
    exact h.reset_not_correct hreset hlarge hcorrect

/-- **The allocator does what it should** in every state of a run exactly if every call meets the
condition. -/
theorem slabs_correct_iff {ops : List Op} (hanswers : ∀ t ∈ steps (step SlabSize) {} ops,
    Answered SlabSize t) :
    (World.Correct SlabSize {} ∧ ∀ t ∈ steps (step SlabSize) {} ops, t.after.Correct SlabSize) ↔
      ∀ t ∈ steps (step SlabSize) {} ops, Meets t := by
  rw [and_iff_right World.inv_init.correct]
  exact forall_steps_iff World.inv_init (fun t ht h hmeets => h.step (step_of_mem ht) (hanswers t ht) hmeets)
    fun t ht h => h.correct_iff (step_of_mem ht) (hanswers t ht)

/-- Two allocations in a slab, and a `reset`. -/
def oneSlab : List Op := [.allocate 24 3 65536, .allocate 24 3 0, .reset]

theorem slabs_correct_iff_oneSlab :
    (World.Correct 4096 {} ∧ ∀ t ∈ steps (step 4096) {} oneSlab, t.after.Correct 4096) ↔
    ∀ t ∈ steps (step 4096) {} oneSlab, Meets t := by
  refine slabs_correct_iff
    (List.forall_mem_cons.mpr ⟨.inr ⟨by decide, by decide, by decide, fun b hb => ?_⟩, ?_⟩)
  · cases hb.1
  · exact List.forall_mem_cons.mpr ⟨.inl rfl, List.forall_mem_cons.mpr ⟨trivial, List.forall_mem_nil _⟩⟩

/-- A large allocation, and a `reset`. -/
def largeSlab : List Op := [.allocate 5000 3 65536, .reset]

theorem largeSlab_answered : ∀ t ∈ steps (step 4096) {} largeSlab, Answered 4096 t := by
  refine List.forall_mem_cons.mpr ⟨.inr ⟨by decide, by decide, by decide, fun b hb => ?_⟩, ?_⟩
  · cases hb.1
  · exact List.forall_mem_cons.mpr ⟨trivial, List.forall_mem_nil _⟩

/-- The large slab is freed by `reset` and by the destructor. -/
theorem largeSlab_freedTwice : (∀ t ∈ steps (step 4096) {} largeSlab, Answered 4096 t) ∧
    ¬ ∀ t ∈ steps (step 4096) {} largeSlab, t.after.Correct 4096 := by
  refine ⟨largeSlab_answered, fun h => ?_⟩
  have hreset := (List.forall_mem_cons.mp (List.forall_mem_cons.mp h).2).1
  exact absurd hreset.freed.2.length_eq (by decide)

end

end BumpAllocator

end Tpde.Util
