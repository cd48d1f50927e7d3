import Tpde.Library.Ledger
import Tpde.Library.Ranges

/-!
# Storage from the system

Blocks of memory that a system gives away and gets back. What it promises of a new block is
that it is aligned, in the lower half of the address space and apart from all blocks that are in
use (`Fresh`). The blocks that an owner holds are then live and apart (`Blocks`), through all
that it obtains and gives back.
-/

namespace Storage

open Ranges

/-- A pointer. Addresses are used again, so it also has the number of the request that it is from. -/
structure Ptr where
  addr : ℕ
  call : ℕ
  deriving DecidableEq

/-- A block: its pointer and its size. -/
abbrev Block := Ptr × ℕ

/-- The addresses of a block. An empty one has an address of its own too. -/
def Block.range (b : Block) : ℕ × ℕ := (b.1.addr, max b.2 1)

/-- What the system gave away and got back. -/
abbrev Sys := Ledger Block

namespace Sys

/-- A request, with what the system answers: an address, or null where there is no more memory. -/
def new (sys : Sys) (size answer : ℕ) : Ptr × Sys :=
  let ptr := ⟨answer, sys.obtained.length⟩
  (ptr, if answer = 0 then sys else sys.acquire (ptr, size))

/-- Blocks are given back; null is ignored. -/
def deleteAll (sys : Sys) (blocks : List Block) : Sys := sys.releaseAll (blocks.filter (·.1.addr ≠ 0))

/-- What the system promises of an answer. -/
structure Fresh (sys : Sys) (size answer : ℕ) : Prop where
  aligned : 16 ∣ answer
  pos : 0 < answer
  bound : answer + size ≤ 2 ^ 63
  apart : ∀ b, sys.Live b → Apart (answer, max size 1) b.range

end Sys

theorem apart_comm {r r' : ℕ × ℕ} : Apart r r' ↔ Apart r' r := or_comm

/-- The blocks that are held. -/
structure Blocks (sys : Sys) (held : List Block) : Prop where
  owned : sys.Owned held
  pos : ∀ b ∈ held, 0 < b.1.addr
  bound : ∀ b ∈ held, b.1.addr + b.2 ≤ 2 ^ 63
  apart : held.Pairwise fun b b' => Apart b.range b'.range
  calls : ∀ b ∈ sys.obtained, b.1.call < sys.obtained.length

namespace Blocks

variable {sys : Sys} {held held' : List Block} {b : Block}

theorem empty : Blocks {} [] := ⟨Ledger.owned_empty, nofun, nofun, .nil, nofun⟩

theorem perm (h : Blocks sys held) (hp : held'.Perm held) : Blocks sys held' where
  owned := h.owned.perm hp
  pos b hb := h.pos b (hp.subset hb)
  bound b hb := h.bound b (hp.subset hb)
  apart := (hp.pairwise_iff fun hab => apart_comm.mp hab).mpr h.apart
  calls := h.calls

theorem mem_of_live (h : Blocks sys held) (hb : sys.Live b) : b ∈ held := h.owned.mem_of_live hb

theorem live (h : Blocks sys held) (hb : b ∈ held) : sys.Live b := h.owned.live hb

instance : Std.Symm fun b b' : Block => Apart b.range b'.range := ⟨fun _ _ => apart_comm.mp⟩

/-- Two blocks that are held are apart. -/
theorem apart_of_mem (h : Blocks sys held) {b' : Block} (hb : b ∈ held) (hb' : b' ∈ held)
    (hne : b ≠ b') : Apart b.range b'.range :=
  h.apart.forall hb hb' hne

theorem new {size answer : ℕ} (h : Blocks sys held) (hfresh : sys.Fresh size answer) :
    Blocks (sys.new size answer).2 (((sys.new size answer).1, size) :: held) := by
  have hne : answer ≠ 0 := hfresh.pos.ne'
  have hsys : (sys.new size answer).2 = sys.acquire (⟨answer, sys.obtained.length⟩, size) := if_neg hne
  rw [hsys]
  refine ⟨h.owned.acquire fun hmem => ?_, ?_, ?_, ?_, ?_⟩
  · exact (h.calls _ hmem).false
  · exact List.forall_mem_cons.mpr ⟨hfresh.pos, h.pos⟩
  · exact List.forall_mem_cons.mpr ⟨hfresh.bound, h.bound⟩
  · exact List.pairwise_cons.mpr ⟨fun b hb => hfresh.apart b (h.live hb), h.apart⟩
  · refine List.forall_mem_cons.mpr ⟨Nat.lt_succ_self _, fun b hb => ?_⟩
    exact Nat.lt_succ_of_lt (h.calls b hb)

theorem deleteAll {bs : List Block} (h : Blocks sys (bs ++ held)) : Blocks (sys.deleteAll bs) held where
  owned := by
    have hall : bs.filter (·.1.addr ≠ 0) = bs :=
      List.filter_eq_self.mpr fun b hb => decide_eq_true (h.pos b (List.mem_append_left _ hb)).ne'
    rw [Sys.deleteAll, hall]
    exact h.owned.releaseAll
  pos b hb := h.pos b (List.mem_append_right _ hb)
  bound b hb := h.bound b (List.mem_append_right _ hb)
  apart := (List.pairwise_append.mp h.apart).2.1
  calls := h.calls

theorem delete (h : Blocks sys (b :: held)) : Blocks (sys.deleteAll [b]) held :=
  deleteAll (show Blocks sys ([b] ++ held) from h)

theorem deleteNone (h : Blocks sys held) : Blocks (sys.deleteAll []) held :=
  deleteAll (show Blocks sys ([] ++ held) from h)

/-- A block that is given back twice. -/
theorem not_settled {bs : List Block} (hb : b ∈ bs) (hpos : 0 < b.1.addr) (hr : b ∈ sys.released) :
    ¬ (sys.deleteAll bs).Settled :=
  fun h => h.disjoint (List.mem_filter.mpr ⟨hb, decide_eq_true hpos.ne'⟩) hr

end Blocks

end Storage
