import Tpde.Library.Bytes

/-!
# Copies by loads and stores

A machine with registers of 64 bits and a memory of bytes, which notes the bytes it reads and writes. A
copy in chunks of up to 8 bytes, one after the other through a register, is a copy of the whole
(`Machine.copyAll_mem`), which reads and writes each byte once. `chunks` takes the largest power of two
up to 8 that fits, and again.
-/

namespace MemCopy

open Bytes

/-! ### The machine -/

/-- Registers, memory, and the addresses of the bytes that were read and written. -/
structure Machine (R : Type) where
  reg : R → BitVec 64
  mem : Mem
  reads : List ℕ
  writes : List ℕ

namespace Machine

variable {R : Type} [DecidableEq R] (m : Machine R)

/-- Loads `n` bytes into a register, with zeros above them. -/
def load (dst : R) (addr n : ℕ) : Machine R :=
  { m with
    reg := Function.update m.reg dst (BitVec.ofNat 64 (m.mem.loadNat addr n))
    reads := m.reads ++ List.range' addr n }

omit [DecidableEq R] in
/-- Stores the `n` low bytes of a register. -/
def store (src : R) (addr n : ℕ) : Machine R :=
  { m with mem := m.mem.storeNat addr n (m.reg src).toNat, writes := m.writes ++ List.range' addr n }

/-- Copies `n` bytes through the register `tmp`. -/
def copy (tmp : R) (dst src n : ℕ) : Machine R := (m.load tmp src n).store tmp dst n

/-- Copies chunks, which are given by a number and a size, from `src` to `dst` of the number. -/
def copyAll (tmp : R) (dst src : ℕ → ℕ) (chunks : List (ℕ × ℕ)) : Machine R :=
  chunks.foldl (fun m c => m.copy tmp (dst c.1) (src c.1) c.2) m

variable {m} {tmp : R} {dst src n : ℕ}

/-- Up to 8 bytes arrive whole. -/
theorem copy_mem (hn : n ≤ 8) : (m.copy tmp dst src n).mem = m.mem.store dst (m.mem.load src n) := by
  have hlt : m.mem.loadNat src n < 2 ^ 64 :=
    calc m.mem.loadNat src n < 256 ^ n := m.mem.loadNat_lt src n
      _ ≤ 256 ^ 8 := Nat.pow_le_pow_right (by omega) hn
      _ = 2 ^ 64 := rfl
  have hbytes := ofNat_toNat (m.mem.load src n)
  rw [Mem.length_load] at hbytes
  rw [copy, store, load]
  dsimp only
  rw [Function.update_self, BitVec.toNat_ofNat, Nat.mod_eq_of_lt hlt, Mem.storeNat, Mem.loadNat, hbytes]

theorem copy_reads : (m.copy tmp dst src n).reads = m.reads ++ List.range' src n := rfl

theorem copy_writes : (m.copy tmp dst src n).writes = m.writes ++ List.range' dst n := rfl

theorem load_reg {r dst : R} {addr : ℕ} (hr : r ≠ dst) : (m.load dst addr n).reg r = m.reg r :=
  Function.update_of_ne hr ..

theorem copy_reg {r : R} (hr : r ≠ tmp) : (m.copy tmp dst src n).reg r = m.reg r :=
  Function.update_of_ne hr ..

theorem copyAll_reads {dst src : ℕ → ℕ} {cs : List (ℕ × ℕ)} :
    (m.copyAll tmp dst src cs).reads = m.reads ++ cs.flatMap fun c => List.range' (src c.1) c.2 := by
  induction cs generalizing m with
  | nil => exact (List.append_nil _).symm
  | cons c cs ih =>
    rw [copyAll, List.foldl_cons, ← copyAll, ih, copy_reads, List.append_assoc, List.flatMap_cons]

theorem copyAll_writes {dst src : ℕ → ℕ} {cs : List (ℕ × ℕ)} :
    (m.copyAll tmp dst src cs).writes = m.writes ++ cs.flatMap fun c => List.range' (dst c.1) c.2 := by
  induction cs generalizing m with
  | nil => exact (List.append_nil _).symm
  | cons c cs ih =>
    rw [copyAll, List.foldl_cons, ← copyAll, ih, copy_writes, List.append_assoc, List.flatMap_cons]

theorem copyAll_congr {dst src dst' src' : ℕ → ℕ} {cs : List (ℕ × ℕ)}
    (h : ∀ c ∈ cs, dst c.1 = dst' c.1 ∧ src c.1 = src' c.1) :
    m.copyAll tmp dst src cs = m.copyAll tmp dst' src' cs :=
  List.foldl_ext _ _ _ fun m' c hc => by rw [(h c hc).1, (h c hc).2]

/-- Code that copies chunk by chunk, as long as it leaves the registers `keep` alone. -/
theorem foldl_code {I : Type} {exec : Machine R → I → Machine R} {code : ℕ × ℕ → List I} (keep : Set R)
    (hkeep : tmp ∉ keep)
    {dst src : ℕ → ℕ} {cs : List (ℕ × ℕ)}
    (hcode : ∀ c ∈ cs, ∀ m' : Machine R, (∀ r ∈ keep, m'.reg r = m.reg r) →
      (code c).foldl exec m' = m'.copy tmp (dst c.1) (src c.1) c.2) :
    (cs.flatMap code).foldl exec m = m.copyAll tmp dst src cs := by
  suffices h : ∀ m' : Machine R, (∀ r ∈ keep, m'.reg r = m.reg r) →
    (cs.flatMap code).foldl exec m' = m'.copyAll tmp dst src cs from
    h m fun _ _ => rfl
  induction cs with
  | nil => exact fun _ _ => rfl
  | cons c cs ih =>
    intro m' hm'
    rw [List.flatMap_cons, List.foldl_append, hcode c List.mem_cons_self m' hm', copyAll,
      List.foldl_cons, ← copyAll]
    refine ih (fun c' hc' => hcode c' (List.mem_cons_of_mem _ hc')) _ fun r hr => ?_
    rw [copy_reg fun heq : r = tmp => hkeep (heq ▸ hr), hm' r hr]

end Machine

/-! ### Chunks -/

/-- The largest power of two up to 8 that fits. -/
def chunk (size : ℕ) : ℕ := if 8 ≤ size then 8 else if 4 ≤ size then 4 else if 2 ≤ size then 2 else 1

theorem chunk_pos (size : ℕ) : 0 < chunk size := by
  rw [chunk]
  split_ifs <;> omega

theorem chunk_le {size : ℕ} (h : 0 < size) : chunk size ≤ size := by
  rw [chunk]
  split_ifs <;> omega

/-- The sizes of the chunks. -/
def chunks (size : ℕ) : List ℕ :=
  if 0 < size then chunk size :: chunks (size - chunk size) else []
termination_by size
decreasing_by
  have := chunk_pos size
  omega

theorem chunks_zero : chunks 0 = [] := by
  rw [chunks, if_neg (lt_irrefl 0)]

theorem chunks_of_pos {size : ℕ} (h : 0 < size) : chunks size = chunk size :: chunks (size - chunk size) := by
  rw [chunks, if_pos h]

/-- From a fact about nothing, and one about a chunk in front. -/
theorem chunks_induction {P : ℕ → Prop} (zero : P 0) (step : ∀ size, 0 < size → P (size - chunk size) →
    P size) (size : ℕ) : P size := by
  induction size using Nat.strong_induction_on with
  | _ size ih =>
    rcases Nat.eq_zero_or_pos size with rfl | hpos
    · exact zero
    · have := chunk_pos size
      exact step size hpos (ih _ (by omega))

theorem sum_chunks (size : ℕ) : (chunks size).sum = size := by
  induction size using chunks_induction with
  | zero => rw [chunks_zero, List.sum_nil]
  | step size hpos ih =>
    have := chunk_le hpos
    rw [chunks_of_pos hpos, List.sum_cons, ih]
    omega

theorem le_of_mem_chunks {size n : ℕ} (h : n ∈ chunks size) : n ≤ 8 := by
  induction size using chunks_induction with
  | zero =>
    rw [chunks_zero] at h
    cases h
  | step size hpos ih =>
    rw [chunks_of_pos hpos, List.mem_cons] at h
    rcases h with rfl | h
    · rw [chunk]
      split_ifs <;> omega
    · exact ih h

theorem pos_of_mem_chunks {size n : ℕ} (h : n ∈ chunks size) : 0 < n := by
  induction size using chunks_induction with
  | zero =>
    rw [chunks_zero] at h
    cases h
  | step size hpos ih =>
    rw [chunks_of_pos hpos, List.mem_cons] at h
    exact h.elim (fun heq => heq ▸ chunk_pos size) ih

/-- The chunks with their offsets. -/
def offsets : ℕ → List ℕ → List (ℕ × ℕ)
  | _, [] => []
  | off, n :: ns => (off, n) :: offsets (off + n) ns

theorem mem_offsets {off : ℕ} {ns : List ℕ} {c : ℕ × ℕ} (h : c ∈ offsets off ns) :
    off ≤ c.1 ∧ c.1 + c.2 ≤ off + ns.sum ∧ c.2 ∈ ns := by
  induction ns generalizing off with
  | nil => exact absurd h List.not_mem_nil
  | cons n ns ih =>
    rw [offsets, List.mem_cons] at h
    rw [List.sum_cons]
    rcases h with rfl | h
    · exact ⟨le_rfl, by omega, List.mem_cons_self⟩
    · obtain ⟨hle, hend, hmem⟩ := ih h
      exact ⟨by omega, by omega, List.mem_cons_of_mem _ hmem⟩

/-- A chunk is one of at least a byte, and in the whole. -/
theorem mem_offsets_chunks {size : ℕ} {c : ℕ × ℕ} (h : c ∈ offsets 0 (chunks size)) :
    0 < c.2 ∧ c.2 ≤ 8 ∧ c.1 + c.2 ≤ size := by
  obtain ⟨-, hend, hmem⟩ := mem_offsets h
  rw [sum_chunks, Nat.zero_add] at hend
  exact ⟨pos_of_mem_chunks hmem, le_of_mem_chunks hmem, hend⟩

theorem chunk_dvd (size : ℕ) : chunk (size - chunk size) ∣ chunk size ∧ chunk size ∣ 8 := by
  rw [chunk, chunk]
  split_ifs <;> omega

/-- A chunk is at a multiple of its size, which divides 8. -/
theorem dvd_of_mem_offsets {size off : ℕ} (hoff : chunk size ∣ off) {c : ℕ × ℕ}
    (h : c ∈ offsets off (chunks size)) : c.2 ∣ c.1 ∧ c.2 ∣ 8 := by
  induction size using chunks_induction generalizing off with
  | zero =>
    rw [chunks_zero] at h
    exact absurd h List.not_mem_nil
  | step size hpos ih =>
    rw [chunks_of_pos hpos, offsets, List.mem_cons] at h
    rcases h with rfl | h
    · exact ⟨hoff, (chunk_dvd size).2⟩
    · exact ih ((chunk_dvd size).1.trans ((Nat.dvd_add_right hoff).mpr dvd_rfl)) h

/-- The offsets of all chunks are within a limit, which depends on the size of the chunk, if the last of
each size is. -/
structure Within (limit : ℕ → ℕ) (base size : ℕ) : Prop where
  eight : 8 ≤ size → base + (8 * (size / 8) - 8) ≤ limit 8
  four : 4 ≤ size % 8 → base + 8 * (size / 8) ≤ limit 4
  two : 2 ≤ size % 4 → base + 4 * (size / 4) ≤ limit 2
  one : size % 2 = 1 → base + (size - 1) ≤ limit 1

theorem within_iff {limit : ℕ → ℕ} (base : ℕ) {size : ℕ} (off : ℕ) :
    (∀ c ∈ offsets off (chunks size), base + c.1 ≤ limit c.2) ↔ Within limit (base + off) size := by
  induction size using chunks_induction generalizing off with
  | zero =>
    rw [chunks_zero]
    exact ⟨fun _ => ⟨by omega, by omega, by omega, by omega⟩, fun _ _ h => absurd h List.not_mem_nil⟩
  | step size hpos ih =>
    rw [chunks_of_pos hpos, offsets, List.forall_mem_cons, ih]
    dsimp only
    rw [chunk]
    split_ifs
    all_goals
      constructor
      · rintro ⟨hhead, height, hfour, htwo, hone⟩
        exact ⟨by omega, by omega, by omega, by omega⟩
      · rintro ⟨height, hfour, htwo, hone⟩
        exact ⟨by omega, by omega, by omega, by omega, by omega⟩

/-! ### Chunks one behind the other -/

theorem flatMap_offsets (a off : ℕ) (ns : List ℕ) :
    ((offsets off ns).flatMap fun c => List.range' (a + c.1) c.2) = List.range' (a + off) ns.sum := by
  induction ns generalizing off with
  | nil => rfl
  | cons n ns ih =>
    rw [offsets, List.flatMap_cons, ih, List.sum_cons, ← Nat.add_assoc, List.range'_append_1]

variable {R : Type} [DecidableEq R] {m : Machine R} {tmp : R}

/-- **A copy in chunks is a copy**, if the destination is apart from the source. -/
theorem copyAll_mem {dst src off : ℕ} {ns : List ℕ} (hn : ∀ n ∈ ns, n ≤ 8)
    (hapart : src + off + ns.sum ≤ dst + off ∨ dst + off + ns.sum ≤ src + off) :
    (m.copyAll tmp (dst + ·) (src + ·) (offsets off ns)).mem =
      m.mem.store (dst + off) (m.mem.load (src + off) ns.sum) := by
  induction ns generalizing m off with
  | nil =>
    funext x
    exact (Mem.store_of_not_mem (by rw [List.sum_nil, Mem.length_load]; omega)).symm
  | cons n ns ih =>
    rw [List.sum_cons] at hapart ⊢
    have hlen : (m.mem.load (src + off) n).length = n := Mem.length_load ..
    -- The rest of the source is as before.
    have hrest : (m.mem.store (dst + off) (m.mem.load (src + off) n)).load (src + off + n) ns.sum =
      m.mem.load (src + off + n) ns.sum :=
      Mem.load_store_of_apart (by rw [hlen]; omega)
    rw [offsets, Machine.copyAll, List.foldl_cons, ← Machine.copyAll,
      ih (fun k hk => hn k (List.mem_cons_of_mem _ hk)) (by omega),
      Machine.copy_mem (hn n List.mem_cons_self), ← Nat.add_assoc, ← Nat.add_assoc, hrest,
        Mem.load_append, Mem.store_append, hlen]

/-- What is before a copy: the source and the destination are there, apart, and nothing has been read or
written yet. -/
structure Ready (m : Machine R) (dst src size : ℕ) : Prop where
  destination : dst + size ≤ 2 ^ 64
  source : src + size ≤ 2 ^ 64
  apart : src + size ≤ dst ∨ dst + size ≤ src
  reads : m.reads = []
  writes : m.writes = []

/-- What a copy does: each byte of the destination is the one of the source, the others are as before,
exactly the destination is written, and nothing but the source is read. -/
structure Copied (m m' : Machine R) (dst src size : ℕ) : Prop where
  copied : ∀ i < size, m'.mem (dst + i) = m.mem (src + i)
  others : ∀ a, a < dst ∨ dst + size ≤ a → m'.mem a = m.mem a
  writes : ∀ a, a ∈ m'.writes ↔ dst ≤ a ∧ a < dst + size
  reads : ∀ a ∈ m'.reads, src ≤ a ∧ a < src + size

/-- The chunks of the source and the destination are a copy of it. -/
theorem Ready.copied {dst src size : ℕ} (h : Ready m dst src size) :
    Copied m (m.copyAll tmp (dst + ·) (src + ·) (offsets 0 (chunks size))) dst src size := by
  have hmem : (m.copyAll tmp (dst + ·) (src + ·) (offsets 0 (chunks size))).mem = _ :=
    copyAll_mem (fun n => le_of_mem_chunks) (by rw [sum_chunks]; simpa using h.apart)
  rw [sum_chunks, Nat.add_zero, Nat.add_zero] at hmem
  refine ⟨fun i hi => ?_, fun a ha => ?_, fun a => ?_, fun a ha => ?_⟩
  · rw [hmem, Mem.store_apply (by rw [Mem.length_load]; exact hi)]
    simp only [Mem.load, List.getElem_map, List.getElem_range]
  · rw [hmem, Mem.store_of_not_mem (by rw [Mem.length_load]; exact ha)]
  · rw [Machine.copyAll_writes, h.writes, flatMap_offsets, sum_chunks, List.nil_append,
      List.mem_range'_1, Nat.add_zero]
  · rwa [Machine.copyAll_reads, h.reads, flatMap_offsets, sum_chunks, List.nil_append,
      List.mem_range'_1, Nat.add_zero] at ha

end MemCopy
