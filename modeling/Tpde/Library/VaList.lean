import Tpde.Library.Ranges

/-!
# Variable arguments

What a caller does with the variable arguments of a call and what `va_arg` reads, by the ABIs of
x86-64 and AArch64. A caller keeps a cursor: how many registers of each kind and how many bytes of
the stack are used. A `va_list` is a cursor in memory, beside an area where the function has saved
the registers. If it denotes the cursor of the caller, each `va_arg` reads what was passed
(`SysV.agrees`, `Aapcs.agrees`).
-/

namespace VaList

open Ranges

/-! ### Arguments and places -/

/-- An argument: the general and vector registers it would take, its words on the stack, and
whether it is aligned to 16 bytes. -/
structure VarArg where
  gp : ℕ
  fp : ℕ
  words : ℕ
  aligned : Bool
  deriving DecidableEq, Repr

/-- Where something is passed: in the `i`-th register of a kind, or at an offset into the
arguments on the stack. -/
inductive Place where
  | gp (i : ℕ)
  | fp (i : ℕ)
  | stack (off : ℕ)
  deriving DecidableEq, Repr

/-- The registers and the bytes of the stack that are used. -/
structure Cursor where
  gp : ℕ
  fp : ℕ
  stack : ℕ
  deriving DecidableEq, Repr

/-- The next registers. -/
def regPlaces (gp numGp fp numFp : ℕ) : List Place :=
  (List.range' gp numGp).map .gp ++ (List.range' fp numFp).map .fp

/-- An argument goes to the stack. -/
def Cursor.push (c : Cursor) (a : VarArg) : Cursor × List Place :=
  let off := alignUp c.stack (if a.aligned then 16 else 8)
  ({ c with stack := off + 8 * a.words }, [.stack off])

/-- The next multiple of 16. -/
def alignAddr (addr : ℤ) : ℤ := (addr + 15) / 16 * 16

/-- Where `va_arg` finds an argument on the stack, if the last ended at `addr`, and where that one ends. -/
def fetch (addr : ℤ) (a : VarArg) : ℤ × ℤ :=
  let addr := if a.aligned then alignAddr addr else addr
  (addr, addr + 8 * a.words)

/-- An ABI: where a caller puts an argument, and the addresses at which `va_arg` reads it. -/
structure Convention (L : Type) where
  Valid : VarArg → Prop
  place : Cursor → VarArg → Cursor × List Place
  vaArg : L → VarArg → L × List ℤ

namespace Convention

variable {L : Type} (C : Convention L)

/-- Where all arguments are put. -/
def placeAll : Cursor → List VarArg → List (List Place)
  | _, [] => []
  | c, a :: args => (C.place c a).2 :: placeAll (C.place c a).1 args

/-- Where they are read. -/
def readAll : L → List VarArg → List (List ℤ)
  | _, [] => []
  | l, a :: args => (C.vaArg l a).2 :: readAll (C.vaArg l a).1 args

/-- **Each argument is read where it was put**, if `mem` says what has been saved at an address. -/
def Agrees (mem : ℤ → Option Place) (l : L) (c : Cursor) (args : List VarArg) : Prop :=
  (C.readAll l args).map (·.map mem) = (C.placeAll c args).map (·.map some)

variable {C} {mem : ℤ → Option Place} {l : L} {c : Cursor}

theorem agrees_nil : C.Agrees mem l c [] := rfl

theorem agrees_cons {a : VarArg} {args : List VarArg} : C.Agrees mem l c (a :: args) ↔
    (C.vaArg l a).2.map mem = (C.place c a).2.map some ∧
      C.Agrees mem (C.vaArg l a).1 (C.place c a).1 args := by
  simp [Agrees, readAll, placeAll]

end Convention

/-- The stack as a caller leaves it: the arguments start at an aligned address. -/
structure StackArea (mem : ℤ → Option Place) (args : ℤ) : Prop where
  stack : ∀ off : ℕ, mem (args + off) = some (.stack off)
  dvd : 16 ∣ args

theorem alignUp_of_dvd {off : ℕ} (h : 8 ∣ off) : alignUp off 8 = off := by
  obtain ⟨k, rfl⟩ := h
  unfold alignUp
  omega

theorem eight_dvd_alignUp (off : ℕ) (aligned : Bool) : 8 ∣ alignUp off (if aligned then 16 else 8) := by
  cases aligned with
  | false => exact dvd_alignUp off 8
  | true => exact dvd_trans ⟨2, rfl⟩ (dvd_alignUp off 16)

/-- An argument on the stack is read where it was put. -/
theorem fetch_eq {args : ℤ} (hdvd : 16 ∣ args) {off : ℕ} (hoff : 8 ∣ off) (a : VarArg) :
    fetch (args + off) a = (args + (alignUp off (if a.aligned then 16 else 8) : ℕ),
      args + (alignUp off (if a.aligned then 16 else 8) + 8 * a.words : ℕ)) := by
  have haligned : (if a.aligned then alignAddr (args + off) else args + off) =
      args + (alignUp off (if a.aligned then 16 else 8) : ℕ) := by
    split_ifs
    · obtain ⟨k, rfl⟩ := hdvd
      unfold alignAddr alignUp
      omega
    · rw [alignUp_of_dvd hoff]
  unfold fetch
  rw [haligned]
  simp [add_assoc]

/-- Registers that are saved one behind the other. -/
theorem map_saved {mem : ℤ → Option Place} {f : ℕ → Place} {base step : ℤ} {bound : ℕ}
    (h : ∀ i < bound, mem (base + step * i) = some (f i)) (first n : ℕ) (hn : first + n ≤ bound) :
    ((List.range n).map fun i : ℕ => base + step * first + step * i).map mem =
      ((List.range' first n).map f).map some := by
  rw [List.range'_eq_map_range, List.map_map, List.map_map, List.map_map]
  refine List.map_congr_left fun i hi => ?_
  rw [List.mem_range] at hi
  have := h (first + i) (by omega)
  rw [Nat.cast_add, mul_add, ← add_assoc] at this
  exact this

/-! ### x86-64 -/

/-- A `va_list` of x86-64. -/
structure SysV where
  gpOffset : ℕ
  fpOffset : ℕ
  overflowArgArea : ℤ
  regSaveArea : ℤ
  deriving DecidableEq, Repr

namespace SysV

/-- An argument of at most two words takes registers for both of them, or none. -/
def place (c : Cursor) (a : VarArg) : Cursor × List Place :=
  if (a.gp = 0 ∧ a.fp = 0) ∨ 6 < c.gp + a.gp ∨ 8 < c.fp + a.fp then c.push a
  else (⟨c.gp + a.gp, c.fp + a.fp, c.stack⟩, regPlaces c.gp a.gp c.fp a.fp)

def vaArg (l : SysV) (a : VarArg) : SysV × List ℤ :=
  if (a.gp = 0 ∧ a.fp = 0) ∨ 48 < l.gpOffset + 8 * a.gp ∨ 176 < l.fpOffset + 16 * a.fp then
    let r := fetch l.overflowArgArea a
    ({ l with overflowArgArea := r.2 }, [r.1])
  else
    ({ l with gpOffset := l.gpOffset + 8 * a.gp, fpOffset := l.fpOffset + 16 * a.fp },
      ((List.range a.gp).map fun i : ℕ => l.regSaveArea + l.gpOffset + 8 * i) ++
        (List.range a.fp).map fun i : ℕ => l.regSaveArea + l.fpOffset + 16 * i)

def convention : Convention SysV := ⟨fun a => a.gp + a.fp ≤ 2, place, vaArg⟩

/-- Where the registers are saved; the vector registers may be missing. -/
structure Area (mem : ℤ → Option Place) (regSaveArea args : ℤ) (vectors : Prop) :
    Prop extends StackArea mem args where
  gp : ∀ i < 6, mem (regSaveArea + 8 * (i : ℕ)) = some (.gp i)
  fp : vectors → ∀ i < 8, mem (regSaveArea + 48 + 16 * (i : ℕ)) = some (.fp i)

/-- The `va_list` denotes the cursor. -/
structure Denotes (args : ℤ) (l : SysV) (c : Cursor) : Prop where
  gp_le : c.gp ≤ 6
  fp_le : c.fp ≤ 8
  gpOffset : l.gpOffset = 8 * c.gp
  fpOffset : l.fpOffset = 48 + 16 * c.fp
  overflow : l.overflowArgArea = args + c.stack
  dvd : 8 ∣ c.stack

section
variable {mem : ℤ → Option Place} {l : SysV} {c : Cursor} {args : ℤ} {vectors : Prop}

/-- One argument is read where it was put, and the `va_list` goes on with the cursor. -/
theorem Denotes.step (h : Denotes args l c) (harea : Area mem l.regSaveArea args vectors) (a : VarArg)
    (hvec : ∀ i, .fp i ∈ (place c a).2 → vectors) :
    (vaArg l a).2.map mem = (place c a).2.map some ∧ Denotes args (vaArg l a).1 (place c a).1 ∧
      (vaArg l a).1.regSaveArea = l.regSaveArea := by
  have hgp := h.gp_le
  have hfp := h.fp_le
  have hcond : ((a.gp = 0 ∧ a.fp = 0) ∨ 48 < l.gpOffset + 8 * a.gp ∨ 176 < l.fpOffset + 16 * a.fp) ↔
      ((a.gp = 0 ∧ a.fp = 0) ∨ 6 < c.gp + a.gp ∨ 8 < c.fp + a.fp) := by
    rw [h.gpOffset, h.fpOffset]
    omega
  by_cases hstack : (a.gp = 0 ∧ a.fp = 0) ∨ 6 < c.gp + a.gp ∨ 8 < c.fp + a.fp
  · rw [vaArg, if_pos (hcond.mpr hstack), place, if_pos hstack, h.overflow, fetch_eq harea.dvd h.dvd]
    refine ⟨?_, ⟨hgp, hfp, h.gpOffset, h.fpOffset, rfl, ?_⟩, rfl⟩
    · simpa [Cursor.push] using harea.stack _
    · exact Nat.dvd_add (eight_dvd_alignUp ..) (Dvd.intro _ rfl)
  · rw [place, if_neg hstack] at hvec ⊢
    rw [vaArg, if_neg (hcond.not.mpr hstack)]
    refine ⟨?_, ⟨?_, ?_, ?_, ?_, h.overflow, h.dvd⟩, rfl⟩
    · have hgps := map_saved harea.gp c.gp a.gp (by omega)
      rw [regPlaces, List.map_append, List.map_append, h.gpOffset, h.fpOffset]
      refine congrArg₂ (· ++ ·) (by simpa using hgps) ?_
      · rcases Nat.eq_zero_or_pos a.fp with hzero | hpos
        · simp [hzero]
        · have hv : vectors := hvec c.fp (by simp [regPlaces, hpos])
          have hfps := map_saved (harea.fp hv) c.fp a.fp (by omega)
          simpa [add_assoc] using hfps
    all_goals dsimp only
    · omega
    · omega
    · rw [h.gpOffset]
      omega
    · rw [h.fpOffset]
      omega

/-- **All variable arguments are read where the caller put them.** -/
theorem agrees (h : Denotes args l c) (harea : Area mem l.regSaveArea args vectors) (as : List VarArg)
    (hvec : ∀ ps ∈ convention.placeAll c as, ∀ i, .fp i ∈ ps → vectors) : convention.Agrees mem l c as := by
  induction as generalizing l c with
  | nil => exact Convention.agrees_nil
  | cons a as ih =>
    obtain ⟨hplaces, hnext, hsave⟩ := h.step harea a (hvec _ List.mem_cons_self)
    exact Convention.agrees_cons.mpr ⟨hplaces,
      ih hnext (hsave ▸ harea) fun ps hps => hvec ps (List.mem_cons_of_mem _ hps)⟩

/-- An argument in memory shows where the list thinks the stack goes on. -/
theorem agrees_memory {words : ℕ} (h : convention.Agrees mem l c [⟨0, 0, words, false⟩]) :
    mem l.overflowArgArea = some (.stack (alignUp c.stack 8)) := by
  have := (Convention.agrees_cons.mp h).1
  simpa [convention, vaArg, place, Cursor.push, fetch] using this

end

end SysV

/-! ### AArch64 -/

/-- A `va_list` of AArch64. -/
structure Aapcs where
  stack : ℤ
  grTop : ℤ
  vrTop : ℤ
  grOffs : ℤ
  vrOffs : ℤ
  deriving DecidableEq, Repr

namespace Aapcs

/-- An argument that takes general registers, from an even one on if it is aligned, or vector
registers. If there are too few left, no later argument gets one of them. -/
def place (c : Cursor) (a : VarArg) : Cursor × List Place :=
  if a.fp = 0 then
    let gp := if a.aligned then alignUp c.gp 2 else c.gp
    if gp + a.gp ≤ 8 then ({ c with gp := gp + a.gp }, regPlaces gp a.gp c.fp 0)
      else { c with gp := 8 }.push a
  else if c.fp + a.fp ≤ 8 then ({ c with fp := c.fp + a.fp }, regPlaces c.gp 0 c.fp a.fp)
  else { c with fp := 8 }.push a

def onStack (l : Aapcs) (a : VarArg) : Aapcs × List ℤ :=
  let r := fetch l.stack a
  ({ l with stack := r.2 }, [r.1])

def vaArg (l : Aapcs) (a : VarArg) : Aapcs × List ℤ :=
  if a.fp = 0 then
    if 0 ≤ l.grOffs then l.onStack a
    else
      let offs := if a.aligned then alignAddr l.grOffs else l.grOffs
      if 0 < offs + 8 * a.gp then { l with grOffs := offs + 8 * a.gp }.onStack a
      else ({ l with grOffs := offs + 8 * a.gp }, (List.range a.gp).map fun i : ℕ => l.grTop + offs + 8 * i)
  else
    if 0 ≤ l.vrOffs then l.onStack a
    else if 0 < l.vrOffs + 16 * a.fp then { l with vrOffs := l.vrOffs + 16 * a.fp }.onStack a
    else ({ l with
      vrOffs := l.vrOffs + 16 * a.fp }, (List.range a.fp).map fun i : ℕ => l.vrTop + l.vrOffs + 16 * i)

/-- Integers and small structs in one or two general registers, and up to four numbers in vector
registers. -/
def convention : Convention Aapcs :=
  ⟨fun a => ((a.gp = 1 ∨ a.gp = 2) ∧ a.fp = 0) ∨ (a.gp = 0 ∧ 0 < a.fp ∧ a.fp ≤ 4), place, vaArg⟩

/-- Where the registers are saved. -/
structure Area (mem : ℤ → Option Place) (grTop vrTop args : ℤ) : Prop extends StackArea mem args where
  gp : ∀ i < 8, mem (grTop - 64 + 8 * (i : ℕ)) = some (.gp i)
  fp : ∀ i < 8, mem (vrTop - 128 + 16 * (i : ℕ)) = some (.fp i)

/-- An offset from the end of saved registers denotes how many of them are used. -/
def Offset (size : ℕ) (offs : ℤ) (used : ℕ) : Prop := (used < 8 ∧ offs = size * used - size * 8) ∨
    (used = 8 ∧ 0 ≤ offs)

/-- The `va_list` denotes the cursor, but for the stack. -/
structure Registers (l : Aapcs) (c : Cursor) : Prop where
  gr : Offset 8 l.grOffs c.gp
  vr : Offset 16 l.vrOffs c.fp

/-- The `va_list` denotes the cursor. -/
structure Denotes (args : ℤ) (l : Aapcs) (c : Cursor) : Prop extends Registers l c where
  stack : l.stack = args + c.stack
  dvd : 8 ∣ c.stack

section
variable {mem : ℤ → Option Place} {l : Aapcs} {c : Cursor} {args : ℤ}

theorem Denotes.onStack (h : Denotes args l c) (harea : StackArea mem args) (a : VarArg) :
    (l.onStack a).2.map mem = (c.push a).2.map some ∧ Denotes args (l.onStack a).1 (c.push a).1 := by
  rw [Aapcs.onStack, h.stack, fetch_eq harea.dvd h.dvd]
  refine ⟨by simpa [Cursor.push] using harea.stack _, ⟨h.gr, h.vr⟩, rfl, ?_⟩
  exact Nat.dvd_add (eight_dvd_alignUp ..) (Dvd.intro _ rfl)

theorem Registers.onStack (h : Registers l c) (a : VarArg) : Registers (l.onStack a).1 (c.push a).1 :=
  ⟨h.gr, h.vr⟩

/-- What `va_arg` does: it reads registers that were put to use, or an argument on the stack, when
the registers that are left have been given up. -/
theorem Registers.cases (h : Registers l c) (harea : Area mem l.grTop l.vrTop args) {a : VarArg}
    (ha : convention.Valid a) :
    ∃ l' c', Registers l' c' ∧ l'.stack = l.stack ∧ c'.stack = c.stack ∧ l'.grTop = l.grTop ∧
      l'.vrTop = l.vrTop ∧
      (((vaArg l a).1 = l' ∧ (place c a).1 = c' ∧ (vaArg l a).2.map mem = (place c a).2.map some) ∨
        (vaArg l a = l'.onStack a ∧ place c a = c'.push a)) := by
  rcases ha with ⟨hgp, hfp⟩ | ⟨hgp, hfp⟩
  · set next := if a.aligned then alignUp c.gp 2 else c.gp with hnext
    set offs := if a.aligned then alignAddr l.grOffs else l.grOffs with hoffs
    rcases h.gr with ⟨hlt, heq⟩ | ⟨hused, hle⟩
    · have hoffs_eq : offs = 8 * next - 64 := by
        rw [hoffs, hnext, heq]
        unfold alignAddr alignUp
        split_ifs <;> omega
      have hneg : ¬ 0 ≤ l.grOffs := by omega
      by_cases hfits : next + a.gp ≤ 8
      · have hfits' : ¬ 0 < offs + 8 * (a.gp : ℤ) := by omega
        refine ⟨{ l with grOffs := offs + 8 * a.gp }, { c with
          gp := next + a.gp }, ⟨?_, h.vr⟩, rfl, rfl, rfl, rfl, .inl ⟨?_, ?_, ?_⟩⟩
        · by_cases hall : next + a.gp = 8
          · exact .inr ⟨hall, by dsimp only; omega⟩
          · exact .inl ⟨by dsimp only; omega, by dsimp only; push_cast; omega⟩
        · rw [vaArg, if_pos hfp, if_neg hneg, ← hoffs, if_neg hfits']
        · rw [place, if_pos hfp, ← hnext, if_pos hfits]
        · rw [vaArg, if_pos hfp, if_neg hneg, ← hoffs, if_neg hfits', place, if_pos hfp, ← hnext,
            if_pos hfits]
          have hsaved := map_saved harea.gp next a.gp hfits
          have hbase : l.grTop + offs = l.grTop - 64 + 8 * next := by omega
          simpa [regPlaces, hbase] using hsaved
      · have hfits' : 0 < offs + 8 * (a.gp : ℤ) := by omega
        refine ⟨{ l with grOffs := offs + 8 * a.gp }, { c with
          gp := 8 }, ⟨.inr ⟨rfl, hfits'.le⟩, h.vr⟩, rfl, rfl, rfl, rfl, .inr ⟨?_, ?_⟩⟩
        · rw [vaArg, if_pos hfp, if_neg hneg, ← hoffs, if_pos hfits']
        · rw [place, if_pos hfp, ← hnext, if_neg hfits]
    · have hnext_eq : next = 8 := by
        rw [hnext, hused]
        split_ifs <;> rfl
      refine ⟨l, c, h, rfl, rfl, rfl, rfl, .inr ⟨by rw [vaArg, if_pos hfp, if_pos hle], ?_⟩⟩
      rw [place, if_pos hfp, ← hnext, if_neg (by omega), ← hused]
  · have hne : a.fp ≠ 0 := by omega
    rcases h.vr with ⟨hlt, heq⟩ | ⟨hused, hle⟩
    · have hneg : ¬ 0 ≤ l.vrOffs := by omega
      by_cases hfits : c.fp + a.fp ≤ 8
      · have hfits' : ¬ 0 < l.vrOffs + 16 * (a.fp : ℤ) := by omega
        refine ⟨{ l with vrOffs := l.vrOffs + 16 * a.fp }, { c with
          fp := c.fp + a.fp }, ⟨h.gr, ?_⟩, rfl, rfl, rfl, rfl, .inl ⟨?_, ?_, ?_⟩⟩
        · by_cases hall : c.fp + a.fp = 8
          · exact .inr ⟨hall, by dsimp only; omega⟩
          · exact .inl ⟨by dsimp only; omega, by dsimp only; push_cast; omega⟩
        · rw [vaArg, if_neg hne, if_neg hneg, if_neg hfits']
        · rw [place, if_neg hne, if_pos hfits]
        · rw [vaArg, if_neg hne, if_neg hneg, if_neg hfits', place, if_neg hne, if_pos hfits]
          have hsaved := map_saved harea.fp c.fp a.fp hfits
          have hbase : l.vrTop + l.vrOffs = l.vrTop - 128 + 16 * c.fp := by omega
          simpa [regPlaces, hbase] using hsaved
      · have hfits' : 0 < l.vrOffs + 16 * (a.fp : ℤ) := by omega
        refine ⟨{ l with vrOffs := l.vrOffs + 16 * a.fp }, { c with
          fp := 8 }, ⟨h.gr, .inr ⟨rfl, hfits'.le⟩⟩, rfl, rfl, rfl, rfl, .inr ⟨?_, ?_⟩⟩
        · rw [vaArg, if_neg hne, if_neg hneg, if_pos hfits']
        · rw [place, if_neg hne, if_neg hfits]
    · refine ⟨l, c, h, rfl, rfl, rfl, rfl, .inr ⟨by rw [vaArg, if_neg hne, if_pos hle], ?_⟩⟩
      rw [place, if_neg hne, if_neg (by omega), ← hused]

/-- **All variable arguments are read where the caller put them.** -/
theorem agrees (h : Denotes args l c) (harea : Area mem l.grTop l.vrTop args) {as : List VarArg}
    (has : ∀ a ∈ as, convention.Valid a) : convention.Agrees mem l c as := by
  induction as generalizing l c with
  | nil => exact Convention.agrees_nil
  | cons a as ih =>
    have has' : ∀ a ∈ as, convention.Valid a := fun b hb => has b (List.mem_cons_of_mem _ hb)
    refine Convention.agrees_cons.mpr ?_
    obtain ⟨l', c', hregs, hl, hc, hgr, hvr, hread⟩ := h.toRegisters.cases harea (has a List.mem_cons_self)
    have hnext : Denotes args l' c' := ⟨hregs, by rw [hl, hc, h.stack], by rw [hc]; exact h.dvd⟩
    rcases hread with ⟨hl', hc', hplaces⟩ | ⟨hl', hc'⟩
    · subst hl' hc'
      exact ⟨hplaces, ih hnext (by rwa [← hgr, ← hvr] at harea) has'⟩
    · obtain ⟨hplaces, hnext⟩ := hnext.onStack harea.toStackArea a
      rw [← hgr, ← hvr] at harea
      rw [← hl', ← hc'] at hplaces hnext
      have harea' : Area mem (vaArg l a).1.grTop (vaArg l a).1.vrTop args := by
        rw [hl']
        exact harea
      exact ⟨hplaces, ih hnext harea' has'⟩

/-- If everything is read where it was put, the stack is aligned: once no register is left, the next word
is on it. -/
theorem dvd_of_agrees (h : Registers l c) (harea : Area mem l.grTop l.vrTop args)
    (hstack : l.stack = args + c.stack)
    (hread : ∀ as, (∀ a ∈ as, convention.Valid a) → convention.Agrees mem l c as) : 8 ∣ c.stack := by
  have hvalid : convention.Valid ⟨1, 0, 1, false⟩ := .inl ⟨.inl rfl, rfl⟩
  induction hn : 8 - c.gp generalizing l c with
  | zero =>
    obtain ⟨hused, hle⟩ : c.gp = 8 ∧ 0 ≤ l.grOffs := by
      rcases h.gr with ⟨hlt, -⟩ | hall
      · omega
      · exact hall
    have hput := (Convention.agrees_cons.mp (hread [⟨1, 0, 1, false⟩] (by simpa using hvalid))).1
    simp only [convention, vaArg, place, hused, hle, Aapcs.onStack, fetch, Cursor.push, if_true,
      Nat.reduceAdd, Nat.reduceLeDiff,
      if_false, Bool.false_eq_true, List.map_cons, List.map_nil, hstack, harea.stack c.stack] at hput
    have heq : c.stack = alignUp c.stack 8 := by simpa using hput
    rw [heq]
    exact dvd_alignUp ..
  | succ n ih =>
    have hfits : c.gp + 1 ≤ 8 := by omega
    have hplace : place c ⟨1, 0, 1, false⟩ = ({ c with gp := c.gp + 1 }, [.gp c.gp]) := by
      simp [place, hfits, regPlaces]
    obtain ⟨l', c', hregs, hl, hc, hgr, hvr, ⟨rfl, rfl, -⟩ | ⟨-, hpush⟩⟩ := h.cases harea hvalid
    · rw [← hc]
      refine ih hregs (by rwa [← hgr, ← hvr] at harea) (by rw [hl, hc, hstack]) (fun as has => ?_) ?_
      · exact (Convention.agrees_cons.mp (hread (⟨1, 0, 1, false⟩ :: as) (by simpa using ⟨hvalid, has⟩))).2
      · rw [hplace]
        dsimp only
        omega
    · rw [hplace] at hpush
      simp [Cursor.push] at hpush

/-- A general register that the caller has given up is not to be read. -/
theorem not_agrees_gp {used : ℕ} (harea : Area mem l.grTop l.vrTop args) (hgp : c.gp = 8) (hlt : used < 8)
    (hoffs : l.grOffs = 8 * used - 64) : ¬ convention.Agrees mem l c [⟨1, 0, 1, false⟩] := by
  intro h
  have hread := (Convention.agrees_cons.mp h).1
  have hneg : ¬ 0 ≤ l.grOffs := by omega
  have hfits : ¬ 0 < l.grOffs + 8 := by omega
  have haddr : l.grTop + l.grOffs = l.grTop - 64 + 8 * used := by omega
  simp [convention, vaArg, place, hgp, hneg, hfits, Cursor.push, haddr, harea.gp used hlt] at hread

/-- Nor a vector register. -/
theorem not_agrees_fp {used : ℕ} (harea : Area mem l.grTop l.vrTop args) (hfp : c.fp = 8) (hlt : used < 8)
    (hoffs : l.vrOffs = 16 * used - 128) : ¬ convention.Agrees mem l c [⟨0, 1, 1, false⟩] := by
  intro h
  have hread := (Convention.agrees_cons.mp h).1
  have hneg : ¬ 0 ≤ l.vrOffs := by omega
  have hfits : ¬ 0 < l.vrOffs + 16 := by omega
  have haddr : l.vrTop + l.vrOffs = l.vrTop - 128 + 16 * used := by omega
  simp [convention, vaArg, place, hfp, hneg, hfits, Cursor.push, haddr, harea.fp used hlt] at hread

end

end Aapcs

end VaList
