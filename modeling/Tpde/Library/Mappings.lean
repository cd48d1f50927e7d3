import Tpde.Library.Ranges

/-!
# Mappings and registered frames

The mappings of a process and the unwind frames that it has registered. A program asks for them and
gives them back by events; the legal ones give back what there is, and unmap no memory with a frame in
it. Where all events are legal and nothing is left at the end, everything was given back exactly once.
-/

namespace Mappings

open Ranges

/-- What a program does: `mmap`, `munmap`, and the registration of frames. -/
inductive Event where
  | mmap (addr size : ℕ)
  | munmap (addr size : ℕ)
  | registerFrame (addr : ℕ)
  | deregisterFrame (addr : ℕ)
  deriving DecidableEq, Repr

/-- The mappings, by address and size, and the frames. -/
structure System where
  maps : List (ℕ × ℕ) := []
  frames : List ℕ := []
  deriving DecidableEq, Repr

namespace System

variable (s : System)

def apply : Event → System
  | .mmap addr size => { s with maps := (addr, size) :: s.maps }
  | .munmap addr size => { s with maps := s.maps.erase (addr, size) }
  | .registerFrame addr => { s with frames := addr :: s.frames }
  | .deregisterFrame addr => { s with frames := s.frames.erase addr }

/-- What is given back is there, and no frame lies in what is unmapped. -/
def Legal : Event → Prop
  | .munmap addr size => (addr, size) ∈ s.maps ∧ ∀ f ∈ s.frames, ¬ (addr ≤ f ∧ f < addr + size)
  | .deregisterFrame addr => addr ∈ s.frames
  | .mmap .. | .registerFrame _ => True

/-- Some events in a row. -/
def applyAll (es : List Event) : System := es.foldl apply s

def AllLegal : System → List Event → Prop
  | _, [] => True
  | s, e :: es => s.Legal e ∧ AllLegal (s.apply e) es

/-- Where a new mapping may be: not at null, and apart from all there are. -/
def Free (addr size : ℕ) : Prop := 0 < addr ∧ 0 < size ∧ ∀ m ∈ s.maps, Apart (addr, size) m

instance (addr size : ℕ) : Decidable (s.Free addr size) :=
  inferInstanceAs (Decidable (0 < addr ∧ 0 < size ∧ ∀ m ∈ s.maps, addr + size ≤ m.1 ∨ m.1 + m.2 ≤ addr))

/-- The answer to `mmap`: an address that is free, or none. -/
def mmapAnswer (size : ℕ) (answer : Option ℕ) : Option ℕ := answer.filter fun addr => s.Free addr size

variable {s} {es es' : List Event} {addr size : ℕ}

@[simp] theorem applyAll_nil : s.applyAll [] = s := rfl

@[simp] theorem applyAll_cons (e : Event) : s.applyAll (e :: es) = (s.apply e).applyAll es := rfl

@[simp] theorem allLegal_nil : s.AllLegal [] := trivial

@[simp] theorem allLegal_cons {e : Event} : s.AllLegal (e :: es) ↔ s.Legal e ∧ (s.apply e).AllLegal es := .rfl

theorem allLegal_append : s.AllLegal (es ++ es') ↔ s.AllLegal es ∧ (s.applyAll es).AllLegal es' := by
  induction es generalizing s with
  | nil => exact (and_iff_right trivial).symm
  | cons e es ih =>
    rw [List.cons_append, allLegal_cons, allLegal_cons, ih, and_assoc]
    rfl

theorem free_of_mmapAnswer {answer : Option ℕ} (h : s.mmapAnswer size answer = some addr) :
    s.Free addr size :=
  of_decide_eq_true (Option.mem_filter_iff.mp h).2

/-- A new mapping has an address of its own. -/
theorem Free.ne (h : s.Free addr size) {m : ℕ × ℕ} (hm : m ∈ s.maps) (hpos : 0 < m.2) : m.1 ≠ addr := by
  rintro rfl
  obtain ⟨-, hsize, hapart⟩ := h
  have := hapart m hm
  unfold Apart at this
  omega

/-- A mapping stays as long as others are unmapped. -/
theorem mem_maps_apply {m : ℕ × ℕ} (hm : m ∈ s.maps) {e : Event}
    (he : ∀ addr size, e = .munmap addr size → m.1 ≠ addr) :
    m ∈ (s.apply e).maps := by
  cases e with
  | mmap addr size => exact List.mem_cons_of_mem _ hm
  | munmap addr size =>
    refine (List.mem_erase_of_ne ?_).mpr hm
    rintro rfl
    exact he _ _ rfl rfl
  | registerFrame addr => exact hm
  | deregisterFrame addr => exact hm

theorem mem_maps_applyAll {m : ℕ × ℕ} (hm : m ∈ s.maps)
    (hes : ∀ addr size, .munmap addr size ∈ es → m.1 ≠ addr) :
    m ∈ (s.applyAll es).maps := by
  induction es generalizing s with
  | nil => exact hm
  | cons e es ih =>
    refine ih (mem_maps_apply hm fun addr size he => hes addr size (he ▸ List.mem_cons_self))
      fun addr size hmem => ?_
    exact hes addr size (List.mem_cons_of_mem _ hmem)

end System

end Mappings
