import Tpde.Library.Objects

/-!
# Small vectors

`SmallVector` keeps its elements behind its own header until they outgrow `N` of them, then in a buffer
from the system. Which of the two it is in is told by comparing the pointer with the address behind the
header. A move takes the buffer of the other vector, or moves its elements where they are in the object.
-/

namespace Tpde.Util

open Ranges Storage

/-- What the vectors know of the type of their elements: `sizeof`, `IsTrivial`, and what an element
becomes that is moved onto itself. -/
structure ElemType (α : Type*) where
  size : ℕ
  pos : 0 < size
  isTrivial : Bool
  selfMove : α → α

/-- The elements at an address, by their index; `none` where there is none. -/
abbrev Cells (α : Type*) := ℕ → Option α

/-- A vector: its address, the size of its inline storage, and its fields. The pointer has the size of
what it points to besides. -/
structure SmallVector where
  this : ℕ := 0
  N : ℕ := 0
  ptr : Block := (⟨0, 0⟩, 0)
  sz : ℕ := 0
  cap : ℕ := 0

/-- `sizeof(SmallVectorUntypedBase)`. -/
def headerSize : ℕ := 24

namespace SmallVector

section
variable {α : Type*} (T : ElemType α) (v : SmallVector)

/-- The size of `elements`. -/
def storageSize : ℕ := if v.N = 0 then 1 else v.N * T.size

/-- `small_ptr`. -/
def smallPtr : Block := (⟨v.this + headerSize, 0⟩, v.storageSize T)

/-- The addresses of the object. -/
def range : ℕ × ℕ := (v.this, headerSize + v.storageSize T)

/-- `is_small`. -/
def isSmall : Prop := v.ptr.1.addr = v.this + headerSize

instance : Decidable v.isSmall := inferInstanceAs (Decidable (_ = _))

/-- The buffer that is freed with the vector. -/
def buffer : Option Block := if v.isSmall then none else some v.ptr

/-- A vector whose buffer was taken. -/
def taken : SmallVector := { v with ptr := v.smallPtr T, sz := 0, cap := 0 }

end

/-- `calc_new_capacity`. -/
def calcNewCapacity (cap minSize : ℕ) : ℕ :=
  let newCap := (2 * cap + 1) % 2 ^ 64
  if newCap < minSize then minSize else newCap

end SmallVector

/-! ### Elements -/

namespace Cells

variable {α : Type*}

/-- Elements are constructed, from an index on. -/
def construct (c : Cells α) (start : ℕ) (xs : List α) : Cells α :=
  fun i => if start ≤ i ∧ i < start + xs.length then xs[i - start]? else c i

/-- `std::destroy`. -/
def destroy (c : Cells α) (start stop : ℕ) : Cells α := fun i => if start ≤ i ∧ i < stop then none else c i

/-- `std::uninitialized_move` to the first elements. -/
def uninitializedMove (c other : Cells α) (n : ℕ) : Cells α := fun i => if i < n then other i else c i

/-- `*start_it = std::move(*end_it)`. -/
def moveElem (selfMove : α → α) (c : Cells α) (start stop : ℕ) : Cells α :=
  if start = stop then Function.update c start ((c stop).map selfMove)
    else Function.update (Function.update c start (c stop)) stop none

/-- The loop of `erase`, with the elements that are left to it. -/
def eraseLoop (selfMove : α → α) : ℕ → ℕ → ℕ → Cells α → ℕ × Cells α
  | 0, start, _, c => (start, c)
  | n + 1, start, stop, c => eraseLoop selfMove n (start + 1) (stop + 1) (c.moveElem selfMove start stop)

/-- The elements start with those of a list. -/
def Holds (c : Cells α) (l : List α) : Prop := ∀ i < l.length, c i = l[i]?

variable {c other : Cells α} {l xs : List α} {n start stop : ℕ} {selfMove : α → α}

theorem holds_nil : c.Holds [] := nofun

theorem Holds.congr {c' : Cells α} (h : c.Holds l) (hc : ∀ i < l.length, c' i = c i) : c'.Holds l :=
  fun i hi => (hc i hi).trans (h i hi)

theorem Holds.construct (h : c.Holds l) : (c.construct l.length xs).Holds (l ++ xs) := by
  intro i hi
  rw [List.length_append] at hi
  rw [Cells.construct]
  by_cases hlt : i < l.length
  · rw [if_neg (by omega), List.getElem?_append_left hlt, h i hlt]
  · rw [if_pos (by omega), List.getElem?_append_right (not_lt.mp hlt)]

theorem Holds.destroy (h : c.Holds l) : (c.destroy n stop).Holds (l.take n) := by
  intro i hi
  rw [List.length_take, lt_min_iff] at hi
  rw [Cells.destroy, if_neg (by omega), List.getElem?_take_of_lt hi.1, h i hi.2]

theorem Holds.uninitializedMove (h : other.Holds l) : (c.uninitializedMove other l.length).Holds l := by
  intro i hi
  rw [Cells.uninitializedMove, if_pos hi, h i hi]

theorem moveElem_lt {i : ℕ} (hle : start ≤ stop) (hi : i < start) :
    c.moveElem selfMove start stop i = c i := by
  rw [moveElem]
  split
  · rw [Function.update_of_ne (by omega)]
  · rw [Function.update_of_ne (by omega), Function.update_of_ne (by omega)]

theorem moveElem_gt {i : ℕ} (hle : start ≤ stop) (hi : stop < i) :
    c.moveElem selfMove start stop i = c i := by
  rw [moveElem]
  split
  · rw [Function.update_of_ne (by omega)]
  · rw [Function.update_of_ne (by omega), Function.update_of_ne (by omega)]

theorem moveElem_self : c.moveElem selfMove start stop start = if start = stop then
    (c start).map selfMove else c stop := by
  rw [moveElem]
  split
  case isTrue heq =>
    subst heq
    rw [Function.update_self]
  case isFalse hne => rw [Function.update_of_ne hne, Function.update_self]

/-- What the loop of `erase` leaves: the elements from `stop` on have moved down to `start`, maybe onto
themselves. -/
theorem eraseLoop_spec (hle : start ≤ stop) : (eraseLoop selfMove n start stop c).1 = start + n ∧
    (∀ i < start, (eraseLoop selfMove n start stop c).2 i = c i) ∧
    ∀ i < n, (eraseLoop selfMove n start stop c).2 (start + i) = if start = stop then
      (c (start + i)).map selfMove else c (stop + i) := by
  induction n generalizing start stop c with
  | zero => exact ⟨rfl, fun _ _ => rfl, nofun⟩
  | succ n ih =>
    obtain ⟨hstart, hbelow, hmoved⟩ := ih (c := c.moveElem selfMove start stop) (Nat.add_le_add_right hle 1)
    rw [eraseLoop]
    refine ⟨hstart.trans (by omega), fun i hi => ?_, fun i hi => ?_⟩
    · rw [hbelow i (by omega), moveElem_lt hle hi]
    · cases i with
      | zero =>
        simp only [Nat.add_zero]
        rw [hbelow start (Nat.lt_succ_self _), moveElem_self]
      | succ i =>
        have hrest := hmoved i (by omega)
        simp only [moveElem_gt hle (show stop < stop + 1 + i by omega), Nat.add_right_cancel_iff] at hrest
        rw [show start + (i + 1) = start + 1 + i by omega, show stop + (i + 1) = stop + 1 + i by omega, hrest]
        split
        case isTrue heq => rw [moveElem_gt hle (by omega)]
        case isFalse => rfl

/-- The list without the range, whose rest may have been moved onto itself. -/
def erased (selfMove : α → α) (l : List α) (start stop : ℕ) : List α :=
  l.take start ++ if start = stop then (l.drop stop).map selfMove else l.drop stop

theorem length_erased (hle : start ≤ stop) (hlen : stop ≤ l.length) :
    (erased selfMove l start stop).length = start + (l.length - stop) := by
  have htake : (l.take start).length = start := List.length_take_of_le (hle.trans hlen)
  rw [erased, List.length_append, htake]
  split
  · rw [List.length_map, List.length_drop]
  · rw [List.length_drop]

theorem Holds.eraseLoop (h : c.Holds l) (hle : start ≤ stop) (hlen : stop ≤ l.length) :
    (eraseLoop selfMove (l.length - stop) start stop c).2.Holds (erased selfMove l start stop) := by
  obtain ⟨-, hbelow, hmoved⟩ := eraseLoop_spec (c := c) (n := l.length - stop) hle
  intro i hi
  rw [length_erased hle hlen] at hi
  have htake : (l.take start).length = start := List.length_take_of_le (hle.trans hlen)
  rw [erased]
  by_cases hlt : i < start
  · rw [hbelow i hlt, List.getElem?_append_left (htake.symm ▸ hlt), List.getElem?_take_of_lt hlt,
      h i (by omega)]
  · obtain ⟨k, rfl⟩ := Nat.exists_eq_add_of_le (not_lt.mp hlt)
    rw [hmoved k (by omega), List.getElem?_append_right (by omega), htake, Nat.add_sub_cancel_left]
    split
    case isTrue heq =>
      subst heq
      rw [List.getElem?_map, List.getElem?_drop, h (start + k) (by omega)]
    case isFalse => rw [List.getElem?_drop, h (stop + k) (by omega)]

end Cells

/-! ### Vectors -/

/-- The vectors that are alive, by their addresses, with the memory of their elements and the system. -/
structure Vectors (α : Type*) where
  objs : List ℕ := []
  vec : ℕ → SmallVector := fun _ => {}
  mem : ℕ → Cells α := fun _ _ => none
  sys : Sys := {}

namespace Vectors

open SmallVector

section
variable {α : Type*} (T : ElemType α) (w : Vectors α) (this : ℕ)

def cells : Cells α := w.mem (w.vec this).ptr.1.addr

def setVec (v : SmallVector) : Vectors α := { w with vec := Function.update w.vec this v }

/-- The elements and their number are changed. -/
def setElems (c : Cells α) (sz : ℕ) : Vectors α :=
  { w with
    vec := Function.update w.vec this { w.vec this with sz }
    mem := Function.update w.mem (w.vec this).ptr.1.addr c }

/-- `grow_trivial`, with what the system answers. -/
def growTrivial (newSize answer : ℕ) : Option (Vectors α) :=
  let v := w.vec this
  let newCap := calcNewCapacity v.cap newSize
  let bytes := newCap * T.size % 2 ^ 64
  if answer = 0 then none
  else if v.isSmall then
    let (ptr, sys) := w.sys.new bytes answer
    some { w with
      vec := Function.update w.vec this { v with ptr := (ptr, bytes), cap := newCap }
      mem := Function.update w.mem answer (Cells.uninitializedMove (fun _ => none) (w.cells this) v.sz)
      sys }
  else
    -- `realloc` keeps the elements that are in both sizes
    let (ptr, sys) := (w.sys.deleteAll [v.ptr]).new bytes answer
    some { w with
      vec := Function.update w.vec this { v with ptr := (ptr, bytes), cap := newCap }
      mem := Function.update w.mem answer fun i => if (i + 1) * T.size ≤ min v.ptr.2 bytes then
        w.cells this i else none
      sys }

/-- `grow` of elements that are not trivial. -/
def growMoving (newSize answer : ℕ) : Option (Vectors α) :=
  let v := w.vec this
  let newCap := calcNewCapacity v.cap newSize
  let bytes := newCap * T.size % 2 ^ 64
  if answer = 0 then none
  else
    let (ptr, sys) := w.sys.new bytes answer
    some { w with
      vec := Function.update w.vec this { v with ptr := (ptr, bytes), cap := newCap }
      mem := Function.update (Function.update w.mem v.ptr.1.addr ((w.cells this).destroy 0 v.sz)) answer
        (Cells.uninitializedMove (fun _ => none) (w.cells this) v.sz)
      sys := if v.isSmall then sys else sys.deleteAll [v.ptr] }

def grow (newSize answer : ℕ) : Option (Vectors α) :=
  if T.isTrivial then w.growTrivial T this newSize answer else w.growMoving T this newSize answer

def reserve (newCap answer : ℕ) : Option (Vectors α) := if (w.vec this).cap < newCap then
    w.grow T this newCap answer else some w

/-- `max_size`. -/
def maxSize : ℕ := (2 ^ 64 - 1) / T.size

/-- `ensure_space`, which asserts that there can be so many. -/
def ensureSpace (numElems answer : ℕ) : Option (Vectors α) :=
  let sz := (w.vec this).sz
  if numElems ≤ (maxSize T + 2 ^ 64 - sz) % 2 ^ 64 then
    if (w.vec this).cap < (sz + numElems) % 2 ^ 64 then w.grow T this ((sz + numElems) % 2 ^ 64) answer
      else some w
  else none

def pushBack (elem : α) (answer : ℕ) : Option (Vectors α) :=
  (w.ensureSpace T this 1 answer).map fun w =>
    w.setElems this ((w.cells this).construct (w.vec this).sz [elem]) (((w.vec this).sz + 1) % 2 ^ 64)

/-- `emplace_back`, of what is made from its arguments. -/
def emplaceBack (elem : α) (answer : ℕ) : Option (Vectors α) := w.pushBack T this elem answer

/-- `pop_back`; `back` asserts that there is an element. -/
def popBack : Option (Vectors α) :=
  let sz := (w.vec this).sz
  if 0 < sz then some (w.setElems this ((w.cells this).destroy (sz - 1) sz) (sz - 1)) else none

/-- Both forms of `resize`: the new elements are `T()` or a value that is given. -/
def resize (newSize : ℕ) (init : α) (answer : ℕ) : Option (Vectors α) :=
  let sz := (w.vec this).sz
  if newSize < sz then some (w.setElems this ((w.cells this).destroy newSize sz) newSize)
  else if sz < newSize then
    (w.reserve T this newSize answer).map fun w =>
      w.setElems this ((w.cells this).construct sz (List.replicate (newSize - sz) init)) newSize
  else some w

/-- `erase`, of a range of the vector. -/
def erase (start stop : ℕ) : Option (Vectors α) :=
  let sz := (w.vec this).sz
  if start ≤ stop ∧ stop ≤ sz then
    let (start, c) := Cells.eraseLoop T.selfMove (sz - stop) start stop (w.cells this)
    some (w.setElems this (c.destroy start sz) start)
  else none

/-- `append`, of elements that are not in the vector. -/
def append (elems : List α) (answer : ℕ) : Option (Vectors α) :=
  let sz := (w.vec this).sz
  (w.reserve T this ((sz + elems.length) % 2 ^ 64) answer).map fun w =>
    w.setElems this ((w.cells this).construct sz elems) ((sz + elems.length) % 2 ^ 64)

def clear : Vectors α := w.setElems this ((w.cells this).destroy 0 (w.vec this).sz) 0

/-- `operator=(SmallVectorBase &&other)`. -/
def moveAssign (other answer : ℕ) : Option (Vectors α) :=
  let w := w.clear this
  if ¬ (w.vec other).isSmall then
    let o := w.vec other
    let w := w.setVec this { w.vec this with ptr := o.ptr, sz := o.sz, cap := o.cap }
    some (w.setVec other ((w.vec other).taken T))
  else
    (w.reserve T this (w.vec other).sz answer).map fun w =>
      let sz := (w.vec other).sz
      (w.setElems this ((w.cells this).uninitializedMove (w.cells other) sz) sz).clear other

/-- An empty vector. -/
def fresh (N : ℕ) : SmallVector :=
  let v : SmallVector := { this, N, cap := N }
  { v with ptr := v.smallPtr T }

/-- `SmallVector()`, on storage of the caller. -/
def construct (N : ℕ) : Vectors α := { w.setVec this (fresh T this N) with objs := this :: w.objs }

/-- `SmallVector(SmallVectorBase &&other)`. -/
def moveConstruct (N other answer : ℕ) : Option (Vectors α) :=
  (w.construct T this N).moveAssign T this other answer

/-- The destructor. -/
def destroy : Vectors α :=
  let v := w.vec this
  { w with
    objs := w.objs.erase this
    mem := Function.update w.mem v.ptr.1.addr ((w.cells this).destroy 0 v.sz)
    sys := if v.isSmall then w.sys else w.sys.deleteAll [v.ptr] }

/-- The elements of a vector. -/
def contents : List (Option α) := (List.range (w.vec this).sz).map (w.cells this)

/-- The addresses of the objects. -/
def ranges : List (ℕ × ℕ) := w.objs.map fun a => (w.vec a).range T

/-- The buffers of the vectors. -/
def buffers : List Block := w.objs.filterMap fun a => (w.vec a).buffer

/-- The buffers of the other vectors. -/
def others : List Block := (w.objs.erase this).filterMap fun a => (w.vec a).buffer

end

end Vectors

end Tpde.Util
