import Mathlib.Tactic

/-!
# Numbers as bytes, and bytes in memory

Numbers as little-endian bytes, and a memory of bytes in which a list of bytes is
stored and from which it is loaded: a load gives what was stored last, and a
store elsewhere leaves it alone.
-/

namespace Bytes

/-! ### Little-endian numbers -/

/-- The `n` low bytes of a number, lowest first. -/
def ofNat : ℕ → ℕ → List UInt8
  | 0, _ => []
  | n + 1, v => UInt8.ofNat v :: ofNat n (v / 256)

/-- The number that bytes stand for. -/
def toNat : List UInt8 → ℕ
  | [] => 0
  | b :: bs => b.toNat + 256 * toNat bs

@[simp] theorem length_ofNat (n v : ℕ) : (ofNat n v).length = n := by
  induction n generalizing v with
  | zero => rfl
  | succ n ih => simp [ofNat, ih]

@[simp] theorem toNat_ofNat (n v : ℕ) : toNat (ofNat n v) = v % 256 ^ n := by
  induction n generalizing v with
  | zero => simp [ofNat, toNat, Nat.mod_one]
  | succ n ih =>
    rw [ofNat, toNat, ih, UInt8.toNat_ofNat', pow_succ' 256 n, Nat.mod_mul]

theorem toNat_lt (bs : List UInt8) : toNat bs < 256 ^ bs.length := by
  induction bs with
  | nil => simp [toNat]
  | cons b bs ih =>
    have hb : b.toNat < 256 := b.toNat_lt
    simp only [toNat, List.length_cons, pow_succ']
    omega

/-- Bytes are those of their number. -/
theorem ofNat_toNat (bs : List UInt8) : ofNat bs.length (toNat bs) = bs := by
  induction bs with
  | nil => rfl
  | cons b bs ih =>
    have hb : b.toNat < 256 := b.toNat_lt
    have hdiv : (b.toNat + 256 * toNat bs) / 256 = toNat bs := by omega
    have hhead : UInt8.ofNat (b.toNat + 256 * toNat bs) = b := by
      apply UInt8.toNat_inj.mp
      rw [UInt8.toNat_ofNat']
      omega
    simp only [List.length_cons, toNat, ofNat, hdiv, ih, hhead]

/-! ### Memory -/

/-- A memory of bytes. -/
abbrev Mem := ℕ → UInt8

namespace Mem

/-- Store bytes from address `a` on. -/
def store (m : Mem) (a : ℕ) (bs : List UInt8) : Mem :=
  fun x => if a ≤ x then bs.getD (x - a) (m x) else m x

/-- Load `n` bytes from address `a` on. -/
def load (m : Mem) (a n : ℕ) : List UInt8 := (List.range n).map fun i => m (a + i)

@[simp] theorem length_load (m : Mem) (a n : ℕ) : (m.load a n).length = n := by simp [load]

theorem store_apply {m : Mem} {a i : ℕ} {bs : List UInt8} (h : i < bs.length) :
    m.store a bs (a + i) = bs[i] := by
  simp [store, h]

/-- A store leaves the bytes outside it alone. -/
theorem store_of_not_mem {m : Mem} {a x : ℕ} {bs : List UInt8} (h : x < a ∨ a + bs.length ≤ x) :
    m.store a bs x = m x := by
  rw [store]
  split
  · rw [List.getD_eq_getElem?_getD, List.getElem?_eq_none (by omega), Option.getD_none]
  · rfl

theorem load_store (m : Mem) (a : ℕ) (bs : List UInt8) : (m.store a bs).load a bs.length = bs := by
  apply List.ext_getElem (by simp)
  intro i h₁ h₂
  simp [load, store_apply h₂]

theorem load_store_of_apart {m : Mem} {a b n : ℕ} {bs : List UInt8} (h : b + n ≤ a ∨ a + bs.length ≤ b) :
    (m.store a bs).load b n = m.load b n := by
  refine List.map_congr_left fun i hi => store_of_not_mem ?_
  have := List.mem_range.mp hi
  omega

theorem store_append (m : Mem) (a : ℕ) (bs bs' : List UInt8) :
    m.store a (bs ++ bs') = (m.store a bs).store (a + bs.length) bs' := by
  funext x
  by_cases hlow : x < a + bs.length
  · rw [store_of_not_mem (.inl hlow), store, store]
    by_cases hx : a ≤ x
    · rw [if_pos hx, if_pos hx, List.getD_eq_getElem?_getD, List.getD_eq_getElem?_getD,
        List.getElem?_append_left (by omega)]
    · rw [if_neg hx, if_neg hx]
  · rw [store, store, if_pos (by omega), if_pos (by omega), List.getD_eq_getElem?_getD,
      List.getD_eq_getElem?_getD,
      List.getElem?_append_right (by omega), store_of_not_mem (.inr (by omega)),
        show x - a - bs.length = x - (a + bs.length) by omega]

theorem load_append (m : Mem) (a n k : ℕ) : m.load a (n + k) = m.load a n ++ m.load (a + n) k := by
  rw [load, load, load, List.range_add, List.map_append, List.map_map]
  simp [Function.comp_def, Nat.add_assoc]

/-- What is stored behind the bytes that are loaded. -/
theorem load_store_append (m : Mem) (a n : ℕ) (bs : List UInt8) :
    (m.store (a + n) bs).load a (n + bs.length) = m.load a n ++ bs := by
  rw [load_append, load_store_of_apart (.inl le_rfl), load_store]

/-- Loads see the bytes of their range only. -/
theorem load_congr {m m' : Mem} {a n : ℕ} (h : ∀ x, a ≤ x → x < a + n → m x = m' x) :
    m.load a n = m'.load a n := by
  refine List.map_congr_left fun i hi => h _ (Nat.le_add_right a i) ?_
  have := List.mem_range.mp hi
  omega

/-- A part of what is loaded. -/
theorem load_slice (m : Mem) {a n i k : ℕ} (h : i + k ≤ n) :
    ((m.load a n).drop i).take k = m.load (a + i) k := by
  apply List.ext_getElem
  · simp
    omega
  · intro j h₁ h₂
    simp [load, Nat.add_assoc]

/-- The number in the `n` bytes from address `a` on. -/
def loadNat (m : Mem) (a n : ℕ) : ℕ := toNat (m.load a n)

/-- Store the `n` low bytes of a number. -/
def storeNat (m : Mem) (a n v : ℕ) : Mem := m.store a (ofNat n v)

theorem loadNat_storeNat (m : Mem) (a n v : ℕ) : (m.storeNat a n v).loadNat a n = v % 256 ^ n := by
  have h := load_store m a (ofNat n v)
  rw [length_ofNat] at h
  rw [loadNat, storeNat, h, toNat_ofNat]

theorem loadNat_lt (m : Mem) (a n : ℕ) : m.loadNat a n < 256 ^ n := by
  have h := toNat_lt (m.load a n)
  rwa [length_load] at h

theorem loadNat_congr {m m' : Mem} {a n : ℕ} (h : ∀ x, a ≤ x → x < a + n → m x = m' x) :
    m.loadNat a n = m'.loadNat a n := by
  rw [loadNat, loadNat, load_congr h]

theorem storeNat_of_not_mem {m : Mem} {a x n v : ℕ} (h : x < a ∨ a + n ≤ x) : m.storeNat a n v x = m x :=
  store_of_not_mem (by rwa [length_ofNat])

end Mem

end Bytes
