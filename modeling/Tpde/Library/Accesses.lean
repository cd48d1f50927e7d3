import Tpde.Library.Bytes
import Tpde.Library.Ranges

/-!
# Several accesses to memory

Numbers stored to and loaded from several ranges of memory. Where the stored ranges are
apart, each load at a place stored to gives the number back, to as many bits as both
accesses have, in whatever order the numbers are stored (`loadAll_storeAll`). Where that
holds for all numbers, the loads are at the places stored to (`places_of_loadAll`).
-/

namespace Bytes

open Ranges

namespace Mem

theorem ofNat_getElem (n v i : ℕ) (h : i < (ofNat n v).length) :
    (ofNat n v)[i] = UInt8.ofNat (v / 256 ^ i) := by
  induction n generalizing v i with
  | zero => simp [ofNat] at h
  | succ n ih =>
    cases i with
    | zero => simp [ofNat]
    | succ i => simp [ofNat, ih, Nat.div_div_eq_div_mul, pow_succ']

/-- A byte of a stored number. -/
theorem storeNat_apply {m : Mem} {a n v i : ℕ} (h : i < n) :
    m.storeNat a n v (a + i) = UInt8.ofNat (v / 256 ^ i) := by
  rw [storeNat, store_apply (by rwa [length_ofNat]), ofNat_getElem]

/-- A number is loaded as far as its bytes are in memory. -/
theorem loadNat_mod {m : Mem} {a n k v : ℕ} (hk : k ≤ n)
    (h : ∀ i < k, m (a + i) = UInt8.ofNat (v / 256 ^ i)) :
    m.loadNat a n % 256 ^ k = v % 256 ^ k := by
  induction k generalizing a n v with
  | zero => simp [Nat.mod_one]
  | succ k ih =>
    obtain ⟨n, rfl⟩ : ∃ n', n = n' + 1 := ⟨n - 1, by omega⟩
    have hload : m.loadNat a (n + 1) = (m a).toNat + 256 * m.loadNat (a + 1) n := by
      simp [loadNat, load, List.range_succ_eq_map, toNat, Function.comp_def, Nat.add_comm, Nat.add_left_comm]
    have hrest := ih (a := a + 1) (n := n) (v := v / 256) (by omega) fun i hi => by
      rw [Nat.div_div_eq_div_mul, ← pow_succ', ← h (i + 1) (by omega)]
      congr 1
      omega
    have hbyte : (m a).toNat = v % 256 := by
      rw [← Nat.add_zero a, h 0 (by omega)]
      simp
    rw [hload, hbyte, pow_succ', Nat.mod_mul, Nat.mod_mul (x := v)]
    simp [Nat.add_mul_div_left, Nat.div_eq_of_lt (Nat.mod_lt v (by decide : 256 > 0)), hrest]

/-- Store numbers to ranges behind `a`. -/
def storeAll (m : Mem) (a : ℕ) : List ((ℕ × ℕ) × ℕ) → Mem
  | [] => m
  | (r, v) :: l => storeAll (m.storeNat (a + r.1) r.2 v) a l

/-- Load numbers from ranges behind `a`. -/
def loadAll (m : Mem) (a : ℕ) (rs : List (ℕ × ℕ)) : List ℕ := rs.map fun r => m.loadNat (a + r.1) r.2

variable {m : Mem} {a : ℕ}

theorem storeAll_append (l l' : List ((ℕ × ℕ) × ℕ)) :
    storeAll m a (l ++ l') = storeAll (storeAll m a l) a l' := by
  induction l generalizing m with
  | nil => rfl
  | cons x l ih => exact ih

theorem storeAll_of_not_mem {l : List ((ℕ × ℕ) × ℕ)} {y : ℕ}
    (h : ∀ x ∈ l, y < a + x.1.1 ∨ a + x.1.1 + x.1.2 ≤ y) :
    storeAll m a l y = m y := by
  induction l generalizing m with
  | nil => rfl
  | cons x l ih =>
    rw [storeAll, ih fun x' hx' => h x' (List.mem_cons_of_mem x hx')]
    exact storeNat_of_not_mem (h x List.mem_cons_self)

/-- A byte in memory after stores is a byte of a stored number, or is as before. -/
theorem storeAll_cases (l : List ((ℕ × ℕ) × ℕ)) (y : ℕ) : storeAll m a l y = m y ∨
    ∃ x ∈ l, ∃ i < x.1.2, y = a + x.1.1 + i ∧ storeAll m a l y = UInt8.ofNat (x.2 / 256 ^ i) := by
  induction l generalizing m with
  | nil => exact .inl rfl
  | cons x l ih =>
    rcases ih (m := m.storeNat (a + x.1.1) x.1.2 x.2) with h | ⟨x', hx', i, hi, hy, hbyte⟩
    · by_cases hin : a + x.1.1 ≤ y ∧ y < a + x.1.1 + x.1.2
      · have hy : y = a + x.1.1 + (y - (a + x.1.1)) := by omega
        refine .inr ⟨x, List.mem_cons_self, y - (a + x.1.1), by omega, hy, ?_⟩
        rw [storeAll, h]
        conv_lhs => rw [hy]
        exact storeNat_apply (by omega)
      · refine .inl (h.trans (storeNat_of_not_mem ?_))
        omega
    · exact .inr ⟨x', List.mem_cons_of_mem x hx', i, hi, hy, hbyte⟩

/-- Of ranges that are apart, each holds the number stored to it. -/
theorem storeAll_apply {l : List ((ℕ × ℕ) × ℕ)} (hapart : (l.map (·.1)).Pairwise Apart)
    {x : (ℕ × ℕ) × ℕ} (hx : x ∈ l) {i : ℕ}
    (hi : i < x.1.2) : storeAll m a l (a + x.1.1 + i) = UInt8.ofNat (x.2 / 256 ^ i) := by
  induction l generalizing m with
  | nil => cases hx
  | cons x' l ih =>
    rw [List.map_cons, List.pairwise_cons] at hapart
    rw [storeAll]
    cases hx with
    | head =>
      rw [storeAll_of_not_mem, storeNat_apply hi]
      intro x' hx'
      have := hapart.1 x'.1 (List.mem_map_of_mem hx')
      simp only [Apart] at this
      omega
    | tail _ hx => exact ih hapart.2 hx

/-- The low bits of numbers. -/
def lowBits (bits vals : List ℕ) : List ℕ := List.zipWith (fun b v => v % 2 ^ b) bits vals

theorem apart_symm {r r' : ℕ × ℕ} (h : Apart r r') : Apart r' r := Or.symm h

theorem mod_pow_of_bytes {b k u v : ℕ} (hb : b ≤ 8 * k) (h : u % 256 ^ k = v % 256 ^ k) :
    u % 2 ^ b = v % 2 ^ b := by
  have hdvd : 2 ^ b ∣ 256 ^ k := by
    rw [show (256 : ℕ) = 2 ^ 8 by decide, ← pow_mul]
    exact Nat.pow_dvd_pow 2 hb
  rw [← Nat.mod_mod_of_dvd u hdvd, h, Nat.mod_mod_of_dvd v hdvd]

/-- **Numbers stored to ranges that are apart, in any order, are loaded from their places**
to as many bits as both accesses have. -/
theorem loadAll_storeAll {ι : Type} {z : List ι} {place width width' bits : ι → ℕ}
    (hbits : ∀ x ∈ z, bits x ≤ 8 * width x ∧ bits x ≤ 8 * width' x)
    (hapart : (z.map fun x => (place x, width x)).Pairwise Apart) {vals : List ℕ}
    (hlen : vals.length = z.length)
    {stores : List ((ℕ × ℕ) × ℕ)} (hperm : stores.Perm ((z.map fun x => (place x, width x)).zip vals)) :
    lowBits (z.map bits) (loadAll (storeAll m a stores) a (z.map fun x => (place x, width' x))) =
      lowBits (z.map bits) vals := by
  have hranges : (stores.map (·.1)).Pairwise Apart := by
    rw [(hperm.map (·.1)).pairwise_iff apart_symm, List.map_fst_zip (by simp [hlen])]
    exact hapart
  apply List.ext_getElem
  · simp [lowBits, loadAll, hlen]
  intro i h₁ h₂
  have hi : i < z.length := by
    simp only [lowBits, List.length_zipWith, List.length_map] at h₂
    omega
  simp only [lowBits, loadAll, List.getElem_zipWith, List.getElem_map]
  have hmem : ((place z[i], width z[i]), vals[i]) ∈ stores := by
    refine hperm.mem_iff.mpr (List.mem_iff_getElem.mpr ⟨i, by simpa [hlen] using hi, ?_⟩)
    simp
  obtain ⟨hb, hb'⟩ := hbits z[i] (List.getElem_mem hi)
  refine mod_pow_of_bytes (k := min (width z[i]) (width' z[i])) (by omega)
    (loadNat_mod (Nat.min_le_right ..) fun j hj => ?_)
  exact storeAll_apply hranges hmem (show j < width z[i] by omega)

/-- A number that is odd when loaded has a byte that is not zero at its place. -/
theorem ne_zero_of_loadNat {n b : ℕ} (hb : 0 < b) (h : m.loadNat a n % 2 ^ b = 1) : m a ≠ 0 := by
  intro hzero
  have hone : m.loadNat a n % 2 = 1 := by
    have hdvd : 2 ∣ 2 ^ b := dvd_pow_self 2 hb.ne'
    rw [← Nat.mod_mod_of_dvd _ hdvd, h]
  cases n with
  | zero => simp [loadNat, load, toNat] at hone
  | succ n =>
    have hload := loadNat_mod (m := m) (a := a) (n := n + 1) (k := 1) (v := 0) (by omega) fun i hi => by
      obtain rfl : i = 0 := by omega
      simpa using hzero
    omega

/-- **Where all numbers are loaded as they were stored, they are loaded from the places
that they were stored to.** -/
theorem places_of_loadAll {stored loaded : List (ℕ × ℕ)} {bits : List ℕ} (hlen : stored.length = bits.length)
    (hlen' : loaded.length = bits.length) (hbits : ∀ b ∈ bits, 0 < b)
    (h : ∀ vals : List ℕ, vals.length = bits.length →
      lowBits bits (loadAll (storeAll (fun _ => 0) a (stored.zip vals)) a loaded) = lowBits bits vals) :
    stored.map (·.1) = loaded.map (·.1) := by
  apply List.ext_getElem (by simp [hlen, hlen'])
  intro i h₁ h₂
  rw [List.length_map] at h₁ h₂
  set vals := (List.replicate bits.length 0).set i 1
  have hvals : vals.length = bits.length := by simp [vals]
  have hiv : i < vals.length := by omega
  have hib : i < bits.length := by omega
  have hone : vals[i] = 1 := by simp [vals]
  have hbi : 0 < bits[i] := hbits _ (List.getElem_mem _)
  have hload :
    (storeAll (fun _ => 0) a (stored.zip vals)).loadNat (a + loaded[i].1) loaded[i].2 % 2 ^ bits[i] = 1 := by
    have hnth : ∀ l l' : List ℕ, l = l' → ∀ hl : i < l.length, ∀ hl' : i < l'.length, l[i] = l'[i] := by
      rintro l _ rfl _ _
      rfl
    have heq := hnth _ _ (h vals hvals) (by simp [lowBits, loadAll]; omega) (by simp [lowBits]; omega)
    simp only [lowBits, loadAll, List.getElem_zipWith, List.getElem_map, hone] at heq
    rw [heq, Nat.mod_eq_of_lt (Nat.one_lt_two_pow hbi.ne')]
  simp only [List.getElem_map]
  rcases storeAll_cases (m := fun _ => 0) (a := a) (stored.zip vals) (a + loaded[i].1) with hzero | ⟨x,
    hx, k, hk, hy, hbyte⟩
  · exact absurd hzero (ne_zero_of_loadNat hbi hload)
  · obtain ⟨j, hj, rfl⟩ := List.mem_iff_getElem.mp hx
    have hne := ne_zero_of_loadNat hbi hload
    rw [hbyte] at hne
    simp only [List.getElem_zip] at hne hy
    -- only one number is not zero, and only in its first byte
    by_cases hij : i = j
    · subst hij
      have hk0 : k = 0 := by
        by_contra hk0
        rw [hone, Nat.div_eq_of_lt (Nat.one_lt_pow hk0 (by decide))] at hne
        exact hne rfl
      omega
    · have hjv : j < vals.length := by
        rw [List.length_zip] at hj
        omega
      have hval : vals[j] = 0 := by simp [vals, hij]
      rw [hval, Nat.zero_div] at hne
      exact absurd rfl hne

end Mem

end Bytes
