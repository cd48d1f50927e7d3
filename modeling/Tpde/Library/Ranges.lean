import Mathlib.Tactic

/-!
# Ranges one behind the other

Ranges of numbers, as start and length, each behind the ones before it
(`Ordered`), and the counter that makes such ranges: round up to the alignment
that is asked for, then count the length on. The counter may be a machine word
that wraps at `M`. Then the ranges are apart and below the counter exactly if it
does not wrap (`bump_apart_iff`).
-/

namespace Ranges

/-- Two ranges that do not overlap. -/
def Apart (r r' : ℕ × ℕ) : Prop := r.1 + r.2 ≤ r'.1 ∨ r'.1 + r'.2 ≤ r.1

/-- The ranges lie one behind the other, from `lo` to `hi`. -/
def Ordered (lo hi : ℕ) : List (ℕ × ℕ) → Prop
  | [] => lo ≤ hi
  | r :: rs => lo ≤ r.1 ∧ Ordered (r.1 + r.2) hi rs

namespace Ordered

variable {lo hi : ℕ} {rs : List (ℕ × ℕ)}

theorem le : ∀ {lo : ℕ} {rs : List (ℕ × ℕ)}, Ordered lo hi rs → lo ≤ hi
  | _, [], h => h
  | _, _ :: _, h => by
    have := h.2.le
    have := h.1
    omega

theorem bounds : ∀ {lo : ℕ} {rs : List (ℕ × ℕ)}, Ordered lo hi rs → ∀ r ∈ rs, lo ≤ r.1 ∧ r.1 + r.2 ≤ hi
  | _, [], _ => nofun
  | _, r :: rs, h => by
    intro q hq
    cases hq with
    | head => exact ⟨h.1, h.2.le⟩
    | tail _ hq =>
      obtain ⟨h₁, h₂⟩ := h.2.bounds q hq
      have := h.1
      exact ⟨by omega, h₂⟩

theorem pairwise : ∀ {lo : ℕ} {rs : List (ℕ × ℕ)}, Ordered lo hi rs → rs.Pairwise Apart
  | _, [], _ => .nil
  | _, _ :: _, h => .cons (fun q hq => .inl (h.2.bounds q hq).1) h.2.pairwise

theorem append {mid : ℕ} {rs' : List (ℕ × ℕ)} (h' : Ordered mid hi rs') :
    ∀ {lo : ℕ} {rs : List (ℕ × ℕ)}, Ordered lo mid rs → Ordered lo hi (rs ++ rs')
  | lo, [], h => by
    cases rs' with
    | nil => exact le_trans (show lo ≤ mid from h) h'
    | cons r rs' => exact ⟨le_trans (show lo ≤ mid from h) h'.1, h'.2⟩
  | _, _ :: _, h => ⟨h.1, append h' h.2⟩

theorem mono {lo' hi' : ℕ} (hlo : lo' ≤ lo) (hhi : hi ≤ hi') (h : Ordered lo hi rs) : Ordered lo' hi' rs := by
  induction rs generalizing lo lo' with
  | nil => exact hlo.trans (le_trans h hhi)
  | cons r rs ih => exact ⟨hlo.trans h.1, ih le_rfl h.2⟩

end Ordered

/-! ### Rounding up -/

/-- `n` rounded up to a multiple of `a`. -/
def alignUp (n a : ℕ) : ℕ := (n + (a - 1)) / a * a

theorem dvd_alignUp (n a : ℕ) : a ∣ alignUp n a := Dvd.intro_left _ rfl

theorem le_alignUp (n : ℕ) {a : ℕ} (ha : 0 < a) : n ≤ alignUp n a := by
  have h₁ := Nat.div_add_mod (n + (a - 1)) a
  have h₂ := Nat.mod_lt (n + (a - 1)) ha
  rw [mul_comm] at h₁
  show n ≤ (n + (a - 1)) / a * a
  omega

theorem alignUp_le_of_dvd {n a b : ℕ} (ha : 0 < a) (hn : n ≤ b) (hb : a ∣ b) : alignUp n a ≤ b := by
  obtain ⟨c, rfl⟩ := hb
  have h : (n + (a - 1)) / a ≤ c := by
    have : (n + (a - 1)) / a < c + 1 := by
      rw [Nat.div_lt_iff_lt_mul ha, add_mul, one_mul, mul_comm c]
      omega
    omega
  calc alignUp n a ≤ c * a := Nat.mul_le_mul_right a h
    _ = a * c := mul_comm c a

theorem alignUp_le_add (n a : ℕ) : alignUp n a ≤ n + (a - 1) := Nat.div_mul_le_self _ _

/-- Rounding up to coarser alignments never gives less. -/
theorem alignUp_mono {n n' a a' : ℕ} (ha : 0 < a) (ha' : 0 < a') (hn : n ≤ n') (hdvd : a ∣ a') :
    alignUp n a ≤ alignUp n' a' :=
  alignUp_le_of_dvd ha (hn.trans (le_alignUp n' ha')) (hdvd.trans (dvd_alignUp n' a'))

@[simp] theorem alignUp_zero (a : ℕ) : alignUp 0 a = 0 := by
  cases a with
  | zero => rfl
  | succ a => simp [alignUp]

/-! ### A counter that hands out ranges -/

section
variable (M : ℕ)

/-- Requests (alignment, length) served from a counter modulo `M`: the ranges, and the counter at the end. -/
def bump : ℕ → List (ℕ × ℕ) → List (ℕ × ℕ) × ℕ
  | s, [] => ([], s)
  | s, (a, w) :: rs =>
    let o := alignUp s a % M
    let out := bump ((o + w) % M) rs
    ((o, w) :: out.1, out.2)

/-- The counter stays below `M`. -/
def NoWrap : ℕ → List (ℕ × ℕ) → Prop
  | _, [] => True
  | s, (a, w) :: rs => alignUp s a + w < M ∧ NoWrap (alignUp s a + w) rs

end

instance decidableNoWrap (M : ℕ) : ∀ (s : ℕ) (rs : List (ℕ × ℕ)), Decidable (NoWrap M s rs)
  | _, [] => .isTrue trivial
  | s, (a, w) :: rs =>
    have := decidableNoWrap M (alignUp s a + w) rs
    inferInstanceAs (Decidable (alignUp s a + w < M ∧ NoWrap M (alignUp s a + w) rs))

variable {M s : ℕ} {rs : List (ℕ × ℕ)}

/-- **Without wrapping**, the ranges lie one behind the other up to the counter. -/
theorem bump_ordered : ∀ {s : ℕ} {rs : List (ℕ × ℕ)}, (∀ r ∈ rs, 0 < r.1) → NoWrap M s rs →
    Ordered s (bump M s rs).2 (bump M s rs).1
  | _, [], _, _ => le_rfl
  | s, (a, w) :: rs, hpos, h => by
    obtain ⟨hlt, hrest⟩ := h
    have ho : alignUp s a % M = alignUp s a := Nat.mod_eq_of_lt (by omega)
    have he : (alignUp s a + w) % M = alignUp s a + w := Nat.mod_eq_of_lt hlt
    simp only [bump, ho, he]
    refine ⟨le_alignUp s (hpos _ List.mem_cons_self), ?_⟩
    exact bump_ordered (fun r hr => hpos r (List.mem_cons_of_mem _ hr)) hrest

/-- Every range starts at a multiple of its alignment, when the alignments divide `M`. -/
theorem bump_aligned : ∀ {s : ℕ} {rs : List (ℕ × ℕ)}, (∀ r ∈ rs, r.1 ∣ M) →
    List.Forall₂ (fun r q => r.1 ∣ q.1 ∧ q.2 = r.2) rs (bump M s rs).1
  | _, [], _ => .nil
  | s, (a, w) :: rs, h => by
    have ha : a ∣ M := h _ List.mem_cons_self
    exact .cons ⟨(Nat.dvd_mod_iff ha).mpr (dvd_alignUp s a), rfl⟩
      (bump_aligned fun r hr => h r (List.mem_cons_of_mem _ hr))

/-- From an empty counter to one that is not: some range starts at 0. -/
theorem bump_zero (hpos : ∀ r ∈ rs, 0 < r.1) (h : 0 < (bump M 0 rs).2) :
    ∃ r ∈ (bump M 0 rs).1, r.1 = 0 ∧ 0 < r.2 := by
  induction rs with
  | nil => exact absurd h (lt_irrefl 0)
  | cons r rs ih =>
    obtain ⟨a, w⟩ := r
    cases w with
    | zero =>
      have h0 : (0 + 0) % M = 0 := Nat.zero_mod M
      simp only [bump, alignUp_zero, Nat.zero_mod, add_zero] at h ⊢
      obtain ⟨r, hr, hr0⟩ := ih (fun r hr => hpos r (List.mem_cons_of_mem _ hr)) h
      exact ⟨r, List.mem_cons_of_mem _ hr, hr0⟩
    | succ w => exact ⟨(0, w + 1), by simp [bump], rfl, Nat.succ_pos w⟩

/-- Ranges below the counter, none of them over 0 once the counter has left it, and apart: it has
not wrapped. -/
theorem noWrap_of_apart (hM : 0 < M) : ∀ {s : ℕ} {rs : List (ℕ × ℕ)}, s < M →
    (∀ r ∈ rs, 0 < r.1 ∧ r.1 ∣ M) → (∀ r ∈ (bump M s rs).1, r.1 + r.2 ≤ (bump M s rs).2) →
    (0 < s → 0 < (bump M s rs).2 ∧ ∀ r ∈ (bump M s rs).1, 0 < r.2 → 0 < r.1) →
    (bump M s rs).1.Pairwise Apart → NoWrap M s rs
  | _, [], _, _, _, _, _ => trivial
  | s, (a, w) :: rs, hs, ha, hcov, hzero, hap => by
    have hend : ∀ {t : ℕ} {q : List (ℕ × ℕ)}, t < M → (bump M t q).2 < M := by
      intro t q
      induction q generalizing t with
      | nil => exact id
      | cons r q ih => exact fun _ => ih (Nat.mod_lt _ hM)
    obtain ⟨hapos, hadvd⟩ := ha _ List.mem_cons_self
    have ha' : ∀ r ∈ rs, 0 < r.1 ∧ r.1 ∣ M := fun r hr => ha r (List.mem_cons_of_mem _ hr)
    -- the start has not wrapped, or the range, or one behind it, would start at 0
    have hle : alignUp s a ≤ M := alignUp_le_of_dvd hapos hs.le hadvd
    have hlt : alignUp s a < M := by
      by_contra hge
      have hM' : alignUp s a = M := by omega
      have hs0 : 0 < s := by
        by_contra h0
        rw [show s = 0 by omega, alignUp_zero] at hM'
        omega
      obtain ⟨hpos, hz⟩ := hzero hs0
      have ho : alignUp s a % M = 0 := by rw [hM', Nat.mod_self]
      have heq : bump M s ((a, w) :: rs) = bump M 0 ((a, w) :: rs) := by
        simp only [bump, ho, alignUp_zero, Nat.zero_mod]
      rw [heq] at hpos hz
      obtain ⟨r, hr, hr0, hrw⟩ := bump_zero (fun r hr => (ha r hr).1) hpos
      have := hz r hr hrw
      omega
    have ho : alignUp s a % M = alignUp s a := Nat.mod_eq_of_lt hlt
    simp only [bump, ho] at hcov hzero hap
    have hw : alignUp s a + w < M := by
      have := hcov _ List.mem_cons_self
      have hout := hend (q := rs) (Nat.mod_lt (alignUp s a + w) hM)
      exact lt_of_le_of_lt this hout
    have he : (alignUp s a + w) % M = alignUp s a + w := Nat.mod_eq_of_lt hw
    rw [he] at hcov hzero hap
    refine ⟨hw, noWrap_of_apart hM hw ha' (fun r hr => hcov r (List.mem_cons_of_mem _ hr)) ?_
      (List.pairwise_cons.mp hap).2⟩
    intro hpos
    have hhead := hcov _ List.mem_cons_self
    refine ⟨by simp only at hhead; omega, fun r hr hrw => ?_⟩
    by_cases hs0 : 0 < s
    · exact (hzero hs0).2 r (List.mem_cons_of_mem _ hr) hrw
    · have h := (List.pairwise_cons.mp hap).1 r hr
      rw [show s = 0 by omega, alignUp_zero] at h hpos
      rcases h with h | h <;> simp only at h hpos <;> omega

/-- **The ranges are apart and below the counter** exactly if the counter does not wrap. -/
theorem bump_apart_iff (hM : 0 < M) (ha : ∀ r ∈ rs, 0 < r.1 ∧ r.1 ∣ M) :
    ((bump M 0 rs).1.Pairwise Apart ∧ ∀ r ∈ (bump M 0 rs).1, r.1 + r.2 ≤ (bump M 0 rs).2) ↔
      NoWrap M 0 rs := by
  constructor
  · rintro ⟨hap, hcov⟩
    exact noWrap_of_apart hM hM ha hcov (fun h => absurd h (lt_irrefl 0)) hap
  · intro h
    have ho := bump_ordered (fun r hr => (ha r hr).1) h
    exact ⟨ho.pairwise, fun r hr => (ho.bounds r hr).2⟩

end Ranges
