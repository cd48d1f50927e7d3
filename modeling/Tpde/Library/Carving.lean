import Mathlib.Tactic

/-!
# Blocks cut off a growing area

An allocator that only ever cuts new blocks off the end of an area, and hands
the blocks out and takes them back whole. The blocks that have been cut are a
list, the last one first; what is handed out and what waits to be handed out
again hold each of them once (`Held`), so that blocks that are held at
different places do not overlap.
-/

namespace Carving

variable {α : Type*} (off len : α → ℤ)

/-- Blocks cut off an area from `lo` to `hi`: each starts behind all blocks before it. -/
inductive Carved (lo : ℤ) : ℤ → List α → Prop where
  | nil {hi : ℤ} (h : lo ≤ hi) : Carved lo hi []
  | cut {hi hi' : ℤ} {bs : List α} {b : α} (h : Carved lo hi bs) (hb : hi ≤ off b) (hlen : 0 < len b)
      (he : off b + len b ≤ hi') : Carved lo hi' (b :: bs)

variable {off len} {lo hi : ℤ} {bs : List α}

theorem Carved.grow {hi' : ℤ} (h : Carved off len lo hi bs) (hle : hi ≤ hi') : Carved off len lo hi' bs := by
  cases h with
  | nil h => exact .nil (h.trans hle)
  | cut h hb hlen he => exact .cut h hb hlen (he.trans hle)

/-- The blocks lie in the area. -/
theorem Carved.bounds (h : Carved off len lo hi bs) :
    lo ≤ hi ∧ ∀ b ∈ bs, lo ≤ off b ∧ off b + len b ≤ hi ∧ 0 < len b := by
  induction h with
  | nil h => exact ⟨h, nofun⟩
  | cut _ hb hlen he ih =>
    refine ⟨by omega, fun c hc => ?_⟩
    rcases List.mem_cons.mp hc with rfl | hc
    · exact ⟨ih.1.trans hb, he, hlen⟩
    · have := ih.2 c hc
      omega

/-- Two different blocks do not overlap. -/
theorem Carved.disjoint (h : Carved off len lo hi bs) :
    bs.Nodup ∧ ∀ a ∈ bs, ∀ b ∈ bs, a ≠ b → off a + len a ≤ off b ∨ off b + len b ≤ off a := by
  induction h with
  | nil => exact ⟨List.nodup_nil, nofun⟩
  | @cut _ _ bs b h hb hlen _ ih =>
    have hbefore : ∀ c ∈ bs, off c + len c ≤ off b := fun c hc => (h.bounds.2 c hc).2.1.trans hb
    refine ⟨List.nodup_cons.mpr ⟨fun hbs => ?_, ih.1⟩, fun c hc d hd hcd => ?_⟩
    · have := hbefore b hbs
      omega
    · rcases List.mem_cons.mp hc with rfl | hc'
      · rcases List.mem_cons.mp hd with rfl | hd'
        · exact absurd rfl hcd
        · exact .inr (hbefore d hd')
      · rcases List.mem_cons.mp hd with rfl | hd'
        · exact .inl (hbefore c hc')
        · exact ih.2 c hc' d hd' hcd

variable [BEq α]

/-- The blocks that are held, with how often, are among those that have been cut, once each. -/
def Held (bs : List α) (held : α → ℕ) : Prop := ∀ b, held b ≤ bs.count b

variable [LawfulBEq α]

theorem Held.mem {held : α → ℕ} {b : α} (h : Held bs held) (hb : 0 < held b) : b ∈ bs :=
  List.count_pos_iff.mp (hb.trans_le (h b))

/-- A new block that is held at one more place. -/
theorem Held.cut {held held' : α → ℕ} {b : α} (h : Held bs held) (hb : held' b ≤ held b + 1)
    (hne : ∀ c, c ≠ b → held' c ≤ held c) : Held (b :: bs) held' := by
  intro c
  by_cases hc : c = b
  · subst hc
    rw [List.count_cons_self]
    exact hb.trans (Nat.succ_le_succ (h c))
  · rw [List.count_cons_of_ne (Ne.symm hc)]
    exact (hne c hc).trans (h c)

/-- What is held in one list is held apart. -/
theorem Held.pairwise {held : α → ℕ} {l : List α} (h : Held bs held) (hc : Carved off len lo hi bs)
    (hl : ∀ b, l.count b ≤ held b) : l.Pairwise fun a b => off a + len a ≤ off b ∨ off b + len b ≤ off a := by
  have hmem : ∀ b ∈ l, b ∈ bs := fun b hb => h.mem ((List.count_pos_iff.mpr hb).trans_le (hl b))
  have hnd : l.Nodup := List.nodup_iff_count_le_one.mpr fun b =>
    ((hl b).trans (h b)).trans (List.nodup_iff_count_le_one.mp hc.disjoint.1 b)
  refine List.Pairwise.imp_of_mem (fun {a b} ha hb hab => ?_) hnd
  exact hc.disjoint.2 a (hmem a ha) b (hmem b hb) hab

end Carving
