import Mathlib.Dynamics.PeriodicPts.Lemmas
import Mathlib.Logic.Relation

/-!
# Graphs with at most one edge out of a vertex

Where every vertex of a finite set has an edge into it from the set, counting says that each
has exactly one, and exactly one out of it (`exists_next`, `eq_of_next_eq`): the set is a
union of cycles (`onCycle`), and closed (`mem_of_reaches`).
-/

namespace FunctionalGraph

open Relation Function

variable {V : Type*} (next : V → Option V)

/-- There is an edge from `a` to `b`. -/
def Edge (a b : V) : Prop := next a = some b

/-- There is a path from `a` to `b`, of one edge at least. -/
def Reaches (a b : V) : Prop := TransGen (Edge next) a b

/-- The vertex is on a cycle. -/
def OnCycle (c : V) : Prop := Reaches next c c

variable {next}

/-- What a vertex on a cycle reaches has an edge into it from there. -/
theorem OnCycle.exists_source {c d : V} (hc : OnCycle next c) (hd : Reaches next c d) :
    ∃ e, Reaches next c e ∧ next e = some d := by
  cases hd with
  | single h => exact ⟨c, hc, h⟩
  | tail hr h => exact ⟨_, hr, h⟩

/-- What a vertex on a cycle reaches reaches it in turn: there is one way out of a vertex. -/
theorem OnCycle.reaches_back {c d : V} (hc : OnCycle next c) (hd : Reaches next c d) : Reaches next d c := by
  have step {m d : V} (hm : Reaches next m c) (h : next m = some d) : Reaches next d c := by
    obtain ⟨b, hb, hbc⟩ := TransGen.head'_iff.mp hm
    obtain rfl : b = d := Option.some.inj (hb.symm.trans h)
    rcases reflTransGen_iff_eq_or_transGen.mp hbc with rfl | hbc
    · exact hc
    · exact hbc
  induction hd with
  | single h => exact step hc h
  | tail _ h ih => exact step ih h

/-- What a vertex on a cycle reaches has an edge out of it to there. -/
theorem OnCycle.exists_next {c d : V} (hc : OnCycle next c) (hd : Reaches next c d) :
    ∃ e, Reaches next c e ∧ next d = some e := by
  obtain ⟨e, he, -⟩ := TransGen.head'_iff.mp (hc.reaches_back hd)
  exact ⟨e, hd.tail he, he⟩

/-- Every vertex of the set has an edge into it from the set. -/
def NoLeaf (next : V → Option V) (S : Finset V) : Prop := ∀ b ∈ S, ∃ a ∈ S, next a = some b

namespace NoLeaf

variable {S : Finset V} (h : NoLeaf next S)
include h

/-- Choosing an edge into each vertex gives each vertex as a source, once. -/
theorem exists_source : ∃ g : S → S, Bijective g ∧ ∀ b : S, next (g b) = some b.1 := by
  choose g hg hn using h
  let g' : S → S := fun b => ⟨g b.1 b.2, hg b.1 b.2⟩
  have hinj : Injective g' := by
    intro b b' heq
    have := congrArg (fun a : S => next a.1) heq
    simp only [g', hn] at this
    exact Subtype.ext (Option.some.inj this)
  exact ⟨g', ⟨hinj, Finite.surjective_of_injective hinj⟩, fun b => hn b.1 b.2⟩

theorem exists_next {a : V} (ha : a ∈ S) : ∃ b ∈ S, next a = some b := by
  obtain ⟨g, hg, hn⟩ := h.exists_source
  obtain ⟨b, hb⟩ := hg.2 ⟨a, ha⟩
  exact ⟨b.1, b.2, by rw [← hn b, hb]⟩

theorem eq_of_next_eq {a a' : V} (ha : a ∈ S) (ha' : a' ∈ S) (heq : next a = next a') : a = a' := by
  obtain ⟨g, hg, hn⟩ := h.exists_source
  obtain ⟨b, hb⟩ := hg.2 ⟨a, ha⟩
  obtain ⟨b', hb'⟩ := hg.2 ⟨a', ha'⟩
  have hbb : some b.1 = some b'.1 := by rw [← hn b, ← hn b', hb, hb', heq]
  have : b = b' := Subtype.ext (Option.some.inj hbb)
  rw [this, hb'] at hb
  exact (Subtype.mk.inj hb).symm

/-- The set is closed. -/
theorem mem_of_reaches {a b : V} (ha : a ∈ S) (hab : Reaches next a b) : b ∈ S := by
  induction hab with
  | single hs =>
    obtain ⟨b, hb, hn⟩ := h.exists_next ha
    rwa [← Option.some.inj (hn.symm.trans hs)]
  | tail _ hs ih =>
    obtain ⟨b, hb, hn⟩ := h.exists_next ih
    rwa [← Option.some.inj (hn.symm.trans hs)]

/-- Every vertex is on a cycle. -/
theorem onCycle {c : V} (hc : c ∈ S) : OnCycle next c := by
  obtain ⟨g, hg, hn⟩ := h.exists_source
  obtain ⟨n, hpos, hper⟩ := hg.1.mem_periodicPts ⟨c, hc⟩
  have hpath : ∀ k (x : S), Reaches next (g^[k + 1] x).1 x.1 := by
    intro k
    induction k with
    | zero => exact fun x => .single (hn x)
    | succ k ih =>
      intro x
      rw [iterate_succ_apply']
      exact .head (hn _) (ih x)
  obtain ⟨k, rfl⟩ : ∃ k, n = k + 1 := ⟨n - 1, by omega⟩
  have := hpath k ⟨c, hc⟩
  rwa [hper.eq] at this

end NoLeaf

end FunctionalGraph
