import Tpde.Library.LoopNest

/-!
# Tagging loops during a depth-first search

What a depth-first search keeps while it builds the headers of a loop nest
(`PathInv`, `HeaderInv`). `path` is the path of the search, from its last vertex;
`done x y` says that the search is done with the edge from `x` to `y`, `ret x`
that the header of the finished vertex `x` has been handed to its parent. The
search enters a vertex (`enter`), leaves the last one (`leave`), and is done with
an edge, with the header that comes along it (`tag`) or without one (`skip`).
When everything has been left, the headers are a `LoopNest`.
-/

namespace FlowGraph

open PointerForest

variable {V : Type*} {E : V → V → Prop} {root nil : V} {T : Set V} {anc : V → List V} {f f' : V → V}
  {path : List V} {pre : V → ℕ} {done done' : V → V → Prop} {ret ret' : V → Prop}

/-- The tree and the path of the search, and the order `pre` in which vertices are entered. -/
structure PathInv (E : V → V → Prop) (root : V) (T : Set V) (anc : V → List V) (pre : V → ℕ) (path : List V)
    (done : V → V → Prop) : Prop where
  tree : DfsTree E root T anc
  root_mem : root ∈ T
  path_anc : ∀ b rest, path = b :: rest → b ∈ T ∧ anc b = path
  bound : ∃ n, ∀ x ∈ T, pre x < n
  between : ∀ x ∈ T, ∀ a ∈ anc x, ∀ z ∈ T, pre a ≤ pre z → pre z ≤ pre x → a ∈ anc z
  /-- What is entered after a vertex of the path is below it. -/
  newer : ∀ x ∈ path, ∀ y ∈ T, pre x ≤ pre y → x ∈ anc y
  edge : ∀ x y, done x y → x ∈ T ∧ y ∈ T ∧ (pre y ≤ pre x ∨ x ∈ anc y)

/-- The part of the tree between `h` and what is known to be in its loop. -/
def Arm (nil : V) (f : V → V) (T : Set V) (anc : V → List V) (h : V) : Set V :=
  {z | z ∈ T ∧ h ∈ anc z ∧ ∃ q ∈ T, z ∈ anc q ∧ Chain nil f q h}

/-- The headers found so far. -/
structure HeaderInv (E : V → V → Prop) (root nil : V) (T : Set V) (anc : V → List V) (path : List V)
    (f : V → V)
    (done : V → V → Prop) (ret : V → Prop) : Prop where
  eq_nil : ∀ x, x ∉ T → f x = nil
  header : ∀ x ∈ T, f x ≠ nil → f x ∈ anc x ∧ f x ≠ x
  sound : ∀ x ∈ T, ∀ h, Chain nil f x h → ReachIn E (Arm nil f T anc h) x h
  /-- The parent of a finished vertex has its header too. -/
  parent : ∀ x ∈ T, x ∉ path → x ≠ root → ret x →
    f x = nil ∨ ∃ p ∈ T, anc x = x :: anc p ∧ Chain nil f p (f x)
  /-- The headers on the path have been passed back along the edges that are done. -/
  passed : ∀ x y, done x y → y ∈ T ∧ ∀ g ∈ path, Chain nil f y g → Chain nil f x g
  complete : ∀ h ∈ T, h ∉ path → ∀ x ∈ T, h ∈ anc x → ReachIn E {z | z ∈ T ∧ h ∈ anc z} x h → Chain nil f x h

/-! ### The path -/

namespace PathInv

theorem mem (h : PathInv E root T anc pre path done) {x : V} (hx : x ∈ path) : x ∈ T := by
  cases path with
  | nil => exact absurd hx List.not_mem_nil
  | cons b rest =>
    obtain ⟨hb, ha⟩ := h.path_anc b rest rfl
    exact h.tree.anc_mem hb (ha ▸ hx)

/-- A vertex of the path has the rest of the path above it. -/
theorem anc_subset (h : PathInv E root T anc pre path done) {x y : V} (hx : x ∈ path) (hy : y ∈ anc x) :
    y ∈ path := by
  cases path with
  | nil => exact absurd hx List.not_mem_nil
  | cons b rest =>
    obtain ⟨hb, ha⟩ := h.path_anc b rest rfl
    rw [← ha] at hx ⊢
    exact h.tree.trans hb hx hy

/-- Positions on the path tell its vertices apart. -/
theorem length_inj (h : PathInv E root T anc pre path done) {x y : V} (hx : x ∈ path) (hy : y ∈ path)
    (hlen : (anc x).length = (anc y).length) : x = y := by
  cases path with
  | nil => exact absurd hx List.not_mem_nil
  | cons b rest =>
    obtain ⟨hb, ha⟩ := h.path_anc b rest rfl
    rw [← ha] at hx hy
    have hxy := h.tree.anc_of_length_le hb hx hy hlen.le
    have hyx := h.tree.anc_of_length_le hb hy hx hlen.ge
    exact h.tree.antisymm (h.tree.anc_mem hb hy) hxy hyx

theorem mono (h : PathInv E root T anc pre path done) (hdone : ∀ x z, done' x z → done x z) :
    PathInv E root T anc pre path done' :=
  { h with edge := fun x z hxz => h.edge x z (hdone x z hxz) }

/-- The search is done with an edge to a vertex it has entered. -/
theorem advance {b : V} {rest : List V} (h : PathInv E root T anc pre (b :: rest) done) {y : V} (hy : y ∈ T)
    (hdone : ∀ x z, done' x z → done x z ∨ (x = b ∧ z = y)) : PathInv E root T anc pre (b :: rest) done' := by
  refine { h with edge := fun x z hxz => ?_ }
  rcases hdone x z hxz with hxz | ⟨rfl, rfl⟩
  · exact h.edge x z hxz
  · refine ⟨h.mem List.mem_cons_self, hy, ?_⟩
    rcases le_total (pre z) (pre x) with hle | hle
    · exact .inl hle
    · exact .inr (h.newer x List.mem_cons_self z hy hle)

/-- The search enters a vertex. -/
theorem enter [DecidableEq V] {b : V} {rest : List V} (h : PathInv E root T anc pre (b :: rest) done) {v : V}
    (hv : v ∉ T) (he : E b v) (hdone : ∀ x z, done' x z → done x z) :
    ∃ pre',
      PathInv E root (Set.insert v T) (Function.update anc v (v :: anc b)) pre' (v :: b :: rest) done' := by
  obtain ⟨n, hn⟩ := h.bound
  obtain ⟨hb, hab⟩ := h.path_anc b rest rfl
  have hvr : v ≠ root := fun hvr => hv (hvr ▸ h.root_mem)
  have hne : ∀ x ∈ T, x ≠ v := fun x hx hxv => hv (hxv ▸ hx)
  refine ⟨Function.update pre v n, ?_⟩
  constructor
  · exact h.tree.insert hv hb he hvr
  · exact .inr h.root_mem
  · intro c rest' heq
    obtain ⟨rfl, rfl⟩ := List.cons_eq_cons.mp heq
    exact ⟨.inl rfl, by rw [Function.update_self, hab]⟩
  · refine ⟨n + 1, fun x hx => ?_⟩
    rcases hx with rfl | hx
    · simp
    · rw [Function.update_of_ne (hne x hx)]
      exact (hn x hx).trans (Nat.lt_succ_self n)
  · intro x hx a ha z hz hle hle'
    rcases hx with rfl | hx
    · rw [Function.update_self] at ha
      rcases hz with rfl | hz
      · rwa [Function.update_self]
      · rw [Function.update_of_ne (hne z hz)] at hle ⊢
        rcases List.mem_cons.mp ha with rfl | ha
        · rw [Function.update_self] at hle
          exact absurd (hn z hz) (by omega)
        · rw [Function.update_of_ne (hne a (h.tree.anc_mem hb ha))] at hle
          exact h.newer a (hab ▸ ha) z hz hle
    · rw [Function.update_of_ne (hne x hx)] at ha hle'
      have haT := h.tree.anc_mem hx ha
      rw [Function.update_of_ne (hne a haT)] at hle
      rcases hz with rfl | hz
      · rw [Function.update_self] at hle'
        exact absurd (hn x hx) (by omega)
      · rw [Function.update_of_ne (hne z hz)] at hle hle' ⊢
        exact h.between x hx a ha z hz hle hle'
  · intro x hx y hy hle
    rcases hy with rfl | hy
    · rw [Function.update_self, hab]
      exact hx
    · rw [Function.update_of_ne (hne y hy)] at hle ⊢
      rcases List.mem_cons.mp hx with rfl | hx
      · rw [Function.update_self] at hle
        exact absurd (hn y hy) (by omega)
      · rw [Function.update_of_ne (hne x (h.mem hx))] at hle
        exact h.newer x hx y hy hle
  · intro x z hxz
    obtain ⟨hx, hz, hle⟩ := h.edge x z (hdone x z hxz)
    rw [Function.update_of_ne (hne x hx), Function.update_of_ne (hne z hz), Function.update_of_ne (hne z hz)]
    exact ⟨.inr hx, .inr hz, hle⟩

/-- The search leaves the last vertex of the path. -/
theorem leave {b : V} {rest : List V} (h : PathInv E root T anc pre (b :: rest) done)
    (hdone : ∀ x z, done' x z → done x z) : PathInv E root T anc pre rest done' := by
  refine { h with
    path_anc := fun c rest' heq => ?_
    newer := fun x hx => h.newer x (List.mem_cons_of_mem _ hx)
    edge := fun x z hxz => h.edge x z (hdone x z hxz) }
  obtain ⟨hb, hab⟩ := h.path_anc b rest rfl
  rcases h.tree.cases hb with ⟨-, ha⟩ | ⟨p, hp, -, ha, -⟩
  · rw [hab, heq] at ha
    simp at ha
  · rw [hab, List.cons_eq_cons] at ha
    have hpc : p = c := by
      rcases h.tree.cases hp with ⟨-, hap⟩ | ⟨q, -, -, hap, -⟩ <;>
      · rw [← ha.2, heq, List.cons_eq_cons] at hap
        exact hap.1.symm
    exact ⟨hpc ▸ hp, hpc ▸ ha.2.symm⟩

end PathInv

/-! ### The headers -/

namespace HeaderInv

theorem mono (hh : HeaderInv E root nil T anc path f done ret) (hdone : ∀ x z, done' x z → done x z)
    (hret : ∀ x, ret' x → ret x) : HeaderInv E root nil T anc path f done' ret' :=
  { hh with
    parent := fun x hx hxp hxr hr => hh.parent x hx hxp hxr (hret x hr)
    passed := fun x z hxz => hh.passed x z (hdone x z hxz) }

/-- The search is done with an edge along which no header on the path comes back. -/
theorem skip {b y : V} (hh : HeaderInv E root nil T anc path f done ret) (hy : y ∈ T)
    (hpass : ∀ g ∈ path, Chain nil f y g → Chain nil f b g)
    (hdone : ∀ x z, done' x z → done x z ∨ (x = b ∧ z = y))
    (hret : ∀ x, ret' x → ret x ∨ (x = y ∧ f y = nil)) : HeaderInv E root nil T anc path f done' ret' := by
  refine { hh with
    parent := fun x hx hxp hxr hr => ?_
    passed := fun x z hxz => ?_ }
  · rcases hret x hr with hr | ⟨rfl, hnil⟩
    · exact hh.parent x hx hxp hxr hr
    · exact .inl hnil
  · rcases hdone x z hxz with hxz | ⟨rfl, rfl⟩
    · exact hh.passed x z hxz
    · exact ⟨hy, hpass⟩

/-- The search is done with an edge from the last vertex `b` of the path to `y`, and `h` is the first
header of `y` that is on the path: the headers of `h` are merged into those of `b`. -/
theorem tag {b y h : V} {rest : List V} {rank : V → ℕ} (hp : PathInv E root T anc pre (b :: rest) done)
    (hh : HeaderInv E root nil T anc (b :: rest) f done ret) (he : E b y) (hy : y ∈ T) (hyh : Chain nil f y h)
    (hmem : h ∈ b :: rest) (hfirst : ∀ g ∈ b :: rest, Chain nil f y g → Chain nil f h g)
    (hm : Merged nil rank f b h f') (hrank : ∀ x ∈ b :: rest, rank x = (anc x).length)
    (hdone : ∀ x z, done' x z → done x z ∨ (x = b ∧ z = y))
    (hret : ∀ x, ret' x → ret x ∨ (x = y ∧ f y = h ∧ anc y = y :: anc b)) :
    HeaderInv E root nil T anc (b :: rest) f' done' ret' := by
  obtain ⟨hb, hab⟩ := hp.path_anc b rest rfl
  have hhT : h ∈ T := hp.mem hmem
  have hbm : b ∈ b :: rest := List.mem_cons_self
  have honPath : ∀ c, Chain nil f b c ∨ Chain nil f h c → c ∈ b :: rest := by
    rintro c (hc | hc)
    · exact hp.anc_subset hbm (hp.tree.anc_of_chain hh.header hb hc).1
    · exact hp.anc_subset hmem (hp.tree.anc_of_chain hh.header hhT hc).1
  have hoff : ∀ x, x ∉ b :: rest → f' x = f x := fun x hx => hm.eq_of_off fun hc => hx (honPath x hc)
  have hheader : ∀ x ∈ T, f' x ≠ nil → f' x ∈ anc x ∧ f' x ≠ x := by
    intro x hx hne
    by_cases hxe : f' x = f x
    · rw [hxe] at hne ⊢
      exact hh.header x hx hne
    · obtain ⟨hc, -, hc', hlt⟩ := hm.changed x hxe
      have hxP := honPath x hc
      have hfP := honPath _ hc'
      rw [hrank _ hxP, hrank _ hfP] at hlt
      refine ⟨hp.tree.anc_of_length_le hb (hab ▸ hfP) (hab ▸ hxP) hlt.le, fun heq => ?_⟩
      rw [heq] at hlt
      exact lt_irrefl _ hlt
  have hlink : ∀ g, Chain nil f b g ∨ Chain nil f h g → Chain nil f' b g := by
    rintro g (hg | hg)
    · exact hm.mono _ _ hg
    · exact hm.linked.trans (hm.mono _ _ hg)
  -- what was known to be in a loop is in the loops around it now
  have harm : ∀ c g, c ∈ T → Chain nil f' c g → Arm nil f T anc c ⊆ Arm nil f' T anc g := by
    rintro c g hc hcg z ⟨hz, hcz, q, hq, hzq, hqc⟩
    have hgc := (hp.tree.anc_of_chain hheader hc hcg).1
    exact ⟨hz, hp.tree.trans hz hcz hgc, q, hq, hzq, (hm.mono _ _ hqc).trans hcg⟩
  -- headers that are passed along an edge stay passed
  have hpass : ∀ x z, (∀ g ∈ b :: rest, Chain nil f z g → Chain nil f x g) →
      ∀ g ∈ b :: rest, Chain nil f' z g → Chain nil f' x g := by
    intro x z hxz g hg hzg
    rcases hm.chain_cases hzg with hzg | ⟨c, hzc, hc, -, hcg⟩
    · exact hm.mono _ _ (hxz g hg hzg)
    · exact (hm.mono _ _ (hxz c (honPath c hc) hzc)).trans hcg
  constructor
  · intro x hx
    rw [hoff x fun hxP => hx (hp.mem hxP)]
    exact hh.eq_nil x hx
  · exact hheader
  · intro x hx g hg
    rcases hm.chain_cases hg with hg | ⟨c, hxc, hc, hg', hcg⟩
    · have hgT := (hp.tree.anc_of_chain hh.header hx hg).2
      exact (hh.sound x hx g hg).mono (harm g g hgT (.refl _))
    · have hcP := honPath c hc
      have hgP := honPath g hg'
      have hgc := (hp.tree.anc_of_chain hheader (hp.mem hcP) hcg).1
      -- from `x` to `c` as before, down the tree to `b`, and on from there
      have h1 : ReachIn E (Arm nil f' T anc g) x c := (hh.sound x hx c hxc).mono (harm c g (hp.mem hcP) hcg)
      have h2 : ReachIn E (Arm nil f' T anc g) c b := by
        refine ReachIn.mono ?_ (hp.tree.reachIn hb (hab ▸ hcP))
        rintro z ⟨hcz, hzb⟩
        have hzT := hp.tree.anc_mem hb hzb
        exact ⟨hzT, hp.tree.trans hzT hcz hgc, b, hb, hzb, hlink g hg'⟩
      refine h1.trans (h2.trans ?_)
      rcases hg' with hbg | hhg
      · exact (hh.sound b hb g hbg).mono (harm g g (hp.mem hgP) (.refl _))
      · have hbArm : b ∈ Arm nil f' T anc g := ⟨hb, hab ▸ hgP, b, hb, hp.tree.self_mem hb, hlink g (.inr hhg)⟩
        have hsub := harm h g hhT (hm.mono _ _ hhg)
        have hyArm : y ∈ Arm nil f T anc h :=
          ⟨hy, (hp.tree.anc_of_chain hh.header hy hyh).1, y, hy, hp.tree.self_mem hy, hyh⟩
        have h3 : ReachIn E (Arm nil f' T anc g) b y := .single he hbArm (hsub hyArm)
        have h4 : ReachIn E (Arm nil f' T anc g) y h := (hh.sound y hy h hyh).mono hsub
        have h5 : ReachIn E (Arm nil f' T anc g) h g :=
          (hh.sound h hhT g hhg).mono (harm g g (hp.mem hgP) (.refl _))
        exact h3.trans (h4.trans h5)
  · intro x hx hxP hxr hr
    rw [hoff x hxP]
    rcases hret x hr with hr | ⟨rfl, hfy, hanc⟩
    · refine (hh.parent x hx hxP hxr hr).imp_right ?_
      rintro ⟨p, hpT, hanc, hc⟩
      exact ⟨p, hpT, hanc, hm.mono _ _ hc⟩
    · exact .inr ⟨b, hb, hanc, hfy ▸ hm.linked⟩
  · intro x z hxz
    rcases hdone x z hxz with hxz | ⟨rfl, rfl⟩
    · exact ⟨(hh.passed x z hxz).1, hpass x z (hh.passed x z hxz).2⟩
    · exact ⟨hy, fun g hg hzg => hm.linked.trans (hpass h z hfirst g hg hzg)⟩
  · exact fun g hg hgP x hx hgx hr => hm.mono _ _ (hh.complete g hg hgP x hx hgx hr)

/-- The search enters a vertex. -/
theorem enter [DecidableEq V] {b v : V} {rest : List V} (hp : PathInv E root T anc pre (b :: rest) done)
    (hh : HeaderInv E root nil T anc (b :: rest) f done ret) (hv : v ∉ T)
    (hdone : ∀ x z, done' x z → done x z) (hret : ∀ x, ret' x → ret x) :
    HeaderInv E root nil (Set.insert v T) (Function.update anc v (v :: anc b)) (v :: b :: rest) f done'
      ret' := by
  obtain ⟨hb, hab⟩ := hp.path_anc b rest rfl
  have hne : ∀ x ∈ T, x ≠ v := fun x hx hxv => hv (hxv ▸ hx)
  have hanc : ∀ x ∈ T, Function.update anc v (v :: anc b) x = anc x := fun x hx =>
    Function.update_of_ne (hne x hx) ..
  constructor
  · exact fun x hx => hh.eq_nil x fun hxT => hx (.inr hxT)
  · rintro x (rfl | hx) hfx
    · exact absurd (hh.eq_nil x hv) hfx
    · rw [hanc x hx]
      exact hh.header x hx hfx
  · rintro x (rfl | hx) g hg
    · rcases hg.cases with rfl | ⟨hfx, -⟩
      · exact .refl _ _
      · exact absurd (hh.eq_nil x hv) hfx
    · refine ReachIn.mono ?_ (hh.sound x hx g hg)
      rintro z ⟨hz, hgz, q, hq, hzq, hqg⟩
      exact ⟨.inr hz, by rwa [hanc z hz], q, .inr hq, by rwa [hanc q hq], hqg⟩
  · rintro x (rfl | hx) hxP hxr hr
    · exact absurd List.mem_cons_self hxP
    · refine (hh.parent x hx (fun hxb => hxP (List.mem_cons_of_mem _ hxb)) hxr (hret x hr)).imp_right ?_
      rintro ⟨p, hpT, hax, hc⟩
      exact ⟨p, .inr hpT, by rw [hanc x hx, hanc p hpT, hax], hc⟩
  · intro x z hxz
    obtain ⟨hz, hpass⟩ := hh.passed x z (hdone x z hxz)
    refine ⟨.inr hz, fun g hg hzg => ?_⟩
    rcases List.mem_cons.mp hg with rfl | hg
    · exact absurd (hp.tree.anc_of_chain hh.header hz hzg).2 hv
    · exact hpass g hg hzg
  · rintro g (rfl | hg) hgP x hx hgx hr
    · exact absurd List.mem_cons_self hgP
    · have hgb : g ∉ b :: rest := fun hgb => hgP (List.mem_cons_of_mem _ hgb)
      have hgv : g ∉ v :: anc b := by
        rw [hab]
        exact hgP
      have hxT : x ∈ T := by
        rcases hx with rfl | hx
        · rw [Function.update_self] at hgx
          exact absurd hgx hgv
        · exact hx
      rw [hanc x hxT] at hgx
      refine hh.complete g hg hgb x hxT hgx (ReachIn.mono ?_ hr)
      rintro z ⟨rfl | hz, hgz⟩
      · rw [Function.update_self] at hgz
        exact absurd hgz hgv
      · exact ⟨hz, by rwa [hanc z hz] at hgz⟩

/-- The search leaves the last vertex of the path, done with all edges of what is below it. -/
theorem leave {b : V} {rest : List V} (hp : PathInv E root T anc pre (b :: rest) done)
    (hh : HeaderInv E root nil T anc (b :: rest) f done ret)
    (hall : ∀ x ∈ T, x = b ∨ x ∉ b :: rest → ∀ z, E x z → done x z) (hdone : ∀ x z, done' x z → done x z)
    (hret : ∀ x, x ≠ root → ret' x → ret x ∧ x ≠ b) : HeaderInv E root nil T anc rest f done' ret' := by
  obtain ⟨hb, hab⟩ := hp.path_anc b rest rfl
  refine { hh with
    parent := fun x hx hxr hroot hr => ?_
    passed := fun x z hxz => ?_
    complete := fun g hg hgr x hx hgx hr => ?_ }
  · obtain ⟨hr, hxb⟩ := hret x hroot hr
    exact hh.parent x hx (fun hm => (List.mem_cons.mp hm).elim hxb hxr) hroot hr
  · obtain ⟨hz, hpass⟩ := hh.passed x z (hdone x z hxz)
    exact ⟨hz, fun g hg => hpass g (List.mem_cons_of_mem _ hg)⟩
  · by_cases hgb : g = b
    · subst hgb
      -- back along the walk: the headers pass every edge below `g`
      have hback : ∀ z, ReachIn E {z | z ∈ T ∧ g ∈ anc z} z g → Chain nil f z g := by
        intro z hz
        induction hz using Relation.ReflTransGen.head_induction_on with
        | refl => exact .refl _
        | @head u w he _ ih =>
          obtain ⟨he, ⟨huT, hgu⟩, -⟩ := he
          refine (hh.passed u w (hall u huT ?_ w he)).2 g List.mem_cons_self ih
          by_cases hug : u = g
          · exact .inl hug
          · refine .inr fun huP => hug ?_
            exact hp.tree.antisymm hb (hab ▸ huP) hgu
      exact hback x hr
    · exact hh.complete g hg (fun hm => (List.mem_cons.mp hm).elim hgb hgr) x hx hgx hr

/-- The headers when the search has left everything. -/
theorem loopNest (hp : PathInv E root T anc pre [] done) (hh : HeaderInv E root nil T anc [] f done ret)
    (hret : ∀ x, ret x) : LoopNest E root nil T anc f := by
  have hconvex : ∀ x ∈ T, ∀ h, Chain nil f x h → ∀ z ∈ anc x, h ∈ anc z → Chain nil f z h := by
    refine hp.tree.induction ?_ ?_
    · intro hr ha h _ z hz hhz
      obtain rfl : z = root := by simpa [ha] using hz
      obtain rfl : h = z := by simpa [ha] using hhz
      exact .refl _
    · intro x p hx hpT _ ha hxp ih h hc z hz hhz
      rw [ha] at hz
      rcases List.mem_cons.mp hz with rfl | hzp
      · exact hc
      · have hxh : h ≠ x := by
          rintro rfl
          exact hxp (hp.tree.trans hpT hzp hhz)
        have hxr : x ≠ root := by
          rintro rfl
          exact hxp (hp.tree.root_mem hpT)
        obtain ⟨hfx, hc'⟩ := hc.cases.resolve_left hxh
        obtain ⟨p', hp', ha', hcp⟩ := (hh.parent x hx List.not_mem_nil hxr (hret x)).resolve_left hfx
        have hpp : anc p = anc p' := (List.cons_eq_cons.mp (ha.symm.trans ha')).2
        obtain rfl : p = p' := hp.tree.antisymm hp' (hpp ▸ hp.tree.self_mem hpT) (hpp ▸ hp.tree.self_mem hp')
        exact ih h (hcp.trans hc') z hzp hhz
  refine ⟨hp.tree, hh.header, fun x hx h hc => ReachIn.mono ?_ (hh.sound x hx h hc), hconvex,
    fun x hx h hhx hr => ?_⟩
  · rintro z ⟨hz, hhz, q, hq, hzq, hqh⟩
    exact ⟨hz, hconvex q hq h hqh z hzq hhz⟩
  · exact hh.complete h (hp.tree.anc_mem hx hhx) List.not_mem_nil x hx hhx hr

end HeaderInv

end FlowGraph
