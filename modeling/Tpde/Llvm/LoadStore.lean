import Mathlib
import Tpde.Library.Accesses
import Tpde.Library.TypePaths
import Tpde.Llvm.ComplexTypes

/-!
# Loads, stores and addresses

`compile_load_generic` and `compile_store_generic` access values of a single type at
once and other values part by part: the next part is accessed behind the size and the
padding of the one before. `compile_gep` computes the address of an element or member
from the data layout.

The accesses of one type agree (`Agree`) exactly if the parts lie where the data layout
has the leaves (`agree_iff`). The lowering takes the alignment of a vector from one part
and its size from all of them, which in arrays and structs is not what the data layout
does.
-/

namespace Tpde.LoadStore

open Bytes Bytes.Mem Ranges TypeLayout ComplexTypes

/-! ### The accesses -/

/-- What `lower_type` makes of a type: a single type, or parts. -/
inductive LoweredType where
  | basic (s : Leaf) (ty : BasicTy)
  | complex (parts : List Part)

/-- `lower_type`, with the case of vectors whose layout in registers is that of LLVM. -/
def lowerType : LType Leaf → Option LoweredType
  | .leaf s =>
    match s.lowerSimpleType, s with
    | some ty, _ => some (.basic s ty)
    | none, .vec elem n _ =>
      match Leaf.lowerVectorType elem n with
      | some (ty, _, false) => some (.basic s ty)
      | _ => (lowerComplexType (.leaf s)).map .complex
    | none, _ => none
  | t => (lowerComplexType t).map .complex

/-- The bits of a value. -/
def bits : Leaf → ℕ
  | .int width _ => width
  | .i128 => 128
  | .float => 32
  | .double => 64
  | .fp128 => 128
  | .ptr => 64
  | .vec elem n _ => n * Leaf.elemBits elem

/-- The place and the bytes of the accesses that load a value of a single type. -/
def basicLoad (s : Leaf) : BasicTy → List (ℕ × ℕ)
  | .i8 | .i16 | .i32 | .i64 | .v8i1 | .v16i1 | .v32i1 | .v64i1 => [(0, (bits s - 1) / 8 + 1)]
  | .ptr => [(0, (64 - 1) / 8 + 1)]
  | .i128 => [(0, 8), (8, 8)]
  | .f32 => [(0, 4)]
  | .v8i8 | .v4i16 | .v2i32 | .v2f32 | .f64 => [(0, 8)]
  | .v16i8 | .v8i16 | .v4i32 | .v2i64 | .v4f32 | .v2f64 | .f128 => [(0, 16)]

/-- The place and the bytes of the accesses that store a value of a single type. -/
def basicStore (s : Leaf) : BasicTy → List (ℕ × ℕ)
  | .i8 | .i16 | .i32 | .i64 | .v8i1 | .v16i1 | .v32i1 | .v64i1 => [(0, alignUp (bits s) 8 / 8)]
  | .ptr => [(0, 8)]
  | .i128 => [(0, 8), (8, 8)]
  | .f32 => [(0, 4)]
  | .v8i8 | .v4i16 | .v2i32 | .v2f32 | .f64 => [(0, 8)]
  | .v16i8 | .v8i16 | .v4i32 | .v2i64 | .v4f32 | .v2f64 | .f128 => [(0, 16)]

/-- The bytes that a part is loaded and stored with. -/
def partBytes : BasicTy → ℕ
  | .i8 | .v8i1 => 1
  | .i16 | .v16i1 => 2
  | .i32 | .v32i1 => 4
  | .i64 | .v64i1 | .ptr => 8
  | .i128 => 8
  | .f32 => 4
  | .v8i8 | .v4i16 | .v2i32 | .v2f32 | .f64 => 8
  | .v16i8 | .v8i16 | .v4i32 | .v2i64 | .v4f32 | .v2f64 | .f128 => 16

/-- The loop over the parts. A type has at most 65535 of them, of at most 143 bytes with
the padding, so that the 32 bits of `off` are enough. -/
def complexAccesses : List Part → ℕ → List (ℕ × ℕ)
  | [], _ => []
  | p :: ps, off => (off, partBytes p.ty) :: complexAccesses ps (off + (p.size + p.padAfter))

def loadAccesses (t : LType Leaf) : Option (List (ℕ × ℕ)) :=
  (lowerType t).map fun
    | .basic s ty => basicLoad s ty
    | .complex parts => complexAccesses parts 0

def storeAccesses (t : LType Leaf) : Option (List (ℕ × ℕ)) :=
  (lowerType t).map fun
    | .basic s ty => basicStore s ty
    | .complex parts => complexAccesses parts 0

/-- `compile_load_generic`: the numbers in the registers of the result. -/
def compileLoad (t : LType Leaf) (m : Mem) (a : ℕ) : Option (List ℕ) := (loadAccesses t).map (loadAll m a)

/-- `compile_store_generic` of a value with a number in a register for each part. -/
def compileStore (t : LType Leaf) (vals : List ℕ) (m : Mem) (a : ℕ) : Option Mem := do
  let accesses ← storeAccesses t
  if accesses.length = vals.length then some (storeAll m a (accesses.zip vals)) else none

/-! ### Addresses of elements and members -/

/-- An index: a constant, or a value that is only known at run time. -/
inductive Index where
  | const (v : ℤ)
  | value (v : ℤ)
  deriving DecidableEq, Repr

/-- The index is `i`, whether constant or not. -/
def Index.Is (i : ℕ) (idx : Index) : Prop := idx = .const i ∨ idx = .value i

/-- The type that the indices so far lead to, and the address: `base`, an index with a
scale, and the constant displacement, which is kept apart in 64 bits. -/
structure Gep where
  curTy : LType Leaf
  base : ℤ
  scale : ℕ
  index : ℤ
  displacement : BitVec 64

namespace Gep

/-- The address of a `GenericValuePart::Expr`. -/
def address (g : Gep) : ℕ := (g.base + g.scale * g.index + g.displacement.toInt).toNat

/-- The loop body of `compile_gep` for one index. It fails where LLVM has no such
instruction. -/
def step (first : Bool) (g : Gep) : Index → Option Gep
  | .const v =>
    if first then
      some { g with
        displacement := g.displacement + if v ≠ 0 then .ofInt 64 (g.curTy.allocSize dataLayout * v) else 0 }
    else
      match g.curTy with
      | .struct packed es => do
        let e ← es[v.toNat]?
        let off := if v.toNat ≠ 0 then .ofNat 64 (LType.memberOffset dataLayout packed es 0 v.toNat) else 0
        some { g with curTy := e, displacement := g.displacement + off }
      | .array _ e =>
        some { g with
          curTy := e, displacement := g.displacement + if v ≠ 0 then
            .ofInt 64 (e.allocSize dataLayout * v) else 0 }
      | .leaf _ => none
  | .value v => do
    let curTy ← if first then some g.curTy else
      match g.curTy with
      | .array _ e => some e
      | _ => none
    let base := if g.scale ≠ 0 then g.base + g.scale * g.index else g.base
    some { curTy, base, scale := curTy.allocSize dataLayout, index := v, displacement := g.displacement }

/-- The loop of `compile_gep` over the indices. -/
def run : Bool → Gep → List Index → Option Gep
  | _, g, [] => some g
  | first, g, idx :: idxs => do
    let g ← step first g idx
    run false g idxs

end Gep

/-- `compile_gep`: the address that indices into a type at `p` lead to. -/
def compileGep (p : ℕ) (t : LType Leaf) (idxs : List Index) : Option ℕ :=
  (Gep.run true ⟨t, p, 0, 0, 0⟩ idxs).map Gep.address

/-- The indices of an instruction behind the first one lead to elements and members: those
of members are constants. -/
inductive Leads : LType Leaf → List ℕ → List Index → Prop
  | nil (t : LType Leaf) : Leads t [] []
  | array {n : ℕ} {e : LType Leaf} {i : ℕ} {idx : Index} {path : List ℕ} {idxs : List Index} (hidx : idx.Is i)
      (h : Leads e path idxs) : Leads (.array n e) (i :: path) (idx :: idxs)
  | struct {packed : Bool} {es : List (LType Leaf)} {e : LType Leaf} {j : ℕ} {path : List ℕ}
    {idxs : List Index}
      (he : es[j]? = some e) (h : Leads e path idxs) :
        Leads (.struct packed es) (j :: path) (.const j :: idxs)

namespace Gep

/-- The place of an element or member within the type is `acc` so far. -/
structure At (p acc : ℕ) (g : Gep) : Prop where
  sum : g.base + g.scale * g.index + g.displacement.toNat = p + acc
  le : g.displacement.toNat ≤ acc

theorem At.address {p acc : ℕ} {g : Gep} (h : At p acc g) (hacc : acc < 2 ^ 63) : g.address = p + acc := by
  have hle := h.le
  have htoInt : g.displacement.toInt = g.displacement.toNat := by
    rw [BitVec.toInt_eq_toNat_cond, if_pos (by omega)]
  rw [Gep.address, htoInt, h.sum]
  omega

/-- A constant step adds to the displacement. -/
theorem At.add {p acc d : ℕ} {g : Gep} (h : At p acc g) (hacc : acc + d < 2 ^ 63) (t : LType Leaf)
    {off : BitVec 64}
    (hoff : off = .ofNat 64 d) :
      At p (acc + d) { g with curTy := t, displacement := g.displacement + off } := by
  subst hoff
  have hsum := h.sum
  have hle := h.le
  have hdisp : (g.displacement + BitVec.ofNat 64 d).toNat = g.displacement.toNat + d := by
    rw [BitVec.toNat_add, BitVec.toNat_ofNat, Nat.mod_eq_of_lt (a := d) (by omega),
      Nat.mod_eq_of_lt (by omega)]
  constructor
  · simp only [hdisp]
    push_cast
    omega
  · simp only [hdisp]
    omega

/-- A step at run time becomes the index of the address. -/
theorem At.index {p acc i : ℕ} {g : Gep} (h : At p acc g) (t : LType Leaf) :
    At p (acc + i * t.allocSize dataLayout)
    { curTy := t, base := if g.scale ≠ 0 then g.base + g.scale * g.index else g.base,
      scale := t.allocSize dataLayout,
      index := i, displacement := g.displacement } := by
  have hsum := h.sum
  have hle := h.le
  constructor
  · have hbase :
      (if g.scale ≠ 0 then g.base + g.scale * g.index else g.base) = g.base + g.scale * g.index := by
      split_ifs with h0
      · rfl
      · simp [not_not.mp h0]
    simp only [hbase]
    push_cast
    linarith
  · exact hle.trans (Nat.le_add_right ..)

theorem ofInt_or_zero (size i : ℕ) : (if (i : ℤ) ≠ 0 then BitVec.ofInt 64 (size * i) else 0) = .ofNat 64
    (i * size) := by
  by_cases hi : i = 0
  · simp [hi]
  · rw [if_pos (by exact_mod_cast hi), ← BitVec.ofInt_natCast, Nat.cast_mul, mul_comm]

/-- The indices behind the first one. -/
theorem At.run {p : ℕ} {t : LType Leaf} {path : List ℕ} {idxs : List Index} (hleads : Leads t path idxs) :
    ∀ {acc : ℕ} {g : Gep}, g.curTy = t → At p acc g → acc + LType.pathOffset dataLayout t path < 2 ^ 63 →
      ∃ g', Gep.run false g idxs = some g' ∧ At p (acc + LType.pathOffset dataLayout t path) g' := by
  induction hleads with
  | nil t =>
    intro acc g _ h _
    refine ⟨g, rfl, ?_⟩
    cases t <;> exact h
  | @array n e i idx path idxs hidx hleads ih =>
    intro acc g hty h hacc
    rw [LType.pathOffset, ← add_assoc] at hacc ⊢
    rcases hidx with rfl | rfl
    · obtain ⟨g', hrun, hat⟩ := ih rfl (h.add (by omega) e (ofInt_or_zero (e.allocSize dataLayout) i)) hacc
      exact ⟨g', by simpa [Gep.run, step, hty] using hrun, hat⟩
    · obtain ⟨g', hrun, hat⟩ := ih rfl (h.index e) hacc
      exact ⟨g', by simpa [Gep.run, step, hty] using hrun, hat⟩
  | @struct packed es e j path idxs he hleads ih =>
    intro acc g hty h hacc
    have hpath : LType.pathOffset dataLayout (.struct packed es) (j :: path) =
        LType.memberOffset dataLayout packed es 0 j + LType.pathOffset dataLayout e path := by
          simp [LType.pathOffset, he]
    have hfirst : (if j ≠ 0 then BitVec.ofNat 64 (LType.memberOffset dataLayout packed es 0 j) else 0) =
        .ofNat 64 (LType.memberOffset dataLayout packed es 0 j) := by
      rcases Nat.eq_zero_or_pos j with rfl | hj
      · cases es with
        | nil => cases he
        | cons e' es => simp [LType.memberOffset]
      · rw [if_pos hj.ne']
    rw [hpath, ← add_assoc] at hacc ⊢
    obtain ⟨g', hrun, hat⟩ := ih rfl (h.add (by omega) e hfirst) hacc
    exact ⟨g', by simpa [Gep.run, step, hty, he] using hrun, hat⟩

end Gep

/-- **The address is that of the element or member in the data layout.** -/
theorem compileGep_eq {p : ℕ} {t : LType Leaf} {path : List ℕ} {first : Index} {idxs : List Index}
    (hfirst : first.Is 0)
    (hleads : Leads t path idxs) (hbound : LType.pathOffset dataLayout t path < 2 ^ 63) :
    compileGep p t (first :: idxs) = some (p + LType.pathOffset dataLayout t path) := by
  obtain ⟨g, hstep, hty, hat⟩ :
      ∃ g, Gep.step true ⟨t, p, 0, 0, 0⟩ first = some g ∧ g.curTy = t ∧ Gep.At p 0 g := by
    rcases hfirst with rfl | rfl
    · exact ⟨_, rfl, rfl, by simp, by simp⟩
    · exact ⟨_, rfl, rfl, by simp, by simp⟩
  obtain ⟨g', hrun, hat'⟩ := hat.run hleads hty (by rwa [zero_add])
  rw [zero_add] at hat'
  rw [compileGep, Gep.run, hstep, Option.bind_eq_bind, Option.bind_some, hrun, Option.map_some,
    hat'.address hbound]

/-- Every leaf has indices that lead to it. -/
theorem exists_leads (t : LType Leaf) : ∀ x ∈ t.leafPaths, ∃ idxs, Leads t x.1 idxs := by
  induction t using LType.induction_on (q := fun es => ∀ e ∈ es, ∀ x ∈ e.leafPaths, ∃ idxs,
    Leads e x.1 idxs) with
  | leaf s =>
    intro x hx
    obtain rfl := List.mem_singleton.mp hx
    exact ⟨[], .nil _⟩
  | array n e ih =>
    intro x hx
    obtain ⟨i, -, hx⟩ := List.mem_flatMap.mp hx
    obtain ⟨y, hy, rfl⟩ := List.mem_map.mp hx
    obtain ⟨idxs, h⟩ := ih y hy
    exact ⟨.const i :: idxs, .array (.inl rfl) h⟩
  | struct packed es ih =>
    intro x hx
    obtain ⟨j, e, path, he, hpath, hmem⟩ := LType.mem_memberPaths hx
    obtain ⟨idxs, h⟩ := ih e (List.mem_of_getElem? he) _ hmem
    rw [hpath, zero_add]
    exact ⟨.const j :: idxs, .struct he h⟩
  | nil e he => cases he
  | cons e es ih ihs e' he' x hx =>
    rcases List.mem_cons.mp he' with rfl | he'
    · exact ih x hx
    · exact ihs e' he' x hx

/-! ### Values and their agreement -/

/-- The bits that count in each register of a leaf. -/
def partBits (s : Leaf) : List ℕ :=
  match s.lower with
  | some (ty, num) => if num = 1 then [bits s] else List.replicate num (8 * ty.partSize)
  | none => []

/-- The bits that count in each register of a value. -/
def valueBits (t : LType Leaf) : List ℕ := t.leafPaths.flatMap fun x => partBits x.2

/-- The registers of a value, leaf by leaf. -/
def deal : List (List ℕ × Leaf) → List ℕ → List (List ℕ × Leaf × List ℕ)
  | [], _ => []
  | (path, s) :: l, vals => (path, s, vals.take (partBits s).length) :: deal l (vals.drop (partBits s).length)

/-- Store leaves one after the other, each to the address that its indices lead to. -/
def storeLeaves (p : ℕ) (t : LType Leaf) (idxs : List ℕ → List Index) : List (List ℕ × Leaf × List ℕ) →
    Mem → Option Mem
  | [], m => some m
  | (path, s, vals) :: l, m => do
    let a ← compileGep p t (idxs path)
    let m ← compileStore (.leaf s) vals m a
    storeLeaves p t idxs l m

/-- Indices that lead to every leaf. -/
def LeadsAll (t : LType Leaf) (idxs : List ℕ → List Index) : Prop :=
  ∀ x ∈ t.leafPaths, ∃ first rest, idxs x.1 = first :: rest ∧ first.Is 0 ∧ Leads t x.1 rest

/-- **The accesses to memory of a type agree**: with each other, with those of its leaves at
the addresses of its elements and members, and with its size. -/
structure Agree (t : LType Leaf) : Prop where
  /-- A value is loaded as it was stored. -/
  reload : ∀ m p vals, vals.length = (valueBits t).length → ∃ m' vals', compileStore t vals m p = some m' ∧
    compileLoad t m' p = some vals' ∧ lowBits (valueBits t) vals' = lowBits (valueBits t) vals
  /-- A leaf of a stored value is loaded from its address. -/
  leaf : ∀ m p vals m', vals.length = (valueBits t).length → compileStore t vals m p = some m' → ∀ idxs,
    LeadsAll t idxs →
    ∀ x ∈ deal t.leafPaths vals, ∃ a vals', compileGep p t (idxs x.1) = some a ∧
      compileLoad (.leaf x.2.1) m' a = some vals' ∧
      lowBits (partBits x.2.1) vals' = lowBits (partBits x.2.1) x.2.2
  /-- A value stored leaf by leaf, in any order, is loaded. -/
  leafwise : ∀ m p vals, vals.length = (valueBits t).length → ∀ idxs, LeadsAll t idxs →
    ∀ order, order.Perm (deal t.leafPaths vals) → ∃ m' vals', storeLeaves p t idxs order m = some m' ∧
      compileLoad t m' p = some vals' ∧ lowBits (valueBits t) vals' = lowBits (valueBits t) vals
  /-- A store leaves the bytes outside the value alone. -/
  within : ∀ m p vals m', compileStore t vals m p = some m' → ∀ x, x < p ∨
    p + t.allocSize dataLayout ≤ x → m' x = m x

/-- The parts of a type lie where the data layout has them, and their paddings are in
their bit fields, that of the last part aside. -/
structure Consistent (t : LType Leaf) : Prop where
  fits : Fits t
  places : LType.spread partPieces (t.leaves partLayout 0) = LType.spread partPieces (t.leaves dataLayout 0)
  paddings : ∀ g ∈ ((t.pieces partPieces).map (·.2)).dropLast, g < 2 ^ 7

/-! ### The parts of leaves -/

/-- A part at its place: the bytes it takes in an array or struct, those of an access to
the leaf alone, and the bits that count. -/
structure Slot where
  place : ℕ
  size : ℕ
  width : ℕ
  bits : ℕ

namespace Slot

def shift (o : ℕ) (z : Slot) : Slot := { z with place := o + z.place }

end Slot

/-- The parts of a leaf. -/
def slots (s : Leaf) : List Slot :=
  match s.lower with
  | some (ty, num) =>
    if num = 1 then [⟨0, ty.partSize, (bits s + 7) / 8, bits s⟩]
    else (List.range num).map fun i => ⟨i * ty.partSize, ty.partSize, ty.partSize, 8 * ty.partSize⟩
  | none => []

theorem bits_slots (s : Leaf) : (slots s).map Slot.bits = partBits s := by
  unfold slots partBits
  cases s.lower with
  | none => rfl
  | some r =>
    dsimp only
    split_ifs
    · rfl
    · simp [Function.comp_def]

theorem partBytes_eq (ty : BasicTy) : partBytes ty = ty.partSize := by
  cases ty <;> rfl

/-- The accesses part by part are at the offsets of the parts. -/
theorem complexAccesses_eq (parts : List Part) (off : ℕ) :
    complexAccesses parts off = (offsets PartKind.size off (parts.map Part.view)).map fun x =>
      (x.1, partBytes x.2.ty) := by
  induction parts generalizing off with
  | nil => rfl
  | cons p ps ih => simp [complexAccesses, offsets, ih, Part.view]

/-- The parts of a leaf in a row. -/
theorem offsets_leafKinds (ty : BasicTy) (num o : ℕ) :
    offsets PartKind.size o ((leafKinds ty num).map (·, 0)) =
    (List.range num).map fun i => (o + i * ty.partSize, ⟨ty, ty.partSize, i + 1 == num⟩) := by
  have hrow (k : ℕ) (f : ℕ → PartKind) (hf : ∀ i, (f i).size = ty.partSize) :
      offsets PartKind.size o (((List.range k).map f).map (·, 0)) = (List.range k).map fun i =>
        (o + i * ty.partSize, f i) := by
    induction k with
    | zero => rfl
    | succ k ih =>
      rw [List.range_succ, List.map_append, List.map_append, offsets_append, ih, List.map_append]
      simp [offsets, total, Function.comp_def, hf]
  exact hrow num (fun i => ⟨ty, ty.partSize, i + 1 == num⟩) fun _ => rfl

/-- The parts of a vector of bits are one that has at least as many bits. -/
theorem lowerVectorType_bits {n : ℕ} (hn : 0 < n) {ty : BasicTy} {num : ℕ} {inc : Bool}
    (h : Leaf.lowerVectorType (.int 1) n = some (ty, num, inc)) :
    num = 1 ∧ inc = false ∧ (n + 7) / 8 ≤ ty.partSize ∧ Leaf.pow2Ceil ((n + 7) / 8) = ty.partSize ∧
      ∀ s, basicLoad s ty = [(0, (bits s - 1) / 8 + 1)] ∧
        basicStore s ty = [(0, alignUp (bits s) 8 / 8)] := by
  simp only [Leaf.lowerVectorType] at h
  by_cases hbig : 64 < n
  · simp [hbig] at h
  rw [if_neg hbig] at h
  simp only [Option.some.injEq, Prod.mk.injEq] at h
  obtain ⟨rfl, rfl, rfl⟩ := h
  have hsize : ∀ n < 65, 0 < n → let off := Nat.log2 ((n - 1) / 4 ||| 1)
      let ty : BasicTy := if off = 0 then .v8i1 else if off = 1 then .v16i1 else if off = 2 then .v32i1
        else .v64i1
      (n + 7) / 8 ≤ ty.partSize ∧ Leaf.pow2Ceil ((n + 7) / 8) = ty.partSize := by decide +kernel
  have h := hsize n (by omega) hn
  refine ⟨rfl, rfl, h.1, h.2, fun s => ?_⟩
  split_ifs <;> exact ⟨rfl, rfl⟩

/-- The parts of other vectors have all their bits, and those that are not scalarised are
accessed at once. -/
theorem lowerVectorType_dense {elem : VecElem} {n : ℕ} (helem : elem ≠ .int 1) {ty : BasicTy} {num : ℕ}
    {inc : Bool}
    (h : Leaf.lowerVectorType elem n = some (ty, num, inc)) :
    n * Leaf.elemBits elem = 8 * (num * ty.partSize) ∧
      (inc = false → num = 1 ∧ ∀ s, basicLoad s ty = [(0, ty.partSize)] ∧
        basicStore s ty = [(0, ty.partSize)]) := by
  unfold Leaf.lowerVectorType at h
  split at h <;> (try split_ifs at h) <;> simp only [reduceCtorEq, Option.some.injEq, Prod.mk.injEq] at h
  all_goals first | exact absurd rfl helem | skip
  all_goals obtain ⟨rfl, rfl, rfl⟩ := h
  all_goals
    simp only [Leaf.elemBits, BasicTy.partSize, basicLoad, basicStore, bne_eq_false_iff_eq,
      reduceCtorEq, false_implies, and_true,
      implies_true]
    omega

/-- The places and bytes of the accesses to a leaf alone. -/
def Slot.access (z : Slot) : ℕ × ℕ := (z.place, z.width)

/-- The places and bytes of the parts. -/
def Slot.extent (z : Slot) : ℕ × ℕ := (z.place, z.size)

theorem lowerComplexType_leaf {s : Leaf} {ty : BasicTy} {num : ℕ} (h : s.lower = some (ty, num))
    (hnum : num ≤ maxLength) :
    lowerComplexType (.leaf s) = some ((leafKinds ty num).map fun k => ⟨k, 0, 0, 0⟩) := by
  simp [lowerComplexType, complexTypesAppend, h, leafKinds, Nat.not_lt.mpr hnum]

/-- The accesses to a leaf whose parts have all its bits, part by part. -/
theorem accesses_dense {s : Leaf} {ty : BasicTy} {num : ℕ} (h : s.lower = some (ty, num))
    (hbits : bits s = 8 * (num * ty.partSize)) :
    (slots s).map Slot.access = complexAccesses ((leafKinds ty num).map fun k => ⟨k, 0, 0, 0⟩) 0 := by
  have hview : ((leafKinds ty num).map fun k => (⟨k, 0, 0, 0⟩ : Part)).map Part.view =
    (leafKinds ty num).map (·, 0) := by
    simp [Part.view]
  rw [complexAccesses_eq, hview, offsets_leafKinds, slots, h]
  dsimp only
  split_ifs with hone
  · subst hone
    simp [Slot.access, partBytes_eq, hbits]
    omega
  · simp [Slot.access, partBytes_eq, Function.comp_def]

/-- **Loads and stores of a leaf alone access its parts.** -/
theorem leaf_accesses {s : Leaf} {ty : BasicTy} {num : ℕ} (h : s.lower = some (ty, num))
    (hnum : num ≤ maxLength) :
    loadAccesses (.leaf s) = some ((slots s).map Slot.access) ∧
      storeAccesses (.leaf s) = some ((slots s).map Slot.access) := by
  cases s with
  | vec elem n ok =>
    simp only [Leaf.lower, Option.map_eq_some_iff] at h
    obtain ⟨⟨ty', num', inc⟩, hvec, heq⟩ := h
    obtain ⟨rfl, rfl⟩ := Prod.mk.inj heq
    dsimp only at hnum
    have hlower : (Leaf.vec elem n ok).lower = some (ty', num') := by simp [Leaf.lower, hvec]
    by_cases helem : elem = .int 1
    · subst helem
      obtain ⟨rfl, rfl, -, -, hacc⟩ := lowerVectorType_bits ok hvec
      have hslots :
        (slots (.vec (.int 1) n ok)).map Slot.access = [(0, (bits (.vec (.int 1) n ok) + 7) / 8)] := by
        simp [slots, hlower, Slot.access]
      have hbits : 0 < bits (.vec (.int 1) n ok) := by simpa [bits, Leaf.elemBits] using ok
      rw [hslots]
      simp only [loadAccesses, storeAccesses, lowerType, Leaf.lowerSimpleType, hvec, Option.map_some,
        hacc, alignUp]
      refine ⟨?_, ?_⟩ <;> congr 3 <;> omega
    · obtain ⟨hbits, hbasic⟩ := lowerVectorType_dense helem hvec
      rw [accesses_dense hlower hbits]
      cases inc with
      | false =>
        obtain ⟨rfl, hacc⟩ := hbasic rfl
        simp [loadAccesses, storeAccesses, lowerType, Leaf.lowerSimpleType, hvec, hacc, leafKinds,
          complexAccesses, partBytes_eq]
      | true =>
        simp [loadAccesses, storeAccesses, lowerType, Leaf.lowerSimpleType, hvec,
          lowerComplexType_leaf hlower hnum]
  | int width ok =>
    have hwidth : (width - 1) / 8 + 1 = (width + 7) / 8 ∧ alignUp width 8 / 8 = (width + 7) / 8 := by
      unfold alignUp
      omega
    simp only [loadAccesses, storeAccesses, lowerType, Leaf.lowerSimpleType, slots, Leaf.lower,
      Option.map_some]
    split_ifs <;> simp_all [basicLoad, basicStore, bits, Slot.access, BasicTy.partCount]
  | _ => exact ⟨by decide, by decide⟩

theorem kinds_eq {s : Leaf} {ty : BasicTy} {num : ℕ} (h : s.lower = some (ty, num)) :
    partPieces.kinds s = leafKinds ty num := by
  simp [partPieces, h]

/-- The parts of a leaf as pieces. -/
theorem extent_slots (s : Leaf) (o : ℕ) : (slots s).map (fun z => (z.shift o).extent) =
    (offsets PartKind.size o ((partPieces.kinds s).map (·, 0))).map fun x => (x.1, x.2.size) := by
  cases h : s.lower with
  | none => simp [slots, partPieces, h, offsets]
  | some r =>
    obtain ⟨ty, num⟩ := r
    rw [kinds_eq h, offsets_leafKinds, slots, h]
    dsimp only
    split_ifs with hone
    · subst hone
      simp [Slot.shift, Slot.extent]
    · simp [Slot.shift, Slot.extent, Function.comp_def]

/-- Each part has bits that count, no more than an access to the leaf has, which is no
larger than the part. -/
structure Slot.Ok (z : Slot) : Prop where
  pos : 0 < z.bits
  bits : z.bits ≤ 8 * z.width
  width : z.width ≤ z.size

theorem bits_single {s : Leaf} {ty : BasicTy} (h : s.lower = some (ty, 1)) :
    0 < bits s ∧ (bits s + 7) / 8 ≤ ty.partSize := by
  cases s with
  | vec elem n ok =>
    simp only [Leaf.lower, Option.map_eq_some_iff] at h
    obtain ⟨⟨ty', num, inc⟩, hvec, heq⟩ := h
    obtain ⟨rfl, rfl⟩ := Prod.mk.inj heq
    by_cases helem : elem = .int 1
    · subst helem
      obtain ⟨-, -, hle, -⟩ := lowerVectorType_bits ok hvec
      simpa [bits, Leaf.elemBits] using ⟨ok, hle⟩
    · have hbits := (lowerVectorType_dense helem hvec).1
      have hsize := BasicTy.partSize_pos ty'
      simp only [bits]
      omega
  | int width ok =>
    simp only [Leaf.lower, Leaf.lowerSimpleType, Option.map_some, Option.some.injEq, Prod.mk.injEq] at h
    rw [← h.1]
    unfold bits
    split_ifs <;> simp only [BasicTy.partSize] <;> omega
  | _ =>
    cases h
    try decide

theorem slot_ok (s : Leaf) : ∀ z ∈ slots s, z.Ok := by
  intro z hz
  cases h : s.lower with
  | none => simp [slots, h] at hz
  | some r =>
    obtain ⟨ty, num⟩ := r
    rw [slots, h] at hz
    dsimp only at hz
    split_ifs at hz with hone
    · subst hone
      obtain rfl := List.mem_singleton.mp hz
      obtain ⟨hpos, hle⟩ := bits_single h
      exact ⟨hpos, by dsimp only; omega, hle⟩
    · obtain ⟨i, -, rfl⟩ := List.mem_map.mp hz
      have hsize := BasicTy.partSize_pos ty
      exact ⟨by dsimp only; omega, le_rfl, le_rfl⟩

theorem lowerVectorType_partCount {elem : VecElem} {n : ℕ} {ty : BasicTy} {num : ℕ} {inc : Bool}
    (h : Leaf.lowerVectorType elem n = some (ty, num, inc)) : ty.partCount = 1 := by
  unfold Leaf.lowerVectorType at h
  split at h <;> (try split_ifs at h) <;> simp only [reduceCtorEq, Option.some.injEq, Prod.mk.injEq] at h
  all_goals
    obtain ⟨rfl, -, -⟩ := h
    try split_ifs
  all_goals rfl

theorem le_pow2Ceil (n : ℕ) : n ≤ Leaf.pow2Ceil n := Nat.le_pow_clog (by decide) n

/-- A vector takes at least the bytes of its parts, and is aligned at least as each is. -/
theorem vector_finer {elem : VecElem} {n : ℕ} (ok : 0 < n) {ty : BasicTy} {num : ℕ} {inc : Bool}
    (h : Leaf.lowerVectorType elem n = some (ty, num, inc)) :
    num * ty.partSize ≤ (Leaf.vec elem n ok).allocSize ∧ ty.partSize ≤ (Leaf.vec elem n ok).abiAlign := by
  have hle := le_alignUp (Leaf.vec elem n ok).storeSize (Leaf.abiAlign_pos (Leaf.vec elem n ok))
  by_cases helem : elem = .int 1
  · subst helem
    obtain ⟨rfl, -, -, halign, -⟩ := lowerVectorType_bits ok h
    have hsize : (Leaf.vec (.int 1) n ok).abiAlign = ty.partSize := by
      rw [← halign]
      simp [Leaf.abiAlign, Leaf.storeSize, Leaf.elemBits]
    have hstore : 0 < (Leaf.vec (.int 1) n ok).storeSize := by
      simp only [Leaf.storeSize, Leaf.elemBits]
      omega
    refine ⟨?_, hsize.ge⟩
    rw [one_mul, ← hsize]
    exact Nat.le_of_dvd (lt_of_lt_of_le hstore hle) (dvd_alignUp ..)
  · have hbits := (lowerVectorType_dense helem h).1
    have hnum : 0 < num :=
      Leaf.lower_pos (show (Leaf.vec elem n ok).lower = some (ty, num) by simp [Leaf.lower, h])
    have hstore : (Leaf.vec elem n ok).storeSize = num * ty.partSize := by
      simp only [Leaf.storeSize]
      omega
    refine ⟨hstore.symm.trans_le hle, ?_⟩
    calc ty.partSize ≤ num * ty.partSize := Nat.le_mul_of_pos_left _ hnum
      _ = (Leaf.vec elem n ok).storeSize := hstore.symm
      _ ≤ (Leaf.vec elem n ok).abiAlign := le_pow2Ceil _

/-- A leaf takes at least the bytes of its parts in the data layout, with at least their
alignment. -/
theorem finer_leaf (s : Leaf) : partLayout.size s ≤ dataLayout.size s ∧
    partLayout.align s ≤ dataLayout.align s := by
  cases s with
  | vec elem n ok =>
    cases h : Leaf.lowerVectorType elem n with
    | none =>
      have hnone : (Leaf.vec elem n ok).lower = none := by simp [Leaf.lower, h]
      refine ⟨?_, ?_⟩
      · simp [partLayout, hnone]
      · have hpos : 1 ≤ dataLayout.align (.vec elem n ok) := dataLayout.align_pos _
        simpa [partLayout, hnone] using hpos
    | some r =>
      obtain ⟨ty, num, inc⟩ := r
      have hsome : (Leaf.vec elem n ok).lower = some (ty, num) := by simp [Leaf.lower, h]
      have hsize : partLayout.size (.vec elem n ok) = num * ty.partSize := by simp [partLayout, hsome]
      have halign : partLayout.align (.vec elem n ok) = ty.partSize := by
        simp [partLayout, hsome, lowerVectorType_partCount h]
      rw [hsize, halign]
      exact vector_finer ok h
  | int width ok =>
    obtain ⟨hsize, halign⟩ := scalar_layout (.int width ok) trivial
    exact ⟨hsize.ge, halign.ge⟩
  | _ => decide +kernel

/-- **No leaf lies further out in the layout of the parts than in the data layout.** -/
theorem finer : LType.Finer partLayout dataLayout where
  size s := (finer_leaf s).1
  align s := (finer_leaf s).2
  pow s := by
    cases h : s.lower with
    | none => exact ⟨0, by simp [partLayout, h]⟩
    | some r =>
      refine ⟨Nat.log2 (r.1.partSize * r.1.partCount), ?_⟩
      have hpow : ∀ ty : BasicTy, ty.partSize * ty.partCount = 2 ^ Nat.log2 (ty.partSize * ty.partCount) := by
        intro ty
        cases ty <;> decide
      simpa [partLayout, h] using hpow r.1
  pow' s := ⟨_, rfl⟩

/-! ### The parts of a type -/

/-- The parts of leaves at places. -/
def allSlots (l : List (ℕ × Leaf)) : List Slot := l.flatMap fun x => (slots x.2).map (Slot.shift x.1)

theorem bits_allSlots (l : List (ℕ × Leaf)) : (allSlots l).map Slot.bits = l.flatMap fun x =>
    partBits x.2 := by
  simp only [allSlots, List.map_flatMap, List.map_map]
  exact List.flatMap_congr fun x _ => bits_slots x.2

theorem extent_allSlots (l : List (ℕ × Leaf)) :
    (allSlots l).map Slot.extent = (LType.spread partPieces l).map fun x => (x.1, x.2.size) := by
  simp only [allSlots, LType.spread, List.map_flatMap, List.map_map]
  exact List.flatMap_congr fun x _ => extent_slots x.2 x.1

theorem allSlots_ok (l : List (ℕ × Leaf)) : ∀ z ∈ allSlots l, z.Ok := by
  intro z hz
  obtain ⟨x, -, hz⟩ := List.mem_flatMap.mp hz
  obtain ⟨y, hy, rfl⟩ := List.mem_map.mp hz
  obtain ⟨hpos, hbits, hwidth⟩ := slot_ok x.2 y hy
  exact ⟨hpos, hbits, hwidth⟩

theorem valueBits_eq (T : Table Leaf) (t : LType Leaf) (base : ℕ) :
    valueBits t = (allSlots (t.leaves T base)).map Slot.bits := by
  rw [bits_allSlots, LType.leaves_eq_map, List.flatMap_map]
  rfl

theorem length_valueBits (t : LType Leaf) : (valueBits t).length = t.numPieces partPieces := by
  have hspread := congrArg List.length (extent_allSlots (t.leaves partLayout 0))
  rw [← (LType.pieces_spec partPieces t).1] at hspread
  simpa [valueBits_eq partLayout t 0, LType.length_pieces] using hspread

theorem Fits.leaves (t : LType Leaf) : Fits t → t.All fun s => Fits (.leaf s) := by
  induction t using LType.induction_on (q := fun es => FitMembers es →
    LType.AllMembers (fun s => Fits (.leaf s)) es) with
  | leaf s => exact id
  | array n e ih =>
    intro h
    exact ih h.1
  | struct packed es ih =>
    intro h
    exact ih h.1
  | nil => trivial
  | cons e es ih ihs h => exact ⟨ih h.1, ihs h.2⟩

theorem storeSize_eq (s : Leaf) : s.storeSize = (bits s + 7) / 8 := by
  cases s <;> simp [Leaf.storeSize, bits]

/-- The parts of a leaf have room for its bits. -/
theorem storeSize_le {s : Leaf} {ty : BasicTy} {num : ℕ} (h : s.lower = some (ty, num)) :
    s.storeSize ≤ num * ty.partSize := by
  rw [storeSize_eq]
  by_cases hone : num = 1
  · subst hone
    rw [one_mul]
    exact (bits_single h).2
  · cases s with
    | vec elem n ok =>
      simp only [Leaf.lower, Option.map_eq_some_iff] at h
      obtain ⟨⟨ty', num', inc⟩, hvec, heq⟩ := h
      obtain ⟨rfl, rfl⟩ := Prod.mk.inj heq
      by_cases helem : elem = .int 1
      · subst helem
        exact absurd (lowerVectorType_bits ok hvec).1 hone
      · have hbits := (lowerVectorType_dense helem hvec).1
        simp only [bits]
        omega
    | int width ok =>
      simp only [Leaf.lower, Leaf.lowerSimpleType, Option.map_some, Option.some.injEq, Prod.mk.injEq] at h
      obtain ⟨rfl, rfl⟩ := h
      split_ifs at hone <;> exact absurd rfl hone
    | i128 =>
      cases h
      decide
    | _ =>
      cases h
      exact absurd rfl hone

theorem partSize_le (ty : BasicTy) : ty.partSize ≤ 16 := by
  cases ty <;> decide

/-- A leaf with few enough parts takes at most a megabyte. -/
theorem leaf_size_le {s : Leaf} (h : Fits (.leaf s)) : dataLayout.align s ∣ 2 ^ 20 ∧
    dataLayout.size s ≤ (partPieces.kinds s).length * 2 ^ 20 := by
  obtain ⟨ty, num, hs, hnum⟩ := h
  have hstore : s.storeSize ≤ 2 ^ 20 :=
    calc s.storeSize ≤ num * ty.partSize := storeSize_le hs
      _ ≤ maxLength * 16 := Nat.mul_le_mul hnum (partSize_le ty)
      _ ≤ 2 ^ 20 := by decide
  have hdvd : s.abiAlign ∣ 2 ^ 20 := Nat.pow_dvd_pow 2 (Nat.clog_le_of_le_pow hstore)
  refine ⟨hdvd, ?_⟩
  calc dataLayout.size s ≤ 2 ^ 20 := alignUp_le_of_dvd s.abiAlign_pos hstore hdvd
    _ ≤ num * 2 ^ 20 := Nat.le_mul_of_pos_left _ (Leaf.lower_pos hs)
    _ = (partPieces.kinds s).length * 2 ^ 20 := by
      rw [kinds_eq hs, leafKinds, List.length_map, List.length_range]

/-- The sizes of types within the limits are far below `2 ^ 63`. -/
theorem Fits.allocSize_lt {t : LType Leaf} (h : Fits t) : t.allocSize dataLayout < 2 ^ 63 := by
  have hsize :=
    (LType.allocSize_le partPieces t (LType.All.mono (fun s => leaf_size_le) t (Fits.leaves t h))).2
  have hnum := Fits.numPieces_le t h
  unfold maxLength at hnum
  omega

/-- A leaf lies within its type. -/
theorem pathOffset_le (t : LType Leaf) {x : List ℕ × Leaf} (hx : x ∈ t.leafPaths) :
    LType.pathOffset dataLayout t x.1 + dataLayout.size x.2 ≤ t.allocSize dataLayout := by
  have hbounds := (LType.leaves_ordered (T := dataLayout) t 0).bounds
  rw [LType.leaves_eq_map, List.map_map] at hbounds
  simpa using (hbounds _ (List.mem_map_of_mem hx)).2

/-! ### The accesses to a whole value -/

/-- Cutting paddings moves parts unless only that of the last part is cut. -/
theorem offsets_cut_iff (o : ℕ) (l : List (PartKind × ℕ)) :
    offsets PartKind.size o (l.map cut) = offsets PartKind.size o l ↔ ∀ g ∈ (l.map (·.2)).dropLast,
      g < 2 ^ 7 := by
  induction l generalizing o with
  | nil => simp
  | cons p l ih =>
    cases l with
    | nil => simp [offsets, cut]
    | cons q l =>
      have hmod : p.2 % 2 ^ 7 = p.2 ↔ p.2 < 2 ^ 7 := Nat.mod_eq_iff_lt (by decide)
      have htail := ih (o + (p.1.size + p.2))
      simp only [List.map_cons, List.dropLast_cons_cons, List.forall_mem_cons, offsets, cut,
        List.cons.injEq, true_and,
        Prod.mk.injEq, and_true] at htail ⊢
      constructor
      · rintro ⟨hplace, hrest⟩
        have heq : p.2 % 2 ^ 7 = p.2 := by omega
        rw [heq] at hrest
        exact ⟨hmod.mp heq, htail.mp hrest⟩
      · rintro ⟨hlt, hrest⟩
        rw [hmod.mpr hlt]
        exact ⟨rfl, htail.mpr hrest⟩

/-- The parts of leaves have the size that they are accessed with. -/
theorem partBytes_spread {l : List (ℕ × Leaf)} : ∀ x ∈ LType.spread partPieces l,
    partBytes x.2.ty = x.2.size := by
  intro x hx
  obtain ⟨y, -, hx⟩ := List.mem_flatMap.mp hx
  have hkind : x.2 ∈ partPieces.kinds y.2 := by
    have h := List.mem_map_of_mem (f := (·.2)) hx
    rw [snd_offsets] at h
    simpa using h
  cases h : y.2.lower with
  | none => simp [partPieces, h] at hkind
  | some r =>
    rw [kinds_eq h] at hkind
    obtain ⟨i, -, hi⟩ := List.mem_map.mp hkind
    rw [← hi]
    exact partBytes_eq _

/-- Whole values are accessed at the places of the parts in the data layout. -/
structure Whole (t : LType Leaf) (width : Slot → ℕ) : Prop where
  store : storeAccesses t = some ((allSlots (t.leaves dataLayout 0)).map fun z => (z.place, width z))
  load : loadAccesses t = some ((allSlots (t.leaves dataLayout 0)).map fun z => (z.place, width z))
  width_le : ∀ z : Slot, z.Ok → z.width ≤ width z ∧ width z ≤ z.size

/-- **The accesses to a whole value are at the places of its parts.** -/
theorem Consistent.whole {t : LType Leaf} (h : Consistent t) : ∃ width, Whole t width := by
  have hparts (ht : ∀ s, t ≠ .leaf s) : lowerType t = (lowerComplexType t).map .complex := by
    cases t with
    | leaf s => exact absurd rfl (ht s)
    | array n e => rfl
    | struct packed es => rfl
  by_cases hleaf : ∃ s, t = .leaf s
  · obtain ⟨s, rfl⟩ := hleaf
    obtain ⟨ty, num, hs, hnum⟩ := h.fits
    obtain ⟨hload, hstore⟩ := leaf_accesses hs hnum
    have hslots : (allSlots ((LType.leaf s).leaves dataLayout 0)).map (fun z => (z.place, z.width)) =
      (slots s).map Slot.access := by
      simp [allSlots, LType.leaves, Function.comp_def, Slot.shift, Slot.access]
    exact ⟨Slot.width, by rw [hslots, hstore], by rw [hslots, hload], fun z hz => ⟨le_rfl, hz.width⟩⟩
  · obtain ⟨parts, hlower, hview⟩ := lowerComplexType_fits h.fits
    have hextent : complexAccesses parts 0 = (allSlots (t.leaves dataLayout 0)).map Slot.extent := by
      rw [complexAccesses_eq, hview, (offsets_cut_iff 0 _).mpr h.paddings, extent_allSlots, ← h.places,
        ← (LType.pieces_spec partPieces t).1]
      have hbytes := partBytes_spread (l := t.leaves partLayout 0)
      rw [← (LType.pieces_spec partPieces t).1] at hbytes
      exact List.map_congr_left fun x hx => by rw [hbytes x hx]
    have hlowered := hparts fun s hs => hleaf ⟨s, hs⟩
    refine ⟨Slot.size, ?_, ?_, fun z hz => ⟨hz.width, le_rfl⟩⟩
    · rw [storeAccesses, hlowered, hlower]
      exact congrArg some hextent
    · rw [loadAccesses, hlowered, hlower]
      exact congrArg some hextent

/-- The parts are apart. -/
theorem Consistent.apart {t : LType Leaf} (h : Consistent t) {width : Slot → ℕ}
    (hwidth : ∀ z : Slot, z.Ok → width z ≤ z.size) :
    ((allSlots (t.leaves dataLayout 0)).map fun z => (z.place, width z)).Pairwise Apart := by
  have hordered := (offsets_ordered PartKind.size 0 (t.pieces partPieces)).pairwise
  have hspread :
    offsets PartKind.size 0 (t.pieces partPieces) = LType.spread partPieces (t.leaves dataLayout 0) :=
    ((LType.pieces_spec partPieces t).1 0).trans h.places
  rw [hspread, ← extent_allSlots, List.pairwise_map] at hordered
  rw [List.pairwise_map]
  refine hordered.imp_of_mem fun {z z'} hz hz' hapart => ?_
  have hle := hwidth z (allSlots_ok _ z hz)
  have hle' := hwidth z' (allSlots_ok _ z' hz')
  simp only [Apart, Slot.extent] at hapart ⊢
  omega

theorem slot_le {s : Leaf} : ∀ z ∈ slots s, z.place + z.size ≤ partLayout.size s := by
  intro z hz
  cases h : s.lower with
  | none => simp [slots, h] at hz
  | some r =>
    obtain ⟨ty, num⟩ := r
    have hsize : partLayout.size s = num * ty.partSize := by simp [partLayout, h]
    rw [slots, h] at hz
    dsimp only at hz
    rw [hsize]
    split_ifs at hz with hone
    · obtain rfl := List.mem_singleton.mp hz
      simp [hone]
    · obtain ⟨i, hi, rfl⟩ := List.mem_map.mp hz
      rw [← Nat.succ_mul]
      exact Nat.mul_le_mul_right _ (List.mem_range.mp hi)

/-- The parts lie within the value. -/
theorem place_le {t : LType Leaf} : ∀ z ∈ allSlots (t.leaves dataLayout 0),
    z.place + z.size ≤ t.allocSize dataLayout := by
  intro z hz
  obtain ⟨x, hx, hz⟩ := List.mem_flatMap.mp hz
  obtain ⟨y, hy, rfl⟩ := List.mem_map.mp hz
  have hslot := slot_le y hy
  have hfiner := finer.size x.2
  have hbound := ((LType.leaves_ordered (T := dataLayout) t 0).bounds _ (List.mem_map_of_mem hx)).2
  dsimp only [Slot.shift] at hbound ⊢
  omega

/-! ### Leaf by leaf -/

theorem lowBits_append {bits bits' vals vals' : List ℕ} (h : bits.length = vals.length) :
    lowBits (bits ++ bits') (vals ++ vals') = lowBits bits vals ++ lowBits bits' vals' :=
  List.zipWith_append h

theorem loadAll_shift (m : Mem) (p o : ℕ) (l : List Slot) :
    loadAll m p (l.map fun z => (z.shift o).access) = loadAll m (p + o) (l.map Slot.access) := by
  simp [loadAll, Slot.shift, Slot.access, Function.comp_def, add_assoc]

theorem length_partBits (s : Leaf) : (partBits s).length = (slots s).length := by
  rw [← bits_slots, List.length_map]

/-- The registers of the first leaf and those of the others. -/
theorem length_take_drop {path : List ℕ} {s : Leaf} {l : List (List ℕ × Leaf)} {vals : List ℕ}
    (h : vals.length = (((path, s) :: l).flatMap fun x => partBits x.2).length) :
    (vals.take (partBits s).length).length = (partBits s).length ∧
      (vals.drop (partBits s).length).length = (l.flatMap fun x => partBits x.2).length := by
  simp only [List.flatMap_cons, List.length_append] at h
  rw [List.length_take, List.length_drop]
  omega

section
variable (place : List ℕ → ℕ)

/-- The leaves at their places. -/
def placed (l : List (List ℕ × Leaf)) : List (ℕ × Leaf) := l.map fun x => (place x.1, x.2)

/-- All leaves are loaded with the low bits of their registers exactly if each leaf is. -/
theorem deal_load {m : Mem} {p : ℕ} {l : List (List ℕ × Leaf)} {vals : List ℕ}
    (hlen : vals.length = (l.flatMap fun x => partBits x.2).length) :
    lowBits (l.flatMap fun x => partBits x.2) (loadAll m p ((allSlots (placed place l)).map Slot.access)) =
        lowBits (l.flatMap fun x => partBits x.2) vals ↔
      ∀ x ∈ deal l vals,
        lowBits (partBits x.2.1) (loadAll m (p + place x.1) ((slots x.2.1).map Slot.access)) =
        lowBits (partBits x.2.1) x.2.2 := by
  induction l generalizing vals with
  | nil => simp [deal, lowBits]
  | cons x l ih =>
    obtain ⟨path, s⟩ := x
    obtain ⟨hhead, htail⟩ := length_take_drop hlen
    have hsplit := List.take_append_drop (partBits s).length vals
    rw [deal, List.forall_mem_cons, ← ih htail]
    conv_lhs => rw [← hsplit]
    have hslots : (allSlots (placed place ((path, s) :: l))).map Slot.access =
        ((slots s).map fun z => (z.shift (place path)).access) ++
          (allSlots (placed place l)).map Slot.access := by
      simp [placed, allSlots, Function.comp_def]
    have hload : (loadAll m p ((slots s).map fun z => (z.shift (place path)).access)).length =
      (partBits s).length := by
      simp [loadAll, length_partBits]
    rw [hslots, List.flatMap_cons, loadAll, List.map_append, ← loadAll, ← loadAll,
      lowBits_append hload.symm, lowBits_append hhead.symm,
      loadAll_shift]
    constructor
    · intro h
      refine List.append_inj h ?_
      rw [lowBits, lowBits, List.length_zipWith, List.length_zipWith, hhead, loadAll, List.length_map,
        List.length_map,
        ← length_partBits]
    · rintro ⟨h, h'⟩
      rw [h, h']

/-- The stores of a leaf. -/
def leafStores (x : List ℕ × Leaf × List ℕ) : List ((ℕ × ℕ) × ℕ) :=
  ((slots x.2.1).map fun z => (z.shift (place x.1)).access).zip x.2.2

/-- The leaves have the stores of the whole value. -/
theorem deal_stores {l : List (List ℕ × Leaf)} {vals : List ℕ}
    (hlen : vals.length = (l.flatMap fun x => partBits x.2).length) :
    (deal l vals).flatMap (leafStores place) = ((allSlots (placed place l)).map Slot.access).zip vals := by
  induction l generalizing vals with
  | nil => rfl
  | cons x l ih =>
    obtain ⟨path, s⟩ := x
    obtain ⟨hhead, htail⟩ := length_take_drop hlen
    have hslots : (allSlots (placed place ((path, s) :: l))).map Slot.access =
        ((slots s).map fun z => (z.shift (place path)).access) ++
          (allSlots (placed place l)).map Slot.access := by
      simp [placed, allSlots, Function.comp_def]
    rw [deal, List.flatMap_cons, ih htail, hslots]
    conv_rhs => rw [← List.take_append_drop (partBits s).length vals]
    rw [List.zip_append]
    · rfl
    · rw [List.length_map, ← length_partBits, hhead]

end

theorem length_of_mem_deal {l : List (List ℕ × Leaf)} {vals : List ℕ}
    (hlen : vals.length = (l.flatMap fun x => partBits x.2).length) :
    ∀ x ∈ deal l vals, (x.1, x.2.1) ∈ l ∧ x.2.2.length = (slots x.2.1).length := by
  induction l generalizing vals with
  | nil => exact fun x hx => nomatch hx
  | cons y l ih =>
    obtain ⟨path, s⟩ := y
    obtain ⟨hhead, htail⟩ := length_take_drop hlen
    intro x hx
    rw [deal, List.mem_cons] at hx
    rcases hx with rfl | hx
    · exact ⟨List.mem_cons_self, by rw [← length_partBits, hhead]⟩
    · obtain ⟨hmem, hlength⟩ := ih htail x hx
      exact ⟨List.mem_cons_of_mem _ hmem, hlength⟩

theorem storeAll_shift (m : Mem) (p o : ℕ) (l : List Slot) (vals : List ℕ) :
    storeAll m p ((l.map fun z => (z.shift o).access).zip vals) =
      storeAll m (p + o) ((l.map Slot.access).zip vals) := by
  induction l generalizing m vals with
  | nil => rfl
  | cons z l ih =>
    cases vals with
    | nil => rfl
    | cons v vals =>
      simp only [List.map_cons, List.zip_cons_cons, storeAll, ih]
      simp [Slot.shift, Slot.access, add_assoc]

section
variable {t : LType Leaf} (hfits : Fits t)
include hfits

/-- The address of a leaf. -/
theorem compileGep_leaf {idxs : List ℕ → List Index} (hleads : LeadsAll t idxs) (p : ℕ)
    {x : List ℕ × Leaf} (hx : x ∈ t.leafPaths) :
    compileGep p t (idxs x.1) = some (p + LType.pathOffset dataLayout t x.1) := by
  obtain ⟨first, rest, hidxs, hfirst, hpath⟩ := hleads x hx
  rw [hidxs]
  refine compileGep_eq hfirst hpath (lt_of_le_of_lt ?_ (Fits.allocSize_lt hfits))
  have := pathOffset_le t hx
  omega

/-- Each leaf is accessed part by part. -/
theorem accesses_of_mem {x : List ℕ × Leaf} (hx : x ∈ t.leafPaths) :
    loadAccesses (.leaf x.2) = some ((slots x.2).map Slot.access) ∧
      storeAccesses (.leaf x.2) = some ((slots x.2).map Slot.access) := by
  obtain ⟨ty, num, hs, hnum⟩ := LType.All.of_mem t (Fits.leaves t hfits) x hx
  exact leaf_accesses hs hnum

/-- Storing leaf by leaf makes the stores of all leaves. -/
theorem storeLeaves_eq {idxs : List ℕ → List Index} (hleads : LeadsAll t idxs) (p : ℕ)
    {order : List (List ℕ × Leaf × List ℕ)}
    (horder : ∀ x ∈ order, (x.1, x.2.1) ∈ t.leafPaths ∧ x.2.2.length = (slots x.2.1).length) (m : Mem) :
    storeLeaves p t idxs order m =
      some (storeAll m p (order.flatMap (leafStores (LType.pathOffset dataLayout t)))) := by
  induction order generalizing m with
  | nil => rfl
  | cons x order ih =>
    obtain ⟨path, s, vals⟩ := x
    obtain ⟨hmem, hlen⟩ := horder _ List.mem_cons_self
    have hgep := compileGep_leaf hfits hleads p hmem
    have hstore := (accesses_of_mem hfits hmem).2
    dsimp only at hlen hgep hstore
    rw [storeLeaves, hgep, List.flatMap_cons, storeAll_append, leafStores, storeAll_shift,
      ← ih (fun x hx => horder x (List.mem_cons_of_mem _ hx))]
    simp [compileStore, hstore, hlen]

end

/-- The leaves in the data layout, by the indices that lead to them. -/
theorem leaves_placed (t : LType Leaf) :
    t.leaves dataLayout 0 = placed (LType.pathOffset dataLayout t) t.leafPaths := by
  simp [LType.leaves_eq_map, placed]

/-! ### When the accesses agree -/

section
variable {t : LType Leaf} (h : Consistent t) {width : Slot → ℕ} (hwhole : Whole t width)

theorem Whole.bits_le (hwhole : Whole t width) (z : Slot) (hz : z ∈ allSlots (t.leaves dataLayout 0)) :
    z.bits ≤ 8 * width z := by
  have hok := allSlots_ok _ z hz
  have hbits := hok.bits
  have hwidth := (hwhole.width_le z hok).1
  omega

theorem Whole.compileStore (hwhole : Whole t width) {vals : List ℕ}
    (hlen : vals.length = (valueBits t).length) (m : Mem) (p : ℕ) :
    compileStore t vals m p =
      some (storeAll m p
        (((allSlots (t.leaves dataLayout 0)).map fun z => (z.place, width z)).zip vals)) := by
  rw [valueBits_eq dataLayout t 0, List.length_map] at hlen
  simp [LoadStore.compileStore, hwhole.store, hlen]

include h hwhole

/-- A value is loaded as it was stored. -/
theorem Consistent.reload {m : Mem} {p : ℕ} {vals : List ℕ} (hlen : vals.length = (valueBits t).length) :
    ∃ m' vals', LoadStore.compileStore t vals m p = some m' ∧ compileLoad t m' p = some vals' ∧
      lowBits (valueBits t) vals' = lowBits (valueBits t) vals := by
  refine ⟨_, _, hwhole.compileStore hlen m p, by rw [compileLoad, hwhole.load, Option.map_some], ?_⟩
  rw [valueBits_eq dataLayout t 0] at hlen ⊢
  exact loadAll_storeAll (fun z hz => ⟨hwhole.bits_le z hz, hwhole.bits_le z hz⟩)
    (h.apart fun z hz => (hwhole.width_le z hz).2)
    (by simpa using hlen) (List.Perm.refl _)

/-- A leaf of a stored value is loaded from its address. -/
theorem Consistent.leaf {m : Mem} {p : ℕ} {vals : List ℕ} {m' : Mem}
    (hlen : vals.length = (valueBits t).length)
    (hm : LoadStore.compileStore t vals m p = some m') {idxs : List ℕ → List Index} (hleads : LeadsAll t idxs)
    {x : List ℕ × Leaf × List ℕ} (hx : x ∈ deal t.leafPaths vals) :
    ∃ a vals', compileGep p t (idxs x.1) = some a ∧ compileLoad (.leaf x.2.1) m' a = some vals' ∧
      lowBits (partBits x.2.1) vals' = lowBits (partBits x.2.1) x.2.2 := by
  rw [hwhole.compileStore hlen] at hm
  cases hm
  have hmem := (length_of_mem_deal hlen x hx).1
  refine ⟨_, _,
    compileGep_leaf h.fits hleads p
    hmem, by rw [compileLoad, (accesses_of_mem h.fits hmem).1, Option.map_some], ?_⟩
  refine (deal_load (LType.pathOffset dataLayout t) hlen).mp ?_ x hx
  rw [← leaves_placed]
  have hbits : valueBits t = (allSlots (t.leaves dataLayout 0)).map Slot.bits := valueBits_eq dataLayout t 0
  rw [hbits, List.length_map] at hlen
  change lowBits (valueBits t) _ = lowBits (valueBits t) _
  rw [hbits]
  exact loadAll_storeAll (fun z hz => ⟨hwhole.bits_le z hz, (allSlots_ok _ z hz).bits⟩)
    (h.apart fun z hz => (hwhole.width_le z hz).2)
    hlen (List.Perm.refl _)

/-- A value stored leaf by leaf, in any order, is loaded. -/
theorem Consistent.leafwise {m : Mem} {p : ℕ} {vals : List ℕ} (hlen : vals.length = (valueBits t).length)
    {idxs : List ℕ → List Index} (hleads : LeadsAll t idxs) {order : List (List ℕ × Leaf × List ℕ)}
    (hperm : order.Perm (deal t.leafPaths vals)) :
    ∃ m' vals', storeLeaves p t idxs order m = some m' ∧ compileLoad t m' p = some vals' ∧
      lowBits (valueBits t) vals' = lowBits (valueBits t) vals := by
  have horder : ∀ x ∈ order, (x.1, x.2.1) ∈ t.leafPaths ∧ x.2.2.length = (slots x.2.1).length :=
    fun x hx => length_of_mem_deal hlen x (hperm.mem_iff.mp hx)
  refine ⟨_, _,
    storeLeaves_eq h.fits hleads p horder m, by rw [compileLoad, hwhole.load, Option.map_some], ?_⟩
  have hstores := hperm.flatMap_right (leafStores (LType.pathOffset dataLayout t))
  rw [deal_stores _ hlen, ← leaves_placed] at hstores
  rw [valueBits_eq dataLayout t 0] at hlen ⊢
  exact loadAll_storeAll (fun z hz => ⟨(allSlots_ok _ z hz).bits, hwhole.bits_le z hz⟩)
    (h.apart fun z hz => hz.width)
    (by simpa using hlen) hstores

omit h in
/-- A store leaves the bytes outside the value alone. -/
theorem Whole.within {m : Mem} {p : ℕ} {vals : List ℕ} {m' : Mem}
    (hm : LoadStore.compileStore t vals m p = some m') {x : ℕ}
    (hx : x < p ∨ p + t.allocSize dataLayout ≤ x) : m' x = m x := by
  simp only [LoadStore.compileStore, hwhole.store, Option.bind_eq_bind, Option.bind_some] at hm
  split_ifs at hm
  cases hm
  refine storeAll_of_not_mem fun y hy => ?_
  obtain ⟨z, hz, hzy⟩ := List.mem_map.mp (List.of_mem_zip hy).1
  have hplace := place_le z hz
  have hwidth := (hwhole.width_le z (allSlots_ok _ z hz)).2
  rw [← hzy]
  dsimp only
  omega

end

/-- The accesses of types whose parts lie where the data layout has them agree. -/
theorem Consistent.agree {t : LType Leaf} (h : Consistent t) : Agree t := by
  obtain ⟨width, hwhole⟩ := h.whole
  constructor
  · intro m p vals hlen
    exact h.reload hwhole hlen
  · intro m p vals m' hlen hm idxs hleads x hx
    exact h.leaf hwhole hlen hm hleads hx
  · intro m p vals hlen idxs hleads order hperm
    exact h.leafwise hwhole hlen hleads hperm
  · intro m p vals m' hm x hx
    exact hwhole.within hm hx

theorem exists_leadsAll (t : LType Leaf) : ∃ idxs, LeadsAll t idxs := by
  classical
  refine ⟨fun path => if h : ∃ rest, Leads t path rest then .const 0 :: h.choose else [], fun x hx => ?_⟩
  have hex := exists_leads t x hx
  exact ⟨.const 0, hex.choose, dif_pos hex, .inl rfl, hex.choose_spec⟩

/-- A type with one number in a register for each part is within the limits. -/
theorem fits_of_accesses {t : LType Leaf} {accesses : List (ℕ × ℕ)} (h : storeAccesses t = some accesses)
    (hlen : accesses.length = t.numPieces partPieces) : Fits t := by
  have hparts {parts : List Part} (hlower : lowerComplexType t = some parts)
    (hacc : complexAccesses parts 0 = accesses) : Fits t := by
    refine fits_of_length hlower ?_
    rw [← hlen, ← hacc, complexAccesses_eq]
    simp
  have hcomplex (hlower : lowerType t = (lowerComplexType t).map .complex) : Fits t := by
    rw [storeAccesses, hlower, Option.map_map, Option.map_eq_some_iff] at h
    obtain ⟨parts, hparts', hacc⟩ := h
    exact hparts hparts' hacc
  cases t with
  | array n e => exact hcomplex rfl
  | struct packed es => exact hcomplex rfl
  | leaf s =>
    have hsimple {ty : BasicTy} (hs : s.lower = some (ty, ty.partCount)) : Fits (.leaf s) := by
      refine ⟨ty, _, hs, ?_⟩
      cases ty <;> decide
    cases s with
    | vec elem n ok =>
      cases hvec : Leaf.lowerVectorType elem n with
      | none => exact hcomplex (by simp [lowerType, Leaf.lowerSimpleType, hvec])
      | some r =>
        obtain ⟨ty, num, inc⟩ := r
        cases inc with
        | true => exact hcomplex (by simp [lowerType, Leaf.lowerSimpleType, hvec])
        | false =>
          have hone : num = 1 := by
            by_cases helem : elem = .int 1
            · subst helem
              exact (lowerVectorType_bits ok hvec).1
            · exact ((lowerVectorType_dense helem hvec).2 rfl).1
          exact ⟨ty, num, by simp [Leaf.lower, hvec], by rw [hone]; decide⟩
    | int width ok => exact hsimple rfl
    | _ => exact hsimple rfl

/-- The parts of a type whose accesses agree are at the places of the data layout. -/
theorem Agree.places {t : LType Leaf} (h : Agree t) (hfits : Fits t) {accesses : List (ℕ × ℕ)}
    (hstore : storeAccesses t = some accesses)
    (hlen : accesses.length = (valueBits t).length) :
    accesses.map (·.1) = (LType.spread partPieces (t.leaves dataLayout 0)).map (·.1) := by
  obtain ⟨idxs, hleads⟩ := exists_leadsAll t
  set z := allSlots (t.leaves dataLayout 0) with hz
  have hbits : valueBits t = z.map Slot.bits := valueBits_eq dataLayout t 0
  have hplaces :
    (z.map Slot.access).map (·.1) = (LType.spread partPieces (t.leaves dataLayout 0)).map (·.1) := by
    have hextent := congrArg (List.map (·.1)) (extent_allSlots (t.leaves dataLayout 0))
    rw [List.map_map, List.map_map] at hextent
    rw [List.map_map]
    exact hextent
  rw [← hplaces]
  refine places_of_loadAll (a := 0) hlen (by rw [hbits]; simp) ?_ fun vals hvals => ?_
  · rw [hbits]
    intro b hb
    obtain ⟨y, hy, rfl⟩ := List.mem_map.mp hb
    exact (allSlots_ok _ y hy).pos
  · have hm : compileStore t vals (fun _ => 0) 0 = some (storeAll (fun _ => 0) 0 (accesses.zip vals)) := by
      simp [compileStore, hstore, hlen, hvals]
    rw [hz, leaves_placed]
    refine (deal_load (LType.pathOffset dataLayout t) hvals).mpr fun x hx => ?_
    obtain ⟨a, vals', hgep, hload, hlow⟩ := h.leaf _ _ vals _ hvals hm idxs hleads x hx
    have hmem := (length_of_mem_deal hvals x hx).1
    rw [compileGep_leaf hfits hleads 0 hmem] at hgep
    rw [compileLoad, (accesses_of_mem hfits hmem).1] at hload
    cases hgep
    cases hload
    exact hlow

/-- Of a type whose accesses agree, the parts lie where the data layout has them. -/
theorem Agree.consistent {t : LType Leaf} (h : Agree t) : Consistent t := by
  obtain ⟨m', vals', hm, -, -⟩ :=
    h.reload (fun _ => 0) 0 (List.replicate (valueBits t).length 0) List.length_replicate
  obtain ⟨accesses, hstore, hlen⟩ :
      ∃ accesses, storeAccesses t = some accesses ∧ accesses.length = (valueBits t).length := by
    obtain ⟨accesses, hstore, hm⟩ := Option.bind_eq_some_iff.mp hm
    split_ifs at hm with hlen
    exact ⟨accesses, hstore, by simpa using hlen⟩
  have hfits := fits_of_accesses hstore (by rw [hlen, length_valueBits])
  have hleaf (s : Leaf) (ht : t = .leaf s) : Consistent t := by
    subst ht
    refine ⟨hfits, rfl, fun g hg => ?_⟩
    have hzero := List.mem_of_mem_dropLast hg
    simp only [LType.pieces, List.map_map, List.mem_map] at hzero
    obtain ⟨k, -, rfl⟩ := hzero
    exact Nat.two_pow_pos 7
  have hcomplex (ht : lowerType t = (lowerComplexType t).map .complex) : Consistent t := by
    obtain ⟨parts, hlower, hview⟩ := lowerComplexType_fits hfits
    have hplaces := h.places hfits hstore hlen
    rw [storeAccesses, ht, hlower] at hstore
    obtain rfl : complexAccesses parts 0 = accesses := Option.some.inj hstore
    rw [complexAccesses_eq, hview, List.map_map] at hplaces
    have hcut : List.Forall₂ LType.Before (offsets PartKind.size 0 ((t.pieces partPieces).map cut))
        (offsets PartKind.size 0 (t.pieces partPieces)) := by
      refine LType.offsets_before PartKind.size le_rfl ?_
      rw [List.forall₂_map_left_iff]
      exact List.forall₂_same.mpr fun p _ => ⟨rfl, Nat.mod_le ..⟩
    have hspec := (LType.pieces_spec partPieces t).1 0
    have hbefore := LType.spread_before partPieces ((finer.leaves_le t).2 0 0 le_rfl)
    rw [← hspec] at hbefore
    obtain ⟨hpads, hsame⟩ := LType.eq_of_before hcut hbefore hplaces
    exact ⟨hfits, hspec.symm.trans hsame, (offsets_cut_iff 0 _).mp hpads⟩
  cases t with
  | leaf s => exact hleaf s rfl
  | array n e => exact hcomplex rfl
  | struct packed es => exact hcomplex rfl

/-- **The accesses to memory of a type agree exactly if** its parts lie where the data
layout has them. -/
theorem agree_iff (t : LType Leaf) : Agree t ↔ Consistent t := ⟨Agree.consistent, Consistent.agree⟩

theorem three_ok : 0 < 3 := by decide

/-- `{ <3 x i32>, i32 }`. -/
def vectorAndInt : LType Leaf :=
  .struct false [.leaf (.vec (.int 32) 3 three_ok), .leaf (.int 32 Leaf.i32_ok)]

/-- The number behind the vector is stored at 12 and loaded from its address, which is 16. -/
theorem not_agree_vectorAndInt : storeAccesses vectorAndInt = some [(0, 4), (4, 4), (8, 4), (12, 4)] ∧
    compileGep 0 vectorAndInt [.const 0, .const 1] = some 16 ∧
    ((compileStore vectorAndInt [1, 2, 3, 4] (fun _ => 0) 0).bind fun m =>
      compileLoad (.leaf (.int 32 (by decide))) m 16) = some [0] ∧
    ¬ Agree vectorAndInt := by
  refine ⟨by decide +kernel, by decide +kernel, by decide +kernel, fun h => ?_⟩
  have hplaces := h.consistent.places
  revert hplaces
  decide +kernel

end Tpde.LoadStore
