import Mathlib
import Tpde.Library.TypeLayout

/-!
# Lowering of types

`lower_complex_type` flattens an LLVM type to parts: one for a scalar (two for `i128`),
with the bytes of padding after each, in 7 bits. Loads, stores and calls walk the parts
and add up sizes and paddings.

For types with at most 65535 parts and no empty array of anything, the parts are the
pieces of the layout (`append_pieces`). An empty array leaves the parts of its element
behind, the length of an array is cut to 32 bits, and a padding is cut to 7
(`lowerComplexType_iff`).
-/

namespace Tpde.ComplexTypes

open Ranges TypeLayout

/-! ### Leaves and their parts -/

/-- `LLVMBasicValType`, of the values that have a single type. -/
inductive BasicTy where
  | i8 | i16 | i32 | i64 | ptr | i128 | f32 | f64 | f128
  | v8i8 | v16i8 | v4i16 | v8i16 | v2i32 | v4i32 | v2i64 | v2f32 | v4f32 | v2f64
  | v8i1 | v16i1 | v32i1 | v64i1
  deriving DecidableEq, Repr

namespace BasicTy

/-- `basic_ty_part_size`. -/
def partSize : BasicTy → ℕ
  | i8 | v8i1 => 1
  | i16 | v16i1 => 2
  | i32 | v32i1 | f32 => 4
  | i64 | v64i1 | ptr | i128 | f64 | v8i8 | v4i16 | v2i32 | v2f32 => 8
  | f128 | v16i8 | v8i16 | v4i32 | v2i64 | v4f32 | v2f64 => 16

/-- `basic_ty_part_count`. -/
def partCount (ty : BasicTy) : ℕ := if ty = i128 then 2 else 1

end BasicTy

/-- The element of a vector. -/
inductive VecElem where
  | int (width : ℕ)
  | float
  | double
  | ptr
  deriving DecidableEq, Repr

/-- The types that arrays and structs are built from: integers up to 64 bits, `i128`,
floating point numbers, pointers and vectors. -/
inductive Leaf where
  | int (width : ℕ) (ok : 0 < width ∧ width ≤ 64)
  | i128
  | float
  | double
  | fp128
  | ptr
  | vec (elem : VecElem) (numElts : ℕ) (ok : 0 < numElts)
  deriving DecidableEq, Repr

namespace Leaf

theorem i32_ok : 0 < 32 ∧ 32 ≤ 64 := by decide

/-- `lower_simple_type`. -/
def lowerSimpleType : Leaf → Option BasicTy
  | int width _ => some (if width ≤ 8 then .i8 else if width ≤ 16 then .i16 else if width ≤ 32 then .i32
    else .i64)
  | i128 => some .i128
  | float => some .f32
  | double => some .f64
  | fp128 => some .f128
  | ptr => some .ptr
  | vec .. => none

/-- `lower_vector_type`: the type of the parts, their number, and whether the layout in
registers is not that of LLVM. -/
def lowerVectorType (elem : VecElem) (n : ℕ) : Option (BasicTy × ℕ × Bool) :=
  match elem with
  | .int 1 =>
    if 64 < n then none
    else
      let off := Nat.log2 ((n - 1) / 4 ||| 1)
      some (if off = 0 then .v8i1 else if off = 1 then .v16i1 else if off = 2 then .v32i1 else .v64i1,
        1, false)
  | .int 8 =>
    if n % 16 = 0 then some (.v16i8, n / 16, n != 16) else if n % 8 = 0 then some (.v8i8, n / 8, n != 8)
      else some (.i8, n, true)
  | .int 16 =>
    if n % 8 = 0 then some (.v8i16, n / 8, n != 8) else if n % 4 = 0 then some (.v4i16, n / 4, n != 4)
      else some (.i16, n, true)
  | .int 32 =>
    if n % 4 = 0 then some (.v4i32, n / 4, n != 4) else if n % 2 = 0 then some (.v2i32, n / 2, n != 2)
      else some (.i32, n, true)
  | .int 64 => if n % 2 = 0 then some (.v2i64, n / 2, n != 2) else some (.i64, n, true)
  | .int _ => none
  | .float =>
    if n % 4 = 0 then some (.v4f32, n / 4, n != 4) else if n % 2 = 0 then some (.v2f32, n / 2, n != 2)
      else some (.f32, n, true)
  | .double => if n % 2 = 0 then some (.v2f64, n / 2, n != 2) else some (.f64, n, true)
  | .ptr => if n % 2 = 0 then some (.v2i64, n / 2, n != 2) else some (.i64, n, true)

/-- The parts of a leaf: their type and their number. -/
def lower : Leaf → Option (BasicTy × ℕ)
  | vec elem n _ => (lowerVectorType elem n).map fun r => (r.1, r.2.1)
  | s => s.lowerSimpleType.map fun ty => (ty, ty.partCount)

/-- A scalar, not a vector. -/
def IsScalar : Leaf → Prop
  | vec .. => False
  | fp128 => False
  | _ => True

/-- The bits of an element of a vector. -/
def elemBits : VecElem → ℕ
  | .int width => width
  | .float => 32
  | .double => 64
  | .ptr => 64

/-- The least power of two that is not less. -/
def pow2Ceil (n : ℕ) : ℕ := 2 ^ Nat.clog 2 n

/-- The bytes that a value of the type takes. -/
def storeSize : Leaf → ℕ
  | int width _ => (width + 7) / 8
  | i128 => 16
  | float => 4
  | double => 8
  | fp128 => 16
  | ptr => 8
  | vec elem n _ => (n * elemBits elem + 7) / 8

/-- The natural alignment: the next power of two of the size. -/
def abiAlign (s : Leaf) : ℕ := pow2Ceil s.storeSize

/-- `getTypeAllocSize`. -/
def allocSize (s : Leaf) : ℕ := alignUp s.storeSize s.abiAlign

theorem abiAlign_pos (s : Leaf) : 0 < s.abiAlign := by
  unfold abiAlign pow2Ceil
  positivity

end Leaf

/-- The data layout with natural alignments. -/
def dataLayout : Table Leaf where
  size := Leaf.allocSize
  align := Leaf.abiAlign
  align_pos := Leaf.abiAlign_pos
  align_dvd _ := dvd_alignUp ..

/-! ### The lowering -/

/-- `LLVMComplexPart::MaxLength`. -/
def maxLength : ℕ := 65535

/-- What a part is: its type, its size, and whether it is the last one of its value. -/
structure PartKind where
  ty : BasicTy
  size : ℕ
  endsValue : Bool
  deriving DecidableEq, Repr

/-- `LLVMComplexPart`. The padding has 7 bits, the changes of the nesting depth have 4. -/
structure Part extends PartKind where
  padAfter : ℕ
  nestInc : ℕ
  nestDec : ℕ
  deriving DecidableEq, Repr

namespace Part

def addPad (d : ℕ) (p : Part) : Part := { p with padAfter := (p.padAfter + d) % 2 ^ 7 }

def incNest (p : Part) : Part := { p with nestInc := (p.nestInc + 1) % 2 ^ 4 }

def decNest (p : Part) : Part := { p with nestDec := (p.nestDec + 1) % 2 ^ 4 }

/-- A part without what describes the nesting. -/
def view (p : Part) : PartKind × ℕ := (p.toPartKind, p.padAfter)

end Part

/-- The parts so far, and whether the type cannot be lowered. -/
structure State where
  parts : List Part
  invalid : Bool
  deriving DecidableEq, Repr

/-- The parts of `num` equal values of a type, or of one that needs several. -/
def leafKinds (ty : BasicTy) (num : ℕ) : List PartKind := (List.range num).map fun i =>
    ⟨ty, ty.partSize, i + 1 == num⟩

mutual
/-- `complex_types_append`: the new state, the size and the alignment. It fails where the
copies of an array's element would be written past the end of the parts and where an
assertion fails. Sizes of types with few enough parts are far below `2 ^ 32`. -/
def complexTypesAppend : LType Leaf → State → Option (State × ℕ × ℕ)
  | .leaf s, st =>
    match s.lower with
    | some (ty, num) =>
      let size := ty.partSize
      let align := size * ty.partCount
      let parts := st.parts ++ (leafKinds ty num).map fun k => ⟨k, 0, 0, 0⟩
      some (⟨parts, st.invalid || maxLength < num⟩, num * size, align)
    | none => some (⟨st.parts, true⟩, 0, 1)
  | .array n e, st => do
    let start := st.parts.length
    let (st, sz, algn) ← complexTypesAppend e st
    let len := st.parts.length - start
    let nelem := n % 2 ^ 32
    let partCount := nelem * len % 2 ^ 32
    if partCount = 0 then some (st, 0, algn)
    else if partCount < nelem * len then none
    else
      let parts := st.parts.take start ++ (List.replicate nelem (st.parts.drop start)).flatten
      let parts := (parts.modify start Part.incNest).modify (start + partCount - 1) Part.decNest
      some (⟨parts, st.invalid || maxLength < partCount⟩, nelem * sz, algn)
  | .struct packed es, st => do
    let start := st.parts.length
    let (st, size, align) ← appendElems packed es st 0 1
    let end' := st.parts.length - 1
    let oldSize := size
    let size := alignUp size align
    if 0 < size then
      let parts := (st.parts.modify start Part.incNest).modify end' Part.decNest
      let parts := parts.modify end' (Part.addPad (size - oldSize))
      some (⟨parts, st.invalid || maxLength < end' - start + 1⟩, size, align)
    else some (st, size, align)
/-- The loop over the members: `size` and `align` are those of the members so far. With no
part before, the size is 0 and nothing is padded. -/
def appendElems (packed : Bool) : List (LType Leaf) → State → ℕ → ℕ → Option (State × ℕ × ℕ)
  | [], st, size, align => some (st, size, align)
  | e :: es, st, size, align => do
    let prev := st.parts.length - 1
    let (st, elSize, elAlign) ← complexTypesAppend e st
    if elSize % elAlign ≠ 0 then none
    else
      let elAlign := if packed then 1 else elAlign
      let oldSize := size
      let size := alignUp size elAlign
      let st :=
        if size ≠ oldSize then { st with parts := st.parts.modify prev (Part.addPad (size - oldSize)) }
          else st
      appendElems packed es st (size + elSize) (max align elAlign)
end

/-- `lower_complex_type`: the parts, unless the type is reported as unsupported. -/
def lowerComplexType (t : LType Leaf) : Option (List Part) := do
  let (st, _, _) ← complexTypesAppend t ⟨[], false⟩
  if st.invalid || maxLength < st.parts.length then none else some st.parts

example : lowerComplexType (.struct false [.leaf (.int 32 (by decide)), .leaf (.int 8 (by decide))]) =
    some [⟨⟨.i32, 4, true⟩, 0, 1, 0⟩, ⟨⟨.i8, 1, true⟩, 3, 0, 1⟩] := by
  decide +kernel

/-! ### The layout of the parts -/

namespace Leaf

/-- Only `i128` has parts of that type, and two. -/
theorem lower_i128 {s : Leaf} {num : ℕ} (h : s.lower = some (.i128, num)) : num = 2 := by
  cases s with
  | vec elem n ok =>
    simp only [lower, lowerVectorType, Option.map_eq_some_iff] at h
    obtain ⟨⟨ty, num', inc⟩, hvec, heq⟩ := h
    obtain ⟨rfl, rfl⟩ := Prod.mk.inj heq
    split at hvec <;> (try split_ifs at hvec) <;> simp_all
  | int width ok =>
    simp only [lower, lowerSimpleType, Option.map_some, Option.some.injEq, Prod.mk.injEq] at h
    have hty := h.1
    split_ifs at hty
  | i128 =>
    simp only [lower, lowerSimpleType, Option.map_some, Option.some.injEq, Prod.mk.injEq] at h
    exact h.2.symm
  | _ => cases h

/-- The number of parts is a multiple of those of a value. -/
theorem partCount_dvd {s : Leaf} {ty : BasicTy} {num : ℕ} (h : s.lower = some (ty, num)) :
    ty.partCount ∣ num := by
  by_cases hty : ty = .i128
  · subst hty
    rw [lower_i128 h]
    decide
  · simp [BasicTy.partCount, hty]

end Leaf

theorem BasicTy.partSize_pos (ty : BasicTy) : 0 < ty.partSize := by
  cases ty <;> decide

theorem BasicTy.partCount_pos (ty : BasicTy) : 0 < ty.partCount := by
  cases ty <;> decide

/-- What the lowering takes for the size and alignment of a leaf. -/
def partLayout : Table Leaf where
  size s := (s.lower.map fun r => r.2 * r.1.partSize).getD 0
  align s := (s.lower.map fun r => r.1.partSize * r.1.partCount).getD 1
  align_pos s := by
    cases s.lower with
    | none => exact one_pos
    | some r => exact Nat.mul_pos r.1.partSize_pos r.1.partCount_pos
  align_dvd s := by
    cases h : s.lower with
    | none => exact one_dvd _
    | some r =>
      obtain ⟨ty, num⟩ := r
      simpa [mul_comm] using Nat.mul_dvd_mul_left ty.partSize (Leaf.partCount_dvd h)

theorem sum_leafKinds (ty : BasicTy) (num : ℕ) :
    ((leafKinds ty num).map PartKind.size).sum = num * ty.partSize := by
  simp [leafKinds, Function.comp_def]

/-- The parts as pieces of the layout. -/
def partPieces : Pieces partLayout PartKind where
  size := PartKind.size
  kinds s := (s.lower.map fun r => leafKinds r.1 r.2).getD []
  sum_kinds s := by
    cases h : s.lower with
    | none => simp [partLayout, h]
    | some r => simp [partLayout, h, sum_leafKinds]

/-- A piece with its padding in 7 bits. -/
def cut (p : PartKind × ℕ) : PartKind × ℕ := (p.1, p.2 % 2 ^ 7)

/-! ### Types within the limits -/

mutual
/-- No leaf, array or struct has more parts than a type may have, and only arrays of
nothing are empty. -/
def Fits : LType Leaf → Prop
  | .leaf s => ∃ ty num, s.lower = some (ty, num) ∧ num ≤ maxLength
  | .array n e => Fits e ∧ (e.hasLeaf = true → 0 < n ∧ n * e.numPieces partPieces ≤ maxLength)
  | .struct _ es => FitMembers es ∧ LType.numMemberPieces partPieces es ≤ maxLength
def FitMembers : List (LType Leaf) → Prop
  | [] => True
  | e :: es => Fits e ∧ FitMembers es
end

theorem Leaf.lower_pos {s : Leaf} {ty : BasicTy} {num : ℕ} (h : s.lower = some (ty, num)) : 0 < num := by
  cases s with
  | vec elem n ok =>
    simp only [lower, Option.map_eq_some_iff] at h
    obtain ⟨⟨ty', num', inc⟩, hvec, heq⟩ := h
    obtain ⟨rfl, rfl⟩ := Prod.mk.inj heq
    change 0 < num'
    unfold lowerVectorType at hvec
    split at hvec <;> (try split_ifs at hvec) <;>
      simp only [reduceCtorEq, Option.some.injEq, Prod.mk.injEq] at hvec <;>
      (obtain ⟨-, rfl, -⟩ := hvec; omega)
  | _ =>
    simp only [lower, lowerSimpleType, Option.map_some, Option.some.injEq, Prod.mk.injEq] at h
    rw [← h.2]
    exact BasicTy.partCount_pos _

/-- A type within the limits that has a leaf has a part. -/
theorem Fits.numPieces_pos (t : LType Leaf) : Fits t → t.hasLeaf = true → 0 < t.numPieces partPieces := by
  induction t using LType.induction_on (q := fun es => FitMembers es → LType.membersHaveLeaf es = true →
      0 < LType.numMemberPieces partPieces es) with
  | leaf s =>
    rintro ⟨ty, num, hs, -⟩ -
    simpa [LType.numPieces, partPieces, hs, leafKinds] using Leaf.lower_pos hs
  | array n e ih =>
    rintro ⟨he, hn⟩ h
    exact Nat.mul_pos (hn h).1 (ih he h)
  | struct packed es ih =>
    rintro ⟨hes, -⟩ h
    exact ih hes h
  | nil h h' => cases h'
  | cons e es ih ihs h h' =>
    rw [LType.membersHaveLeaf, Bool.or_eq_true] at h'
    rw [LType.numMemberPieces]
    rcases h' with h' | h'
    · have := ih h.1 h'
      omega
    · have := ihs h.2 h'
      omega

theorem view_incNest (l : List Part) (i : ℕ) : (l.modify i Part.incNest).map Part.view = l.map Part.view :=
  (map_modify (g := Part.view) (h := id) Part.incNest (fun _ => rfl) l i).trans (List.modify_id ..)

theorem view_decNest (l : List Part) (i : ℕ) : (l.modify i Part.decNest).map Part.view = l.map Part.view :=
  (map_modify (g := Part.view) (h := id) Part.decNest (fun _ => rfl) l i).trans (List.modify_id ..)

/-- Padding the last part pads the last piece. -/
theorem view_addPad {l : List Part} {acc : List (PartKind × ℕ)} (h : l.map Part.view = acc.map cut) (d : ℕ) :
    (l.modify (l.length - 1) (Part.addPad d)).map Part.view = (padLast d acc).map cut := by
  have hlen : l.length = acc.length := by simpa using congrArg List.length h
  rw [map_modify (h := fun p => (p.1, (p.2 + d) % 2 ^ 7)) _ (fun _ => rfl), h, padLast, hlen]
  refine (map_modify (h := fun p => (p.1, (p.2 + d) % 2 ^ 7)) _ (fun p => ?_) acc _).symm
  simp [cut]

/-- **Of a type within the limits, the parts are the pieces of its layout**, with the
padding in 7 bits. -/
theorem append_pieces (t : LType Leaf) : Fits t → ∀ st, ∃ ps,
    complexTypesAppend t st = some (⟨st.parts ++ ps, st.invalid⟩, t.allocSize partLayout,
      t.abiAlign partLayout) ∧
      ps.map Part.view = (t.pieces partPieces).map cut := by
  induction t using LType.induction_on (q := fun es => FitMembers es → ∀ packed pre cur inv acc o align,
      cur.map Part.view = acc.map cut → total PartKind.size acc = o → 0 < align → ∃ cur',
        appendElems packed es ⟨pre ++ cur, inv⟩ o align =
          some (⟨pre ++ cur', inv⟩, (LType.structBody partPieces packed es acc o align).2) ∧
        cur'.map Part.view = (LType.structBody partPieces packed es acc o align).1.map cut) with
  | leaf s =>
    rintro ⟨ty, num, hs, hnum⟩ st
    refine ⟨(leafKinds ty num).map fun k => ⟨k, 0, 0, 0⟩, ?_, ?_⟩
    · simp [complexTypesAppend, hs, LType.allocSize, LType.abiAlign, partLayout, Nat.not_lt.mpr hnum]
    · simp [LType.pieces, partPieces, hs, Part.view, cut]
  | array n e ih =>
    rintro ⟨he, hn⟩ st
    obtain ⟨ps, happend, hview⟩ := ih he st
    have hlen : ps.length = e.numPieces partPieces := by
      rw [← LType.length_pieces]
      simpa using congrArg List.length hview
    have hlen' : (st.parts ++ ps).length - st.parts.length = e.numPieces partPieces := by simp [hlen]
    cases hleaf : e.hasLeaf with
    | false =>
      have hzero := LType.numPieces_of_hasLeaf partPieces e hleaf
      obtain rfl : ps = [] := List.eq_nil_of_length_eq_zero (hlen.trans hzero)
      have hpieces := List.length_eq_zero_iff.mp ((LType.length_pieces partPieces e).trans hzero)
      refine ⟨[], ?_, by simp [LType.pieces, hpieces]⟩
      simp [complexTypesAppend, happend, LType.allocSize, LType.abiAlign,
        LType.allocSize_of_hasLeaf partPieces e hleaf]
    | true =>
      obtain ⟨hpos, hmax⟩ := hn hleaf
      have hparts := Fits.numPieces_pos e he hleaf
      have hle : n ≤ n * e.numPieces partPieces := Nat.le_mul_of_pos_right n hparts
      have hmod : n % 2 ^ 32 = n := Nat.mod_eq_of_lt (by unfold maxLength at hmax; omega)
      have hcount : n * e.numPieces partPieces % 2 ^ 32 = n * e.numPieces partPieces :=
        Nat.mod_eq_of_lt (by unfold maxLength at hmax; omega)
      have hne : n * e.numPieces partPieces ≠ 0 := by omega
      set copies := (List.replicate n ps).flatten
      have hcopies : copies.map Part.view = ((LType.array n e).pieces partPieces).map cut := by
        simp [copies, LType.pieces, List.map_flatten, hview]
      refine ⟨(copies.modify 0 Part.incNest).modify (n * e.numPieces partPieces - 1) Part.decNest, ?_, ?_⟩
      · have hfirst := modify_append Part.incNest st.parts copies 0
        have hlast :=
          modify_append Part.decNest st.parts (copies.modify 0 Part.incNest) (n * e.numPieces partPieces - 1)
        rw [Nat.add_zero] at hfirst
        rw [← Nat.add_sub_assoc (by omega)] at hlast
        simp only [complexTypesAppend, happend, Option.bind_eq_bind, Option.bind_some, hlen', hmod,
          hcount, hne, if_false, lt_irrefl,
          List.take_left, List.drop_left, LType.allocSize, LType.abiAlign]
        simp only [Nat.not_lt.mpr hmax, decide_false, Bool.or_false]
        exact congrArg (fun l => some (State.mk l st.invalid, _, _))
          ((congrArg (List.modify · _ Part.decNest) hfirst).trans hlast)
      · rw [view_decNest, view_incNest, hcopies]
  | struct packed es ih =>
    rintro ⟨hes, hnum⟩ st
    obtain ⟨cur, hbody, hview⟩ := ih hes packed st.parts [] st.invalid [] 0 1 rfl rfl one_pos
    have hsnd := LType.structBody_struct partPieces packed es
    have htotal := LType.total_structBody partPieces packed es (o := 0) (a := 1) (l := []) rfl
    have hlen : cur.length = LType.numMemberPieces partPieces es := by
      have h := LType.length_pieces partPieces (.struct packed es)
      rw [LType.pieces, length_padLast] at h
      simpa [h, LType.numPieces] using congrArg List.length hview
    have hpos := (LType.struct packed es).abiAlign_pos (T := partLayout)
    have hle := le_alignUp (LType.structEnd partLayout packed es 0) hpos
    have hsize : (LType.struct packed es).allocSize partLayout =
        alignUp (LType.structEnd partLayout packed es 0) ((LType.struct packed es).abiAlign partLayout) := rfl
    rw [List.append_nil] at hbody
    rw [hsnd] at hbody
    set stop := LType.structEnd partLayout packed es 0
    set align := (LType.struct packed es).abiAlign partLayout
    have hpieces : (LType.struct packed es).pieces partPieces =
        padLast (alignUp stop align - stop) (LType.structBody partPieces packed es [] 0 1).1 := by
      rw [LType.pieces]
      rw [show LType.structBody partPieces packed es [] 0 1 =
        ((LType.structBody partPieces packed es [] 0 1).1, stop, align) from
        Prod.ext rfl hsnd]
    by_cases hzero : 0 < alignUp stop align
    · have hcur : cur ≠ [] := by
        rintro rfl
        have hnil : (LType.structBody partPieces packed es [] 0 1).1 = [] := by simpa using hview.symm
        rw [hnil] at htotal
        rw [← htotal] at hzero
        simp at hzero
      have hindex : (st.parts ++ cur).length - 1 = st.parts.length + (cur.length - 1) := by
        have := List.length_pos_iff.mpr hcur
        rw [List.length_append]
        omega
      refine ⟨((cur.modify 0 Part.incNest).modify (cur.length - 1) Part.decNest).modify (cur.length - 1)
        (Part.addPad (alignUp stop align - stop)), ?_, ?_⟩
      · rw [complexTypesAppend]
        simp only [hbody, Option.bind_eq_bind, Option.bind_some, hzero, if_true]
        have hfirst := modify_append Part.incNest st.parts cur 0
        rw [Nat.add_zero] at hfirst
        have hcount : (st.parts ++ cur).length - 1 - st.parts.length + 1 ≤ maxLength := by
          have := List.length_pos_iff.mpr hcur
          rw [List.length_append]
          omega
        rw [hindex] at hcount ⊢
        rw [hfirst, modify_append, modify_append]
        simp only [Nat.not_lt.mpr hcount, decide_false, Bool.or_false]
        rfl
      · have hlen' : ((cur.modify 0 Part.incNest).modify (cur.length - 1) Part.decNest).length =
          cur.length := by simp
        have hview' : ((cur.modify 0 Part.incNest).modify (cur.length - 1) Part.decNest).map Part.view =
            (LType.structBody partPieces packed es [] 0 1).1.map cut := by
              rw [view_decNest, view_incNest, hview]
        have hpad := view_addPad hview' (alignUp stop align - stop)
        rw [hlen'] at hpad
        rw [hpad, hpieces]
    · have hstop : stop = 0 := by omega
      refine ⟨cur, ?_, ?_⟩
      · rw [complexTypesAppend]
        simp only [hbody, Option.bind_eq_bind, Option.bind_some, hzero, if_false]
        rfl
      · rw [hpieces, hview, hstop, alignUp_zero, Nat.sub_zero, padLast_zero]
  | nil h packed pre cur inv acc o align hview htotal halign => exact ⟨cur, rfl, hview⟩
  | cons e es ih ihs h packed pre cur inv acc o align hview htotal halign =>
    obtain ⟨he, hes⟩ := h
    obtain ⟨ps, happend, hps⟩ := ih he ⟨pre ++ cur, inv⟩
    have hdvd : e.allocSize partLayout % e.abiAlign partLayout = 0 := Nat.mod_eq_zero_of_dvd e.abiAlign_dvd
    have hmember := LType.memberAlign_pos (T := partLayout) packed e
    set align' := LType.memberAlign partLayout packed e
    have hpad := view_addPad hview (alignUp o align' - o)
    have htotal' : total PartKind.size (padLast (alignUp o align' - o) acc ++ e.pieces partPieces) =
        alignUp o align' + e.allocSize partLayout := by
      rw [total_append, total_padLast_alignUp _ htotal hmember]
      exact congrArg _ (LType.pieces_spec partPieces e).2
    -- the parts of the struct after the member, with the padding before it
    obtain ⟨mid, hmid, hparts⟩ : ∃ mid, mid.map Part.view = (padLast (alignUp o align' - o) acc).map cut ∧
        (if alignUp o align' ≠ o then
          (pre ++ cur ++ ps).modify ((pre ++ cur).length - 1) (Part.addPad (alignUp o align' - o))
          else pre ++ cur ++ ps) = pre ++ (mid ++ ps) := by
      by_cases hne : alignUp o align' ≠ o
      · have hcur : cur ≠ [] := by
          rintro rfl
          obtain rfl : acc = [] := by simpa using hview.symm
          rw [← htotal] at hne
          simp at hne
        have hlen : (pre ++ cur).length - 1 = pre.length + (cur.length - 1) := by
          have := List.length_pos_iff.mpr hcur
          rw [List.length_append]
          omega
        refine ⟨_, hpad, ?_⟩
        rw [if_pos hne, hlen, List.append_assoc, modify_append, modify_append_left _ _ _ _ (by
          have := List.length_pos_iff.mpr hcur
          omega)]
      · have heq : alignUp o align' - o = 0 := by omega
        refine ⟨cur, ?_, by rw [if_neg hne, List.append_assoc]⟩
        rw [hview, heq, padLast_zero]
    obtain ⟨cur', happ, hcur'⟩ := ihs hes packed pre (mid ++ ps) inv _ _ (max align align')
      (by rw [List.map_append, List.map_append, hmid, hps]) htotal' (lt_max_of_lt_left halign)
    refine ⟨cur', ?_, hcur'⟩
    rw [appendElems]
    simp only [happend, Option.bind_eq_bind, Option.bind_some, hdvd, ne_eq, not_true_eq_false, if_false]
    refine Eq.trans (congrArg (fun st => appendElems packed es st _ _) ?_) happ
    rw [← hparts, apply_ite (State.mk · inv)]
    rfl

theorem Fits.numPieces_le (t : LType Leaf) (h : Fits t) : t.numPieces partPieces ≤ maxLength := by
  cases t with
  | leaf s =>
    obtain ⟨ty, num, hs, hnum⟩ := h
    simpa [LType.numPieces, partPieces, hs, leafKinds] using hnum
  | array n e =>
    cases hleaf : e.hasLeaf with
    | true => exact (h.2 hleaf).2
    | false => simp [LType.numPieces, LType.numPieces_of_hasLeaf partPieces e hleaf]
  | struct packed es => exact h.2

/-- Types within the limits are lowered to their pieces. -/
theorem lowerComplexType_fits {t : LType Leaf} (h : Fits t) :
    ∃ parts, lowerComplexType t = some parts ∧ parts.map Part.view = (t.pieces partPieces).map cut := by
  obtain ⟨ps, happend, hview⟩ := append_pieces t h ⟨[], false⟩
  have hlen : ps.length ≤ maxLength := by
    have hnum := Fits.numPieces_le t h
    have hlen := congrArg List.length hview
    rw [List.length_map, List.length_map, LType.length_pieces] at hlen
    exact hlen.trans_le hnum
  exact ⟨ps, by simpa [lowerComplexType, happend] using hlen, hview⟩

/-! ### What the lowering does to other types -/

/-- The padding of every part is in its bit field. -/
def PadsFit (l : List Part) : Prop := ∀ p ∈ l, p.padAfter < 2 ^ 7

theorem PadsFit.modify {l : List Part} (h : PadsFit l) {f : Part → Part}
    (hf : ∀ p, p.padAfter < 2 ^ 7 → (f p).padAfter < 2 ^ 7) (i : ℕ) :
    PadsFit (l.modify i f) := by
  intro p hp
  obtain ⟨j, hj, rfl⟩ := List.mem_iff_getElem.mp hp
  rw [List.getElem_modify]
  split_ifs
  · exact hf _ (h _ (List.getElem_mem _))
  · exact h _ (List.getElem_mem _)

theorem PadsFit.addPad {l : List Part} (h : PadsFit l) (i d : ℕ) : PadsFit (l.modify i (Part.addPad d)) :=
  h.modify (fun _ _ => Nat.mod_lt _ (by decide)) i

theorem PadsFit.incNest {l : List Part} (h : PadsFit l) (i : ℕ) : PadsFit (l.modify i Part.incNest) :=
  h.modify (f := Part.incNest) (fun _ hp => hp) i

theorem PadsFit.decNest {l : List Part} (h : PadsFit l) (i : ℕ) : PadsFit (l.modify i Part.decNest) :=
  h.modify (f := Part.decNest) (fun _ hp => hp) i

/-- **Every padding is in its bit field.** -/
theorem append_padsFit (t : LType Leaf) : ∀ st r, complexTypesAppend t st = some r → PadsFit st.parts →
    PadsFit r.1.parts := by
  induction t using LType.induction_on (q := fun es => ∀ packed st size align r,
    appendElems packed es st size align = some r →
      PadsFit st.parts → PadsFit r.1.parts) with
  | leaf s =>
    intro st r h hst
    rw [complexTypesAppend] at h
    cases hs : s.lower with
    | none =>
      rw [hs] at h
      cases h
      exact hst
    | some lowered =>
      rw [hs] at h
      cases h
      intro p hp
      rcases List.mem_append.mp hp with hp | hp
      · exact hst p hp
      · obtain ⟨k, -, rfl⟩ := List.mem_map.mp hp
        exact Nat.two_pow_pos 7
  | array n e ih =>
    intro st r h hst
    rw [complexTypesAppend] at h
    obtain ⟨⟨st', sz, al⟩, he, h⟩ := Option.bind_eq_some_iff.mp h
    have hst' := ih st _ he hst
    dsimp only at h
    split_ifs at h
    · cases h
      exact hst'
    · cases h
      refine PadsFit.decNest (PadsFit.incNest (fun p hp => ?_) _) _
      rcases List.mem_append.mp hp with hp | hp
      · exact hst' p (List.mem_of_mem_take hp)
      · obtain ⟨l, hl, hp⟩ := List.mem_flatten.mp hp
        rw [(List.mem_replicate.mp hl).2] at hp
        exact hst' p (List.mem_of_mem_drop hp)
  | struct packed es ih =>
    intro st r h hst
    rw [complexTypesAppend] at h
    obtain ⟨⟨st', size, align⟩, hes, h⟩ := Option.bind_eq_some_iff.mp h
    have hst' := ih packed st 0 1 _ hes hst
    dsimp only at h
    split_ifs at h
    · cases h
      exact ((hst'.incNest _).decNest _).addPad _ _
    · cases h
      exact hst'
  | nil packed st size align r h hst =>
    cases h
    exact hst
  | cons e es ih ihs packed st size align r h hst =>
    rw [appendElems] at h
    obtain ⟨⟨st', elSize, elAlign⟩, he, h⟩ := Option.bind_eq_some_iff.mp h
    have hst' := ih st _ he hst
    dsimp only at h
    split_ifs at h with _ _ hne hne
    all_goals refine ihs packed _ _ _ _ h ?_
    · exact hst'.addPad _ _
    · exact hst'
    · exact hst'.addPad _ _
    · exact hst'

/-- An array whose copies are not made has the parts of one element. -/
theorem count_uncopied {n len pieces : ℕ} {fits : Prop} (hpos : 0 < len) (hle : len ≤ maxLength)
    (hzero : n % 2 ^ 32 * len % 2 ^ 32 = 0) :
    maxLength < n * pieces ∨ n * pieces ≤ len ∧ (n * pieces = len → fits) := by
  rcases Nat.eq_zero_or_pos (n * pieces) with h | h
  · exact .inr ⟨by omega, fun heq => by omega⟩
  · -- the length is cut to none, or so many copies are made that their number is
    refine .inl ?_
    have hn : n ≤ n * pieces := Nat.le_mul_of_pos_right n (Nat.pos_of_mul_pos_left h)
    have hn0 : 0 < n := Nat.pos_of_mul_pos_right h
    unfold maxLength at hle ⊢
    by_contra hsmall
    have hmod : n % 2 ^ 32 = n := Nat.mod_eq_of_lt (by omega)
    have hmul : n * len ≤ 65535 * 65535 := Nat.mul_le_mul (by omega) hle
    rw [hmod, Nat.mod_eq_of_lt (by omega)] at hzero
    have := Nat.mul_pos hn0 hpos
    omega

/-- An array with copies has the parts of all its elements unless its length is cut. -/
theorem count_copies {n len : ℕ} {e : LType Leaf} (hle : n % 2 ^ 32 * len ≤ maxLength)
    (hnelem : 0 < n % 2 ^ 32) (hpos : 0 < len)
    (hcount : len ≤ maxLength → maxLength < e.numPieces partPieces ∨
      e.numPieces partPieces ≤ len ∧ (e.numPieces partPieces = len → Fits e)) :
    maxLength < (LType.array n e).numPieces partPieces ∨
      (LType.array n e).numPieces partPieces ≤ n % 2 ^ 32 * len ∧
      ((LType.array n e).numPieces partPieces = n % 2 ^ 32 * len → Fits (.array n e)) := by
  rw [LType.numPieces]
  have hlen : len ≤ maxLength := le_trans (Nat.le_mul_of_pos_left len hnelem) hle
  have hk := Nat.mul_pos hnelem hpos
  have hn : n % 2 ^ 32 ≤ n := Nat.mod_le ..
  rcases Nat.eq_zero_or_pos (e.numPieces partPieces) with hnone | hsome
  · rw [hnone, mul_zero]
    exact .inr ⟨by omega, fun heq => by omega⟩
  by_cases hcut : n % 2 ^ 32 = n
  · rw [hcut] at hle hnelem hk ⊢
    rcases hcount hlen with hmany | ⟨hge, hfits⟩
    · exact .inl (lt_of_lt_of_le hmany (Nat.le_mul_of_pos_left _ hnelem))
    · refine .inr ⟨Nat.mul_le_mul_left n hge,
        fun heq => ⟨hfits (Nat.eq_of_mul_eq_mul_left hnelem heq), fun _ => ⟨hnelem, ?_⟩⟩⟩
      rwa [heq]
  · have hmul : n ≤ n * e.numPieces partPieces := Nat.le_mul_of_pos_right n hsome
    unfold maxLength
    exact .inl (by omega)

/-- A lowering that succeeds with few enough parts has enough of them, and has no more
only for types within the limits. -/
theorem append_count (t : LType Leaf) : ∀ st r, complexTypesAppend t st = some r → r.1.invalid = false →
    ∃ k, r.1.parts.length = st.parts.length + k ∧ st.invalid = false ∧ (t.hasLeaf = true ↔ 0 < k) ∧
      (k ≤ maxLength → maxLength < t.numPieces partPieces ∨
        t.numPieces partPieces ≤ k ∧ (t.numPieces partPieces = k → Fits t)) := by
  induction t using LType.induction_on (q := fun es => ∀ packed st size align r,
    appendElems packed es st size align = some r →
      r.1.invalid = false → ∃ k, r.1.parts.length = st.parts.length + k ∧ st.invalid = false ∧
        (LType.membersHaveLeaf es = true ↔ 0 < k) ∧
        (k ≤ maxLength → maxLength < LType.numMemberPieces partPieces es ∨
          LType.numMemberPieces partPieces es ≤ k ∧
            (LType.numMemberPieces partPieces es = k → FitMembers es))) with
  | leaf s =>
    intro st r h hvalid
    rw [complexTypesAppend] at h
    cases hs : s.lower with
    | none =>
      rw [hs] at h
      cases h
      cases hvalid
    | some lowered =>
      obtain ⟨ty, num⟩ := lowered
      rw [hs] at h
      cases h
      have hnum : LType.numPieces partPieces (.leaf s) = num := by
        simp [LType.numPieces, partPieces, hs, leafKinds]
      simp only [Bool.or_eq_false_iff, decide_eq_false_iff_not, not_lt] at hvalid
      refine ⟨num, by simp [leafKinds], hvalid.1, by simpa [LType.hasLeaf] using Leaf.lower_pos hs,
        fun hle => .inr ⟨hnum.le, ?_⟩⟩
      exact fun _ => ⟨ty, num, hs, hle⟩
  | array n e ih =>
    intro st r h hvalid
    rw [complexTypesAppend] at h
    obtain ⟨⟨st', sz, al⟩, he, h⟩ := Option.bind_eq_some_iff.mp h
    dsimp only at h
    split_ifs at h with hzero hover
    · cases h
      obtain ⟨len, hlen, hst, hleaf, hcount⟩ := ih st _ he hvalid
      rw [hlen, Nat.add_sub_cancel_left] at hzero
      refine ⟨len, hlen, hst, hleaf, fun hle => ?_⟩
      rw [LType.numPieces]
      rcases Nat.eq_zero_or_pos len with rfl | hpos
      · have hnone : e.hasLeaf = false := by simpa using hleaf
        have hnum := LType.numPieces_of_hasLeaf partPieces e hnone
        have hfits : Fits e := by simpa [hnum] using hcount hle
        simpa [hnum, Fits, hnone] using hfits
      · exact count_uncopied hpos hle hzero
    · cases h
      simp only [Bool.or_eq_false_iff, decide_eq_false_iff_not, not_lt] at hvalid
      obtain ⟨len, hlen, hst, hleaf, hcount⟩ := ih st _ he hvalid.1
      rw [hlen, Nat.add_sub_cancel_left] at hzero hover hvalid
      have hmod : n % 2 ^ 32 * len % 2 ^ 32 = n % 2 ^ 32 * len :=
        le_antisymm (Nat.mod_le ..) (not_lt.mp hover)
      rw [hmod] at hzero hvalid
      have hnelem : 0 < n % 2 ^ 32 := Nat.pos_of_ne_zero fun h => hzero (by rw [h, zero_mul])
      have hpos : 0 < len := Nat.pos_of_ne_zero fun h => hzero (by simp [h])
      have hlength : (st'.parts.take st.parts.length ++
          (List.replicate (n % 2 ^ 32) (st'.parts.drop st.parts.length)).flatten).length =
          st.parts.length + n % 2 ^ 32 * len := by simp [hlen]
      refine ⟨n % 2 ^ 32 * len, by simpa using hlength, hst, ?_, fun hle => ?_⟩
      · rw [LType.hasLeaf, hleaf]
        exact ⟨fun _ => Nat.mul_pos hnelem hpos, fun _ => hpos⟩
      · exact count_copies hle hnelem hpos hcount
  | struct packed es ih =>
    intro st r h hvalid
    rw [complexTypesAppend] at h
    obtain ⟨⟨st', size, align⟩, hes, h⟩ := Option.bind_eq_some_iff.mp h
    dsimp only at h
    have hinvalid : st'.invalid = false ∧ r.1.parts.length = st'.parts.length := by
      split_ifs at h
      · cases h
        simp only [Bool.or_eq_false_iff] at hvalid
        exact ⟨hvalid.1, by simp⟩
      · cases h
        exact ⟨hvalid, rfl⟩
    obtain ⟨k, hlen, hst, hleaf, hcount⟩ := ih packed st 0 1 _ hes hinvalid.1
    refine ⟨k, hinvalid.2.trans hlen, hst, hleaf,
      fun hle => (hcount hle).imp_right fun h => ⟨h.1, fun heq => ⟨h.2 heq, ?_⟩⟩⟩
    exact heq.trans_le hle
  | nil packed st size align r h hvalid =>
    cases h
    exact ⟨0, rfl, hvalid, by simp [LType.membersHaveLeaf], fun _ => .inr ⟨le_rfl, fun _ => trivial⟩⟩
  | cons e es ih ihs packed st size align r h hvalid =>
    rw [appendElems] at h
    obtain ⟨⟨st', elSize, elAlign⟩, he, h⟩ := Option.bind_eq_some_iff.mp h
    dsimp only at h
    split at h
    · cases h
    obtain ⟨k', hlen', hst', hleaf', hcount'⟩ := ihs packed _ _ _ _ h hvalid
    rw [apply_ite State.invalid, ite_self] at hst'
    rw [apply_ite State.parts, apply_ite List.length, List.length_modify, ite_self] at hlen'
    obtain ⟨k, hlen, hst, hleaf, hcount⟩ := ih st _ he hst'
    dsimp only at hlen
    refine ⟨k + k', by omega, hst, ?_, fun hle => ?_⟩
    · rw [LType.membersHaveLeaf, Bool.or_eq_true, hleaf, hleaf']
      omega
    · rw [LType.numMemberPieces]
      rcases hcount (by omega) with hmany | ⟨hge, hfits⟩
      · exact .inl (by omega)
      rcases hcount' (by omega) with hmany | ⟨hge', hfits'⟩
      · exact .inl (by omega)
      exact .inr ⟨by omega, fun heq => ⟨hfits (by omega), hfits' (by omega)⟩⟩

/-! ### The lowering and the data layout -/

/-- **The parts lie where the leaves lie in the data layout**, in their order, and fill the
size of the type. -/
structure Lowered (t : LType Leaf) (parts : List Part) : Prop where
  places : offsets PartKind.size 0 (parts.map Part.view) = LType.spread partPieces (t.leaves dataLayout 0)
  size : total PartKind.size (parts.map Part.view) = t.allocSize dataLayout

/-- The padding after each part, in the data layout. -/
def paddings (t : LType Leaf) : List ℕ :=
  gaps PartKind.size (LType.spread partPieces (t.leaves dataLayout 0)) (t.allocSize dataLayout)

theorem int_layout : ∀ w < 65, 0 < w → let ty : BasicTy := if w ≤ 8 then .i8 else if w ≤ 16 then .i16
    else if w ≤ 32 then .i32 else .i64
    alignUp ((w + 7) / 8) (Leaf.pow2Ceil ((w + 7) / 8)) = ty.partCount * ty.partSize ∧
      Leaf.pow2Ceil ((w + 7) / 8) = ty.partSize * ty.partCount := by
  decide +kernel

/-- Parts of scalars have the size and alignment of the data layout. -/
theorem scalar_layout (s : Leaf) (h : s.IsScalar) : dataLayout.size s = partLayout.size s ∧
    dataLayout.align s = partLayout.align s := by
  cases s with
  | int width ok => exact int_layout width (by omega) ok.1
  | vec => cases h
  | fp128 => cases h
  | _ => decide +kernel

/-- The data layout places the parts of scalars as the lowering does. -/
theorem layout_scalars (t : LType Leaf) (ht : t.All Leaf.IsScalar) :
    t.allocSize dataLayout = t.allocSize partLayout ∧ t.leaves dataLayout = t.leaves partLayout :=
  (LType.layout_congr t (LType.All.mono scalar_layout t ht)).2

theorem Lowered.length {t : LType Leaf} (ht : t.All Leaf.IsScalar) {parts : List Part} (h : Lowered t parts) :
    parts.length = t.numPieces partPieces := by
  have hplaces := h.places
  rw [(layout_scalars t ht).2, ← (LType.pieces_spec partPieces t).1] at hplaces
  simpa [length_offsets, LType.length_pieces] using congrArg List.length hplaces

theorem Lowered.paddings {t : LType Leaf} {parts : List Part} (h : Lowered t parts) :
    paddings t = parts.map (·.padAfter) := by
  have hgaps := gaps_offsets PartKind.size 0 (parts.map Part.view)
  rw [h.places, h.size, zero_add] at hgaps
  rw [ComplexTypes.paddings, hgaps, List.map_map]
  rfl

/-- The paddings of scalars in the data layout are those of the pieces. -/
theorem paddings_pieces (t : LType Leaf) (ht : t.All Leaf.IsScalar) :
    paddings t = (t.pieces partPieces).map (·.2) := by
  obtain ⟨hsize, hleaves⟩ := layout_scalars t ht
  have hgaps := gaps_offsets PartKind.size 0 (t.pieces partPieces)
  obtain ⟨hoffsets, htotal⟩ := LType.pieces_spec partPieces t
  rw [paddings, hsize, hleaves, ← hoffsets, ← htotal, ← hgaps, zero_add]
  rfl

/-- Pieces whose paddings are in the bit field are not cut. -/
theorem map_cut {l : List (PartKind × ℕ)} (h : ∀ g ∈ l.map (·.2), g < 2 ^ 7) : l.map cut = l := by
  refine (List.map_congr_left fun p hp => ?_).trans (List.map_id l)
  rw [cut, Nat.mod_eq_of_lt (h _ (List.mem_map_of_mem hp))]
  rfl

/-- Only types within the limits are lowered to as many parts as they have pieces. -/
theorem fits_of_length {t : LType Leaf} {parts : List Part} (h : lowerComplexType t = some parts)
    (hnum : parts.length = t.numPieces partPieces) : Fits t := by
  obtain ⟨⟨st, size, align⟩, happend, hlower⟩ := Option.bind_eq_some_iff.mp h
  dsimp only at hlower
  split_ifs at hlower with hlimit
  cases hlower
  simp only [Bool.or_eq_true, decide_eq_true_eq, not_or, Bool.not_eq_true, not_lt] at hlimit
  obtain ⟨k, hlen, -, -, hcount⟩ := append_count t _ _ happend hlimit.1
  simp only [List.length_nil, zero_add] at hlen
  rcases hcount (hlen ▸ hlimit.2) with hmany | ⟨-, hfits⟩
  · omega
  · exact hfits (hnum.symm.trans hlen)

theorem lowerComplexType_padsFit {t : LType Leaf} {parts : List Part}
    (h : lowerComplexType t = some parts) : PadsFit parts := by
  obtain ⟨⟨st, size, align⟩, happend, hlower⟩ := Option.bind_eq_some_iff.mp h
  dsimp only at hlower
  split_ifs at hlower
  cases hlower
  exact append_padsFit t _ _ happend fun _ h => nomatch h

/-- **The lowering of a type from scalars matches the data layout exactly if** only arrays
of nothing are empty, no array or struct has more than 65535 parts, and no padding
reaches 128 bytes. -/
theorem lowerComplexType_iff (t : LType Leaf) (ht : t.All Leaf.IsScalar) :
    (∃ parts, lowerComplexType t = some parts ∧ Lowered t parts) ↔ Fits t ∧ ∀ g ∈ paddings t, g < 2 ^ 7 := by
  constructor
  · rintro ⟨parts, hlower, hmatch⟩
    refine ⟨fits_of_length hlower (hmatch.length ht), ?_⟩
    rw [hmatch.paddings]
    intro g hg
    obtain ⟨p, hp, rfl⟩ := List.mem_map.mp hg
    exact lowerComplexType_padsFit hlower p hp
  · rintro ⟨hfits, hpads⟩
    obtain ⟨hsize, hleaves⟩ := layout_scalars t ht
    obtain ⟨parts, hlower, hview⟩ := lowerComplexType_fits hfits
    rw [paddings_pieces t ht] at hpads
    rw [map_cut hpads] at hview
    have hspec := LType.pieces_spec partPieces t
    refine ⟨parts, hlower, ?_, ?_⟩
    · rw [hview, hleaves]
      exact hspec.1 0
    · rw [hview, hsize]
      exact hspec.2

/-- `{ i8, [2 x { i32, i8 }], i128 }`. -/
def nested : LType Leaf :=
  .struct false [.leaf (.int 8 (by decide)),
    .array 2 (.struct false [.leaf (.int 32 (by decide)), .leaf (.int 8 (by decide))]), .leaf .i128]

theorem lowerComplexType_nested : ∃ parts, lowerComplexType nested = some parts ∧ Lowered nested parts := by
  refine (lowerComplexType_iff nested ⟨trivial, ⟨trivial, trivial, trivial⟩, trivial, trivial⟩).mpr
    ⟨?_, by decide +kernel⟩
  refine ⟨⟨⟨_, _, rfl, by decide⟩,
    ⟨⟨⟨⟨_, _, rfl, by decide⟩, ⟨_, _, rfl, by decide⟩, trivial⟩, by decide +kernel⟩, ?_⟩,
    ⟨_, _, rfl, by decide⟩, trivial⟩,
    by decide +kernel⟩
  exact fun _ => ⟨by decide, by decide +kernel⟩

/-- `{ i32, [0 x i8] }`. -/
def flexible : LType Leaf :=
  .struct false [.leaf (.int 32 (by decide)), .array 0 (.leaf (.int 8 (by decide)))]

/-- The empty array leaves the part of its element: two parts for one leaf, of 5 bytes
instead of 4. -/
theorem lowerComplexType_flexible : flexible.All Leaf.IsScalar ∧ flexible.allocSize dataLayout = 4 ∧
    lowerComplexType flexible = some [⟨⟨.i32, 4, true⟩, 0, 1, 0⟩, ⟨⟨.i8, 1, true⟩, 0, 0, 1⟩] ∧
    ¬ ∃ parts, lowerComplexType flexible = some parts ∧ Lowered flexible parts := by
  have hlower :
    lowerComplexType flexible = some [⟨⟨.i32, 4, true⟩, 0, 1, 0⟩, ⟨⟨.i8, 1, true⟩, 0, 0, 1⟩] := by
    decide +kernel
  refine ⟨⟨trivial, trivial, trivial⟩, by decide +kernel, hlower, ?_⟩
  rintro ⟨parts, hparts, hmatch⟩
  cases hlower.symm.trans hparts
  have hsize := hmatch.size
  revert hsize
  decide +kernel

end Tpde.ComplexTypes
