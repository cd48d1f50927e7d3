import Tpde.Assembler.FunctionWriterX64

/-!
# Label fixups of x86-64

What the steps of the compiler add to the text of a function: bytes behind the ones that are there,
labels placed at the position, and references to labels (`Adds`). A reference to a label that is placed
leads there at once; one to a label that is not has a fixup. From this alone, `finish_func` makes every
reference lead to its label and changes no other byte (`finishFunc_leads`), however often the data of
the section has moved in between.
-/

namespace Tpde.Assembler.X64

open Bytes X64Code Ranges

/-! ### Code that grows -/

/-- The field of a fixup, as start and length. -/
def LabelFixup.field (f : LabelFixup) : ℕ × ℕ := (f.off, 4)

theorem LabelFixup.ordered_field {f : LabelFixup} {lo hi : ℕ} (hlo : lo ≤ f.off)
    (hhi : f.off + 4 ≤ hi) : Ordered lo hi ([f].map field) :=
  ⟨hlo, hhi⟩

namespace Code

variable {c c' c'' : Code} {label a : ℕ} {bs : List UInt8} {fs : List LabelFixup}

/-- More text, more labels that are placed, and more fixups, with their fields one behind the other in
the new text. -/
structure Extends (c c' : Code) : Prop where
  text : c.text <+: c'.text
  placed : ∀ {label off}, c.Placed label off → c'.Placed label off
  fixups : ∃ fs, c'.fixups = c.fixups ++ fs ∧ Ordered c.text.length c'.text.length (fs.map LabelFixup.field)

theorem Extends.refl (c : Code) : c.Extends c := ⟨List.prefix_rfl, id, [], (List.append_nil _).symm, le_rfl⟩

theorem Extends.trans (h : c.Extends c') (h' : c'.Extends c'') : c.Extends c'' := by
  obtain ⟨fs, hfs, hord⟩ := h.fixups
  obtain ⟨fs', hfs', hord'⟩ := h'.fixups
  refine ⟨h.text.trans h'.text, fun hp => h'.placed (h.placed hp), fs ++ fs', ?_, ?_⟩
  · rw [hfs', hfs, List.append_assoc]
  · rw [List.map_append]
    exact Ordered.append hord' hord

theorem Extends.append
    (h : Ordered c.text.length (c.text.length + bs.length) (fs.map LabelFixup.field)) :
    c.Extends (c.append bs fs) where
  text := List.prefix_append ..
  placed := id
  fixups := ⟨fs, rfl, by rwa [Code.append, List.length_append]⟩

theorem Extends.create : c.Extends c.create where
  text := List.prefix_rfl
  placed := by
    rintro label off ⟨hoff, hne⟩
    have hlt : label < c.labels.length := (List.getElem?_eq_some_iff.mp hoff).1
    exact ⟨by rw [Code.create, List.getElem?_append_left hlt, hoff], hne⟩
  fixups := ⟨[], (List.append_nil _).symm, le_rfl⟩

theorem Extends.place (h : c.Pending label) : c.Extends (c.place label) where
  text := List.prefix_rfl
  placed := by
    rintro label' off ⟨hoff, hne⟩
    refine ⟨?_, hne⟩
    have hother : label ≠ label' := by
      rintro rfl
      exact hne (Option.some.inj (hoff.symm.trans h))
    rw [Code.place, List.getElem?_set_ne hother, hoff]
  fixups := ⟨[], (List.append_nil _).symm, le_rfl⟩

theorem getElem?_place (h : c.Pending label) :
    (c.place label).labels[label]? = some (BitVec.ofNat 32 c.text.length) :=
  List.getElem?_set_self (List.getElem?_eq_some_iff.mp h).1

/-- The labels that are placed and the fields of the fixups are in the text. -/
structure Within (c : Code) : Prop where
  placed : ∀ label off, c.Placed label off → off.toNat ≤ c.text.length
  fixup : ∀ f ∈ c.fixups, f.off + 4 ≤ c.text.length ∧ f.label < c.labels.length

/-- Bytes in the text, in the field of no fixup. -/
structure Stands (c : Code) (a : ℕ) (bs : List UInt8) : Prop where
  text : bs <+: c.text.drop a
  le : a + bs.length ≤ c.text.length
  apart : ∀ f ∈ c.fixups, f.off + 4 ≤ a ∨ a + bs.length ≤ f.off

theorem Stands.extend (h : c.Stands a bs) (hext : c.Extends c') : c'.Stands a bs where
  text := h.text.trans (hext.text.drop a)
  le := h.le.trans hext.text.length_le
  apart := by
    obtain ⟨fs, hfs, hord⟩ := hext.fixups
    intro f hf
    rw [hfs, List.mem_append] at hf
    rcases hf with hf | hf
    · exact h.apart f hf
    · exact .inr (h.le.trans (hord.bounds _ (List.mem_map_of_mem hf)).1)

/-- The first of the bytes that are added. -/
theorem Stands.new {rest : List UInt8} (h : c.Within) (hfs : ∀ f ∈ fs, c.text.length + bs.length ≤ f.off) :
    (c.append (bs ++ rest) fs).Stands c.text.length bs where
  text := by
    rw [Code.append, List.drop_left]
    exact List.prefix_append ..
  le := by
    rw [Code.append, List.length_append, List.length_append]
    omega
  apart := by
    intro f hf
    rcases List.mem_append.mp hf with hf | hf
    · exact .inl (h.fixup f hf).1
    · exact .inr (hfs f hf)

end Code

/-! ### References -/

/-- A reference in the text: a jump at an offset, a displacement that ends at an offset, or an entry of
a jump table. -/
inductive Ref where
  | jump (j : Jump) (label start : ℕ) (pending : Bool)
  | address (label stop : ℕ)
  | entry (label table off : ℕ) (pending : Bool)

namespace Ref

def label : Ref → ℕ
  | jump _ label .. | address label _ | entry label .. => label

/-- The fixup, for a label that is not placed. -/
def fixup : Ref → Option LabelFixup
  | jump j label start true => some ⟨label, start + (longOpcode j.cond).length, .jmpOrMemDisp⟩
  | address label stop => some ⟨label, stop - 4, .jmpOrMemDisp⟩
  | entry label _ off true => some ⟨label, off, .jumpTable⟩
  | _ => none

/-- The reference leads to an offset: a jump from its end by its displacement, and an entry from the
start of its table. -/
def Leads (text : List UInt8) (target : ℕ) : Ref → Prop
  | jump j _ start pending =>
    ∃ len disp, decodeJump (text.drop start) = some ⟨j.cond, len, disp⟩ ∧
      ((start + len : ℕ) : ℤ) + disp = target ∧
      (pending = true → len = (longOpcode j.cond).length + 4)
  | address _ stop => 4 ≤ stop ∧ stop ≤ text.length ∧
    (stop : ℤ) + signed ((text.drop (stop - 4)).take 4) = target
  | entry _ table off _ => off + 4 ≤ text.length ∧ (table : ℤ) + signed ((text.drop off).take 4) = target

/-- A reference before the fixups are handled: it is as it should be, but for the field of its fixup if
it has one. -/
inductive Recorded (c : Code) : Ref → Prop
  | pendingJump {j : Jump} {label start : ℕ} (opcode : c.Stands start (longOpcode j.cond))
      (fixup : ⟨label, start + (longOpcode j.cond).length, .jmpOrMemDisp⟩ ∈ c.fixups) :
        Recorded c (jump j label start true)
  | jump {j : Jump} {label start : ℕ} {bs : List UInt8} {off : BitVec 32} (placed : c.Placed label off)
    (stands : c.Stands start bs)
      (decode : ∀ rest,
        decodeJump (bs ++ rest) = some ⟨j.cond, bs.length, (off.toNat : ℤ) - (start + bs.length : ℕ)⟩) :
      Recorded c (jump j label start false)
  | address {label stop : ℕ} (le : 4 ≤ stop) (fixup : ⟨label, stop - 4, .jmpOrMemDisp⟩ ∈ c.fixups) :
    Recorded c (address label stop)
  | pendingEntry {label table off : ℕ} (text : ofNat 4 table <+: c.text.drop off) (le : table ≤ off)
      (fixup : ⟨label, off, .jumpTable⟩ ∈ c.fixups) : Recorded c (entry label table off true)
  | entry {label table off : ℕ} {bs : List UInt8} {target : BitVec 32} (placed : c.Placed label target)
    (stands : c.Stands off bs)
      (length : bs.length = 4) (diff : (table : ℤ) + signed bs = target.toNat) :
        Recorded c (entry label table off false)

theorem Recorded.extend {c c' : Code} {r : Ref} (h : r.Recorded c) (hext : c.Extends c') : r.Recorded c' := by
  obtain ⟨fs, hfs, -⟩ := hext.fixups
  have hmem : ∀ f ∈ c.fixups, f ∈ c'.fixups := fun f hf => hfs ▸ List.mem_append_left fs hf
  cases h with
  | pendingJump opcode fixup => exact .pendingJump (opcode.extend hext) (hmem _ fixup)
  | jump placed stands decode => exact .jump (hext.placed placed) (stands.extend hext) decode
  | address le fixup => exact .address le (hmem _ fixup)
  | pendingEntry text le fixup => exact .pendingEntry (text.trans (hext.text.drop _)) le (hmem _ fixup)
  | entry placed stands length diff => exact .entry (hext.placed placed) (stands.extend hext) length diff

end Ref

/-! ### Steps -/

/-- The distance between two offsets of less than 2 GiB. -/
theorem toInt_sub_ofNat {target : BitVec 32} {n : ℕ} (htarget : target.toNat < 2 ^ 31) (hn : n < 2 ^ 31) :
    (target - BitVec.ofNat 32 n).toInt = (target.toNat : ℤ) - n := by
  rw [BitVec.toInt_sub, BitVec.toInt_eq_toNat_of_lt (by omega), BitVec.toInt_ofNat',
    Int.sub_bmod_bmod, Int.bmod_eq_of_le (by omega) (by omega)]

/-- What a step adds: references, and fixups for those of labels that are not placed. -/
structure Adds (c c' : Code) (refs : List Ref) : Prop where
  grows : c.Extends c'
  within : c'.Within
  recorded : ∀ r ∈ refs, r.Recorded c'
  fixups : c'.fixups = c.fixups ++ refs.filterMap Ref.fixup

/-- A step, as long as the text has less than 2 GiB. -/
def Step (c c' : Code) (refs : List Ref) : Prop := c.text.length ≤ c'.text.length ∧
    (c'.text.length < 2 ^ 31 → c.Within → Adds c c' refs)

namespace Step

variable {c c' c'' : Code} {refs refs' : List Ref} {label : ℕ} {bs : List UInt8} {fs : List LabelFixup}

theorem refl (c : Code) : Step c c [] :=
  ⟨le_rfl, fun _ h => ⟨.refl c, h, List.forall_mem_nil _, (List.append_nil _).symm⟩⟩

theorem trans (h : Step c c' refs) (h' : Step c' c'' refs') : Step c c'' (refs ++ refs') := by
  refine ⟨h.1.trans h'.1, fun hsize hc => ?_⟩
  have h₁ := h.2 (h'.1.trans_lt hsize) hc
  have h₂ := h'.2 hsize h₁.within
  refine ⟨h₁.grows.trans h₂.grows, h₂.within, ?_, ?_⟩
  · intro r hr
    rcases List.mem_append.mp hr with hr | hr
    · exact (h₁.recorded r hr).extend h₂.grows
    · exact h₂.recorded r hr
  · rw [h₂.fixups, h₁.fixups, List.filterMap_append, List.append_assoc]

/-- More bytes, with references whose fixups are in the fields that are new. -/
theorem append (hfs : c.text.length + bs.length < 2 ^ 31 → fs = refs.filterMap Ref.fixup)
    (hord : c.text.length + bs.length < 2 ^ 31 →
      Ordered c.text.length (c.text.length + bs.length) (fs.map LabelFixup.field))
    (hlabel : ∀ f ∈ fs, c.Pending f.label)
    (hrecorded : c.text.length + bs.length < 2 ^ 31 → c.Within → ∀ r ∈ refs, r.Recorded (c.append bs fs)) :
    Step c (c.append bs fs) refs := by
  have hlen : (c.append bs fs).text.length = c.text.length + bs.length := List.length_append
  refine ⟨by omega, fun hsize hc => ?_⟩
  rw [hlen] at hsize
  refine ⟨.append (hord hsize), ⟨fun l off hl => ?_, fun f hf => ?_⟩, hrecorded hsize hc,
    congrArg (c.fixups ++ ·) (hfs hsize)⟩
  · have hold := hc.placed l off hl
    omega
  · rw [hlen]
    rcases List.mem_append.mp hf with hf | hf
    · obtain ⟨hoff, hlt⟩ := hc.fixup f hf
      exact ⟨by omega, hlt⟩
    · exact ⟨((hord hsize).bounds _ (List.mem_map_of_mem hf)).2,
        (List.getElem?_eq_some_iff.mp (hlabel f hf)).1⟩

/-- Bytes without a reference. -/
theorem bytes (c : Code) (bs : List UInt8) : Step c (c.append bs []) [] :=
  append (fun _ => rfl) (fun _ => Nat.le_add_right ..) (List.forall_mem_nil _) fun _ _ =>
    List.forall_mem_nil _

theorem create (c : Code) : Step c c.create [] := by
  refine ⟨le_rfl,
    fun _ hc =>
    ⟨.create, ⟨fun l off hl => ?_, fun f hf => ?_⟩, List.forall_mem_nil _, (List.append_nil _).symm⟩⟩
  · obtain ⟨hl, hne⟩ := hl
    refine hc.placed l off ⟨?_, hne⟩
    rw [Code.create, List.getElem?_append] at hl
    split at hl
    · exact hl
    · -- The label that is new is not placed.
      obtain rfl := List.mem_singleton.mp (List.mem_of_getElem? hl)
      exact absurd rfl hne
  · obtain ⟨hoff, hlt⟩ := hc.fixup f hf
    refine ⟨hoff, ?_⟩
    rw [Code.create, List.length_append]
    omega

theorem place (h : c.Pending label) : Step c (c.place label) [] := by
  refine ⟨le_rfl,
    fun hsize hc =>
    ⟨.place h, ⟨fun l off hl => ?_, fun f hf => ?_⟩, List.forall_mem_nil _, (List.append_nil _).symm⟩⟩
  · obtain ⟨hl, hne⟩ := hl
    rw [Code.place, List.getElem?_set] at hl
    split at hl
    · split at hl
      · obtain rfl := Option.some.inj hl
        exact (BitVec.toNat_ofNat ..).le.trans (Nat.mod_le ..)
      · cases hl
    · exact hc.placed l off ⟨hl, hne⟩
  · obtain ⟨hoff, hlt⟩ := hc.fixup f hf
    exact ⟨hoff, by rwa [Code.place, List.length_set]⟩

/-- A jump to a label that is not placed. -/
theorem pendingJump {E : Encoder} (hE : E.Ok) {j : Jump} {buf target : ℕ}
    (hbs : E.jump j true buf target ≠ []) (h : c.Pending label) :
    Step c (c.append (E.jump j true buf target)
      [⟨label, (c.text.length + (E.jump j true buf target).length - 4) % 2 ^ 32, .jmpOrMemDisp⟩])
      [.jump j label c.text.length true] := by
  obtain ⟨disp, hdisp, hjump⟩ := hE.jump_long hbs
  have hlen : (E.jump j true buf target).length = (longOpcode j.cond).length + 4 := by
    rw [hjump, List.length_append, hdisp]
  have hoff (hsize : c.text.length + (E.jump j true buf target).length < 2 ^ 31) :
      (c.text.length + (E.jump j true buf target).length - 4) % 2 ^ 32 =
        c.text.length + (longOpcode j.cond).length := by omega
  refine append (fun hsize => ?_) (fun hsize => ?_) ?_ fun hsize hc => ?_
  · rw [hoff hsize]
    rfl
  · rw [hoff hsize]
    exact LabelFixup.ordered_field (Nat.le_add_right ..) (by rw [hlen, ← Nat.add_assoc])
  · exact List.forall_mem_singleton.mpr h
  · rw [List.forall_mem_singleton, hoff hsize, hjump]
    refine .pendingJump (.new hc ?_) (List.mem_append_right _ List.mem_cons_self)
    exact List.forall_mem_singleton.mpr le_rfl

/-- A jump to a label that is placed. -/
theorem jump {E : Encoder} (hE : E.Ok) {j : Jump} {base : ℕ} {off : BitVec 32}
    (hbs : E.jump j false (base + c.text.length) (base + off.toNat) ≠ []) (h : c.Placed label off) :
    Step c (c.append (E.jump j false (base + c.text.length) (base + off.toNat)) [])
      [.jump j label c.text.length false] := by
  refine append (fun _ => rfl) (fun _ => Nat.le_add_right ..) (List.forall_mem_nil _) fun _ hc => ?_
  have hdecode := hE.jump_target hbs
  set bs := E.jump j false (base + c.text.length) (base + off.toNat)
  have hdist : ((base + off.toNat : ℕ) : ℤ) - (base + c.text.length + bs.length : ℕ) =
    off.toNat - (c.text.length + bs.length : ℕ) := by
    push_cast
    ring
  have hstands : (c.append (bs ++ []) []).Stands c.text.length bs := .new hc (List.forall_mem_nil _)
  rw [List.append_nil] at hstands
  rw [List.forall_mem_singleton]
  refine .jump h hstands fun rest => ?_
  rw [← hdist, hdecode]

/-- A displacement at the end of an instruction. -/
theorem address (hbs : 4 ≤ bs.length) (h : c.Pending label) :
    Step c (c.append bs [⟨label, (c.text.length + bs.length - 4) % 2 ^ 32, .jmpOrMemDisp⟩])
      [.address label (c.text.length + bs.length)] := by
  have hoff (hsize : c.text.length + bs.length < 2 ^ 31) :
      (c.text.length + bs.length - 4) % 2 ^ 32 = c.text.length + bs.length - 4 := by omega
  refine append (fun hsize => ?_) (fun hsize => ?_) ?_ fun hsize hc => ?_
  · rw [hoff hsize]
    rfl
  · rw [hoff hsize]
    exact LabelFixup.ordered_field (by dsimp only; omega) (by dsimp only; omega)
  · exact List.forall_mem_singleton.mpr h
  · rw [List.forall_mem_singleton, hoff hsize]
    exact .address (by omega) (List.mem_append_right _ List.mem_cons_self)

/-- An entry of a jump table, for a label that is not placed: it keeps where the table is. -/
theorem pendingEntry {table : ℕ} (htable : table ≤ c.text.length) (h : c.Pending label) :
    Step c (c.append (ofNat 4 (table % 2 ^ 32)) [⟨label, c.text.length % 2 ^ 32, .jumpTable⟩])
      [.entry label table c.text.length true] := by
  refine append (fun hsize => ?_) (fun hsize => ?_) ?_ fun hsize hc => ?_
  · rw [Nat.mod_eq_of_lt (by omega)]
    rfl
  · rw [Nat.mod_eq_of_lt (by omega : c.text.length < 2 ^ 32), length_ofNat]
    exact LabelFixup.ordered_field le_rfl le_rfl
  · exact List.forall_mem_singleton.mpr h
  · rw [List.forall_mem_singleton, Nat.mod_eq_of_lt (by omega : c.text.length < 2 ^ 32),
      Nat.mod_eq_of_lt (by omega : table < 2 ^ 32)]
    refine .pendingEntry ?_ htable (List.mem_append_right _ List.mem_cons_self)
    rw [Code.append, List.drop_left]

/-- An entry of a jump table, for a label that is placed. -/
theorem entry {table : ℕ} {off : BitVec 32} (htable : table ≤ c.text.length) (h : c.Placed label off) :
    Step c (c.append (ofNat 4 (off - BitVec.ofNat 32 table).toNat) [])
      [.entry label table c.text.length false] := by
  refine append (fun _ => rfl) (fun _ => Nat.le_add_right ..) (List.forall_mem_nil _) fun hsize hc => ?_
  have hle := hc.placed label off h
  have hstands : (c.append (ofNat 4 (off - BitVec.ofNat 32 table).toNat ++ []) []).Stands c.text.length
      (ofNat 4 (off - BitVec.ofNat 32 table).toNat) := .new hc (List.forall_mem_nil _)
  rw [List.append_nil] at hstands
  rw [List.forall_mem_singleton]
  refine .entry h hstands (length_ofNat ..) ?_
  rw [signed_ofNat, toInt_sub_ofNat (by omega) (by omega)]
  omega

end Step

/-! ### Runs of the compiler -/

instance (c : Code) (label : ℕ) : Decidable (c.Pending label) := inferInstanceAs (Decidable (_ = _))

/-- What the compiler does with the writer. An instruction with a displacement of 32 bits has at least
these 4 bytes. -/
inductive Op where
  | encode (reserve : ℕ) (bs : List UInt8)
  | write (bs : List UInt8)
  | ensureSpace (size : ℕ)
  | skip (size : ℕ)
  | align (n : ℕ)
  | labelCreate
  | labelPlace (label : ℕ)
  | jump (j : Jump) (label : ℕ)
  | memDisp (bs : List UInt8) (hdisp : 4 ≤ bs.length) (label : ℕ)
  | jumpTable (table : ℕ) (labels : List ℕ)

/-- The entries of a table from an offset on. -/
def entries (c : Code) (table : ℕ) : ℕ → List ℕ → List Ref
  | _, [] => []
  | off, label :: labels => .entry label table off (c.Pending label) :: entries c table (off + 4) labels

section
variable (E : Encoder) (A : Allocator)

/-- A label is placed at the position. -/
def Op.run (w : FunctionWriter) : Op → Option FunctionWriter
  | encode reserve bs => w.encode A reserve bs
  | write bs => w.write A bs
  | ensureSpace size => w.ensureSpace A size
  | skip size => w.skip A size
  | align n => w.align E A n
  | labelCreate => some w.labelCreate.1
  | labelPlace label => w.labelPlace label w.offset
  | jump j label => w.generateRawJump E A j label
  | memDisp bs _ label => w.memDisp A bs label
  | jumpTable table labels => w.jumpTable E A table labels

/-- The references that a step makes from one writer to another. -/
def Op.refs (w w' : FunctionWriter) : Op → List Ref
  | jump j label => [.jump j label w.offset (w'.code.Pending label)]
  | memDisp _ _ label => [.address label w'.offset]
  | jumpTable _ labels => entries w'.code (Ranges.alignUp w.offset 4) (Ranges.alignUp w.offset 4) labels
  | _ => []

/-- Steps one after the other, and the references that they make. -/
def run : FunctionWriter → List Op → Option (FunctionWriter × List Ref)
  | w, [] => some (w, [])
  | w, op :: ops => do
    let w' ← op.run E A w
    (run w' ops).map fun out => (out.1, op.refs w w' ++ out.2)

end

section
variable {E : Encoder} {A : Allocator} {w w' : FunctionWriter}

theorem Code.Placed.not_pending {c : Code} {label : ℕ} {off : BitVec 32} (h : c.Placed label off) :
    ¬c.Pending label :=
  fun hpending => h.2 (Option.some.inj (h.1.symm.trans hpending))

/-- A jump to a label is written if there is space to be had. -/
theorem generateRawJump_isSome (hE : E.Ok) {j : Jump} {label : ℕ} (hw : w.code.Within)
    (hsize : w.offset + 6 ≤ 2 ^ 31)
    (hlabel : label < w.labelOffsets.length) {v : FunctionWriter} (hspace : w.ensureSpace A 6 = some v) :
    (w.generateRawJump E A j label).isSome := by
  have hroom := FunctionWriter.ensureSpace_room (by norm_num) hspace
  have hcode := FunctionWriter.ensureSpace_code hspace
  have hput (long : Bool) {buf target : ℕ} (hnear : Near buf target) :
    ∃ u, v.encode A 0 (E.jump j long buf target) = some u := by
    obtain ⟨hne, hlen⟩ := hE.jump_near j long hnear
    have hput : (v.put (E.jump j long buf target)).isSome := FunctionWriter.put_isSome (by omega)
    rw [FunctionWriter.encode, if_neg (not_not_intro rfl)]
    dsimp only [Option.bind_eq_bind, Option.bind_some]
    rw [if_pos (List.length_pos_of_ne_nil hne).ne']
    exact Option.isSome_iff_exists.mp hput
  have hlabel : label < v.labelOffsets.length := by
    rwa [show v.labelOffsets = w.labelOffsets from congrArg Code.labels hcode]
  obtain ⟨off, hoff⟩ : ∃ off, v.labelOffsets[label]? = some off := ⟨_, List.getElem?_eq_getElem hlabel⟩
  rw [FunctionWriter.generateRawJump, hspace]
  dsimp only [Option.bind_eq_bind, Option.bind_some]
  by_cases hne : off = FunctionWriter.unplaced
  · have hpending : v.code.Pending label := hoff.trans (congrArg some hne)
    obtain ⟨u, hu⟩ := hput true (⟨by omega, by omega⟩ : Near v.dataCur v.dataCur)
    have hafter : u.code.Pending label := by rwa [(FunctionWriter.encode_code hu).2]
    rw [FunctionWriter.labelIsPending_iff.mpr hpending, Option.bind_some, if_pos rfl, hu,
      Option.bind_some, FunctionWriter.labelRef,
      if_pos (FunctionWriter.labelIsPending_iff.mpr hafter)]
    rfl
  · have hplaced : v.code.Placed label off := ⟨hoff, hne⟩
    have hle := (hcode ▸ hw).placed label off hplaced
    have hnear : Near v.dataCur (v.dataBegin + off.toNat) := by
      have hcur := v.cur_eq
      have hsame := FunctionWriter.offset_of_code hcode
      have hlen := v.length_text
      change off.toNat ≤ v.text.length at hle
      constructor <;> omega
    obtain ⟨u, hu⟩ := hput false hnear
    have hnot : v.labelIsPending label = some false := by
      rw [FunctionWriter.labelIsPending, hoff, Option.map_some, beq_eq_false_iff_ne.mpr hne]
    rw [hnot, Option.bind_some, if_neg Bool.false_ne_true, FunctionWriter.labelOffset_iff.mpr hplaced,
      Option.bind_some, hu]
    rfl

theorem align_step (hE : E.Ok) {n : ℕ} (h : w.align E A n = some w') : Step w.code w'.code [] := by
  obtain ⟨-, hle, hcode⟩ := FunctionWriter.align_code hE h
  have hlen := w.length_text
  have hlen' := w'.length_text
  refine ⟨by rwa [FunctionWriter.code, FunctionWriter.code, hlen, hlen'], fun hsize hc => ?_⟩
  have hbytes := Step.bytes w.code (E.pad (w'.offset - w.offset))
  rw [← hcode (by rw [FunctionWriter.code, hlen'] at hsize; omega)] at hbytes
  exact hbytes.2 hsize hc

theorem writeEntry_step {table label : ℕ} (htable : table ≤ w.offset)
    (h : w.writeEntry A table label = some w') :
    Step w.code w'.code [.entry label table w.offset (w.code.Pending label)] ∧
      w'.offset = w.offset + 4 ∧ w'.code.labels = w.code.labels := by
  rw [← w.length_text] at htable ⊢
  rcases FunctionWriter.writeEntry_code h with ⟨hpending, hcode⟩ | ⟨off, hplaced, hcode⟩
  · refine ⟨?_, FunctionWriter.offset_append hcode, by rw [hcode, Code.append]⟩
    rw [hcode, decide_eq_true hpending, ← w.length_text]
    exact .pendingEntry htable hpending
  · refine ⟨?_, FunctionWriter.offset_append hcode, by rw [hcode, Code.append]⟩
    rw [hcode, decide_eq_false hplaced.not_pending]
    exact .entry htable hplaced

theorem entries_congr {c c' : Code} {table off : ℕ} {labels : List ℕ} (h : c.labels = c'.labels) :
    entries c table off labels = entries c' table off labels := by
  induction labels generalizing off with
  | nil => rfl
  | cons label labels ih =>
    have hpending : c.Pending label ↔ c'.Pending label := by rw [Code.Pending, Code.Pending, h]
    rw [entries, entries, ih, decide_eq_decide.mpr hpending]

theorem entries_step {table : ℕ} {labels : List ℕ} (htable : table ≤ w.offset)
    (h : labels.foldlM (FunctionWriter.writeEntry A table) w = some w') :
    Step w.code w'.code (entries w.code table w.offset labels) ∧ w'.code.labels = w.code.labels := by
  induction labels generalizing w with
  | nil =>
    cases h
    exact ⟨.refl _, rfl⟩
  | cons label labels ih =>
    rw [List.foldlM_cons] at h
    obtain ⟨v, hv, h⟩ := Option.bind_eq_some_iff.mp h
    obtain ⟨hstep, hoff, hlabels⟩ := writeEntry_step htable hv
    obtain ⟨hrest, hlabels'⟩ := ih (by omega) h
    rw [hoff, entries_congr hlabels] at hrest
    exact ⟨hstep.trans hrest, hlabels'.trans hlabels⟩

theorem jumpTable_step (hE : E.Ok) {table : ℕ} {labels : List ℕ}
    (h : w.jumpTable E A table labels = some w') :
    Step w.code w'.code (entries w'.code (Ranges.alignUp w.offset 4) (Ranges.alignUp w.offset 4) labels) ∧
      w'.code.labels[table]? = some (BitVec.ofNat 32 (Ranges.alignUp w.offset 4)) ∧
        Ranges.alignUp w.offset 4 ≤ w'.offset := by
  obtain ⟨v, hv, h⟩ := Option.bind_eq_some_iff.mp h
  obtain ⟨u, hu, h⟩ := Option.bind_eq_some_iff.mp h
  obtain ⟨t, ht, h⟩ := Option.bind_eq_some_iff.mp h
  have hspace := FunctionWriter.ensureSpace_code hu
  obtain ⟨hpending, hplace⟩ := FunctionWriter.labelPlace_code ht
  have hoff : t.offset = Ranges.alignUp w.offset 4 := by
    rw [← (FunctionWriter.align_code hE hv).1, ← FunctionWriter.offset_of_code hspace, ← t.length_text,
      ← u.length_text]
    exact congrArg (fun c => c.text.length) hplace
  obtain ⟨hentries, hlabels⟩ := entries_step le_rfl h
  have htable := Code.getElem?_place hpending
  rw [← hplace, ← hlabels, show u.code.text.length = t.code.text.length by rw [hplace, Code.place],
    show t.code.text.length = _ from t.length_text,
    hoff] at htable
  rw [hspace] at hpending hplace
  have hbefore := (align_step hE hv).trans (.place hpending)
  rw [← hplace] at hbefore
  rw [hoff, ← entries_congr hlabels] at hentries
  exact ⟨hbefore.trans hentries, htable, hoff ▸ t.length_text ▸ w'.length_text ▸ hentries.1⟩

/-- **What a step of the compiler adds**: the bytes that were there stay, and what refers to a label
leads there or has a fixup. -/
theorem Op.step (hE : E.Ok) {op : Op} (h : op.run E A w = some w') : Step w.code w'.code (op.refs w w') := by
  cases op with
  | encode reserve bs => exact (FunctionWriter.encode_code h).2 ▸ .bytes w.code bs
  | write bs => exact FunctionWriter.write_code h ▸ .bytes w.code bs
  | ensureSpace size => exact FunctionWriter.ensureSpace_code h ▸ .refl w.code
  | skip size =>
    obtain ⟨bs, -, hcode⟩ := FunctionWriter.skip_code h
    exact hcode ▸ .bytes w.code bs
  | align n => exact align_step hE h
  | labelCreate =>
    obtain rfl := Option.some.inj h
    exact .create w.code
  | labelPlace label =>
    obtain ⟨hpending, hcode⟩ := FunctionWriter.labelPlace_code h
    exact hcode ▸ .place hpending
  | jump j label =>
    obtain ⟨base, ⟨hpending, hbs, hcode⟩ | ⟨off, hplaced, hbs, hcode⟩⟩ :=
      FunctionWriter.generateRawJump_code h
    · have hafter : w'.code.Pending label := by rwa [hcode]
      rw [FunctionWriter.offset_append hcode] at hcode
      rw [Op.refs, decide_eq_true hafter, hcode, ← w.length_text]
      rw [← w.length_text] at hbs
      exact .pendingJump hE hbs hpending
    · have hafter : w'.code.Placed label off := by rwa [hcode]
      rw [Op.refs, decide_eq_false hafter.not_pending, hcode, ← w.length_text]
      rw [← w.length_text] at hbs
      exact .jump hE hbs hplaced
  | memDisp bs hdisp label =>
    obtain ⟨hpending, hcode⟩ := FunctionWriter.memDisp_code h
    have hoff := FunctionWriter.offset_append hcode
    rw [hoff] at hcode
    rw [Op.refs, hoff, hcode]
    exact .address hdisp hpending
  | jumpTable table labels => exact (jumpTable_step hE h).1

theorem run_step (hE : E.Ok) {ops : List Op} {refs : List Ref} (h : run E A w ops = some (w', refs)) :
    Step w.code w'.code refs := by
  induction ops generalizing w refs with
  | nil =>
    cases h
    exact .refl _
  | cons op ops ih =>
    obtain ⟨v, hv, h⟩ := Option.bind_eq_some_iff.mp h
    obtain ⟨out, hout, h⟩ := Option.map_eq_some_iff.mp h
    cases h
    exact (Op.step hE hv).trans (ih hout)

theorem run_append {pre post : List Op} :
    run E A w (pre ++ post) = (run E A w pre).bind fun out => (run E A out.1 post).map fun out' =>
      (out'.1, out.2 ++ out'.2) := by
  induction pre generalizing w with
  | nil => simp [run]
  | cons op pre ih =>
    rw [List.cons_append, run, run]
    cases op.run E A w with
    | none => rfl
    | some v => simp [ih, Option.map_bind, Option.bind_map, Function.comp_def, List.append_assoc]

end

/-! ### The fixups -/

namespace FunctionWriter

variable {w : FunctionWriter} {mem : Mem}

/-- The memory after the fixups: their fields are filled in, and no other byte has changed. -/
structure Handled (w : FunctionWriter) (mem : Mem) : Prop where
  field : ∀ f ∈ w.labelFixups, ∀ off, w.code.Placed f.label off →
    mem.load (w.dataBegin + f.off) 4 = fixupValue f off (w.sec.mem.load (w.dataBegin + f.off) 4)
  keep : ∀ a, (∀ f ∈ w.labelFixups, a < w.dataBegin + f.off ∨ w.dataBegin + f.off + 4 ≤ a) →
    mem a = w.sec.mem a

theorem length_fixupValue (f : LabelFixup) (off : BitVec 32) (bs : List UInt8) :
    (fixupValue f off bs).length = 4 := by
  rw [fixupValue]
  split <;> exact length_ofNat ..

theorem getD_labelOffsets {label : ℕ} {off : BitVec 32} (h : w.code.Placed label off) :
    w.labelOffsets.getD label unplaced = off := by
  rw [List.getD_eq_getElem?_getD, show w.labelOffsets[label]? = some off from h.1, Option.getD_some]

/-- The patches, for labels that are placed. -/
theorem foldlM_handleFixup {fs : List LabelFixup} (h : ∀ f ∈ fs, ∃ off, w.code.Placed f.label off) :
    fs.foldlM handleFixup (w.setMem mem) = some (w.setMem
      (patchAll (fun f => w.dataBegin + f.off) 4
        (fun f => fixupValue f (w.labelOffsets.getD f.label unplaced)) mem fs)) := by
  induction fs generalizing mem with
  | nil => rfl
  | cons f fs ih =>
    obtain ⟨off, hoff⟩ := h f List.mem_cons_self
    have hone : handleFixup (w.setMem mem) f = some (w.setMem
        (X64Code.patch (fun f => w.dataBegin + f.off) 4
          (fun f => fixupValue f (w.labelOffsets.getD f.label unplaced)) mem f)) := by
      rw [handleFixup, labelOffset_iff.mpr (show (w.setMem mem).code.Placed f.label off from hoff),
        X64Code.patch, getD_labelOffsets hoff]
      rfl
    rw [List.foldlM_cons, hone]
    exact ih fun g hg => h g (List.mem_cons_of_mem _ hg)

theorem handleFixups_spec {lo hi : ℕ} (hapart : Ordered lo hi (w.labelFixups.map LabelFixup.field))
    (h : ∀ f ∈ w.labelFixups, ∃ off, w.code.Placed f.label off) : ∃ mem,
      w.handleFixups = some (w.setMem mem) ∧ w.Handled mem := by
  refine ⟨_, foldlM_handleFixup h, fun f hf off hoff => ?_, fun a ha => ?_⟩
  · have hpairs : w.labelFixups.Pairwise fun f g => w.dataBegin + f.off + 4 ≤ w.dataBegin + g.off ∨
      w.dataBegin + g.off + 4 ≤ w.dataBegin + f.off :=
      (List.pairwise_map.mp hapart.pairwise).imp fun h => by
        rw [Apart, LabelFixup.field, LabelFixup.field] at h
        omega
    rw [← getD_labelOffsets hoff]
    exact load_patchAll (fun f _ bs => length_fixupValue f _ bs) hpairs hf
  · exact patchAll_of_not_mem (fun f _ bs => length_fixupValue f _ bs) ha

namespace Handled

variable {a : ℕ} {bs : List UInt8} (h : w.Handled mem)
include h

/-- What is in no field still stands. -/
theorem stands (hbs : w.code.Stands a bs) : bs <+: (w.setMem mem).text.drop a := by
  have hle : a + bs.length ≤ w.offset := hbs.le.trans_eq w.length_text
  have hold : bs = (w.text.drop a).take bs.length := List.prefix_iff_eq_take.mp hbs.text
  rw [text, Mem.load_slice _ hle] at hold
  rw [List.prefix_iff_eq_take, text, show (w.setMem mem).offset = w.offset from rfl, Mem.load_slice _ hle]
  refine hold.trans (Mem.load_congr fun x hlo hhi => (h.keep x fun f hf => ?_).symm)
  have hf := hbs.apart f hf
  omega

/-- A field in the text. -/
theorem take_drop {f : LabelFixup} (hf : f ∈ w.labelFixups) (hin : f.off + 4 ≤ w.offset)
    {off : BitVec 32} (hoff : w.code.Placed f.label off) :
    ((w.setMem mem).text.drop f.off).take 4 = fixupValue f off ((w.text.drop f.off).take 4) := by
  rw [text, text, show (w.setMem mem).offset = w.offset from rfl, Mem.load_slice _ hin, Mem.load_slice _ hin]
  exact h.field f hf off hoff

end Handled

/-- The displacement of a jump or of an address is from the end of its field. -/
theorem signed_fixupValue {f : LabelFixup} {off : BitVec 32} {bs : List UInt8}
    (hkind : f.kind = .jmpOrMemDisp) (hoff : off.toNat < 2 ^ 31)
    (hf : f.off + 4 < 2 ^ 31) : signed (fixupValue f off bs) = (off.toNat : ℤ) - (f.off + 4 : ℕ) := by
  have hsub : off - BitVec.ofNat 32 f.off - 4 = off - BitVec.ofNat 32 (f.off + 4) := by bv_omega
  rw [fixupValue, hkind]
  dsimp only
  rw [signed_ofNat, hsub, toInt_sub_ofNat hoff hf]

/-- The distance of an entry is from its table, which the entry has kept. -/
theorem signed_fixupValue_table {f : LabelFixup} {off : BitVec 32} {table : ℕ}
    (hkind : f.kind = .jumpTable) (hoff : off.toNat < 2 ^ 31)
    (htable : table < 2 ^ 31) : signed (fixupValue f off (ofNat 4 table)) = (off.toNat : ℤ) - table := by
  rw [fixupValue, hkind]
  dsimp only
  rw [signed_ofNat, toNat_ofNat, Nat.mod_eq_of_lt (by omega), toInt_sub_ofNat hoff htable]

/-- **Every reference leads to its label** after the fixups. -/
theorem Handled.leads (h : w.Handled mem) (hw : w.code.Within) (hsize : w.offset < 2 ^ 31) {r : Ref}
    (hr : r.Recorded w.code)
    {off : BitVec 32} (hoff : w.code.Placed r.label off) : r.Leads (w.setMem mem).text off.toNat := by
  have hlen : w.code.text.length = w.offset := w.length_text
  have hlt : off.toNat < 2 ^ 31 := ((hw.placed _ off hoff).trans_eq hlen).trans_lt hsize
  have hunique : ∀ {off'}, w.code.Placed r.label off' → off' = off :=
    fun hoff' => Option.some.inj (hoff'.1.symm.trans hoff.1)
  cases hr with
  | @pendingJump j label start opcode fixup =>
    have hin := (hw.fixup _ fixup).1
    rw [hlen] at hin
    dsimp only at hin
    obtain ⟨rest, hrest⟩ := h.stands opcode
    have hdrop : rest = (w.setMem mem).text.drop (start + (longOpcode j.cond).length) := by
      rw [← List.drop_drop, ← hrest, List.drop_left]
    have hfield := h.take_drop fixup hin hoff
    rw [← hdrop] at hfield
    refine ⟨(longOpcode j.cond).length + 4, signed (rest.take 4), ?_, ?_, fun _ => rfl⟩
    · rw [← hrest, ← List.take_append_drop 4 rest, ← List.append_assoc,
        decodeJump_long Jump.cond_lt (by rw [hfield, length_fixupValue])]
      rw [List.take_append_drop]
    · rw [hfield, signed_fixupValue rfl hlt (by dsimp only; omega)]
      push_cast
      ring
  | jump placed stands decode =>
    obtain ⟨rest, hrest⟩ := h.stands stands
    refine ⟨_, _, hrest ▸ decode rest, ?_, fun hfalse => absurd hfalse Bool.false_ne_true⟩
    rw [hunique placed]
    ring
  | @address label stop le fixup =>
    have hin := (hw.fixup _ fixup).1
    rw [hlen] at hin
    dsimp only at hin
    refine ⟨le, ?_, ?_⟩
    · rw [FunctionWriter.length_text]
      change stop ≤ w.offset
      omega
    · rw [h.take_drop fixup hin hoff, signed_fixupValue rfl hlt (by dsimp only; omega)]
      dsimp only
      omega
  | @pendingEntry label table at_ text le fixup =>
    have hin := (hw.fixup _ fixup).1
    rw [hlen] at hin
    dsimp only at hin
    have hold : ofNat 4 table = (w.text.drop at_).take 4 :=
      (List.prefix_iff_eq_take.mp text).trans (by rw [length_ofNat]; rfl)
    refine ⟨(by rw [FunctionWriter.length_text]; exact hin), ?_⟩
    rw [h.take_drop fixup hin hoff, ← hold, signed_fixupValue_table rfl hlt (by omega)]
    ring
  | @entry label table at_ bs target placed stands length diff =>
    have hnew : bs = ((w.setMem mem).text.drop at_).take 4 :=
      (List.prefix_iff_eq_take.mp (h.stands stands)).trans (by rw [length])
    refine ⟨?_, ?_⟩
    · rw [FunctionWriter.length_text]
      change at_ + 4 ≤ w.offset
      rw [← length, ← hlen]
      exact stands.le
    · rw [← hnew, diff, hunique placed]

end FunctionWriter

theorem Ref.Recorded.label_lt {c : Code} {r : Ref} (h : r.Recorded c) (hc : c.Within) :
    r.label < c.labels.length := by
  cases h with
  | pendingJump _ fixup | address _ fixup | pendingEntry _ _ fixup => exact (hc.fixup _ fixup).2
  | jump placed | entry placed => exact (List.getElem?_eq_some_iff.mp placed.1).1

/-- A label that a step places, and where. -/
def Op.places (w : FunctionWriter) : Op → Option (ℕ × ℕ)
  | labelPlace label => some (label, w.offset)
  | jumpTable table _ => some (table, Ranges.alignUp w.offset 4)
  | _ => none

section
variable {E : Encoder} {A : Allocator} {w₀ w w' : FunctionWriter} {ops : List Op} {refs : List Ref}

theorem Op.placed (hE : E.Ok) {op : Op} (h : op.run E A w = some w') (hsize : w'.offset < 2 ^ 31) :
    ∀ p ∈ op.places w, w'.code.Placed p.1 (BitVec.ofNat 32 p.2) := by
  intro p hp
  obtain ⟨hlabel, hle⟩ : w'.code.labels[p.1]? = some (BitVec.ofNat 32 p.2) ∧ p.2 ≤ w'.offset := by
    cases op with
    | labelPlace label =>
      obtain ⟨hpending, hcode⟩ := FunctionWriter.labelPlace_code h
      obtain rfl := Option.some.inj hp
      have hplace := Code.getElem?_place hpending
      rw [← hcode, show w.code.text.length = w.offset from w.length_text] at hplace
      refine ⟨hplace, ?_⟩
      rw [← w.length_text, ← w'.length_text]
      exact (congrArg (fun c => c.text.length) hcode).ge
    | jumpTable table labels =>
      obtain rfl := Option.some.inj hp
      exact (jumpTable_step hE h).2
    | _ => cases hp
  refine ⟨hlabel, fun heq => ?_⟩
  have hnat : p.2 % 2 ^ 32 = 2 ^ 32 - 1 := congrArg BitVec.toNat heq
  omega

/-- **Every point of a run**: what was written and placed before is there at the end, and the label that
is placed next is where the step places it. -/
theorem run_extends (hE : E.Ok) (hw : w.code.Within) (h : run E A w ops = some (w', refs))
    (hsize : w'.offset < 2 ^ 31)
    {pre post : List Op} {op : Op} (hops : ops = pre ++ op :: post) :
    ∃ v rs, run E A w pre = some (v, rs) ∧ v.code.Extends w'.code ∧ ∀ p ∈ op.places v,
      w'.labelOffset p.1 = some (BitVec.ofNat 32 p.2) := by
  rw [hops, run_append] at h
  obtain ⟨⟨v, rs⟩, hpre, h⟩ := Option.bind_eq_some_iff.mp h
  obtain ⟨⟨v', rs'⟩, hpost, h⟩ := Option.map_eq_some_iff.mp h
  cases h
  dsimp only at hpost
  have hrest := hpost
  obtain ⟨u, hu, hpost⟩ := Option.bind_eq_some_iff.mp hpost
  obtain ⟨out, hout, hpost⟩ := Option.map_eq_some_iff.mp hpost
  cases hpost
  have hsize' : out.1.code.text.length < 2 ^ 31 := by
    rwa [show out.1.code.text.length = _ from out.1.length_text]
  have hv := (run_step hE hpre).2 ((run_step hE hrest).1.trans_lt hsize') hw
  have hustep := Op.step hE hu
  have hafter := (run_step hE hout).1
  have hadds := hustep.2 (hafter.trans_lt hsize') hv.within
  refine ⟨v, rs, hpre, ((run_step hE hrest).2 hsize' hv.within).grows,
    fun p hp => FunctionWriter.labelOffset_iff.mpr ?_⟩
  have hoff : u.offset < 2 ^ 31 := u.length_text ▸ hafter.trans_lt hsize'
  exact ((run_step hE hout).2 hsize' hadds.within).grows.placed (Op.placed hE hu hoff p hp)

/-- **After the fixups** every reference leads to its label, and no byte has changed that is not in the
field of a fixup. -/
theorem run_fixups (hE : E.Ok) (hbegin : w.labelFixups = []) (hw : w.code.Within)
    (h : run E A w ops = some (w', refs))
    (hsize : w'.offset < 2 ^ 31) (hplaced : ∀ off ∈ w'.labelOffsets, off ≠ FunctionWriter.unplaced) :
    ∃ mem, w'.finishFunc = some (w'.setMem mem) ∧
      (∀ r ∈ refs, ∃ off, w'.labelOffset r.label = some off ∧ r.Leads (w'.setMem mem).text off.toNat) ∧
      ∀ a, (∀ r ∈ refs, ∀ f ∈ r.fixup, a < w'.dataBegin + f.off ∨ w'.dataBegin + f.off + 4 ≤ a) →
        mem a = w'.sec.mem a := by
  have hsize' : w'.code.text.length < 2 ^ 31 := by rwa [show w'.code.text.length = _ from w'.length_text]
  have hrun := (run_step hE h).2 hsize' hw
  have hlabel : ∀ label < w'.code.labels.length, ∃ off, w'.code.Placed label off := fun label hlt =>
    ⟨w'.code.labels[label], List.getElem?_eq_getElem hlt, hplaced _ (List.getElem_mem hlt)⟩
  obtain ⟨fs, hfs, hord⟩ := hrun.grows.fixups
  rw [show w.code.fixups = [] from hbegin, List.nil_append] at hfs
  rw [← hfs] at hord
  obtain ⟨mem, hmem, hhandled⟩ := FunctionWriter.handleFixups_spec hord fun f hf =>
    hlabel f.label (hrun.within.fixup f hf).2
  refine ⟨mem, hmem, fun r hr => ?_, fun a ha => hhandled.keep a fun f hf => ?_⟩
  · obtain ⟨off, hoff⟩ := hlabel r.label ((hrun.recorded r hr).label_lt hrun.within)
    exact ⟨off, FunctionWriter.labelOffset_iff.mpr hoff,
      hhandled.leads hrun.within hsize (hrun.recorded r hr) hoff⟩
  · have hall := hrun.fixups
    rw [show w.code.fixups = [] from hbegin, List.nil_append] at hall
    obtain ⟨r, hr, hf⟩ := List.mem_filterMap.mp (hall ▸ hf : f ∈ refs.filterMap Ref.fixup)
    exact ha r hr f hf

/-- A function starts without labels and without fixups. -/
theorem beginFunc_within {expectedSize : ℕ} (h : w₀.beginFunc A expectedSize = some w) :
    w.code.Within ∧ w.labelFixups = [] ∧ w.text = w₀.text := by
  have hcode := FunctionWriter.beginFunc_code h
  refine ⟨?_, congrArg Code.fixups hcode, congrArg Code.text hcode⟩
  rw [hcode]
  exact ⟨fun label off hoff => absurd hoff.1 (by simp), List.forall_mem_nil _⟩

/-- **Growth and fixups.** Growing the buffer leaves what is written and all positions as they are. At
every point of a run over the operations of a function, the text and the labels so far are those of the
end, and a label is where it is placed. If all labels are placed, the fixups make each jump, address and
entry lead to its label and change no other byte. -/
theorem finishFunc_leads (hE : E.Ok) {expectedSize : ℕ} (hbegin : w₀.beginFunc A expectedSize = some w)
    (hrun : run E A w ops = some (w', refs)) (hsize : w'.offset < 2 ^ 31) :
    (∀ (v v' : FunctionWriter) (size : ℕ), v.moreSpace A size = some v' → v'.code = v.code) ∧
    w₀.text <+: w'.text ∧
    (∀ pre op post, ops = pre ++ op :: post → ∃ v rs, run E A w pre = some (v, rs) ∧ v.code.Extends w'.code ∧
      ∀ p ∈ op.places v, w'.labelOffset p.1 = some (BitVec.ofNat 32 p.2)) ∧
    ((∀ off ∈ w'.labelOffsets, off ≠ FunctionWriter.unplaced) → ∃ mem, w'.finishFunc = some (w'.setMem mem) ∧
      (∀ r ∈ refs, ∃ off, w'.labelOffset r.label = some off ∧ r.Leads (w'.setMem mem).text off.toNat) ∧
      ∀ a, (∀ r ∈ refs, ∀ f ∈ r.fixup, a < w'.dataBegin + f.off ∨ w'.dataBegin + f.off + 4 ≤ a) →
        mem a = w'.sec.mem a) := by
  obtain ⟨hw, hfixups, htext⟩ := beginFunc_within hbegin
  refine ⟨fun v v' size h => FunctionWriter.moreSpace_code h, ?_,
    fun pre op post hops => run_extends hE hw hrun hsize hops,
    fun hplaced => run_fixups hE hfixups hw hrun hsize hplaced⟩
  have hsize' : w'.code.text.length < 2 ^ 31 := by rwa [show w'.code.text.length = _ from w'.length_text]
  exact htext ▸ ((run_step hE hrun).2 hsize' hw).grows.text

end

/-- Jumps as short as they may be, and one-byte `nop`s. -/
def shortest : Encoder where
  jmp long buf target := relJump [0xeb] (longOpcode none) long ((target : ℤ) - buf)
  jcc long cond buf target :=
    relJump [UInt8.ofNat (0x70 + cond)] (longOpcode (some cond)) long ((target : ℤ) - buf)
  nop n := List.replicate n 0x90

theorem shortest_ok : shortest.Ok where
  jmp_target long buf target rest h := by
    rw [Nat.cast_add, ← Int.sub_sub]
    exact decodeJump_relJump (fun _ _ => decodeJump_short)
      (fun _ _ => decodeJump_long (fun c hc => by cases hc)) h
  jcc_target long cond buf target rest hcond h := by
    rw [Nat.cast_add, ← Int.sub_sub]
    exact decodeJump_relJump (fun _ _ => decodeJump_shortCond hcond)
      (fun _ _ => decodeJump_long (fun c hc => Option.mem_some_iff.mp hc ▸ hcond)) h
  jmp_long buf target h := relJump_long [0xeb] h
  jcc_long cond buf target _ h := relJump_long [UInt8.ofNat (0x70 + cond)] h
  jmp_near long buf target h := relJump_ne_nil (by decide) h.1 h.2
  jcc_near long cond buf target _ h := relJump_ne_nil (le_refl 2) h.1 h.2
  length_jmp long buf target := length_relJump_le le_rfl (by decide)
  length_jcc long cond buf target := length_relJump_le le_rfl (le_refl 2)
  length_nop n _ := List.length_replicate

/-- A writer behind two bytes of text, in a buffer that is full. -/
def twoBytes : FunctionWriter where
  sec :=
    { mem := fun _ => 0xc3, ptr := 0x1000, size := 2, capacity := 2, align := 1, grows := 0,
      size_le := le_rfl, capacity_lt := by norm_num }
  dataBegin := 0x1000
  dataCur := 0x1002
  dataReserveEnd := 0x1002
  labelOffsets := []
  labelFixups := []
  growthSize := 0
  begin_eq := rfl
  begin_le := by norm_num
  cur_le := le_rfl
  end_eq := rfl

def sampleAllocator : Allocator := fun n => some (0x2000 * (n + 1), fun _ => 0xcc)

def sampleOps : List Op :=
  [.labelCreate, .labelCreate, .labelCreate, .labelPlace 0, .jump .je 1,
    .memDisp [0x48, 0x8d, 0x05, 0xff, 0xff, 0xff, 0xff] (by decide) 2,
    .jumpTable 2 [0, 1], .encode 16 [0x90], .labelPlace 1, .jump .jmp 0]

theorem sample_run :
    ((twoBytes.beginFunc sampleAllocator 8).bind fun w => run shortest sampleAllocator w sampleOps).any
    (fun out => decide (out.1.offset < 2 ^ 31) && out.1.labelOffsets.all fun off =>
      decide (off ≠ FunctionWriter.unplaced)) = true := by
  decide +kernel

/-- Jumps forwards and backwards and a table with both, in a buffer that moves three times. -/
theorem finishFunc_leads_sample : ∃ w w' refs mem, twoBytes.beginFunc sampleAllocator 8 = some w ∧
    run shortest sampleAllocator w sampleOps = some (w', refs) ∧ w'.finishFunc = some (w'.setMem mem) ∧
    ∀ r ∈ refs, ∃ off, w'.labelOffset r.label = some off ∧ r.Leads (w'.setMem mem).text off.toNat := by
  obtain ⟨⟨w', refs⟩, hrun, hout⟩ := (Option.any_eq_true ..).mp sample_run
  obtain ⟨w, hbegin, hrun⟩ := Option.bind_eq_some_iff.mp hrun
  obtain ⟨hsize, hplaced⟩ := Bool.and_eq_true_iff.mp hout
  obtain ⟨-, -, -, hfixups⟩ := finishFunc_leads shortest_ok hbegin hrun (of_decide_eq_true hsize)
  obtain ⟨mem, hfinish, hleads, -⟩ :=
    hfixups fun off hoff => of_decide_eq_true (List.all_eq_true.mp hplaced off hoff)
  exact ⟨w, w', refs, mem, hbegin, hrun, hfinish, hleads⟩

end Tpde.Assembler.X64
