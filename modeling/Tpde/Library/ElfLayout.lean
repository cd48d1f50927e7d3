import Tpde.Library.Elf

/-!
# Object files that are laid out in order

Contents that follow one another in a file, each one for a section header that says where
it is. They are found where the headers say (`LaidOut.content`), they do not overlap
(`LaidOut.pairwise`), and a file of headers with such contents is read back
(`readObject_file`).
-/

namespace Elf

open Bytes

/-- A header with the bytes that are written for it. -/
abbrev Content := Shdr × List UInt8

/-- Contents that follow one another from an offset on. -/
def LaidOut : ℕ → List Content → Prop
  | _, [] => True
  | off, c :: cs => c.1.offset = off ∧ c.1.range.2 ≤ c.2.length ∧ LaidOut (off + c.2.length) cs

/-- The bytes of some contents. -/
def contentBytes (cs : List Content) : List UInt8 := cs.flatMap Prod.snd

namespace LaidOut

variable {off : ℕ} {cs cs' : List Content} {c : Content}

theorem append (h : LaidOut off cs) (h' : LaidOut (off + (contentBytes cs).length) cs') :
    LaidOut off (cs ++ cs') := by
  induction cs generalizing off with
  | nil => exact h'
  | cons c cs ih =>
    obtain ⟨hoff, hlen, hrest⟩ := h
    refine ⟨hoff, hlen, ih hrest ?_⟩
    rwa [contentBytes, List.flatMap_cons, List.length_append, ← Nat.add_assoc] at h'

theorem of_append (h : LaidOut off (cs ++ cs')) : LaidOut off cs ∧
    LaidOut (off + (contentBytes cs).length) cs' := by
  induction cs generalizing off with
  | nil => exact ⟨trivial, h⟩
  | cons c cs ih =>
    obtain ⟨hoff, hlen, hrest⟩ := h
    obtain ⟨hcs, hcs'⟩ := ih hrest
    refine ⟨⟨hoff, hlen, hcs⟩, ?_⟩
    rwa [contentBytes, List.flatMap_cons, List.length_append, ← Nat.add_assoc]

/-- Contents lie behind the offset, and within the bytes. -/
theorem within (h : LaidOut off cs) (hc : c ∈ cs) :
    off ≤ c.1.offset ∧ c.1.offset + c.1.range.2 ≤ off + (contentBytes cs).length := by
  obtain ⟨before, after, rfl⟩ := List.append_of_mem hc
  obtain ⟨-, hoff, hlen, -⟩ := h.of_append
  simp only [contentBytes, List.flatMap_append, List.flatMap_cons, List.length_append] at hoff ⊢
  omega

/-- A content is where its header says. -/
theorem content (h : LaidOut off cs) (hc : c ∈ cs) {file rest : List UInt8}
    (hfile : file.drop off = contentBytes cs ++ rest) :
    (file.drop c.1.range.1).take c.1.range.2 = c.2.take c.1.range.2 := by
  obtain ⟨before, after, rfl⟩ := List.append_of_mem hc
  obtain ⟨-, hoff, hlen, -⟩ := h.of_append
  have hdrop : file.drop c.1.range.1 = c.2 ++ (contentBytes after ++ rest) := by
    show file.drop c.1.offset = _
    have hbytes : contentBytes (before ++ c :: after) ++ rest = contentBytes before ++
      (c.2 ++ (contentBytes after ++ rest)) := by
      simp [contentBytes]
    rw [hoff, ← List.drop_drop, hfile, hbytes, List.drop_left]
  rw [hdrop, List.take_append_of_le_length hlen]

/-- Contents do not overlap, and are in order. -/
theorem pairwise (h : LaidOut off cs) : cs.Pairwise fun c c' => c.1.offset + c.1.range.2 ≤ c'.1.offset := by
  induction cs generalizing off with
  | nil => exact .nil
  | cons c cs ih =>
    obtain ⟨hoff, hlen, hrest⟩ := h
    refine .cons (fun c' hc' => ?_) (ih hrest)
    have hwithin := (hrest.within hc').1
    omega

/-- Contents are aligned if the lengths of those before are. -/
theorem aligned {a : ℕ} (h : LaidOut off cs) (hoff : a ∣ off) (ha : ∀ c ∈ cs, a ∣ c.2.length) :
    ∀ c ∈ cs, a ∣ c.1.offset := by
  induction cs generalizing off with
  | nil => exact fun c hc => absurd hc List.not_mem_nil
  | cons d cs ih =>
    obtain ⟨hd, -, hrest⟩ := h
    intro c hc
    cases List.mem_cons.mp hc with
    | inl hc =>
      rw [hc, hd]
      exact hoff
    | inr hc =>
      exact ih hrest (hoff.add (ha d List.mem_cons_self)) (fun c hc => ha c (List.mem_cons_of_mem _ hc)) c hc

end LaidOut

/-- The bytes of section headers. -/
def headerBytes (hdrs : List Shdr) : List UInt8 := hdrs.flatMap fun hdr => pack hdr.fields

theorem length_headerBytes (hdrs : List Shdr) : (headerBytes hdrs).length = 64 * hdrs.length :=
  length_flatMap fun hdr _ => length_pack hdr.fields

/-- A file with section headers behind its header is read back. -/
theorem readObject_file {ident rest : List UInt8} {ehdr : Ehdr} {hdrs : List Shdr}
    (hident : ident.length = 16)
    (hmagic : ident.take 7 = identMagic) (hehdr : Fits ehdr.fields) (htype : ehdr.type = 1 ∧
      ehdr.version = 1 ∧ ehdr.shentsize = 64)
    (hoff : ehdr.shoff = 64) (hhdrs : ∀ hdr ∈ hdrs, Fits hdr.fields)
    (hnum : (if ehdr.shnum = 0 then (hdrs.headD {}).size else ehdr.shnum) = hdrs.length) (hne : hdrs ≠ []) :
    readObject (ident ++ pack ehdr.fields ++ headerBytes hdrs ++ rest) =
      some ⟨ident ++ pack ehdr.fields ++ headerBytes hdrs ++ rest, hdrs, ehdr.shstrndx⟩ := by
  have htake : (ident ++ pack ehdr.fields ++ headerBytes hdrs ++ rest).take 7 = identMagic := by
    rw [List.append_assoc, List.append_assoc, List.take_append_of_le_length (by omega), hmagic]
  have hdrop : (ident ++ pack ehdr.fields ++ headerBytes hdrs ++ rest).drop 16 =
    pack ehdr.fields ++ (headerBytes hdrs ++ rest) := by
    rw [List.append_assoc, List.append_assoc, List.drop_left' hident]
  have hshoff : (ident ++ pack ehdr.fields ++ headerBytes hdrs ++ rest).drop ehdr.shoff =
    headerBytes hdrs ++ rest := by
    rw [List.append_assoc, List.drop_left']
    rw [List.length_append, length_pack, hident, hoff]
    rfl
  have hfirst : readShdr (headerBytes hdrs ++ rest) = hdrs.headD {} := by
    cases hdrs with
    | nil => exact absurd rfl hne
    | cons hdr hdrs =>
      rw [headerBytes, List.flatMap_cons, List.append_assoc, readShdr_pack (hhdrs hdr List.mem_cons_self)]
      rfl
  have hlen (hdr : Shdr) (_ : hdr ∈ hdrs) : (pack hdr.fields).length = 64 := length_pack hdr.fields
  have htable := readTable_flatMap hlen (fun hdr hhdr => readShdr_pack (hhdrs hdr hhdr)) rest
  rw [readObject, if_pos htake, hdrop, readEhdr_pack hehdr, Option.bind_some, if_pos htype, hshoff, hfirst]
  simp only [hnum]
  rw [← headerBytes] at htable
  rw [htable]

end Elf
