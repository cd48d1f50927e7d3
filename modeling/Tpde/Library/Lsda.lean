import Tpde.Library.Leb128

/-!
# Language-specific data areas

How a personality routine reads the tables of a function: the header, the call-site
table that it searches for an address, and the chains of the action table. Chains
link records by the distance from the link to the next record.
-/

namespace Lsda

open Leb128

/-! ### The header -/

/-- Offsets in the area: the end of the type table, and the call-site table. The action table is behind it. -/
structure Header where
  typeBase : Option ℕ
  callSites : ℕ
  callSitesEnd : ℕ
  deriving DecidableEq

/-- `DW_EH_PE_omit`, `DW_EH_PE_uleb128`, and `DW_EH_PE_sdata4`, relative and indirect. -/
def peOmit : UInt8 := 0xff
def peUleb128 : UInt8 := 0x01
def peType : UInt8 := 0x9b

/-- The part behind the type table's offset, in an area of `n` bytes. -/
def readCallSites (n : ℕ) (typeBase : Option ℕ) : List UInt8 → Option Header
  | enc :: bs =>
    if enc = peUleb128 then
      (readUleb bs).map fun x => ⟨typeBase, n - x.2.length, n - x.2.length + x.1⟩
    else none
  | [] => none

/-- The header, of an area with no landing pad base. -/
def readHeader : List UInt8 → Option Header
  | lp :: tt :: bs =>
    if lp = peOmit then
      if tt = peOmit then readCallSites (bs.length + 2) none bs
      else if tt = peType then
        (readUleb bs).bind fun x =>
          readCallSites (bs.length + 2) (some (bs.length + 2 - x.2.length + x.1)) x.2
      else none
    else none
  | _ => none

/-! ### The call-site table -/

/-- An entry, with offsets from the start of the function. -/
structure Entry where
  start : ℕ
  len : ℕ
  landingPad : ℕ
  action : ℕ
  deriving DecidableEq

/-- An entry of four numbers. -/
def readEntry (bs : List UInt8) : Option (Entry × List UInt8) := do
  let (start, bs) ← readUleb bs
  let (len, bs) ← readUleb bs
  let (landingPad, bs) ← readUleb bs
  let (action, bs) ← readUleb bs
  return (⟨start, len, landingPad, action⟩, bs)

/-- The search for an address, in at most `n` entries. The table is sorted. -/
def lookup : ℕ → List UInt8 → ℕ → Option Entry
  | 0, _, _ => none
  | n + 1, bs, ip =>
    match readEntry bs with
    | none => none
    | some (e, rest) =>
      if ip < e.start then none
      else if ip < e.start + e.len then some e
      else lookup n rest ip

/-- The call-site table of an area. -/
def callSites (hdr : Header) (bs : List UInt8) : List UInt8 :=
  (bs.drop hdr.callSites).take (hdr.callSitesEnd - hdr.callSites)

/-- The entry for an address. -/
def find (bs : List UInt8) (ip : ℕ) : Option Entry :=
  (readHeader bs).bind fun hdr => lookup (callSites hdr bs).length (callSites hdr bs) ip

/-- The address is in the range of the entry. -/
def Entry.Covers (e : Entry) (ip : ℕ) : Prop := e.start ≤ ip ∧ ip < e.start + e.len

/-- The bytes are those of the entry, whatever is behind them. -/
def IsEntry (e : Entry) (bs : List UInt8) : Prop := ∀ rest, readEntry (bs ++ rest) = some (e, rest)

theorem isEntry_of_uleb {e : Entry} {b₁ b₂ b₃ b₄ : List UInt8} (h₁ : IsUleb e.start b₁) (h₂ : IsUleb e.len b₂)
    (h₃ : IsUleb e.landingPad b₃) (h₄ : IsUleb e.action b₄) : IsEntry e (b₁ ++ b₂ ++ b₃ ++ b₄) :=
      fun rest => by
  simp [readEntry, List.append_assoc, h₁ _, h₂ _, h₃ _, h₄ _]

/-- The entries cover the addresses from `a` to `b`, one behind the other. -/
def Tiles (a b : ℕ) : List Entry → Prop
  | [] => a = b
  | e :: es => e.start = a ∧ Tiles (a + e.len) b es

theorem Tiles.append {b c : ℕ} {es' : List Entry} (h' : Tiles b c es') :
    ∀ {a : ℕ} {es : List Entry}, Tiles a b es → Tiles a c (es ++ es')
  | _, [], h => by
    have h : _ = b := h
    subst h
    exact h'
  | _, _ :: _, h => ⟨h.1, append h' h.2⟩

theorem Tiles.le_start {b : ℕ} {e : Entry} : ∀ {a : ℕ} {es : List Entry}, Tiles a b es → e ∈ es → a ≤ e.start
  | _, [], _, he => by cases he
  | a, e' :: es, h, he => by
    cases he with
    | head => exact h.1.ge
    | tail _ he => exact (Nat.le_add_right _ _).trans (h.2.le_start he)

/-- **The search** finds the entry for an address that entries cover. -/
theorem lookup_tiles {enc : Entry → List UInt8} (henc : ∀ e, IsEntry e (enc e)) (tail : List UInt8)
    {b ip : ℕ} :
    ∀ {n a : ℕ} {es : List Entry}, Tiles a b es → a ≤ ip → ip < b → es.length ≤ n →
      ∃ e ∈ es, e.Covers ip ∧ lookup n (es.flatMap enc ++ tail) ip = some e
  | _, _, [], h, hle, hlt, _ => by
    have h : _ = b := h
    omega
  | 0, _, _ :: _, _, _, _, hn => absurd hn (Nat.not_succ_le_zero _)
  | n + 1, a, e :: es, h, hle, hlt, hn => by
    have hread := henc e (es.flatMap enc ++ tail)
    rw [List.flatMap_cons, List.append_assoc, lookup, hread]
    simp only [h.1, if_neg (not_lt.mpr hle)]
    split
    · rename_i hin
      exact ⟨e, List.mem_cons_self, ⟨h.1.trans_le hle, by rw [h.1]; exact hin⟩, rfl⟩
    · rename_i hout
      obtain ⟨e', he', hcov, hlook⟩ :=
        lookup_tiles henc tail h.2 (not_lt.mp hout) hlt (Nat.succ_le_succ_iff.mp hn)
      exact ⟨e', List.mem_cons_of_mem _ he', hcov, hlook⟩

/-! ### The action table -/

/-- The filters of the records from an offset on. A link of zero ends the chain. -/
inductive Chain (table : List UInt8) : ℕ → List ℤ → Prop
  | last {off : ℕ} {filter : ℤ} {r r' : List UInt8} (hf : readSleb (table.drop off) = some (filter, r))
      (hl : readSleb r = some (0, r')) : Chain table off [filter]
  | next {off off' : ℕ} {filter link : ℤ} {r r' : List UInt8} {fs : List ℤ}
      (hf : readSleb (table.drop off) = some (filter, r)) (hl : readSleb r = some (link, r')) (h0 : link ≠ 0)
      (hoff : ((table.length - r.length : ℕ) : ℤ) + link = off') (hrest : Chain table off' fs) :
      Chain table off (filter :: fs)

/-- What a chain is, from what is read of its first record. -/
theorem chain_iff {table : List UInt8} {off : ℕ} {f : ℤ} {r : List UInt8}
    (hf : readSleb (table.drop off) = some (f, r))
    {fs : List ℤ} : Chain table off fs ↔ ∃ es link r', fs = f :: es ∧ readSleb r = some (link, r') ∧
      (link = 0 ∧ es = [] ∨
        link ≠ 0 ∧ ∃ off' : ℕ, ((table.length - r.length : ℕ) : ℤ) + link = off' ∧ Chain table off' es) := by
  constructor
  · intro h
    cases h with
    | last hf' hl =>
      obtain ⟨rfl, rfl⟩ : f = _ ∧ r = _ := by simpa using hf.symm.trans hf'
      exact ⟨[], 0, _, rfl, hl, .inl ⟨rfl, rfl⟩⟩
    | next hf' hl h0 hoff hrest =>
      obtain ⟨rfl, rfl⟩ : f = _ ∧ r = _ := by simpa using hf.symm.trans hf'
      exact ⟨_, _, _, rfl, hl, .inr ⟨h0, _, hoff, hrest⟩⟩
  · rintro ⟨es, link, r', rfl, hl, ⟨rfl, rfl⟩ | ⟨h0, off', hoff, hrest⟩⟩
    · exact .last hf hl
    · exact .next hf hl h0 hoff hrest

/-- There is one chain from an offset on. -/
theorem Chain.unique {table : List UInt8} {off : ℕ} {fs fs' : List ℤ} (h : Chain table off fs)
    (h' : Chain table off fs') :
    fs = fs' := by
  induction h generalizing fs' with
  | last hf hl =>
    obtain ⟨es, link, r', rfl, hl', hrest⟩ := (chain_iff hf).mp h'
    obtain ⟨rfl, -⟩ : 0 = link ∧ _ = r' := by simpa using hl.symm.trans hl'
    rcases hrest with ⟨-, rfl⟩ | ⟨h0, -⟩
    · rfl
    · exact absurd rfl h0
  | next hf hl h0 hoff _ ih =>
    obtain ⟨es, link, r', rfl, hl', hrest⟩ := (chain_iff hf).mp h'
    obtain ⟨rfl, -⟩ : _ = link ∧ _ = r' := by simpa using hl.symm.trans hl'
    rcases hrest with ⟨h0', -⟩ | ⟨-, off', hoff', hrest⟩
    · exact absurd h0' h0
    · obtain rfl : _ = off' := by exact_mod_cast hoff.symm.trans hoff'
      rw [ih hrest]

end Lsda
