import XHook.Memory

/-!
# The image view

`xh_elf_t` caches what `xh_elf_init` finds in a loaded image: its header and program
headers, the dynamic section, the string and symbol tables, one hash table and the three
relocation regions. `xh_elf_check` is the condition `xh_elf_init` demands of a view
before it reports success.

* `xhElfCheck_eq_zero_iff`: `xh_elf_check` passes exactly on views with the fields of
  `XhElf.Checked` set.
-/

namespace XHook

/-- Modelled from the spec: `xh_elf_t`, whose declaration in `xh_elf.h` is not among the
sources; its fields are those `xh_elf.c` reads and writes, in the spec's data model.
Pointers are addresses, `0` being `NULL`; the two `int` flags are only ever `0` or `1`.
The defaults are the zeroed view. -/
structure XhElf where
  pathname : ℕ := 0
  baseAddr : ℕ := 0
  biasAddr : ℕ := 0
  ehdr : ℕ := 0
  phdr : ℕ := 0
  dyn : ℕ := 0
  dynSz : ℕ := 0
  strtab : ℕ := 0
  symtab : ℕ := 0
  relplt : ℕ := 0
  relpltSz : ℕ := 0
  reldyn : ℕ := 0
  reldynSz : ℕ := 0
  relandroid : ℕ := 0
  relandroidSz : ℕ := 0
  bucket : ℕ := 0
  bucketCnt : ℕ := 0
  chain : ℕ := 0
  chainCnt : ℕ := 0
  symoffset : ℕ := 0
  bloom : ℕ := 0
  bloomSz : ℕ := 0
  bloomShift : ℕ := 0
  isUseRela : Bool := false
  isUseGnuHash : Bool := false
deriving DecidableEq, Repr

/-- `xh_elf_reset`: `memset(self, 0, sizeof(xh_elf_t))`. -/
def xhElfReset : XhElf := {}

/-- `xh_elf_check`: `1` at the first field found unset, `0` when all are set. -/
def xhElfCheck (v : XhElf) : ℕ :=
  if v.pathname = 0 then 1
  else if v.baseAddr = 0 then 1
  else if v.biasAddr = 0 then 1
  else if v.ehdr = 0 then 1
  else if v.phdr = 0 then 1
  else if v.strtab = 0 then 1
  else if v.symtab = 0 then 1
  else if v.bucket = 0 then 1
  else if v.chain = 0 then 1
  else if v.isUseGnuHash = true ∧ v.bloom = 0 then 1
  else 0

/-- The fields `xh_elf_check` requires of a view: the invariants of an initialized view. -/
structure XhElf.Checked (v : XhElf) : Prop where
  pathname : v.pathname ≠ 0
  baseAddr : v.baseAddr ≠ 0
  biasAddr : v.biasAddr ≠ 0
  ehdr : v.ehdr ≠ 0
  phdr : v.phdr ≠ 0
  strtab : v.strtab ≠ 0
  symtab : v.symtab ≠ 0
  bucket : v.bucket ≠ 0
  chain : v.chain ≠ 0
  bloom : v.isUseGnuHash = true → v.bloom ≠ 0

theorem ite_one_eq_zero {p : Prop} [Decidable p] {x : ℕ} : (if p then 1 else x) = 0 ↔ ¬p ∧ x = 0 := by
  split <;> simp_all

theorem xhElfCheck_eq_zero_iff (v : XhElf) : xhElfCheck v = 0 ↔ v.Checked := by
  simp only [xhElfCheck, ite_one_eq_zero, not_and, and_true]
  exact ⟨fun ⟨h1, h2, h3, h4, h5, h6, h7, h8, h9, h10⟩ => ⟨h1, h2, h3, h4, h5, h6, h7, h8, h9, h10⟩,
    fun ⟨h1, h2, h3, h4, h5, h6, h7, h8, h9, h10⟩ => ⟨h1, h2, h3, h4, h5, h6, h7, h8, h9, h10⟩⟩

instance (v : XhElf) : Decidable v.Checked :=
  decidable_of_iff _ (xhElfCheck_eq_zero_iff v)

end XHook
