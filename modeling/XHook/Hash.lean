import Mathlib.Data.Nat.Bitwise

/-!
# The two symbol hashes

`xh_elf_hash` is the hash of `DT_HASH` tables and `xh_elf_gnu_hash` that of
`DT_GNU_HASH` tables, both over the bytes of a name before its NUL and both in
`uint32_t` arithmetic. The System V ABI writes the first with a conditional xor and a
mask, `xh_elf.c` with two unconditional xors.

* `xhElfHash_eq_elfHashAbi`: **the code's ELF hash is the ABI's** on every byte string,
  so a `DT_HASH` table built by a linker that follows the ABI is read correctly.
-/

namespace XHook

/-- One step of `xh_elf_hash`:
`h = (h << 4) + *name++; g = h & 0xf0000000; h ^= g; h ^= g >> 24;` in `uint32_t`. -/
def elfHashStep (h : ℕ) (c : UInt8) : ℕ :=
  let h := ((h <<< 4) + c.toNat) % 2 ^ 32
  let g := h &&& 0xf0000000
  (h ^^^ g) ^^^ (g >>> 24)

/-- `xh_elf_hash`. -/
def xhElfHash (name : List UInt8) : ℕ := name.foldl elfHashStep 0

/-- One step of the System V ABI's `elf_hash`, following its text:
`h = (h << 4) + c; if (g = h & 0xf0000000) h ^= g >> 24; h &= ~g;`. -/
def elfHashAbiStep (h : ℕ) (c : UInt8) : ℕ :=
  let h := ((h <<< 4) + c.toNat) % 2 ^ 32
  let g := h &&& 0xf0000000
  let h := if g ≠ 0 then h ^^^ (g >>> 24) else h
  h &&& (0xffffffff ^^^ g)

/-- The System V ABI's `elf_hash`. -/
def elfHashAbi (name : List UInt8) : ℕ := name.foldl elfHashAbiStep 0

/-- One step of `xh_elf_gnu_hash`: `h += (h << 5) + *name++;` in `uint32_t`. -/
def gnuHashStep (h : ℕ) (c : UInt8) : ℕ := (h + ((h <<< 5) + c.toNat)) % 2 ^ 32

/-- `xh_elf_gnu_hash`. -/
def xhElfGnuHash (name : List UInt8) : ℕ := name.foldl gnuHashStep 5381

theorem testBit_f0000000 (j : ℕ) : Nat.testBit 0xf0000000 j = decide (28 ≤ j ∧ j < 32) := by
  rw [show (0xf0000000 : ℕ) = 2 ^ 28 * (2 ^ 4 - 1) + 0 from rfl,
    Nat.testBit_mul_pow_two_add _ (Nat.two_pow_pos 28), Nat.testBit_two_pow_sub_one]
  by_cases h : j < 28
  · simp [h]
  · simp only [h, if_false]; exact decide_eq_decide.mpr (by omega)

theorem testBit_ffffffff (j : ℕ) : Nat.testBit 0xffffffff j = decide (j < 32) := by
  rw [show (0xffffffff : ℕ) = 2 ^ 32 - 1 from rfl, Nat.testBit_two_pow_sub_one]

/-- With `g` the top nibble of a 32-bit `h`, `h ^ g` clears it and `g >> 24` lands in bits
4 to 7, away from it: the two xors are the ABI's xor and mask. -/
theorem xor_xor_eq_xor_and {h : ℕ} (hh : h < 2 ^ 32) :
    (h ^^^ (h &&& 0xf0000000)) ^^^ ((h &&& 0xf0000000) >>> 24) =
      (h ^^^ ((h &&& 0xf0000000) >>> 24)) &&& (0xffffffff ^^^ (h &&& 0xf0000000)) := by
  apply Nat.eq_of_testBit_eq
  intro i
  simp only [Nat.testBit_xor, Nat.testBit_and, Nat.testBit_shiftRight, testBit_f0000000,
    testBit_ffffffff]
  by_cases h1 : i < 32
  · by_cases h2 : 28 ≤ i
    · have hlow : ¬ (28 ≤ 24 + i ∧ 24 + i < 32) := by omega
      simp [h1, h2, hlow]
    · simp [h1, h2]
  · have hb : h.testBit i = false :=
      Nat.testBit_eq_false_of_lt (lt_of_lt_of_le hh (Nat.pow_le_pow_right (by omega) (by omega)))
    have hlow : ¬ (28 ≤ 24 + i ∧ 24 + i < 32) := by omega
    simp [hb, h1, hlow]

theorem elfHashStep_eq_abi (h : ℕ) (c : UInt8) : elfHashStep h c = elfHashAbiStep h c := by
  simp only [elfHashStep, elfHashAbiStep]
  rw [xor_xor_eq_xor_and (Nat.mod_lt _ (Nat.two_pow_pos 32))]
  split_ifs with hg
  · rfl
  · rw [not_not.mp hg, Nat.zero_shiftRight, Nat.xor_zero]

/-- **The code's ELF hash is the ABI's.** -/
theorem xhElfHash_eq_elfHashAbi (name : List UInt8) : xhElfHash name = elfHashAbi name := by
  simp only [xhElfHash, elfHashAbi, funext₂ elfHashStep_eq_abi]

end XHook
