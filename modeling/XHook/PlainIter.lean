import XHook.Elf
import Mathlib.Tactic.Ring

/-!
# The plain relocation iterator

`xh_elf_plain_reloc_iterator_next` walks a `REL` or `RELA` array at a fixed stride.
It advances its cursor *before* returning it, so it never returns the array's first
entry and returns one pointer at or past the end.

* `plainYields_init`: **the pointers the iterator yields** from
  `xh_elf_plain_reloc_iterator_init(rel, rel_sz, …)` are `rel + (j + 1) * s` for
  `j < ⌈rel_sz / s⌉`, `s` the record size.
-/

namespace XHook

/-- `xh_elf_plain_reloc_iterator_t`. -/
structure PlainRelocIterator where
  cur : ℕ
  «end» : ℕ
  isUseRela : Bool
deriving DecidableEq, Repr

/-- `xh_elf_plain_reloc_iterator_init`; `rel_sz` is an `ElfW(Word)`. -/
def xhElfPlainRelocIteratorInit (rel relSz : ℕ) (isUseRela : Bool) : PlainRelocIterator :=
  ⟨rel, rel + relSz % 2 ^ 32, isUseRela⟩

/-- The stride: `sizeof(ElfW(Rela))` or `sizeof(ElfW(Rel))`. -/
def relocSize (A : Arch) (isUseRela : Bool) : ℕ := if isUseRela then A.relaSize else A.relSize

/-- `xh_elf_plain_reloc_iterator_next`: `NULL` once `cur` reaches `end`; otherwise it
advances `cur` by one record and returns the advanced pointer. -/
def xhElfPlainRelocIteratorNext (A : Arch) (it : PlainRelocIterator) : Option ℕ × PlainRelocIterator :=
  if it.cur ≥ it.end then (none, it)
  else
    let cur := it.cur + relocSize A it.isUseRela
    (some cur, { it with cur })

/-- The pointers that successive calls of `next` return before the first `NULL`, over at
most `fuel` calls. -/
def plainYieldsAux (A : Arch) : ℕ → PlainRelocIterator → List ℕ
  | 0, _ => []
  | fuel + 1, it =>
    match xhElfPlainRelocIteratorNext A it with
    | (none, _) => []
    | (some p, it') => p :: plainYieldsAux A fuel it'

/-- What the `while (NULL != (rel_common = next(&iter)))` loops of `xh_elf_hook` see:
each call advances `cur` by at least a byte, so `end - cur` calls reach `NULL`. -/
def plainYields (A : Arch) (it : PlainRelocIterator) : List ℕ := plainYieldsAux A (it.end - it.cur) it

theorem relocSize_pos (A : Arch) (b : Bool) : 0 < relocSize A b := by
  cases A <;> cases b <;> decide

theorem plainYieldsAux_eq (A : Arch) : ∀ (fuel : ℕ) (it : PlainRelocIterator),
    (it.end - it.cur + relocSize A it.isUseRela - 1) / relocSize A it.isUseRela ≤ fuel →
    plainYieldsAux A fuel it =
      (List.range ((it.end - it.cur + relocSize A it.isUseRela - 1) / relocSize A it.isUseRela)).map
        fun j => it.cur + (j + 1) * relocSize A it.isUseRela
  | 0, it, h => by rw [Nat.le_zero.1 h]; rfl
  | fuel + 1, it, h => by
    have hs := relocSize_pos A it.isUseRela
    simp only [plainYieldsAux, xhElfPlainRelocIteratorNext]
    by_cases he : it.end ≤ it.cur
    · have : (it.end - it.cur + relocSize A it.isUseRela - 1) / relocSize A it.isUseRela = 0 :=
        Nat.div_eq_of_lt (by omega)
      simp only [ge_iff_le, he, if_true, this, List.range_zero, List.map_nil]
    · generalize hs' : relocSize A it.isUseRela = s at hs h ⊢
      have hk : (it.end - it.cur + s - 1) / s = (it.end - (it.cur + s) + s - 1) / s + 1 := by
        by_cases hge : s ≤ it.end - it.cur
        · rw [← Nat.add_div_right _ hs]; congr 1; omega
        · rw [Nat.div_eq_of_lt_le (k := 1) (by omega) (by omega),
            Nat.div_eq_of_lt (show it.end - (it.cur + s) + s - 1 < s by omega)]
      simp only [ge_iff_le, he, if_false]
      rw [plainYieldsAux_eq A fuel _ (by simp only [hs']; omega)]
      simp only [hs', hk, List.range_succ_eq_map, List.map_cons, List.map_map, Function.comp_def]
      congr 1
      · omega
      · apply List.map_congr_left; intro j _; simp only [Nat.succ_eq_add_one]; ring

/-- **The pointers the plain iterator yields**: `rel + (j + 1) * s` for `j < ⌈rel_sz / s⌉`,
where `s` is the record size. The first entry, at `rel`, is never returned, and the
last pointer returned is at or past `rel + rel_sz`. -/
theorem plainYields_init (A : Arch) (rel relSz : ℕ) (isUseRela : Bool) :
    plainYields A (xhElfPlainRelocIteratorInit rel relSz isUseRela) =
      (List.range ((relSz % 2 ^ 32 + relocSize A isUseRela - 1) / relocSize A isUseRela)).map
        fun j => rel + (j + 1) * relocSize A isUseRela := by
  have hs := relocSize_pos A isUseRela
  unfold plainYields
  rw [plainYieldsAux_eq]
  · simp [xhElfPlainRelocIteratorInit]
  · simp only [xhElfPlainRelocIteratorInit, Nat.add_sub_cancel_left]
    rcases Nat.eq_zero_or_eq_succ_pred (relSz % 2 ^ 32) with h0 | h1
    · rw [h0, Nat.zero_add, Nat.div_eq_of_lt (by omega)]
    · apply Nat.div_le_of_le_mul
      rw [h1, Nat.mul_succ]
      have := Nat.le_mul_of_pos_left (relSz % 2 ^ 32).pred hs
      omega

/-- Two `RELA` records at `0x1000` on AArch64: the iterator yields the second record and the
address just past the array, and never the first. -/
theorem plainYields_two_rela :
    plainYields .arm64 (xhElfPlainRelocIteratorInit 0x1000 48 true) = [0x1018, 0x1030] := by
  rw [plainYields_init]; decide

end XHook
