import Mathlib.Data.Nat.Bitwise

/-!
# Targets, ELF layout and constants

The library is compiled for 32-bit ARM and for AArch64; the `#if defined(__arm__)`
and `__LP64__` branches of `xh_elf.c` become a match on `Arch`. Offsets and sizes
are those of the `Elf32_*` and `Elf64_*` structures of `<elf.h>`, constants those of
the ELF gABI and of the two processor supplements. Words of the target are natural
numbers below `2 ^ A.wordBits`, with `% 2 ^ A.wordBits` where the code's arithmetic wraps.
-/

namespace XHook

/-- The two targets: `__arm__` and `__aarch64__`. -/
inductive Arch
  | arm
  | arm64
deriving DecidableEq, Repr

namespace Arch

/-- `8 * sizeof(size_t)`, also the width of `ElfW(Addr)`. -/
def wordBits : Arch → ℕ
  | arm => 32
  | arm64 => 64

/-- `sizeof(ElfW(Addr))`, the size of a GOT slot. -/
def wordSize : Arch → ℕ
  | arm => 4
  | arm64 => 8

/-- `sizeof(ElfW(Rel))`. -/
def relSize : Arch → ℕ
  | arm => 8
  | arm64 => 16

/-- `sizeof(ElfW(Rela))`. -/
def relaSize : Arch → ℕ
  | arm => 12
  | arm64 => 24

/-- `sizeof(ElfW(Sym))`; `st_name` is its first word in both classes. -/
def symSize : Arch → ℕ
  | arm => 16
  | arm64 => 24

/-- `sizeof(ElfW(Dyn))`: `d_tag`, then `d_un`, one word each. -/
def dynSize : Arch → ℕ
  | arm => 8
  | arm64 => 16

/-- `sizeof(ElfW(Phdr))`. -/
def phdrSize : Arch → ℕ
  | arm => 32
  | arm64 => 56

/-- Offset of `e_phoff` in `ElfW(Ehdr)`. -/
def ePhoffAt : Arch → ℕ
  | arm => 28
  | arm64 => 32

/-- Offset of the 2-byte `e_phnum` in `ElfW(Ehdr)`. -/
def ePhnumAt : Arch → ℕ
  | arm => 44
  | arm64 => 56

/-- Offset of `p_offset` in `ElfW(Phdr)` (`p_type` is the 4 bytes at 0). -/
def pOffsetAt : Arch → ℕ
  | arm => 4
  | arm64 => 8

/-- Offset of `p_vaddr` in `ElfW(Phdr)`. -/
def pVaddrAt : Arch → ℕ
  | arm => 8
  | arm64 => 16

/-- Offset of `p_memsz` in `ElfW(Phdr)`. -/
def pMemszAt : Arch → ℕ
  | arm => 20
  | arm64 => 40

/-- Offset of the 4-byte `p_flags` in `ElfW(Phdr)`. -/
def pFlagsAt : Arch → ℕ
  | arm => 24
  | arm64 => 4

/-- `R_GENERIC_JUMP_SLOT`: `R_ARM_JUMP_SLOT`, `R_AARCH64_JUMP_SLOT`. -/
def rGenericJumpSlot : Arch → ℕ
  | arm => 22
  | arm64 => 1026

/-- `R_GENERIC_GLOB_DAT`: `R_ARM_GLOB_DAT`, `R_AARCH64_GLOB_DAT`. -/
def rGenericGlobDat : Arch → ℕ
  | arm => 21
  | arm64 => 1025

/-- `R_GENERIC_ABS`: `R_ARM_ABS32`, `R_AARCH64_ABS64`. -/
def rGenericAbs : Arch → ℕ
  | arm => 2
  | arm64 => 257

/-- `elf_r_sym`: `ELF32_R_SYM` (`info >> 8`) or `ELF64_R_SYM` (`info >> 32`). -/
def elfRSym : Arch → ℕ → ℕ
  | arm, info => info >>> 8
  | arm64, info => info >>> 32

/-- `elf_r_type`: `ELF32_R_TYPE` (the low byte) or `ELF64_R_TYPE` (the low word). -/
def elfRType : Arch → ℕ → ℕ
  | arm, info => info &&& 0xff
  | arm64, info => info &&& 0xffffffff

/-- The `e_ident[EI_CLASS]` of the target: `ELFCLASS32` or, under `__LP64__`, `ELFCLASS64`. -/
def elfClass : Arch → ℕ
  | arm => 1
  | arm64 => 2

/-- The `e_machine` of the target: `EM_ARM` or `EM_AARCH64`. -/
def emMachine : Arch → ℕ
  | arm => 40
  | arm64 => 183

theorem wordSize_pos (A : Arch) : 0 < A.wordSize := by cases A <;> decide

theorem two_mul_wordSize_le_relSize (A : Arch) : 2 * A.wordSize ≤ A.relSize := by cases A <;> decide

theorem relSize_le_relaSize (A : Arch) : A.relSize ≤ A.relaSize := by cases A <;> decide

end Arch

/-- `ELFMAG`, the `SELFMAG = 4` bytes `"\177ELF"`. -/
def elfMag : List UInt8 := [0x7f, 0x45, 0x4c, 0x46]
/-- `EI_CLASS`. -/
def eiClass : ℕ := 4
/-- `EI_DATA`. -/
def eiData : ℕ := 5
/-- `EI_VERSION`. -/
def eiVersion : ℕ := 6
/-- `ELFDATA2LSB`. -/
def elfdata2lsb : ℕ := 1
/-- `EV_CURRENT`. -/
def evCurrent : ℕ := 1
/-- `ET_EXEC`. -/
def etExec : ℕ := 2
/-- `ET_DYN`. -/
def etDyn : ℕ := 3
/-- Offset of the 2-byte `e_type` in `ElfW(Ehdr)`, after the 16 bytes of `e_ident`. -/
def eTypeAt : ℕ := 16
/-- Offset of the 2-byte `e_machine` in `ElfW(Ehdr)`. -/
def eMachineAt : ℕ := 18
/-- Offset of the 4-byte `e_version` in `ElfW(Ehdr)`. -/
def eVersionAt : ℕ := 20

/-- `PT_LOAD`. -/
def ptLoad : ℕ := 1
/-- `PT_DYNAMIC`. -/
def ptDynamic : ℕ := 2

/-- `DT_PLTRELSZ`. -/
def dtPltrelsz : ℕ := 2
/-- `DT_HASH`. -/
def dtHash : ℕ := 4
/-- `DT_STRTAB`. -/
def dtStrtab : ℕ := 5
/-- `DT_SYMTAB`. -/
def dtSymtab : ℕ := 6
/-- `DT_RELA`. -/
def dtRela : ℕ := 7
/-- `DT_RELASZ`. -/
def dtRelasz : ℕ := 8
/-- `DT_REL`. -/
def dtRel : ℕ := 17
/-- `DT_RELSZ`. -/
def dtRelsz : ℕ := 18
/-- `DT_PLTREL`. -/
def dtPltrel : ℕ := 20
/-- `DT_JMPREL`. -/
def dtJmprel : ℕ := 23
/-- `DT_ANDROID_REL` (`DT_LOOS + 2`). -/
def dtAndroidRel : ℕ := 0x6000000f
/-- `DT_ANDROID_RELSZ`. -/
def dtAndroidRelsz : ℕ := 0x60000010
/-- `DT_ANDROID_RELA`. -/
def dtAndroidRela : ℕ := 0x60000011
/-- `DT_ANDROID_RELASZ`. -/
def dtAndroidRelasz : ℕ := 0x60000012
/-- `DT_GNU_HASH`. -/
def dtGnuHash : ℕ := 0x6ffffef5

/-- `PF_X`. -/
def pfX : ℕ := 1
/-- `PF_W`. -/
def pfW : ℕ := 2
/-- `PF_R`. -/
def pfR : ℕ := 4

/-- `PROT_READ`. -/
def protRead : ℕ := 1
/-- `PROT_WRITE`. -/
def protWrite : ℕ := 2
/-- `PROT_EXEC`. -/
def protExec : ℕ := 4

/-- `PAGE_SIZE` of the Android targets. -/
def pageSize : ℕ := 4096

/-- `PF_TO_PROT`. -/
def pfToProt (v : ℕ) : ℕ :=
  (if v &&& pfR ≠ 0 then protRead else 0) ||| (if v &&& pfW ≠ 0 then protWrite else 0) |||
    (if v &&& pfX ≠ 0 then protExec else 0)

/-- Modelled from the spec: the `XH_ERRNO_*` codes of `xh_errno.h`, which is not
among the sources. The core only relies on them being distinct and nonzero. -/
inductive XhErrno
  | unknown
  | inval
  | notfnd
  | format
  | elfinit
deriving DecidableEq, Repr

/-- Results are compared by `decide`. -/
instance instDecidableEqExcept {ε α : Type} [DecidableEq ε] [DecidableEq α] : DecidableEq (Except ε α)
  | .error x, .error y => if h : x = y then isTrue (h ▸ rfl) else isFalse fun e => h (by injection e)
  | .ok x, .ok y => if h : x = y then isTrue (h ▸ rfl) else isFalse fun e => h (by injection e)
  | .error _, .ok _ => isFalse fun e => by cases e
  | .ok _, .error _ => isFalse fun e => by cases e

/-- `ElfW(Rel)`: the two words `xh_elf_find_and_replace_func` reads. -/
structure ElfRel where
  rOffset : ℕ
  rInfo : ℕ
deriving DecidableEq, Repr

/-- `ElfW(Rela)`. -/
structure ElfRela extends ElfRel where
  rAddend : ℕ
deriving DecidableEq, Repr

/-- The record an iterator hands out: a `REL` or a `RELA` one. -/
inductive RelocOut
  | rel (r : ElfRel)
  | rela (r : ElfRela)
deriving DecidableEq, Repr

/-- The `r_offset` and `r_info` of a record, as `xh_elf_find_and_replace_func` reads them. -/
def RelocOut.toRel : RelocOut → ElfRel
  | rel r => r
  | rela r => r.toElfRel

end XHook
