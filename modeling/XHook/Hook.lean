import XHook.Init
import XHook.PlainIter
import XHook.PackedIter

/-!
# Hooking: `xh_elf_hook`

`xh_elf_hook` resolves the symbol, then walks the PLT relocations (stopping at the first
match), the dynamic relocations and the Android packed relocations; every record naming
the symbol with a jump-slot, glob-dat or absolute type has its GOT slot rewritten by
`xh_elf_replace_function`, which makes the slot's page writable first. The process state is
`Proc`: the memory, the page protections, the `mprotect` calls made, and the word the
caller's `old_func` points at. That word is a cell of its own, outside `mem`: the model takes
`*old_func` to be a caller variable that aliases no byte a hook reads or writes, so `mem` is
the image memory without it, and a frame fact about `mem` says nothing of `*old_func`. Each
loop reads the records from the memory as it is at that step, as the C code does.

* `hookRegions_ne_format`: **a hook run never reports `FORMAT`**: a packed stream that fails
  to decode just ends the walk of the Android relocations.
-/

namespace XHook

/-- The process state `xh_elf_hook` acts on: the memory, the protections of each page (by
its start address), the `mprotect(page, PAGE_SIZE, prot)` calls made, newest first, and
the word `*old_func`, kept apart from `mem` as a variable of the caller that aliases no byte
the hook reads or writes. -/
structure Proc where
  mem : Mem
  prot : ℕ → ℕ
  mprotects : List (ℕ × ℕ)
  old : ℕ

/-- `PAGE_START(addr)`: `addr & PAGE_MASK`. -/
def pageStart (addr : ℕ) : ℕ := addr / pageSize * pageSize

section Model

variable (A : Arch)

/-- `xh_elf_get_mem_access`: the `p_flags` of the first `PT_LOAD` header whose pages
`[PAGE_START(seg_start), PAGE_END(seg_end))` hold `addr`, or `NOTFND`. -/
def xhElfGetMemAccess (m : Mem) (v : XhElf) (addr : ℕ) : Option ℕ :=
  ((List.range (m.read (v.ehdr + A.ePhnumAt) 2)).find? fun k =>
      let phdr := v.phdr + A.phdrSize * k
      let segStart := (v.biasAddr + m.read (phdr + A.pVaddrAt) A.wordSize) % 2 ^ A.wordBits
      let segEnd := (segStart + m.read (phdr + A.pMemszAt) A.wordSize) % 2 ^ A.wordBits
      m.read phdr 4 = ptLoad ∧ pageStart segStart ≤ addr ∧
        addr < (pageStart segEnd + pageSize) % 2 ^ A.wordBits).map
    fun k => m.read (v.phdr + A.phdrSize * k + A.pFlagsAt) 4

/-- The protections `xh_elf_replace_function` asks for: `prots |= PF_W; prots &= ~PF_X;`. -/
def writableProts (prots : ℕ) : ℕ := (prots ||| pfW) &&& (0xffffffff ^^^ pfX)

/-- `xh_elf_set_mem_access`: `mprotect((void *)PAGE_START(addr), PAGE_SIZE, PF_TO_PROT(prots))`,
`ok` telling which calls the kernel grants; a granted call changes the page's protection. -/
def xhElfSetMemAccess (ok : ℕ → ℕ → Bool) (addr prots : ℕ) (s : Proc) : Option Proc :=
  let page := pageStart addr
  let prot := pfToProt prots
  if ok page prot then
    some { s with prot := Function.update s.prot page prot, mprotects := (page, prot) :: s.mprotects }
  else none

/-- The monad of a hook run: a status and the process state. -/
abbrev HookM := EStateM XhErrno Proc

variable (ok : ℕ → ℕ → Bool) (v : XhElf) (newFunc : ℕ) (oldFunc : Bool)

/-- `xh_elf_replace_function`: nothing if the slot already holds `new_func`; otherwise the
slot's page is made writable, the old value saved through `old_func` (when it is not
`NULL`) into `Proc.old`, never into `mem`, and the slot rewritten. The ARM cache flush
changes no state of the model. -/
def xhElfReplaceFunction (addr : ℕ) : HookM Unit := fun s =>
  if s.mem.read addr A.wordSize = newFunc then .ok () s
  else
    match xhElfGetMemAccess A s.mem v addr with
    | none => .error .notfnd s
    | some prots =>
      match xhElfSetMemAccess ok addr (writableProts prots) s with
      | none => .error .unknown s
      | some s =>
        let old := s.mem.read addr A.wordSize
        .ok () { s with old := if oldFunc then old else s.old,
                        mem := s.mem.write addr A.wordSize newFunc }

/-- The records `xh_elf_find_and_replace_func` acts on: `elf_r_sym(r_info)` is the symbol
and `elf_r_type(r_info)` one of `R_GENERIC_JUMP_SLOT`, `R_GENERIC_GLOB_DAT`,
`R_GENERIC_ABS`. -/
def relocMatches (symidx : ℕ) (r : ElfRel) : Prop :=
  A.elfRSym r.rInfo = symidx ∧
    (A.elfRType r.rInfo = A.rGenericJumpSlot ∨ A.elfRType r.rInfo = A.rGenericGlobDat ∨
      A.elfRType r.rInfo = A.rGenericAbs)

instance (symidx : ℕ) (r : ElfRel) : Decidable (relocMatches A symidx r) :=
  inferInstanceAs (Decidable (_ ∧ _))

/-- The GOT slot of a record: `bias_addr + r_offset`. -/
def XhElf.slotOf (r : ElfRel) : ℕ := (v.biasAddr + r.rOffset) % 2 ^ A.wordBits

/-- `xh_elf_find_and_replace_func`: whether the record matches (`*found`), after rewriting
its slot when it does. -/
def xhElfFindAndReplaceFunc (symidx : ℕ) (r : ElfRel) : HookM Bool :=
  if relocMatches A symidx r then do
    xhElfReplaceFunction A ok v newFunc oldFunc (v.slotOf A r)
    return true
  else return false

/-- The `r_offset` and `r_info` of the record at `p` in a plain `REL` or `RELA` array. -/
def plainRecord (m : Mem) (p : ℕ) : ElfRel := ⟨m.read p A.wordSize, m.read (p + A.wordSize) A.wordSize⟩

/-- The `.rel(a).plt` loop: the records at `ps`, up to the first that matches. -/
def hookPltLoop (symidx : ℕ) : List ℕ → HookM Unit
  | [] => pure ()
  | p :: ps => do
    let found ← xhElfFindAndReplaceFunc A ok v newFunc oldFunc symidx (plainRecord A (← get).mem p)
    if found then pure () else hookPltLoop symidx ps

/-- The `.rel(a).dyn` loop: all the records at `ps`. -/
def hookDynLoop (symidx : ℕ) : List ℕ → HookM Unit
  | [] => pure ()
  | p :: ps => do
    let _ ← xhElfFindAndReplaceFunc A ok v newFunc oldFunc symidx (plainRecord A (← get).mem p)
    hookDynLoop symidx ps

/-- The `.rel(a).android` loop: the records `next` returns before `NULL`, over at most
`fuel` calls. -/
def hookAndroidLoop (symidx : ℕ) : ℕ → PackedRelocIterator → HookM Unit
  | 0, _, s => .ok () s
  | fuel + 1, it, s =>
    match xhElfPackedRelocIteratorNext A.wordBits s.mem it with
    | (none, _) => .ok () s
    | (some r, it) =>
      (do let _ ← xhElfFindAndReplaceFunc A ok v newFunc oldFunc symidx r.toRel
          hookAndroidLoop symidx fuel it) s

/-- The pointers the plain iterator yields over a region. -/
def regionPtrs (rel relSz : ℕ) : List ℕ :=
  plainYields A (xhElfPlainRelocIteratorInit rel relSz v.isUseRela)

/-- `xh_elf_packed_reloc_iterator_init` on the Android region, its status dropped as
`xh_elf_hook` drops it. -/
def androidIter (m : Mem) : PackedRelocIterator :=
  match xhElfPackedRelocIteratorInit A.wordBits m v.relandroid v.relandroidSz v.isUseRela with
  | .ok _ it => it
  | .error _ it => it

/-- The PLT region's part of `xh_elf_hook`. -/
def hookPlt (symidx : ℕ) : HookM Unit :=
  if v.relplt ≠ 0 then hookPltLoop A ok v newFunc oldFunc symidx (regionPtrs A v v.relplt v.relpltSz)
  else pure ()

/-- The DYN region's part of `xh_elf_hook`. -/
def hookDyn (symidx : ℕ) : HookM Unit :=
  if v.reldyn ≠ 0 then hookDynLoop A ok v newFunc oldFunc symidx (regionPtrs A v v.reldyn v.reldynSz)
  else pure ()

/-- The Android region's part of `xh_elf_hook`. -/
def hookAndroid (symidx : ℕ) : HookM Unit := fun s =>
  if v.relandroid ≠ 0 then
    let it := androidIter A v s.mem
    hookAndroidLoop A ok v newFunc oldFunc symidx (it.relocationCount - it.relocationIndex + 1) it s
  else .ok () s

/-- The three regions of `xh_elf_hook`, in order. -/
def hookRegions (symidx : ℕ) : HookM Unit := do
  hookPlt A ok v newFunc oldFunc symidx
  hookDyn A ok v newFunc oldFunc symidx
  hookAndroid A ok v newFunc oldFunc symidx

/-- `xh_elf_hook(self, symbol, new_func, old_func)`, `symbol` being `none` for `NULL` and
`oldFunc` telling whether `old_func` is not `NULL`. `none` is a run that does not return (a
lookup whose chain never ends). -/
def xhElfHook (symbol : Option (List UInt8)) (s : Proc) : Option (Except XhErrno Unit × Proc) :=
  if v.pathname = 0 then some (.error .elfinit, s)
  else match symbol with
    | none => some (.error .inval, s)
    | some symbol =>
      if newFunc = 0 then some (.error .inval, s)
      else match xhElfFindSymidxByName A s.mem v symbol with
        | none => none
        | some (.error e) => some (.error e, s)
        | some (.ok symidx) =>
          match hookRegions A ok v newFunc oldFunc symidx s with
          | .ok _ s => some (.ok (), s)
          | .error e s => some (.error e, s)

end Model

section Errors

variable {A : Arch} {ok : ℕ → ℕ → Bool} {v : XhElf} {newFunc : ℕ} {oldFunc : Bool} {symidx : ℕ}

/-- `x` fails only with `NOTFND` or `UNKNOWN`, the statuses of `xh_elf_replace_function`. -/
def FailsReplacing {α : Type} (x : HookM α) : Prop :=
  ∀ s e s', x s = .error e s' → e = .notfnd ∨ e = .unknown

theorem FailsReplacing.pure {α : Type} (a : α) : FailsReplacing (Pure.pure a : HookM α) :=
  fun _ _ _ h => nomatch h

theorem FailsReplacing.bind {α β : Type} {x : HookM α} {f : α → HookM β} (hx : FailsReplacing x)
    (hf : ∀ a, FailsReplacing (f a)) : FailsReplacing (x >>= f) := by
  intro s e s' h
  rw [estate_bind_apply] at h
  cases hxs : x s with
  | ok a t => rw [hxs] at h; exact hf a t e s' h
  | error e' t => rw [hxs] at h; injection h with he; exact he ▸ hx s e' t hxs

theorem replaceFunction_fails (addr : ℕ) :
    FailsReplacing (xhElfReplaceFunction A ok v newFunc oldFunc addr) := by
  intro s e s' h
  unfold xhElfReplaceFunction at h
  split at h
  · cases h
  · split at h
    · cases h; exact .inl rfl
    · split at h
      · cases h; exact .inr rfl
      · cases h

theorem findAndReplaceFunc_fails (r : ElfRel) :
    FailsReplacing (xhElfFindAndReplaceFunc A ok v newFunc oldFunc symidx r) := by
  unfold xhElfFindAndReplaceFunc
  split
  · exact (replaceFunction_fails _).bind fun _ => .pure _
  · exact .pure _

theorem hookPltLoop_fails (ps : List ℕ) : FailsReplacing (hookPltLoop A ok v newFunc oldFunc symidx ps) := by
  induction ps with
  | nil => exact .pure _
  | cons p ps ih =>
    refine FailsReplacing.bind (fun _ _ _ h => nomatch h) fun s => ?_
    refine (findAndReplaceFunc_fails _).bind fun found => ?_
    cases found
    · exact ih
    · exact .pure _

theorem hookDynLoop_fails (ps : List ℕ) : FailsReplacing (hookDynLoop A ok v newFunc oldFunc symidx ps) := by
  induction ps with
  | nil => exact .pure _
  | cons p ps ih =>
    exact FailsReplacing.bind (fun _ _ _ h => nomatch h) fun _ =>
      (findAndReplaceFunc_fails _).bind fun _ => ih

theorem hookAndroidLoop_fails (fuel : ℕ) (it : PackedRelocIterator) :
    FailsReplacing (hookAndroidLoop A ok v newFunc oldFunc symidx fuel it) := by
  induction fuel generalizing it with
  | zero => exact fun _ _ _ h => nomatch h
  | succ fuel ih =>
    intro s e s' h
    unfold hookAndroidLoop at h
    split at h
    · cases h
    · exact ((findAndReplaceFunc_fails _).bind fun _ => ih _) s e s' h

/-- **A hook run never reports `FORMAT`** once the symbol is resolved: the regions fail only
with the statuses of `xh_elf_replace_function`, a packed stream that does not decode
ending the Android walk as its end would. -/
theorem hookRegions_ne_format : FailsReplacing (hookRegions A ok v newFunc oldFunc symidx) := by
  have hplt : FailsReplacing (hookPlt A ok v newFunc oldFunc symidx) := by
    unfold hookPlt; split
    · exact hookPltLoop_fails _
    · exact .pure _
  have hdyn : FailsReplacing (hookDyn A ok v newFunc oldFunc symidx) := by
    unfold hookDyn; split
    · exact hookDynLoop_fails _
    · exact .pure _
  have handroid : FailsReplacing (hookAndroid A ok v newFunc oldFunc symidx) := by
    intro s e s' h
    unfold hookAndroid at h
    split at h
    · exact hookAndroidLoop_fails _ _ s e s' h
    · cases h
  exact hplt.bind fun _ => hdyn.bind fun _ => handroid

end Errors

/-- A process with memory `m`, no `mprotect` call made yet. -/
def Proc.start (m : Mem) : Proc := ⟨m, fun _ => 0, [], 0⟩

/-- A sample image with the `DT_HASH` table of `hashImage` over `sampleSymbols`, then the
dynamic entries `dyn` and the fields `fs`; the GOT slot at `0x800` holds `0x1234`. -/
def hookImage (dyn : List (ℕ × ℕ)) (fs : List (ℕ × ℕ × ℕ)) : Mem :=
  sampleImage ([(dtStrtab, 0x200), (dtSymtab, 0x300), (dtHash, 0x400)] ++ dyn)
    (sampleSymbols ++ [(0x400, 4, 2), (0x404, 4, 5), (0x408, 4, 3), (0x40c, 4, 4), (0x418, 4, 1),
      (0x420, 4, 2), (0x800, 8, 0x1234)] ++ fs)

/-- The view `xh_elf_init` builds from `hookImage` at `0x10000`, before the relocation regions. -/
def hookView : XhElf :=
  { pathname := 0x9000, baseAddr := 0x10000, biasAddr := 0x10000, ehdr := 0x10000, phdr := 0x10040,
    dyn := 0x10100, strtab := 0x10200, symtab := 0x10300, bucket := 0x10408, bucketCnt := 2,
    chain := 0x10410, chainCnt := 5 }

/-- A `.rela.plt` of two records: the first binds `puts` (symbol `2`) to the slot at `0x800`
as a jump slot, the second is empty. -/
def pltImage : Mem :=
  hookImage [(dtPltrel, dtRela), (dtJmprel, 0x600), (dtPltrelsz, 48)]
    [(0x600, 8, 0x800), (0x608, 8, 0x200000402)]

/-- The view init builds from `pltImage`. -/
def pltView : XhElf := { hookView with dynSz := 96, relplt := 0x10600, relpltSz := 48, isUseRela := true }

/-- Hooking `puts` where its only record is the first of `.rela.plt`: the run succeeds
without writing the slot or calling `mprotect`. -/
theorem hook_misses_first_plt_record :
    xhElfInit .arm64 pltImage {} 0x10000 0x9000 = some (.ok (), pltView) ∧
      xhElfFindSymidxByName .arm64 pltImage pltView [112, 117, 116, 115] = some (.ok 2) ∧
      relocMatches .arm64 2 (plainRecord .arm64 pltImage pltView.relplt) ∧
      (xhElfHook .arm64 (fun _ _ => true) pltView 0x5000 true (some [112, 117, 116, 115])
          (Proc.start pltImage)).map (fun r => (r.1, r.2.mem.read 0x10800 8, r.2.mprotects)) =
        some (.ok (), 0x1234, []) := by
  decide

/-- A `.rel.android` stream declaring two records: one group of two sharing the `r_info` of
a glob-dat binding of `puts`, whose first entry is the slot at `0x800`; the stream ends
before the second entry. -/
def androidImage : Mem :=
  hookImage [(dtAndroidRel, 0x600), (dtAndroidRelsz, 15)]
    [Mem.bytesField 0x600 [65, 80, 83, 50, 2, 0, 2, 1, 0x81, 0x88, 0x80, 0x80, 0x20, 0x80, 0x10]]

/-- The view init builds from `androidImage`: the region past its `APS2` prefix. -/
def androidView : XhElf := { hookView with dynSz := 80, relandroid := 0x10604, relandroidSz := 11 }

/-- Hooking `puts` in `androidImage`: the stream yields one of its two records, and the run
rewrites that record's slot and returns `0`. -/
theorem hook_ignores_truncated_stream :
    xhElfInit .arm64 androidImage {} 0x10000 0x9000 = some (.ok (), androidView) ∧
      (androidIter .arm64 androidView androidImage).relocationCount = 2 ∧
      packedRecords 64 androidImage (androidIter .arm64 androidView androidImage) =
        [.rel ⟨0x800, 0x200000401⟩] ∧
      (xhElfHook .arm64 (fun _ _ => true) androidView 0x5000 true (some [112, 117, 116, 115])
          (Proc.start androidImage)).map (fun r => (r.1, r.2.mem.read 0x10800 8, r.2.mprotects)) =
        some (.ok (), 0x5000, [(0x10000, 3)]) := by
  decide


/-- A `.rela.dyn` of two records and no `DT_PLTREL` entry: the first record empty, the second
binding `puts` (symbol `2`) as a glob-dat to the slot at `0x800`. -/
def relaNoPltrelImage : Mem :=
  hookImage [(dtRela, 0x600), (dtRelasz, 48)] [(0x618, 8, 0x800), (0x620, 8, 0x200000401)]

/-- The view init builds from `relaNoPltrelImage`: `is_use_rela` is left at `0`. -/
def relaNoPltrelView : XhElf := { hookView with dynSz := 80, reldyn := 0x10600, reldynSz := 48 }

/-- Without `DT_PLTREL` the `DT_RELA` region is walked as `REL`: by `sizeof(ElfW(Rel))`, so
that no pointer the walk yields is the binding record's, which the `RELA` stride meets; the
hook returns `0` with the slot unchanged and no `mprotect` call. -/
theorem hook_reads_rela_dyn_as_rel :
    xhElfInit .arm64 relaNoPltrelImage {} 0x10000 0x9000 = some (.ok (), relaNoPltrelView) ∧
      regionPtrs .arm64 relaNoPltrelView 0x10600 48 = [0x10610, 0x10620, 0x10630] ∧
      regionPtrs .arm64 { relaNoPltrelView with isUseRela := true } 0x10600 48 = [0x10618, 0x10630] ∧
      relocMatches .arm64 2 (plainRecord .arm64 relaNoPltrelImage 0x10618) ∧
      (xhElfHook .arm64 (fun _ _ => true) relaNoPltrelView 0x5000 true (some [112, 117, 116, 115])
          (Proc.start relaNoPltrelImage)).map (fun r => (r.1, r.2.mem.read 0x10800 8, r.2.mprotects)) =
        some (.ok (), 0x1234, []) := by
  decide

/-- Two `PT_LOAD` headers at `0x10040`: an execute-only page at virtual address 0, then a
read-write page at `0x1000`, which starts where the first ends. -/
def twoLoadImage : Mem :=
  Mem.ofFields 0x10000 0x2000 [(32, 8, 0x40), (56, 2, 2),
    (0x40, 4, ptLoad), (0x44, 4, pfX), (0x60, 8, 0x1000), (0x68, 8, 0x1000),
    (0x78, 4, ptLoad), (0x7c, 4, pfR ||| pfW), (0x80, 8, 0x1000), (0x88, 8, 0x1000), (0x98, 8, 0x1000),
    (0xa0, 8, 0x1000)]

/-- The header fields of a view of `twoLoadImage` loaded at `0x10000`. -/
def twoLoadView : XhElf := { baseAddr := 0x10000, biasAddr := 0x10000, ehdr := 0x10000, phdr := 0x10040 }

/-- A slot at `0x11800`, in the read-write segment and in no page of the first one, gets the
first segment's `p_flags`: `PAGE_END` of its page-aligned end `0x11000` is `0x12000`. The
replace then makes the slot's page write-only. -/
theorem memAccess_takes_previous_segment :
    xhElfGetMemAccess .arm64 twoLoadImage twoLoadView 0x11800 = some pfX ∧
      ∃ s, xhElfReplaceFunction .arm64 (fun _ _ => true) twoLoadView 0x5000 false 0x11800
          (Proc.start twoLoadImage) = .ok () s ∧ s.mprotects = [(0x11000, protWrite)] :=
  ⟨by decide, _, rfl, rfl⟩

end XHook
