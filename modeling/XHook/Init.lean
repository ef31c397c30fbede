import XHook.Lookup

/-!
# Building the view: `xh_elf_init`

`xh_elf_init` reads the program headers of the image at `base_addr`, computes the load
bias from the first `PT_LOAD` header, walks the `PT_DYNAMIC` entries into the view's
fields, checks the `APS2` prefix of Android packed relocations and finally runs
`xh_elf_check`. `none` is a call that does not return: with no `PT_LOAD` header the code
reads `p_offset` through `NULL`.

* `dynLoop_gnu_then_hash`: **the hash descriptor mixes two tables** when a `DT_GNU_HASH`
  entry comes before the last `DT_HASH` entry: the view uses the GNU lookup, with the GNU
  table's `symoffset` and bloom filter but the classic table's buckets and chain;
  `hashOrder_changes_lookup` shows a symbol lost that way.
* `dynLoop_last_entry`: **each plain field holds the last entry that sets it**: the loop gives
  `strtab`, `symtab`, `is_use_rela`, the three region addresses and their sizes the value of the
  last entry with their tag, and leaves a field that no entry sets as the view had it.
* `reachable_inv`: every view that inits and resets reach with a pathname passes
  `xh_elf_check` with its packed region verified and stripped, unless an init failed on the
  region's `APS2` prefix: that exit returns `FORMAT` but keeps the pathname it has just set
  and skips `xh_elf_check` (`init_aps1_keeps_pathname`).
-/

namespace XHook

section Model

variable (A : Arch) (m : Mem)

/-- `xh_elf_get_first_segment_by_type`: the first of the `e_phnum` program headers at
`phdr` whose `p_type` is `type`, or `NULL`. -/
def xhElfGetFirstSegmentByType (v : XhElf) (type : ℕ) : Option ℕ :=
  ((List.range (m.read (v.ehdr + A.ePhnumAt) 2)).find?
    fun k => m.read (v.phdr + A.phdrSize * k) 4 = type).map fun k => v.phdr + A.phdrSize * k

/-- `xh_elf_check_elfheader`: the magic, the class of the target, little-endian data, the
current version in `e_ident`, type `ET_EXEC` or `ET_DYN`, the target's machine and the
current version in `e_version`, checked in this order. `xh_elf_init` does not call it. -/
def xhElfCheckElfheader (baseAddr : ℕ) : Except XhErrno Unit :=
  if m.bytes baseAddr 4 ≠ elfMag then .error .format
  else if m.read (baseAddr + eiClass) 1 ≠ A.elfClass then .error .format
  else if m.read (baseAddr + eiData) 1 ≠ elfdata2lsb then .error .format
  else if m.read (baseAddr + eiVersion) 1 ≠ evCurrent then .error .format
  else if m.read (baseAddr + eTypeAt) 2 ≠ etExec ∧ m.read (baseAddr + eTypeAt) 2 ≠ etDyn then .error .format
  else if m.read (baseAddr + eMachineAt) 2 ≠ A.emMachine then .error .format
  else if m.read (baseAddr + eVersionAt) 4 ≠ evCurrent then .error .format
  else .ok ()

/-- `self->bias_addr + dyn->d_un.d_ptr`, in `ElfW(Addr)`. -/
def XhElf.relocate (v : XhElf) (ptr : ℕ) : ℕ := (v.biasAddr + ptr) % 2 ^ A.wordBits

/-- The `DT_HASH` case: `raw[0]` buckets, `raw[1]` chain entries, the buckets at `&raw[2]`
and the chain after them. -/
def hashTableAt (v : XhElf) (raw : ℕ) : XhElf :=
  { v with bucketCnt := m.read raw 4, chainCnt := m.read (raw + 4) 4, bucket := raw + 8,
           chain := raw + 8 + 4 * m.read raw 4 }

/-- The `DT_GNU_HASH` case: `raw[0]` buckets, `raw[1]` the symbol offset, `raw[2]` bloom
words, `raw[3]` the bloom shift, the bloom words at `&raw[4]`, then the buckets, then the
chain; and `is_use_gnu_hash = 1`. -/
def gnuHashTableAt (v : XhElf) (raw : ℕ) : XhElf :=
  let bucket := raw + 16 + A.wordSize * m.read (raw + 8) 4
  { v with bucketCnt := m.read raw 4, symoffset := m.read (raw + 4) 4, bloomSz := m.read (raw + 8) 4,
           bloomShift := m.read (raw + 12) 4, bloom := raw + 16, bucket,
           chain := bucket + 4 * m.read raw 4, isUseGnuHash := true }

/-- One case of the `switch(dyn->d_tag)` of `xh_elf_init`. -/
def xhElfInitDynEntry (v : XhElf) (tag val : ℕ) : XhElf :=
  if tag = dtStrtab then { v with strtab := v.relocate A val }
  else if tag = dtSymtab then { v with symtab := v.relocate A val }
  else if tag = dtPltrel then { v with isUseRela := decide (val = dtRela) }
  else if tag = dtJmprel then { v with relplt := v.relocate A val }
  else if tag = dtPltrelsz then { v with relpltSz := val }
  else if tag = dtRel ∨ tag = dtRela then { v with reldyn := v.relocate A val }
  else if tag = dtRelsz ∨ tag = dtRelasz then { v with reldynSz := val }
  else if tag = dtAndroidRel ∨ tag = dtAndroidRela then { v with relandroid := v.relocate A val }
  else if tag = dtAndroidRelsz ∨ tag = dtAndroidRelasz then { v with relandroidSz := val }
  else if tag = dtHash then hashTableAt m v (v.relocate A val)
  else if tag = dtGnuHash then gnuHashTableAt A m v (v.relocate A val)
  else v

/-- The `d_tag` and `d_un` of the `dyn_sz / sizeof(ElfW(Dyn))` entries at `dyn`. -/
def dynEntries (dyn dynSz : ℕ) : List (ℕ × ℕ) :=
  (List.range (dynSz / A.dynSize)).map fun k =>
    (m.read (dyn + A.dynSize * k) A.wordSize, m.read (dyn + A.dynSize * k + A.wordSize) A.wordSize)

/-- The loop over the dynamic entries of `xh_elf_init`. -/
def xhElfInitDynLoop (v : XhElf) : XhElf :=
  (dynEntries A m v.dyn v.dynSz).foldl (fun v e => xhElfInitDynEntry A m v e.1 e.2) v

/-- The check `rel_sz < 4 || rel[0] != 'A' || rel[1] != 'P' || rel[2] != 'S' || rel[3] != '2'`
of `xh_elf_init`: true when the packed region lacks its `APS2` prefix. -/
def aps2PrefixBad (rel relSz : ℕ) : Bool :=
  relSz < 4 || m rel != 65 || m (rel + 1) != 80 || m (rel + 2) != 83 || m (rel + 3) != 50

/-- The part of `xh_elf_init` after the dynamic section is parsed: the pathname is set,
the `APS2` prefix checked and stripped, then `xh_elf_check` runs. -/
def xhElfInitFinish (v : XhElf) (pathname : ℕ) : Except XhErrno Unit × XhElf :=
  let v := { v with pathname }
  if v.relandroid ≠ 0 ∧ aps2PrefixBad m v.relandroid v.relandroidSz then (.error .format, v)
  else
    let v := if v.relandroid ≠ 0 then
      { v with relandroid := (v.relandroid + 4) % 2 ^ A.wordBits, relandroidSz := v.relandroidSz - 4 }
      else v
    if xhElfCheck v ≠ 0 then (.error .format, xhElfReset) else (.ok (), v)

/-- `xh_elf_init`. -/
def xhElfInit (v : XhElf) (baseAddr pathname : ℕ) : Option (Except XhErrno Unit × XhElf) :=
  if v.pathname ≠ 0 then some (.ok (), v)
  else if pathname = 0 then some (.error .inval, v)
  else
    let v := { v with baseAddr, ehdr := baseAddr,
                      phdr := (baseAddr + m.read (baseAddr + A.ePhoffAt) A.wordSize) % 2 ^ A.wordBits }
    match xhElfGetFirstSegmentByType A m v ptLoad with
    | none => none
    | some lhdr =>
      if m.read (lhdr + A.pOffsetAt) A.wordSize ≠ 0 then some (.error .format, v)
      else
        let v := { v with biasAddr :=
          (baseAddr + 2 ^ A.wordBits - m.read (lhdr + A.pVaddrAt) A.wordSize % 2 ^ A.wordBits) % 2 ^ A.wordBits }
        match xhElfGetFirstSegmentByType A m v ptDynamic with
        | none => some (.error .format, v)
        | some dhdr =>
          let v := { v with dyn := v.relocate A (m.read (dhdr + A.pVaddrAt) A.wordSize),
                            dynSz := m.read (dhdr + A.pMemszAt) A.wordSize }
          some (xhElfInitFinish A m (xhElfInitDynLoop A m v) pathname)

end Model

/-- What `xh_elf_check_elfheader` demands of the header at `base`. -/
structure ElfHeaderOk (A : Arch) (m : Mem) (base : ℕ) : Prop where
  magic : m.bytes base 4 = elfMag
  cls : m.read (base + eiClass) 1 = A.elfClass
  data : m.read (base + eiData) 1 = elfdata2lsb
  identVersion : m.read (base + eiVersion) 1 = evCurrent
  type : m.read (base + eTypeAt) 2 = etExec ∨ m.read (base + eTypeAt) 2 = etDyn
  machine : m.read (base + eMachineAt) 2 = A.emMachine
  version : m.read (base + eVersionAt) 4 = evCurrent

theorem ite_error_eq_ok {ε : Type} {p : Prop} [Decidable p] {e : ε} {x : Except ε Unit} :
    (if p then .error e else x) = .ok () ↔ ¬p ∧ x = .ok () := by
  split <;> simp_all

theorem xhElfCheckElfheader_eq_ok_iff {A : Arch} {m : Mem} {base : ℕ} :
    xhElfCheckElfheader A m base = .ok () ↔ ElfHeaderOk A m base := by
  simp only [xhElfCheckElfheader, ite_error_eq_ok, ne_eq, not_not, not_and_or, and_true]
  exact ⟨fun ⟨h1, h2, h3, h4, h5, h6, h7⟩ => ⟨h1, h2, h3, h4, h5, h6, h7⟩,
    fun ⟨h1, h2, h3, h4, h5, h6, h7⟩ => ⟨h1, h2, h3, h4, h5, h6, h7⟩⟩

/-! ## The hash descriptor -/

/-- What the `DT_HASH` and `DT_GNU_HASH` cases write, with the load bias they relocate by. -/
structure HashDesc where
  biasAddr : ℕ
  bucketCnt : ℕ
  chainCnt : ℕ
  bucket : ℕ
  chain : ℕ
  symoffset : ℕ
  bloom : ℕ
  bloomSz : ℕ
  bloomShift : ℕ
  isUseGnuHash : Bool

/-- The view's hash descriptor. -/
def XhElf.hashDesc (v : XhElf) : HashDesc :=
  ⟨v.biasAddr, v.bucketCnt, v.chainCnt, v.bucket, v.chain, v.symoffset, v.bloom, v.bloomSz,
    v.bloomShift, v.isUseGnuHash⟩

section HashDesc

variable {A : Arch} {m : Mem}

theorem hashDesc_dynEntry (v : XhElf) {tag : ℕ} (val : ℕ) (h1 : tag ≠ dtHash) (h2 : tag ≠ dtGnuHash) :
    (xhElfInitDynEntry A m v tag val).hashDesc = v.hashDesc := by
  simp only [xhElfInitDynEntry, h1, h2, if_false, XhElf.hashDesc, apply_ite XhElf.biasAddr,
    apply_ite XhElf.bucketCnt, apply_ite XhElf.chainCnt, apply_ite XhElf.bucket, apply_ite XhElf.chain,
    apply_ite XhElf.symoffset, apply_ite XhElf.bloom, apply_ite XhElf.bloomSz, apply_ite XhElf.bloomShift,
    apply_ite XhElf.isUseGnuHash, ite_self]

theorem dynEntry_gnuHash (v : XhElf) (val : ℕ) :
    xhElfInitDynEntry A m v dtGnuHash val = gnuHashTableAt A m v (v.relocate A val) := by
  simp [xhElfInitDynEntry, dtGnuHash, dtStrtab, dtSymtab, dtPltrel, dtJmprel, dtPltrelsz, dtRel, dtRela,
    dtRelsz, dtRelasz, dtAndroidRel, dtAndroidRela, dtAndroidRelsz, dtAndroidRelasz, dtHash]

theorem dynEntry_hash (v : XhElf) (val : ℕ) :
    xhElfInitDynEntry A m v dtHash val = hashTableAt m v (v.relocate A val) := by
  simp [xhElfInitDynEntry, dtStrtab, dtSymtab, dtPltrel, dtJmprel, dtPltrelsz, dtRel, dtRela,
    dtRelsz, dtRelasz, dtAndroidRel, dtAndroidRela, dtAndroidRelsz, dtAndroidRelasz, dtHash]

/-- Entries other than `DT_HASH` and `DT_GNU_HASH` leave the hash descriptor as it is. -/
theorem hashDesc_foldl (v : XhElf) {ents : List (ℕ × ℕ)}
    (h : ∀ e ∈ ents, e.1 ≠ dtHash ∧ e.1 ≠ dtGnuHash) :
    (ents.foldl (fun v e => xhElfInitDynEntry A m v e.1 e.2) v).hashDesc = v.hashDesc := by
  induction ents generalizing v with
  | nil => rfl
  | cons e ents ih =>
    have he := h e (List.mem_cons_self _ _)
    rw [List.foldl_cons, ih _ fun e' he' => h e' (List.mem_cons_of_mem _ he'),
      hashDesc_dynEntry v e.2 he.1 he.2]

/-- **The hash descriptor mixes two tables** when a `DT_GNU_HASH` entry comes before the last
`DT_HASH` entry: the view takes the GNU lookup, with the GNU table's `symoffset` and bloom
filter, but the classic table's bucket count, buckets and chain. -/
theorem dynLoop_gnu_then_hash (v : XhElf) (pre mid post : List (ℕ × ℕ)) (g h : ℕ)
    (hrest : ∀ e ∈ mid ++ post, e.1 ≠ dtHash ∧ e.1 ≠ dtGnuHash) :
    let w := (pre ++ (dtGnuHash, g) :: (mid ++ (dtHash, h) :: post)).foldl
      (fun v e => xhElfInitDynEntry A m v e.1 e.2) v
    w.isUseGnuHash = true ∧ w.bucketCnt = m.read (w.relocate A h) 4 ∧
      w.bucket = w.relocate A h + 8 ∧ w.chain = w.relocate A h + 8 + 4 * m.read (w.relocate A h) 4 ∧
      w.symoffset = m.read (w.relocate A g + 4) 4 ∧ w.bloom = w.relocate A g + 16 := by
  intro w
  set v1 := pre.foldl (fun v e => xhElfInitDynEntry A m v e.1 e.2) v
  set v2 := gnuHashTableAt A m v1 (v1.relocate A g)
  set v3 := mid.foldl (fun v e => xhElfInitDynEntry A m v e.1 e.2) v2
  set v4 := hashTableAt m v3 (v3.relocate A h)
  have hw : w = post.foldl (fun v e => xhElfInitDynEntry A m v e.1 e.2) v4 := by
    simp only [w, v4, v3, v2, v1, List.foldl_append, List.foldl_cons, dynEntry_gnuHash, dynEntry_hash]
  have h3 : v3.hashDesc = v2.hashDesc := hashDesc_foldl v2 fun e he => hrest e (List.mem_append_left _ he)
  have h5 : w.hashDesc = v4.hashDesc :=
    hw ▸ hashDesc_foldl v4 fun e he => hrest e (List.mem_append_right _ he)
  have hbias : w.biasAddr = v3.biasAddr := congrArg HashDesc.biasAddr h5
  have hr : ∀ x, v3.relocate A x = w.relocate A x := fun x => by simp only [XhElf.relocate, hbias]
  have hr1 : ∀ x, v1.relocate A x = w.relocate A x := fun x => by
    simp only [XhElf.relocate, hbias, show v3.biasAddr = v1.biasAddr from congrArg HashDesc.biasAddr h3]
  refine ⟨(congrArg HashDesc.isUseGnuHash h5).trans (congrArg HashDesc.isUseGnuHash h3), ?_, ?_, ?_, ?_, ?_⟩
  · rw [← hr]; exact congrArg HashDesc.bucketCnt h5
  · rw [← hr]; exact congrArg HashDesc.bucket h5
  · rw [← hr]; exact congrArg HashDesc.chain h5
  · rw [← hr1]; exact (congrArg HashDesc.symoffset h5).trans (congrArg HashDesc.symoffset h3)
  · rw [← hr1]; exact (congrArg HashDesc.bloom h5).trans (congrArg HashDesc.bloom h3)

end HashDesc

/-! ## The plain fields -/

/-- The value of the last of the entries `ents` whose tag `p` accepts. -/
def lastTagged (p : ℕ → Prop) [DecidablePred p] (ents : List (ℕ × ℕ)) : Option ℕ :=
  (ents.reverse.find? fun e => p e.1).map Prod.snd

theorem lastTagged_append_singleton (p : ℕ → Prop) [DecidablePred p] (ents : List (ℕ × ℕ)) (e : ℕ × ℕ) :
    lastTagged p (ents ++ [e]) = if p e.1 then some e.2 else lastTagged p ents := by
  unfold lastTagged
  rw [List.reverse_append, List.reverse_singleton, List.singleton_append, List.find?_cons]
  by_cases h : p e.1 <;> simp [h]

section Plain

variable {A : Arch} {m : Mem}

theorem dynEntry_biasAddr (v : XhElf) (tag val : ℕ) : (xhElfInitDynEntry A m v tag val).biasAddr = v.biasAddr := by
  simp only [xhElfInitDynEntry, hashTableAt, gnuHashTableAt, apply_ite XhElf.biasAddr, ite_self]

theorem foldl_biasAddr (v : XhElf) (ents : List (ℕ × ℕ)) :
    (ents.foldl (fun v e => xhElfInitDynEntry A m v e.1 e.2) v).biasAddr = v.biasAddr := by
  induction ents generalizing v with
  | nil => rfl
  | cons e ents ih => rw [List.foldl_cons, ih, dynEntry_biasAddr]

/-- A field that the entries whose tag `p` accepts set to `g` of `bias_addr` and their value,
and that the other entries keep, ends as `g` of the last such entry's value, or as it was. -/
theorem foldl_field_lastTagged {α : Type} (get : XhElf → α) (p : ℕ → Prop) [DecidablePred p]
    (g : ℕ → ℕ → α)
    (hget : ∀ v tag val, get (xhElfInitDynEntry A m v tag val) = if p tag then g v.biasAddr val else get v)
    (v : XhElf) (ents : List (ℕ × ℕ)) :
    get (ents.foldl (fun v e => xhElfInitDynEntry A m v e.1 e.2) v) =
      (lastTagged p ents).elim (get v) (g v.biasAddr) := by
  induction ents using List.reverseRecOn with
  | nil => rfl
  | append_singleton ents e ih =>
    rw [List.foldl_append, List.foldl_cons, List.foldl_nil, hget, foldl_biasAddr, ih,
      lastTagged_append_singleton]
    split <;> rfl

/-- **Each plain field holds the last entry that sets it.** After the loop over the dynamic
entries of `xh_elf_init`, `strtab`, `symtab`, `relplt`, `reldyn` and `relandroid` hold the
pointer of the last entry whose tag sets them, plus `bias_addr`; `is_use_rela` tells whether
the last `DT_PLTREL` value is `DT_RELA`; the three sizes hold the last value of their tags; and
a field that no entry sets keeps the value the view had before. -/
theorem dynLoop_last_entry (v : XhElf) :
    let ents := dynEntries A m v.dyn v.dynSz
    let w := xhElfInitDynLoop A m v
    w.strtab = (lastTagged (· = dtStrtab) ents).elim v.strtab (v.relocate A) ∧
    w.symtab = (lastTagged (· = dtSymtab) ents).elim v.symtab (v.relocate A) ∧
    w.isUseRela = (lastTagged (· = dtPltrel) ents).elim v.isUseRela (fun x => decide (x = dtRela)) ∧
    w.relplt = (lastTagged (· = dtJmprel) ents).elim v.relplt (v.relocate A) ∧
    w.relpltSz = (lastTagged (· = dtPltrelsz) ents).elim v.relpltSz id ∧
    w.reldyn = (lastTagged (fun t => t = dtRel ∨ t = dtRela) ents).elim v.reldyn (v.relocate A) ∧
    w.reldynSz = (lastTagged (fun t => t = dtRelsz ∨ t = dtRelasz) ents).elim v.reldynSz id ∧
    w.relandroid =
      (lastTagged (fun t => t = dtAndroidRel ∨ t = dtAndroidRela) ents).elim v.relandroid (v.relocate A) ∧
    w.relandroidSz =
      (lastTagged (fun t => t = dtAndroidRelsz ∨ t = dtAndroidRelasz) ents).elim v.relandroidSz id := by
  have key : ∀ {α : Type} (get : XhElf → α) (p : ℕ → Prop) [DecidablePred p] (g : ℕ → ℕ → α),
      (∀ v tag val, get (xhElfInitDynEntry A m v tag val) = if p tag then g v.biasAddr val else get v) →
      get (xhElfInitDynLoop A m v) = (lastTagged p (dynEntries A m v.dyn v.dynSz)).elim (get v) (g v.biasAddr) :=
    fun get p _ g hget => foldl_field_lastTagged get p g hget v _
  refine ⟨key XhElf.strtab _ (fun b x => (b + x) % 2 ^ A.wordBits) ?_,
    key XhElf.symtab _ (fun b x => (b + x) % 2 ^ A.wordBits) ?_,
    key XhElf.isUseRela _ (fun _ x => decide (x = dtRela)) ?_,
    key XhElf.relplt _ (fun b x => (b + x) % 2 ^ A.wordBits) ?_, key XhElf.relpltSz _ (fun _ x => x) ?_,
    key XhElf.reldyn _ (fun b x => (b + x) % 2 ^ A.wordBits) ?_, key XhElf.reldynSz _ (fun _ x => x) ?_,
    key XhElf.relandroid _ (fun b x => (b + x) % 2 ^ A.wordBits) ?_,
    key XhElf.relandroidSz _ (fun _ x => x) ?_⟩
  -- an entry with the field's tag sets it; one with another tag keeps it
  all_goals
    intro v tag val
    dsimp only
    split_ifs with h
    · first | (subst h; rfl) | (rcases h with rfl | rfl <;> rfl)
    · simp only [xhElfInitDynEntry, h, if_false, hashTableAt, gnuHashTableAt, ite_self, apply_ite XhElf.strtab,
        apply_ite XhElf.symtab, apply_ite XhElf.isUseRela, apply_ite XhElf.relplt, apply_ite XhElf.relpltSz,
        apply_ite XhElf.reldyn, apply_ite XhElf.reldynSz, apply_ite XhElf.relandroid,
        apply_ite XhElf.relandroidSz]

end Plain

/-! ## What an init leaves -/

/-- `relandroid` points just past a verified `APS2` prefix, and `relandroid_sz` is the
region's size less those four bytes. -/
def Aps2Stripped (A : Arch) (m : Mem) (v : XhElf) : Prop :=
  v.relandroid ≠ 0 → ∃ rel, rel ≠ 0 ∧ aps2PrefixBad m rel (v.relandroidSz + 4) = false ∧
    v.relandroid = (rel + 4) % 2 ^ A.wordBits

/-- What every view with a pathname satisfies: it passes `xh_elf_check` with its packed
region verified and stripped, or its packed region is one whose `APS2` check failed. -/
def InitInv (A : Arch) (m : Mem) (v : XhElf) : Prop :=
  v.pathname ≠ 0 → (v.Checked ∧ Aps2Stripped A m v) ∨
    (v.relandroid ≠ 0 ∧ aps2PrefixBad m v.relandroid v.relandroidSz = true)

/-- The views that `xh_elf_init` and `xh_elf_reset` calls reach from the zeroed view, each
init reading the image in `m`; `xh_elf_hook` does not write the view. -/
inductive Reachable (A : Arch) (m : Mem) : XhElf → Prop
  | zero : Reachable A m {}
  | reset {v : XhElf} : Reachable A m v → Reachable A m xhElfReset
  | init {v v' : XhElf} {r : Except XhErrno Unit} (baseAddr pathname : ℕ) :
      Reachable A m v → xhElfInit A m v baseAddr pathname = some (r, v') → Reachable A m v'

section Inv

variable {A : Arch} {m : Mem}

theorem le_of_aps2PrefixBad_false {rel relSz : ℕ} (h : aps2PrefixBad m rel relSz = false) : 4 ≤ relSz := by
  simp only [aps2PrefixBad, Bool.or_eq_false_iff, decide_eq_false_iff_not] at h
  omega

/-- The end of `xh_elf_init` keeps the invariant, whatever the parsed view. -/
theorem xhElfInitFinish_inv (w : XhElf) (pathname : ℕ) :
    InitInv A m (xhElfInitFinish A m w pathname).2 := by
  intro hp
  unfold xhElfInitFinish at hp ⊢
  by_cases hbad : w.relandroid ≠ 0 ∧ aps2PrefixBad m w.relandroid w.relandroidSz = true
  · rw [if_pos hbad]
    exact .inr hbad
  · rw [if_neg hbad] at hp ⊢
    by_cases hc : xhElfCheck (if w.relandroid ≠ 0 then
        { w with pathname, relandroid := (w.relandroid + 4) % 2 ^ A.wordBits,
                 relandroidSz := w.relandroidSz - 4 } else { w with pathname }) ≠ 0
    · rw [if_pos hc] at hp
      exact absurd rfl hp
    · rw [if_neg hc]
      refine .inl ⟨(xhElfCheck_eq_zero_iff _).1 (not_not.1 hc), fun hr => ?_⟩
      by_cases h0 : w.relandroid = 0
      · simp only [h0, ne_eq, not_true_eq_false, if_false] at hr
      · have hok : aps2PrefixBad m w.relandroid w.relandroidSz = false := by
          simpa [h0] using hbad
        have h4 := le_of_aps2PrefixBad_false hok
        simp only [ne_eq, h0, not_false_eq_true, if_true]
        exact ⟨w.relandroid, h0, by rwa [Nat.sub_add_cancel h4], rfl⟩

/-- **One init keeps the invariant**: every exit of `xh_elf_init` before the pathname is set
keeps the old view or one without a pathname. -/
theorem xhElfInit_inv {v v' : XhElf} {r : Except XhErrno Unit} {baseAddr pathname : ℕ}
    (hv : InitInv A m v) (h : xhElfInit A m v baseAddr pathname = some (r, v')) : InitInv A m v' := by
  unfold xhElfInit at h
  split_ifs at h with h0 hp
  · obtain ⟨-, rfl⟩ := Prod.mk.inj (Option.some.inj h)
    exact hv
  · obtain ⟨-, rfl⟩ := Prod.mk.inj (Option.some.inj h)
    exact fun h' => absurd (not_not.1 h0) h'
  · dsimp only at h
    split at h
    · cases h
    · split_ifs at h
      · obtain ⟨-, rfl⟩ := Prod.mk.inj (Option.some.inj h)
        exact fun h' => absurd (not_not.1 h0) h'
      · split at h
        · obtain ⟨-, rfl⟩ := Prod.mk.inj (Option.some.inj h)
          exact fun h' => absurd (not_not.1 h0) h'
        · rw [← (Prod.mk.inj (Option.some.inj h)).2]
          exact xhElfInitFinish_inv _ _

/-- **Every reachable view with a pathname** passes `xh_elf_check` with its packed region
verified and stripped, unless an init failed on the region's `APS2` prefix. -/
theorem reachable_inv {v : XhElf} (h : Reachable A m v) : InitInv A m v := by
  induction h with
  | zero => exact fun h => absurd rfl h
  | reset _ _ => exact fun h => absurd rfl h
  | init _ _ _ hi ih => exact xhElfInit_inv ih hi

end Inv

/-! ## Failed inits -/

section Failures

variable {A : Arch} {m : Mem}

/-- The dynamic entries write neither `base_addr` nor `ehdr`. -/
theorem dynEntry_base (v : XhElf) (tag val : ℕ) :
    (xhElfInitDynEntry A m v tag val).baseAddr = v.baseAddr ∧
      (xhElfInitDynEntry A m v tag val).ehdr = v.ehdr := by
  constructor <;>
    simp only [xhElfInitDynEntry, hashTableAt, gnuHashTableAt, apply_ite XhElf.baseAddr, apply_ite XhElf.ehdr,
      ite_self]

theorem dynLoop_base (v : XhElf) :
    (xhElfInitDynLoop A m v).baseAddr = v.baseAddr ∧ (xhElfInitDynLoop A m v).ehdr = v.ehdr := by
  unfold xhElfInitDynLoop
  generalize dynEntries A m v.dyn v.dynSz = ents
  induction ents generalizing v with
  | nil => exact ⟨rfl, rfl⟩
  | cons e ents ih =>
    obtain ⟨h1, h2⟩ := dynEntry_base (A := A) (m := m) v e.1 e.2
    obtain ⟨h3, h4⟩ := ih (xhElfInitDynEntry A m v e.1 e.2)
    exact ⟨h3.trans h1, h4.trans h2⟩

/-- Only a `DT_PLTREL` entry writes `is_use_rela`: `DT_RELA` and `DT_ANDROID_RELA` set their
region's address and nothing else. -/
theorem dynEntry_isUseRela (v : XhElf) {tag : ℕ} (val : ℕ) (h : tag ≠ dtPltrel) :
    (xhElfInitDynEntry A m v tag val).isUseRela = v.isUseRela := by
  simp only [xhElfInitDynEntry, h, if_false, hashTableAt, gnuHashTableAt, apply_ite XhElf.isUseRela, ite_self]

/-- **The record format of every region is `DT_PLTREL`'s**: a dynamic section without a
`DT_PLTREL` entry leaves `is_use_rela` as it was, whatever `DT_RELA` or `DT_ANDROID_RELA`
entries it has. -/
theorem dynLoop_isUseRela (v : XhElf) (h : ∀ e ∈ dynEntries A m v.dyn v.dynSz, e.1 ≠ dtPltrel) :
    (xhElfInitDynLoop A m v).isUseRela = v.isUseRela := by
  unfold xhElfInitDynLoop
  revert h
  generalize dynEntries A m v.dyn v.dynSz = ents
  intro h
  induction ents generalizing v with
  | nil => rfl
  | cons e ents ih =>
    rw [List.forall_mem_cons] at h
    rw [List.foldl_cons, ih _ h.2, dynEntry_isUseRela v e.2 h.1]

/-- The two failures of the end of `xh_elf_init`: the `APS2` check, which returns the view
with its pathname set, and `xh_elf_check`, which zeroes it. -/
theorem xhElfInitFinish_error {w : XhElf} {pathname : ℕ} {e : XhErrno} {v' : XhElf}
    (h : xhElfInitFinish A m w pathname = (.error e, v')) :
    e = .format ∧ (v' = { w with pathname } ∨ v' = xhElfReset) := by
  unfold xhElfInitFinish at h
  dsimp only at h
  split_ifs at h <;> cases h <;> first | exact ⟨rfl, .inl rfl⟩ | exact ⟨rfl, .inr rfl⟩

/-- **What a failed init leaves** on the zeroed view given a pathname: `FORMAT`, and the
zeroed view when `xh_elf_check` failed; every earlier exit returns with `base_addr` and
`ehdr` holding the image's base. -/
theorem xhElfInit_error_residue {baseAddr pathname : ℕ} {e : XhErrno} {v' : XhElf} (hp : pathname ≠ 0)
    (h : xhElfInit A m {} baseAddr pathname = some (.error e, v')) :
    e = .format ∧ (v' = xhElfReset ∨ v'.baseAddr = baseAddr ∧ v'.ehdr = baseAddr) := by
  unfold xhElfInit at h
  rw [if_neg (not_not.2 rfl), if_neg hp] at h
  dsimp only at h
  split at h
  · cases h
  · split_ifs at h
    · cases h; exact ⟨rfl, .inr ⟨rfl, rfl⟩⟩
    · split at h
      · cases h; exact ⟨rfl, .inr ⟨rfl, rfl⟩⟩
      · obtain ⟨he, rfl | rfl⟩ := xhElfInitFinish_error (Option.some.inj h)
        · exact ⟨he, .inr (dynLoop_base _)⟩
        · exact ⟨he, .inl rfl⟩

end Failures

/-! ## Sample images -/

/-- An AArch64 image of one page at `0x10000`, with two program headers: a `PT_LOAD` of the
page, read-write, at virtual address 0 (so the load bias is `0x10000`), and a `PT_DYNAMIC`
at `0x100` holding the entries `dyn`; `fs` are the other fields, at their offsets in the
image. -/
def sampleImage (dyn : List (ℕ × ℕ)) (fs : List (ℕ × ℕ × ℕ)) : Mem :=
  Mem.ofFields 0x10000 0x1000 ([(32, 8, 0x40), (56, 2, 2),
    (0x40, 4, ptLoad), (0x44, 4, 6), (0x48, 8, 0), (0x50, 8, 0), (0x58, 8, 0), (0x60, 8, 0x1000),
    (0x68, 8, 0x1000), (0x70, 8, 0x1000),
    (0x78, 4, ptDynamic), (0x7c, 4, 6), (0x80, 8, 0x100), (0x88, 8, 0x100), (0x90, 8, 0x100),
    (0x98, 8, 16 * dyn.length), (0xa0, 8, 16 * dyn.length), (0xa8, 8, 8)] ++
    ((List.range dyn.length).zip dyn).flatMap (fun (k, tag, val) =>
      [(0x100 + 16 * k, 8, tag), (0x108 + 16 * k, 8, val)]) ++ fs)

/-- The symbols of the sample images: `""`, then `free` (undefined), `puts`, `open` and
`malloc`, the string table at offset `0x200` and the symbol table at `0x300`. -/
def sampleSymbols : List (ℕ × ℕ × ℕ) :=
  Mem.bytesField 0x200 [0, 102, 114, 101, 101, 0, 112, 117, 116, 115, 0, 111, 112, 101, 110, 0, 109, 97,
    108, 108, 111, 99, 0] ::
    [(0x318, 4, 1), (0x330, 4, 6), (0x348, 4, 11), (0x360, 4, 16)]

/-- The sample image with both hash tables over `sampleSymbols`: the `DT_HASH` table at
`0x400` and the `DT_GNU_HASH` table at `0x500`, the `DT_GNU_HASH` entry first or second. -/
def hashImage (gnuFirst : Bool) : Mem :=
  sampleImage ([(dtStrtab, 0x200), (dtSymtab, 0x300)] ++
      if gnuFirst then [(dtGnuHash, 0x500), (dtHash, 0x400)] else [(dtHash, 0x400), (dtGnuHash, 0x500)])
    (sampleSymbols ++
      [(0x400, 4, 2), (0x404, 4, 5), (0x408, 4, 3), (0x40c, 4, 4), (0x418, 4, 1), (0x420, 4, 2),
       (0x500, 4, 2), (0x504, 4, 2), (0x508, 4, 1), (0x50c, 4, 6), (0x510, 8, 2346392998583074816),
       (0x51c, 4, 2), (0x520, 4, 2090629904), (0x524, 4, 2090588022), (0x528, 4, 221883709)])

/-- The view `xh_elf_init` builds from `hashImage`: with the `DT_GNU_HASH` entry second, the
GNU table's buckets at `0x10518` and chain at `0x10520`; with it first, those of the
`DT_HASH` table, at `0x10408` and `0x10410`. -/
def hashView (gnuFirst : Bool) : XhElf :=
  { pathname := 0x9000, baseAddr := 0x10000, biasAddr := 0x10000, ehdr := 0x10000, phdr := 0x10040,
    dyn := 0x10100, dynSz := 64, strtab := 0x10200, symtab := 0x10300,
    bucket := if gnuFirst then 0x10408 else 0x10518, bucketCnt := 2,
    chain := if gnuFirst then 0x10410 else 0x10520, chainCnt := 5, symoffset := 2, bloom := 0x10510,
    bloomSz := 1, bloomShift := 6, isUseGnuHash := true }

/-- With `DT_GNU_HASH` before `DT_HASH`, init succeeds with the GNU lookup on the classic
table's buckets and chain, and `puts`, symbol 2, is no longer found. -/
theorem hashOrder_changes_lookup :
    xhElfInit .arm64 (hashImage false) {} 0x10000 0x9000 = some (.ok (), hashView false) ∧
      xhElfInit .arm64 (hashImage true) {} 0x10000 0x9000 = some (.ok (), hashView true) ∧
      xhElfFindSymidxByName .arm64 (hashImage false) (hashView false) [112, 117, 116, 115] =
        some (.ok 2) ∧
      xhElfFindSymidxByName .arm64 (hashImage true) (hashView true) [112, 117, 116, 115] =
        some (.error .notfnd) := by
  decide

/-- The sample image with a packed region at `0x600` that starts `APS1`, and no `DT_SYMTAB`. -/
def aps1Image : Mem :=
  sampleImage [(dtStrtab, 0x200), (dtHash, 0x400), (dtAndroidRel, 0x600), (dtAndroidRelsz, 8)]
    (sampleSymbols ++ [Mem.bytesField 0x600 [65, 80, 83, 49]])

/-- The view an init leaves on `aps1Image`. -/
def aps1View : XhElf :=
  { pathname := 0x9000, baseAddr := 0x10000, biasAddr := 0x10000, ehdr := 0x10000, phdr := 0x10040,
    dyn := 0x10100, dynSz := 64, strtab := 0x10200, relandroid := 0x10600, relandroidSz := 8,
    bucket := 0x10408, chain := 0x10408 }

/-- An init that fails on the `APS2` prefix keeps its pathname: the view it leaves is
reachable, has a pathname, fails `xh_elf_check` (it has no symbol table) and points at the
unverified prefix, and the next init reports success without looking at it. -/
theorem init_aps1_keeps_pathname :
    Reachable .arm64 aps1Image aps1View ∧ aps1View.pathname ≠ 0 ∧ ¬ aps1View.Checked ∧
      xhElfInit .arm64 aps1Image {} 0x10000 0x9000 = some (.error .format, aps1View) ∧
      xhElfInit .arm64 aps1Image aps1View 0x10000 0x9000 = some (.ok (), aps1View) :=
  ⟨.init (r := .error .format) 0x10000 0x9000 .zero (by decide), by decide, by decide, by decide,
    by decide⟩

/-- The view a failed init leaves on `aps1Image` keeps the invariant by its second case. -/
theorem reachable_inv_aps1 : Reachable .arm64 aps1Image aps1View ∧ InitInv .arm64 aps1Image aps1View :=
  have h : Reachable .arm64 aps1Image aps1View := .init (r := .error .format) 0x10000 0x9000 .zero (by decide)
  ⟨h, reachable_inv h⟩


/-- The sample image with its `PT_LOAD` at file offset `0x1000`. -/
def offsetImage : Mem := sampleImage [] [(0x48, 8, 0x1000)]

/-- The sample image with its `PT_DYNAMIC` turned into a `PT_INTERP` (type 3). -/
def noDynamicImage : Mem := sampleImage [] [(0x78, 4, 1)]

/-- The sample image with its tables and a packed region of two bytes at `0x600`. -/
def shortAps2Image : Mem :=
  sampleImage [(dtStrtab, 0x200), (dtSymtab, 0x300), (dtHash, 0x400), (dtAndroidRel, 0x600),
    (dtAndroidRelsz, 2)] sampleSymbols

/-- The view an init leaves on `shortAps2Image`. -/
def shortAps2View : XhElf :=
  { pathname := 0x9000, baseAddr := 0x10000, biasAddr := 0x10000, ehdr := 0x10000, phdr := 0x10040,
    dyn := 0x10100, dynSz := 80, strtab := 0x10200, symtab := 0x10300, relandroid := 0x10600,
    relandroidSz := 2, bucket := 0x10408, chain := 0x10408 }

/-- Three failed inits from the zeroed view that leave fields set: the load offset check
keeps `base_addr`, `ehdr` and `phdr`, the missing `PT_DYNAMIC` also `bias_addr`, and the
`APS2` check the whole parsed view with its pathname, so that the next init reports success
at once. -/
theorem init_failures_leave_fields :
    xhElfInit .arm64 offsetImage {} 0x10000 0x9000 =
        some (.error .format, { baseAddr := 0x10000, ehdr := 0x10000, phdr := 0x10040 }) ∧
      xhElfInit .arm64 noDynamicImage {} 0x10000 0x9000 =
        some (.error .format, { baseAddr := 0x10000, biasAddr := 0x10000, ehdr := 0x10000, phdr := 0x10040 }) ∧
      xhElfInit .arm64 shortAps2Image {} 0x10000 0x9000 = some (.error .format, shortAps2View) ∧
      xhElfInit .arm64 shortAps2Image shortAps2View 0x10000 0x9000 = some (.ok (), shortAps2View) := by
  decide

/-- The sample image with its `PT_LOAD` turned into a `PT_INTERP` (type 3): no program header
is a `PT_LOAD`. -/
def noLoadImage : Mem := sampleImage [] [(0x40, 4, 2)]

/-- `xh_elf_init` never calls `xh_elf_check_elfheader`: `hashImage`, whose header has no
ELF magic, class or machine, fails the header check and inits all the same; on
`noLoadImage` init reads `p_offset` through the `NULL` that
`xh_elf_get_first_segment_by_type` returns. -/
theorem init_skips_elfheader_check :
    xhElfCheckElfheader .arm64 (hashImage false) 0x10000 = .error .format ∧
      xhElfInit .arm64 (hashImage false) {} 0x10000 0x9000 = some (.ok (), hashView false) ∧
      xhElfGetFirstSegmentByType .arm64 noLoadImage
          { baseAddr := 0x10000, ehdr := 0x10000, phdr := 0x10040 } ptLoad = none ∧
      xhElfInit .arm64 noLoadImage {} 0x10000 0x9000 = none := by
  decide

end XHook
