import XHook.Sleb128

/-!
# The packed (APS2) relocation iterator

`xh_elf_packed_reloc_iterator_next` rebuilds `REL`/`RELA` records from the SLEB128
stream of Android's packed relocations, group by group. The C functions mutate the
iterator and return a status; here they are `EStateM XhErrno PackedRelocIterator`
programs, so that the state a failing call leaves behind is kept, as in C.

`packedRecords` is what successive calls of `next` return before the first `NULL`.
-/

namespace XHook

section EStateM

variable {ε σ α β : Type}

@[simp] theorem estate_bind_apply (x : EStateM ε σ α) (f : α → EStateM ε σ β) (s : σ) :
    (x >>= f) s = match x s with
      | .ok a s => f a s
      | .error e s => .error e s := rfl

@[simp] theorem estate_modify_apply (f : σ → σ) (s : σ) :
    (modify f : EStateM ε σ PUnit) s = .ok ⟨⟩ (f s) := rfl

@[simp] theorem estate_get_apply (s : σ) : (get : EStateM ε σ σ) s = .ok s s := rfl

@[simp] theorem estate_pure_apply (a : α) (s : σ) : (pure a : EStateM ε σ α) s = .ok a s := rfl

@[simp] theorem estate_throw_apply (e : ε) (s : σ) : (throw e : EStateM ε σ α) s = .error e s := rfl

end EStateM

/-- `RELOCATION_GROUPED_BY_INFO_FLAG`. -/
def relocationGroupedByInfoFlag : ℕ := 1
/-- `RELOCATION_GROUPED_BY_OFFSET_DELTA_FLAG`. -/
def relocationGroupedByOffsetDeltaFlag : ℕ := 2
/-- `RELOCATION_GROUPED_BY_ADDEND_FLAG`. -/
def relocationGroupedByAddendFlag : ℕ := 4
/-- `RELOCATION_GROUP_HAS_ADDEND_FLAG`. -/
def relocationGroupHasAddendFlag : ℕ := 8

/-- `xh_elf_packed_reloc_iterator_t`, less the `rela` and `rel` buffers that `next`
fills and returns a pointer to: the model returns the record itself. -/
structure PackedRelocIterator where
  decoder : Sleb128Decoder
  relocationCount : ℕ := 0
  groupSize : ℕ := 0
  groupFlags : ℕ := 0
  groupROffsetDelta : ℕ := 0
  relocationIndex : ℕ := 0
  relocationGroupIndex : ℕ := 0
  rOffset : ℕ := 0
  rInfo : ℕ := 0
  rAddend : ℕ := 0
  isUseRela : Bool
deriving DecidableEq, Repr

/-- A call `xh_elf_sleb128_decoder_next(&(self->decoder), &val)`. -/
def PackedRelocIterator.decode (w : ℕ) (m : Mem) : EStateM XhErrno PackedRelocIterator ℕ := fun it =>
  match xhElfSleb128DecoderNext w m it.decoder with
  | (.ok v, d) => .ok v { it with decoder := d }
  | (.error e, d) => .error e { it with decoder := d }

/-- `if(0 != (r = xh_elf_sleb128_decoder_next(&(self->decoder), &field))) return r;`, the
field being the one `set` writes. -/
def PackedRelocIterator.decodeInto (w : ℕ) (m : Mem)
    (set : ℕ → PackedRelocIterator → PackedRelocIterator) :
    EStateM XhErrno PackedRelocIterator PUnit := do
  let v ← PackedRelocIterator.decode w m
  modify (set v)

/-- `if(cond) if(0 != (r = xh_elf_sleb128_decoder_next(&(self->decoder), &field))) return r;`. -/
def PackedRelocIterator.decodeIntoIf (w : ℕ) (m : Mem) (cond : Prop) [Decidable cond]
    (set : ℕ → PackedRelocIterator → PackedRelocIterator) :
    EStateM XhErrno PackedRelocIterator PUnit :=
  if cond then PackedRelocIterator.decodeInto w m set else pure ⟨⟩

/-- The reads of `xh_elf_packed_reloc_iterator_init`: the relocation count, then the
initial `r_offset`. -/
def packedInitReads (w : ℕ) (m : Mem) : EStateM XhErrno PackedRelocIterator PUnit := do
  PackedRelocIterator.decodeInto w m fun relocationCount it => { it with relocationCount }
  PackedRelocIterator.decodeInto w m fun rOffset it => { it with rOffset }

/-- `xh_elf_packed_reloc_iterator_init`: the reads, on the zeroed iterator over
`[rel, rel + rel_sz)`. -/
def xhElfPackedRelocIteratorInit (w : ℕ) (m : Mem) (rel relSz : ℕ) (isUseRela : Bool) :
    EStateM.Result XhErrno PackedRelocIterator PUnit :=
  packedInitReads w m { decoder := xhElfSleb128DecoderInit rel relSz, isUseRela }

/-- The addend block of `xh_elf_packed_reloc_iterator_read_group_fields`: a group that
shares its addend reads the delta to it (`REL` streams have no addends), a group without
addends zeroes it. -/
def packedGroupAddend (w : ℕ) (m : Mem) : EStateM XhErrno PackedRelocIterator PUnit := do
  let it ← get
  if it.groupFlags &&& relocationGroupHasAddendFlag ≠ 0 ∧
      it.groupFlags &&& relocationGroupedByAddendFlag ≠ 0 then
    if !it.isUseRela then throw .format
    PackedRelocIterator.decodeInto w m fun val it => { it with rAddend := (it.rAddend + val) % 2 ^ w }
  else if it.groupFlags &&& relocationGroupHasAddendFlag = 0 then
    modify fun it => { it with rAddend := 0 }

/-- `xh_elf_packed_reloc_iterator_read_group_fields`. -/
def xhElfPackedRelocIteratorReadGroupFields (w : ℕ) (m : Mem) :
    EStateM XhErrno PackedRelocIterator PUnit := do
  PackedRelocIterator.decodeInto w m fun groupSize it => { it with groupSize }
  PackedRelocIterator.decodeInto w m fun groupFlags it => { it with groupFlags }
  PackedRelocIterator.decodeIntoIf w m ((← get).groupFlags &&& relocationGroupedByOffsetDeltaFlag ≠ 0)
    fun groupROffsetDelta it => { it with groupROffsetDelta }
  PackedRelocIterator.decodeIntoIf w m ((← get).groupFlags &&& relocationGroupedByInfoFlag ≠ 0)
    fun rInfo it => { it with rInfo }
  packedGroupAddend w m
  modify fun it => { it with relocationGroupIndex := 0 }

/-- The offset block of `xh_elf_packed_reloc_iterator_next`: the group's shared delta, or
one read from the stream. -/
def packedNextOffset (w : ℕ) (m : Mem) : EStateM XhErrno PackedRelocIterator PUnit := do
  if (← get).groupFlags &&& relocationGroupedByOffsetDeltaFlag ≠ 0 then
    modify fun it => { it with rOffset := (it.rOffset + it.groupROffsetDelta) % 2 ^ w }
  else
    PackedRelocIterator.decodeInto w m fun val it => { it with rOffset := (it.rOffset + val) % 2 ^ w }

/-- The info block of `xh_elf_packed_reloc_iterator_next`: `r_info` is read unless the
group shares it. -/
def packedNextInfo (w : ℕ) (m : Mem) : EStateM XhErrno PackedRelocIterator PUnit := do
  PackedRelocIterator.decodeIntoIf w m ((← get).groupFlags &&& relocationGroupedByInfoFlag = 0)
    fun rInfo it => { it with rInfo }

/-- The addend block of `xh_elf_packed_reloc_iterator_next`: a `RELA` group with addends
it does not share reads the delta to the next one. -/
def packedNextAddend (w : ℕ) (m : Mem) : EStateM XhErrno PackedRelocIterator PUnit := do
  let it ← get
  if it.isUseRela ∧ it.groupFlags &&& relocationGroupHasAddendFlag ≠ 0 ∧
      it.groupFlags &&& relocationGroupedByAddendFlag = 0 then
    PackedRelocIterator.decodeInto w m fun val it => { it with rAddend := (it.rAddend + val) % 2 ^ w }

/-- The part of `xh_elf_packed_reloc_iterator_next` that reads one entry of the current
group and fills the record it returns. -/
def packedNextEntry (w : ℕ) (m : Mem) : EStateM XhErrno PackedRelocIterator RelocOut := do
  packedNextOffset w m
  packedNextInfo w m
  packedNextAddend w m
  modify fun it => { it with relocationIndex := it.relocationIndex + 1,
                             relocationGroupIndex := it.relocationGroupIndex + 1 }
  let it ← get
  return if it.isUseRela then .rela ⟨⟨it.rOffset, it.rInfo⟩, it.rAddend⟩
    else .rel ⟨it.rOffset, it.rInfo⟩

/-- `xh_elf_packed_reloc_iterator_next` past its bound check: a new group's header is
read when the current one is used up. -/
def packedNextBody (w : ℕ) (m : Mem) : EStateM XhErrno PackedRelocIterator RelocOut := do
  let it ← get
  if it.relocationGroupIndex = it.groupSize then xhElfPackedRelocIteratorReadGroupFields w m
  packedNextEntry w m

/-- `xh_elf_packed_reloc_iterator_next`: `NULL` once `relocation_count` records were
returned, and `NULL` as well when a read fails. -/
def xhElfPackedRelocIteratorNext (w : ℕ) (m : Mem) (it : PackedRelocIterator) :
    Option RelocOut × PackedRelocIterator :=
  if it.relocationIndex ≥ it.relocationCount then (none, it)
  else
    match packedNextBody w m it with
    | .ok r it' => (some r, it')
    | .error _ it' => (none, it')

/-- The records successive calls of `next` return before the first `NULL`, over at most
`fuel` calls. -/
def packedRecordsAux (w : ℕ) (m : Mem) : ℕ → PackedRelocIterator → List RelocOut
  | 0, _ => []
  | fuel + 1, it =>
    match xhElfPackedRelocIteratorNext w m it with
    | (none, _) => []
    | (some r, it') => r :: packedRecordsAux w m fuel it'

/-- Everything `next` returns before `NULL`: a record moves `relocation_index` one step
toward `relocation_count`, so the call after `relocation_count - relocation_index`
records returns `NULL`. -/
def packedRecords (w : ℕ) (m : Mem) (it : PackedRelocIterator) : List RelocOut :=
  packedRecordsAux w m (it.relocationCount - it.relocationIndex + 1) it


/-! ## Addends in `REL` streams -/

section RelAddend

variable {w : ℕ} {m : Mem} {it : PackedRelocIterator}

/-- **A `REL` group is rejected for its addends only when it shares one.** The addend block
of `read_group_fields` fails with `FORMAT` on a `REL` stream exactly when the group has
both `GROUP_HAS_ADDEND` and `GROUPED_BY_ADDEND`; with `GROUP_HAS_ADDEND` alone it reads
nothing and keeps the iterator as it is. -/
theorem packedGroupAddend_rel (hr : it.isUseRela = false) :
    packedGroupAddend w m it =
      if it.groupFlags &&& relocationGroupHasAddendFlag ≠ 0 then
        if it.groupFlags &&& relocationGroupedByAddendFlag ≠ 0 then .error .format it else .ok ⟨⟩ it
      else .ok ⟨⟩ { it with rAddend := 0 } := by
  unfold packedGroupAddend
  by_cases h8 : it.groupFlags &&& relocationGroupHasAddendFlag = 0 <;>
    by_cases h4 : it.groupFlags &&& relocationGroupedByAddendFlag = 0 <;> simp [h8, h4, hr]

/-- The entry of a `REL` stream reads no addend delta, whatever the group's flags. -/
theorem packedNextAddend_rel (hr : it.isUseRela = false) : packedNextAddend w m it = .ok ⟨⟩ it := by
  simp [packedNextAddend, hr]

end RelAddend

/-- A `REL` stream at `0x600`: two records, `r_offset` 0, one group of two with
`GROUPED_BY_INFO` and `GROUP_HAS_ADDEND`, `r_info = 0x15`, then per entry an offset delta
and an addend delta: `0x800`, `5`, then `8`, `0`. -/
def relAddendMem : Mem := Mem.ofFields 0x600 10 [Mem.bytesField 0 [2, 0, 2, 9, 0x15, 0x80, 0x10, 5, 8, 0]]

/-- The `REL` iterator accepts the group with addends and reads its first addend delta as
the second entry's offset delta, yielding `0x805` where the same stream read as `RELA` gives
`0x808`. -/
theorem rel_stream_reads_addends_as_offsets :
    xhElfPackedRelocIteratorInit 64 relAddendMem 0x600 10 false =
        .ok ⟨⟩ { decoder := ⟨0x602, 0x60a⟩, relocationCount := 2, isUseRela := false } ∧
      packedRecords 64 relAddendMem { decoder := ⟨0x602, 0x60a⟩, relocationCount := 2, isUseRela := false } =
        [.rel ⟨0x800, 0x15⟩, .rel ⟨0x805, 0x15⟩] ∧
      packedRecords 64 relAddendMem { decoder := ⟨0x602, 0x60a⟩, relocationCount := 2, isUseRela := true } =
        [.rela ⟨⟨0x800, 0x15⟩, 5⟩, .rela ⟨⟨0x808, 0x15⟩, 5⟩] :=
  ⟨rfl, by decide, by decide⟩

end XHook
