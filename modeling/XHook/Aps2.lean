import XHook.PackedIter
import Mathlib.Tactic.Zify

/-!
# APS2 streams decode to the records they encode

Spec §4.3 describes the stream: the relocation count and the initial `r_offset`, then
groups, each a header (size, flags, and the fields its flags say are shared) followed by
its entries (the fields that are not shared). `aps2Numbers` lists the numbers of the stream
of a list of groups, in order; `WordsEnc w xs S` says that the bytes `S` write the numbers
`xs`, each in any SLEB128 encoding of at most `⌈w / 7⌉` bytes of an integer congruent to it
modulo `2 ^ w`, the minimal encodings (`aps2Stream`) among them. `Aps2Legal` says the flags
of each group fit its records.

* `packed_decode_encode`: **`xh_elf_packed_reloc_iterator_init` accepts every such stream
  and `next` returns exactly its records, then `NULL`**, with `r_offset`, `r_info` and (for
  `RELA`) `r_addend` modulo `2 ^ w`.
-/

namespace XHook

/-- One group of an APS2 stream: its flag word and its records, at least one. -/
structure Aps2Group where
  flags : ℕ
  first : ElfRela
  rest : List ElfRela

namespace Aps2Group

/-- The records of a group. -/
def recs (g : Aps2Group) : List ElfRela := g.first :: g.rest

/-- The last record of a group. -/
def last (g : Aps2Group) : ElfRela := g.rest.foldl (fun _ r => r) g.first

/-- The flags of a group fit its records, when the record before the group has offset
`o`: a shared field is shared, a group without `GROUP_HAS_ADDEND` has zero addends, and
`REL` groups never have it. -/
structure Legal (isUseRela : Bool) (o : ℕ) (g : Aps2Group) : Prop where
  info : g.flags &&& relocationGroupedByInfoFlag ≠ 0 → ∀ r ∈ g.rest, r.rInfo = g.first.rInfo
  offset : g.flags &&& relocationGroupedByOffsetDeltaFlag ≠ 0 →
    List.Chain (fun x y : ℕ => (y : ℤ) - x = (g.first.rOffset : ℤ) - o) g.first.rOffset
      (g.rest.map (·.rOffset))
  noAddend : g.flags &&& relocationGroupHasAddendFlag = 0 → ∀ r ∈ g.recs, r.rAddend = 0
  rel : isUseRela = false → g.flags &&& relocationGroupHasAddendFlag = 0
  addend : g.flags &&& relocationGroupedByAddendFlag ≠ 0 → ∀ r ∈ g.rest, r.rAddend = g.first.rAddend

end Aps2Group

/-- Every group's flags fit its records, `o` being the offset before the first group. -/
def Aps2Legal (isUseRela : Bool) : ℕ → List Aps2Group → Prop
  | _, [] => True
  | o, g :: gs => g.Legal isUseRela o ∧ Aps2Legal isUseRela g.last.rOffset gs

/-- The numbers of one entry of a group with flags `f`, after a record with offset `o` and
addend `a`: the offset delta unless it is shared, `r_info` unless it is shared, and the
addend delta when the group has addends that are not shared. -/
def aps2Entry (f o a : ℕ) (r : ElfRela) : List ℤ :=
  (if f &&& relocationGroupedByOffsetDeltaFlag = 0 then [(r.rOffset : ℤ) - o] else []) ++
    (if f &&& relocationGroupedByInfoFlag = 0 then [(r.rInfo : ℤ)] else []) ++
    (if f &&& relocationGroupHasAddendFlag ≠ 0 ∧ f &&& relocationGroupedByAddendFlag = 0 then
      [(r.rAddend : ℤ) - a] else [])

/-- The numbers of the entries `rs` of a group with flags `f`, after a record with offset `o`
and addend `a`. -/
def aps2Entries (f : ℕ) : ℕ → ℕ → List ElfRela → List ℤ
  | _, _, [] => []
  | o, a, r :: rs => aps2Entry f o a r ++ aps2Entries f r.rOffset r.rAddend rs

/-- The numbers of a group's header, after a record with offset `o` and addend `a`: size,
flags, then the shared offset delta, `r_info` and addend delta its flags call for. -/
def aps2Header (o a : ℕ) (g : Aps2Group) : List ℤ :=
  (g.recs.length : ℤ) :: (g.flags : ℤ) ::
    ((if g.flags &&& relocationGroupedByOffsetDeltaFlag ≠ 0 then [(g.first.rOffset : ℤ) - o] else []) ++
      (if g.flags &&& relocationGroupedByInfoFlag ≠ 0 then [(g.first.rInfo : ℤ)] else []) ++
      (if g.flags &&& relocationGroupHasAddendFlag ≠ 0 ∧ g.flags &&& relocationGroupedByAddendFlag ≠ 0 then
        [(g.first.rAddend : ℤ) - a] else []))

/-- The numbers of the groups, after a record with offset `o` and addend `a`. -/
def aps2Groups : ℕ → ℕ → List Aps2Group → List ℤ
  | _, _, [] => []
  | o, a, g :: gs =>
    aps2Header o a g ++ aps2Entries g.flags o a g.recs ++ aps2Groups g.last.rOffset g.last.rAddend gs

/-- The records of the groups, in stream order. -/
def aps2Records (gs : List Aps2Group) : List ElfRela := gs.flatMap Aps2Group.recs

/-- The numbers of the stream after the `APS2` magic: the count, the initial offset `o`, and
the groups. -/
def aps2Numbers (o : ℕ) (gs : List Aps2Group) : List ℤ :=
  ((aps2Records gs).length : ℤ) :: (o : ℤ) :: aps2Groups o 0 gs

/-- The bytes `S` write the numbers `xs` one after another, each in an encoding `WordEnc w`
allows; the encodings may differ from one number to the next. -/
inductive WordsEnc (w : ℕ) : List ℤ → List UInt8 → Prop
  | nil : WordsEnc w [] []
  | cons {x : ℤ} {xs : List ℤ} {e S : List UInt8} :
      WordEnc w e x → WordsEnc w xs S → WordsEnc w (x :: xs) (e ++ S)

/-- The stream of spec §4.3, every number in its minimal SLEB128 encoding. -/
def aps2Stream (A : Arch) (o : ℕ) (gs : List Aps2Group) : List UInt8 :=
  (aps2Numbers o gs).flatMap (encWord A)

/-- The record `next` returns for `r`: its words modulo `2 ^ w`, the addend only for `RELA`. -/
def aps2Out (A : Arch) (isUseRela : Bool) (r : ElfRela) : RelocOut :=
  if isUseRela then
    .rela ⟨⟨r.rOffset % 2 ^ A.wordBits, r.rInfo % 2 ^ A.wordBits⟩, r.rAddend % 2 ^ A.wordBits⟩
  else .rel ⟨r.rOffset % 2 ^ A.wordBits, r.rInfo % 2 ^ A.wordBits⟩

namespace WordsEnc

variable {w : ℕ}

theorem nil_iff {S : List UInt8} : WordsEnc w [] S ↔ S = [] :=
  ⟨fun h => by cases h; rfl, fun h => by subst h; exact .nil⟩

theorem cons_iff {x : ℤ} {xs : List ℤ} {S : List UInt8} :
    WordsEnc w (x :: xs) S ↔ ∃ e S', S = e ++ S' ∧ WordEnc w e x ∧ WordsEnc w xs S' :=
  ⟨fun h => by cases h with | cons he hS => exact ⟨_, _, rfl, he, hS⟩,
    fun ⟨_, _, h, he, hS⟩ => by subst h; exact .cons he hS⟩

/-- The bytes of one number are one encoding of it. -/
theorem single {x : ℤ} {S : List UInt8} (h : WordsEnc w [x] S) : WordEnc w S x := by
  obtain ⟨e, S', rfl, he, hS⟩ := cons_iff.1 h
  rwa [nil_iff.1 hS, List.append_nil]

/-- A number the stream holds when `c` does: one encoding of it when `c` holds. -/
theorem of_pos {c : Prop} [Decidable c] {x : ℤ} {S : List UInt8} (h : WordsEnc w (if c then [x] else []) S)
    (hc : c) : WordEnc w S x := by
  rw [if_pos hc] at h; exact h.single

/-- A number the stream holds when `c` does: no bytes when `c` fails. -/
theorem of_neg {c : Prop} [Decidable c] {x : ℤ} {S : List UInt8} (h : WordsEnc w (if c then [x] else []) S)
    (hc : ¬c) : S = [] := by
  rw [if_neg hc] at h; exact nil_iff.1 h

/-- The bytes of `xs ++ ys` are those of `xs`, then those of `ys`. -/
theorem of_append {xs ys : List ℤ} {S : List UInt8} (h : WordsEnc w (xs ++ ys) S) :
    ∃ S₁ S₂, S = S₁ ++ S₂ ∧ WordsEnc w xs S₁ ∧ WordsEnc w ys S₂ := by
  induction xs generalizing S with
  | nil => exact ⟨[], S, rfl, .nil, h⟩
  | cons x xs ih =>
    obtain ⟨e, S', rfl, he, hS⟩ := cons_iff.1 h
    obtain ⟨S₁, S₂, rfl, h₁, h₂⟩ := ih hS
    exact ⟨e ++ S₁, S₂, (List.append_assoc _ _ _).symm, .cons he h₁, h₂⟩

end WordsEnc

/-- The minimal encodings write every list of numbers. -/
theorem wordsEnc_encWord (A : Arch) (xs : List ℤ) : WordsEnc A.wordBits xs (xs.flatMap (encWord A)) := by
  induction xs with
  | nil => exact .nil
  | cons x xs ih => rw [List.flatMap_cons]; exact .cons (encWord_wordEnc A x) ih

/-! ## Reading one number -/

variable {A : Arch} {m : Mem} {it : PackedRelocIterator}

theorem toNat_natCast_emod (n w : ℕ) : ((n : ℤ) % 2 ^ w).toNat = n % 2 ^ w := by
  rw [show (2 : ℤ) ^ w = ((2 ^ w : ℕ) : ℤ) by push_cast; rfl, ← Int.natCast_mod, Int.toNat_natCast]

/-- Adding the delta `r - o`, read modulo `2 ^ w`, to `o` gives `r` modulo `2 ^ w`. -/
theorem add_delta_mod (w o r : ℕ) : (o + (((r : ℤ) - o) % 2 ^ w).toNat) % 2 ^ w = r % 2 ^ w := by
  have hM : (0 : ℤ) < 2 ^ w := by positivity
  zify
  rw [Int.toNat_of_nonneg (Int.emod_nonneg _ hM.ne'), Int.add_emod_emod, add_sub_cancel]

theorem wordBits_ge_four (A : Arch) : 4 ≤ A.wordBits := by cases A <;> decide

/-- The flag bits survive the decoder's reduction modulo `2 ^ w`. -/
theorem mod_and_flag {w f k : ℕ} (hk : k < 2 ^ w) : (f % 2 ^ w) &&& k = f &&& k := by
  apply Nat.eq_of_testBit_eq; intro i
  simp only [Nat.testBit_and, Nat.testBit_mod_two_pow]
  by_cases hi : i < w
  · simp [hi]
  · simp [hi, Nat.testBit_eq_false_of_lt (lt_of_lt_of_le hk (Nat.pow_le_pow_right (n := 2) (by omega)
      (show w ≤ i by omega)))]

theorem flag_lt (A : Arch) {k : ℕ} (hk : k ≤ 8) : k < 2 ^ A.wordBits :=
  lt_of_le_of_lt hk (lt_of_lt_of_le (by decide) (Nat.pow_le_pow_right (n := 2) (by omega) (wordBits_ge_four A)))

/-- Every suffix `t'` of `t` is what a decoder `⟨E - t'.length, E⟩` has left: `t` is
stored just below `E`. -/
structure StreamAt (m : Mem) (E : ℕ) (t : List UInt8) : Prop where
  left : ∀ t', t' <:+ t → (⟨E - t'.length, E⟩ : Sleb128Decoder).left m = t'

theorem StreamAt.mono {E : ℕ} {t t' : List UInt8} (h : StreamAt m E t) (h' : t' <:+ t) :
    StreamAt m E t' := ⟨fun u hu => h.left u (hu.trans h')⟩

/-- The decoder before `a ++ b` has `a ++ b` left, and `b` is stored below `E` in turn. -/
theorem StreamAt.split {E : ℕ} {a b : List UInt8} (h : StreamAt m E (a ++ b)) :
    (⟨E - (a ++ b).length, E⟩ : Sleb128Decoder).left m = a ++ b ∧ StreamAt m E b :=
  ⟨h.left _ (List.suffix_refl _), h.mono (List.suffix_append a b)⟩

theorem streamAt_of_holds {rel : ℕ} {S : List UInt8} (h : m.Holds rel S) :
    StreamAt m (rel + S.length) S := by
  refine ⟨fun t ⟨pre, hpre⟩ => ?_⟩
  have hl : S.length = pre.length + t.length := by rw [← hpre, List.length_append]
  have hb : m.bytes rel S.length = S := h
  rw [hl, Mem.bytes_add, ← hpre] at hb
  have ht := (List.append_inj hb (Mem.bytes_length m _ _)).2
  simp only [Sleb128Decoder.left]
  rw [show rel + S.length - t.length = rel + pre.length by omega,
    show rel + S.length - (rel + pre.length) = t.length by omega, ht]

/-- One read of the packed iterator, on an iterator whose decoder stands before a word `x`
written by `e`: the field gets `x` modulo `2 ^ w` and the decoder moves past `e`. -/
theorem decodeInto_at {E : ℕ} {x : ℤ} {e t : List UInt8}
    (set : ℕ → PackedRelocIterator → PackedRelocIterator) (he : WordEnc A.wordBits e x)
    (h : (⟨E - (e ++ t).length, E⟩ : Sleb128Decoder).left m = e ++ t)
    (c gs gf gd i gi o ri ra : ℕ) (u : Bool) :
    PackedRelocIterator.decodeInto A.wordBits m set
        ⟨⟨E - (e ++ t).length, E⟩, c, gs, gf, gd, i, gi, o, ri, ra, u⟩ =
      .ok ⟨⟩ (set (x % 2 ^ A.wordBits).toNat ⟨⟨E - t.length, E⟩, c, gs, gf, gd, i, gi, o, ri, ra, u⟩) := by
  simp only [PackedRelocIterator.decodeInto, PackedRelocIterator.decode, estate_bind_apply,
    xhElfSleb128DecoderNext_wordEnc he h, estate_modify_apply]

/-- One read on a decoder standing before a word `x` written by `e`, whatever the other
fields: the field `set` writes gets `x` modulo `2 ^ w` and the decoder moves past `e`. -/
theorem decodeInto_of_stream {E : ℕ} {x : ℤ} {e t : List UInt8}
    (set : ℕ → PackedRelocIterator → PackedRelocIterator) (he : WordEnc A.wordBits e x)
    (hS : StreamAt m E (e ++ t)) (hd : it.decoder = ⟨E - (e ++ t).length, E⟩) :
    PackedRelocIterator.decodeInto A.wordBits m set it =
      .ok ⟨⟩ (set (x % 2 ^ A.wordBits).toNat { it with decoder := ⟨E - t.length, E⟩ }) := by
  simp only [PackedRelocIterator.decodeInto, PackedRelocIterator.decode, estate_bind_apply, hd,
    xhElfSleb128DecoderNext_wordEnc he (hS.left _ (List.suffix_refl _)), estate_modify_apply]

/-- A read under a condition `c` into the field that `get` reads and `set` writes, the stream
holding the number exactly when `c'` does: the field gets the number or keeps its value. -/
theorem decodeIntoIf_of_stream {c c' : Prop} [Decidable c] [Decidable c'] (hc : c ↔ c') {E : ℕ} {x : ℤ}
    {e t : List UInt8} (set : ℕ → PackedRelocIterator → PackedRelocIterator)
    (get : PackedRelocIterator → ℕ) (hset : ∀ it, set (get it) it = it)
    (he : WordsEnc A.wordBits (if c' then [x] else []) e) (hS : StreamAt m E (e ++ t))
    (hd : it.decoder = ⟨E - (e ++ t).length, E⟩) :
    PackedRelocIterator.decodeIntoIf A.wordBits m c set it =
      .ok ⟨⟩ (set (if c' then (x % 2 ^ A.wordBits).toNat else get { it with decoder := ⟨E - t.length, E⟩ })
        { it with decoder := ⟨E - t.length, E⟩ }) := by
  by_cases h : c'
  · rw [PackedRelocIterator.decodeIntoIf, if_pos (hc.2 h), if_pos h, decodeInto_of_stream set (he.of_pos h) hS hd]
  · obtain rfl := he.of_neg h
    rw [List.nil_append] at hd
    rw [PackedRelocIterator.decodeIntoIf, if_neg (mt hc.1 h), if_neg h, hset, ← hd]
    rfl

/-- The run succeeded, and `P` holds of its value and final state. -/
def OkWith {ε σ α : Type} (P : α → σ → Prop) (x : EStateM.Result ε σ α) : Prop :=
  ∃ a s, x = .ok a s ∧ P a s

@[simp] theorem okWith_ok {ε σ α : Type} (P : α → σ → Prop) (a : α) (s : σ) :
    OkWith (ε := ε) P (.ok a s) ↔ P a s :=
  ⟨fun ⟨_, _, h, hp⟩ => by cases h; exact hp, fun h => ⟨a, s, rfl, h⟩⟩

/-! ## The iterator between groups and inside one -/

structure Between (A : Arch) (m : Mem) (E : ℕ) (isUseRela : Bool) (n k o a : ℕ)
    (t : List UInt8) (it : PackedRelocIterator) : Prop where
  stream : StreamAt m E t
  decoder : it.decoder = ⟨E - t.length, E⟩
  rela : it.isUseRela = isUseRela
  count : it.relocationCount = n
  index : it.relocationIndex = k
  used : it.relocationGroupIndex = it.groupSize
  rOffset : it.rOffset = o % 2 ^ A.wordBits
  rAddend : it.rAddend = a % 2 ^ A.wordBits

def groupAddend (g : Aps2Group) (a : ℕ) : ℕ :=
  if g.flags &&& relocationGroupHasAddendFlag = 0 then 0
  else if g.flags &&& relocationGroupedByAddendFlag ≠ 0 then g.first.rAddend else a

structure InGroup (A : Arch) (m : Mem) (E : ℕ) (isUseRela : Bool) (n k o₀ : ℕ) (g : Aps2Group)
    (todo : List ElfRela) (o a : ℕ) (t : List UInt8) (it : PackedRelocIterator) : Prop where
  stream : StreamAt m E t
  decoder : it.decoder = ⟨E - t.length, E⟩
  rela : it.isUseRela = isUseRela
  count : it.relocationCount = n
  index : it.relocationIndex = k
  size : it.groupSize = g.recs.length
  gidx : it.relocationGroupIndex + todo.length = g.recs.length
  flags : it.groupFlags = g.flags % 2 ^ A.wordBits
  delta : g.flags &&& relocationGroupedByOffsetDeltaFlag ≠ 0 →
    it.groupROffsetDelta = (((g.first.rOffset : ℤ) - o₀) % 2 ^ A.wordBits).toNat
  rOffset : it.rOffset = o % 2 ^ A.wordBits
  rInfo : g.flags &&& relocationGroupedByInfoFlag ≠ 0 → it.rInfo = g.first.rInfo % 2 ^ A.wordBits
  rAddend : it.rAddend = groupAddend g a % 2 ^ A.wordBits
  chain : g.flags &&& relocationGroupedByOffsetDeltaFlag ≠ 0 →
    List.Chain (fun x y : ℕ => (y : ℤ) - x = (g.first.rOffset : ℤ) - o₀) o (todo.map (·.rOffset))
  sub : todo <:+ g.recs

theorem Aps2Group.Legal.useRela {isUseRela : Bool} {o : ℕ} {g : Aps2Group} (hg : g.Legal isUseRela o)
    (h : g.flags &&& relocationGroupHasAddendFlag ≠ 0) : isUseRela = true := by
  cases isUseRela
  · exact absurd (hg.rel rfl) h
  · rfl

theorem Aps2Group.Legal.mem_recs_info {isUseRela : Bool} {o : ℕ} {g : Aps2Group} {r : ElfRela}
    (hg : g.Legal isUseRela o) (hr : r ∈ g.recs) (h : g.flags &&& relocationGroupedByInfoFlag ≠ 0) :
    r.rInfo = g.first.rInfo := by
  rcases List.mem_cons.1 hr with rfl | hr
  · rfl
  · exact hg.info h r hr

theorem Aps2Group.Legal.mem_recs_addend {isUseRela : Bool} {o : ℕ} {g : Aps2Group} {r : ElfRela}
    (hg : g.Legal isUseRela o) (hr : r ∈ g.recs) (h : g.flags &&& relocationGroupedByAddendFlag ≠ 0) :
    r.rAddend = g.first.rAddend := by
  rcases List.mem_cons.1 hr with rfl | hr
  · rfl
  · exact hg.addend h r hr

/-- In a legal group, the addend rule gives each record its own addend. -/
theorem Aps2Group.Legal.groupAddend_mem {isUseRela : Bool} {o : ℕ} {g : Aps2Group} {r : ElfRela}
    (hg : g.Legal isUseRela o) (hr : r ∈ g.recs) : groupAddend g r.rAddend = r.rAddend := by
  unfold groupAddend
  split_ifs with h8 h4
  · exact (hg.noAddend h8 r hr).symm
  · exact (hg.mem_recs_addend hr h4).symm
  · rfl

/-! ## The blocks of `read_group_fields` and `next`, one at a time -/

/-- The offset block of `next` on an entry `r` after a record at offset `o`: `r_offset` moves
to `r`'s, by the group's shared delta or by one read from the stream. -/
theorem packedNextOffset_spec {E f o : ℕ} {r : ElfRela} {e t : List UInt8}
    (he : WordsEnc A.wordBits
      (if f &&& relocationGroupedByOffsetDeltaFlag = 0 then [(r.rOffset : ℤ) - o] else []) e)
    (hS : StreamAt m E (e ++ t)) (hd : it.decoder = ⟨E - (e ++ t).length, E⟩)
    (hf : it.groupFlags = f % 2 ^ A.wordBits) (ho : it.rOffset = o % 2 ^ A.wordBits)
    (hδ : f &&& relocationGroupedByOffsetDeltaFlag ≠ 0 →
      it.groupROffsetDelta = (((r.rOffset : ℤ) - o) % 2 ^ A.wordBits).toNat) :
    packedNextOffset A.wordBits m it =
      .ok ⟨⟩ { it with decoder := ⟨E - t.length, E⟩, rOffset := r.rOffset % 2 ^ A.wordBits } := by
  have hc := mod_and_flag (f := f) (flag_lt A (k := relocationGroupedByOffsetDeltaFlag) (by decide))
  by_cases h2 : f &&& relocationGroupedByOffsetDeltaFlag = 0
  · simp only [packedNextOffset, estate_bind_apply, estate_get_apply, hf, hc, h2, ne_eq, not_true_eq_false,
      if_false, decodeInto_of_stream _ (he.of_pos h2) hS hd, ho, Nat.mod_add_mod, add_delta_mod]
  · obtain rfl := he.of_neg h2
    rw [List.nil_append] at hd
    simp only [packedNextOffset, estate_bind_apply, estate_get_apply, hf, hc, h2, ne_eq, not_false_eq_true,
      if_true, estate_modify_apply, ho, hδ h2, Nat.mod_add_mod, add_delta_mod, ← hd]

/-- The info block of `next`: `r_info` is `info`, read from the stream unless the group
shares it. -/
theorem packedNextInfo_spec {E f info : ℕ} {e t : List UInt8}
    (he : WordsEnc A.wordBits (if f &&& relocationGroupedByInfoFlag = 0 then [(info : ℤ)] else []) e)
    (hS : StreamAt m E (e ++ t)) (hd : it.decoder = ⟨E - (e ++ t).length, E⟩)
    (hf : it.groupFlags = f % 2 ^ A.wordBits)
    (hi : f &&& relocationGroupedByInfoFlag ≠ 0 → it.rInfo = info % 2 ^ A.wordBits) :
    packedNextInfo A.wordBits m it =
      .ok ⟨⟩ { it with decoder := ⟨E - t.length, E⟩, rInfo := info % 2 ^ A.wordBits } := by
  have hc : it.groupFlags &&& relocationGroupedByInfoFlag = f &&& relocationGroupedByInfoFlag := by
    rw [hf, mod_and_flag (flag_lt A (by decide))]
  simp only [packedNextInfo, estate_bind_apply, estate_get_apply,
    decodeIntoIf_of_stream (c := it.groupFlags &&& relocationGroupedByInfoFlag = 0) (by rw [hc])
      (fun rInfo it => { it with rInfo }) PackedRelocIterator.rInfo (fun _ => rfl) he hS hd]
  split_ifs with h1
  · rw [toNat_natCast_emod]
  · rw [← hi h1]

/-- The addend block of `next` on an entry with addend `y` after one with addend `a`: the
group's addend, read from the stream when the group has addends it does not share. -/
theorem packedNextAddend_spec {E a y : ℕ} {g : Aps2Group} {e t : List UInt8}
    (he : WordsEnc A.wordBits (if g.flags &&& relocationGroupHasAddendFlag ≠ 0 ∧
      g.flags &&& relocationGroupedByAddendFlag = 0 then [(y : ℤ) - a] else []) e)
    (hS : StreamAt m E (e ++ t)) (hd : it.decoder = ⟨E - (e ++ t).length, E⟩)
    (hf : it.groupFlags = g.flags % 2 ^ A.wordBits)
    (hu : g.flags &&& relocationGroupHasAddendFlag ≠ 0 → it.isUseRela = true)
    (ha : it.rAddend = groupAddend g a % 2 ^ A.wordBits) :
    packedNextAddend A.wordBits m it =
      .ok ⟨⟩ { it with decoder := ⟨E - t.length, E⟩, rAddend := groupAddend g y % 2 ^ A.wordBits } := by
  have h8 : it.groupFlags &&& relocationGroupHasAddendFlag = g.flags &&& relocationGroupHasAddendFlag := by
    rw [hf, mod_and_flag (flag_lt A (by decide))]
  have h4 : it.groupFlags &&& relocationGroupedByAddendFlag = g.flags &&& relocationGroupedByAddendFlag := by
    rw [hf, mod_and_flag (flag_lt A (by decide))]
  simp only [packedNextAddend, estate_bind_apply, estate_get_apply, h8, h4]
  by_cases hc : g.flags &&& relocationGroupHasAddendFlag ≠ 0 ∧ g.flags &&& relocationGroupedByAddendFlag = 0
  · rw [if_pos ⟨hu hc.1, hc⟩, decodeInto_of_stream _ (he.of_pos hc) hS hd]
    simp only [ha, groupAddend, hc.1, hc.2, if_false, ne_eq, not_true_eq_false, Nat.mod_add_mod, add_delta_mod]
  · obtain rfl := he.of_neg hc
    rw [List.nil_append] at hd
    have hy : groupAddend g y = groupAddend g a := by
      by_cases h8 : g.flags &&& relocationGroupHasAddendFlag = 0
      · simp only [groupAddend, if_pos h8]
      · simp only [groupAddend, if_neg h8, if_pos fun h4 => hc ⟨h8, h4⟩]
    rw [if_neg fun h => hc h.2, estate_pure_apply, hy, ← ha, ← hd]

/-- The addend block of `read_group_fields`, after a record with addend `a`: the group's
addend, read from the header when the group shares one. -/
theorem packedGroupAddend_spec {E a : ℕ} {g : Aps2Group} {e t : List UInt8}
    (he : WordsEnc A.wordBits (if g.flags &&& relocationGroupHasAddendFlag ≠ 0 ∧
      g.flags &&& relocationGroupedByAddendFlag ≠ 0 then [(g.first.rAddend : ℤ) - a] else []) e)
    (hS : StreamAt m E (e ++ t)) (hd : it.decoder = ⟨E - (e ++ t).length, E⟩)
    (hf : it.groupFlags = g.flags % 2 ^ A.wordBits)
    (hu : g.flags &&& relocationGroupHasAddendFlag ≠ 0 → it.isUseRela = true)
    (ha : it.rAddend = a % 2 ^ A.wordBits) :
    packedGroupAddend A.wordBits m it =
      .ok ⟨⟩ { it with decoder := ⟨E - t.length, E⟩, rAddend := groupAddend g a % 2 ^ A.wordBits } := by
  have h8 : it.groupFlags &&& relocationGroupHasAddendFlag = g.flags &&& relocationGroupHasAddendFlag := by
    rw [hf, mod_and_flag (flag_lt A (by decide))]
  have h4 : it.groupFlags &&& relocationGroupedByAddendFlag = g.flags &&& relocationGroupedByAddendFlag := by
    rw [hf, mod_and_flag (flag_lt A (by decide))]
  simp only [packedGroupAddend, estate_bind_apply, estate_get_apply, h8, h4]
  by_cases hc : g.flags &&& relocationGroupHasAddendFlag ≠ 0 ∧ g.flags &&& relocationGroupedByAddendFlag ≠ 0
  · rw [if_pos hc]
    simp only [hu hc.1, Bool.not_true, Bool.false_eq_true, if_false, estate_bind_apply, estate_pure_apply,
      decodeInto_of_stream _ (he.of_pos hc) hS hd, ha, groupAddend, hc.1, hc.2, ne_eq, not_false_eq_true, if_true,
      Nat.mod_add_mod, add_delta_mod]
  · obtain rfl := he.of_neg hc
    rw [List.nil_append] at hd
    rw [if_neg hc]
    by_cases h0 : g.flags &&& relocationGroupHasAddendFlag = 0
    · rw [if_pos h0, estate_modify_apply, groupAddend, if_pos h0, Nat.zero_mod, ← hd]
    · rw [if_neg h0, estate_pure_apply, groupAddend, if_neg h0, if_neg fun h4' => hc ⟨h0, h4'⟩, ← ha, ← hd]

theorem readGroupFields_spec {E n k o a : ℕ} {isUseRela : Bool} {g : Aps2Group} {S t : List UInt8}
    (hE : WordsEnc A.wordBits (aps2Header o a g) S) (hB : Between A m E isUseRela n k o a (S ++ t) it)
    (hg : g.Legal isUseRela o) (hsz : g.recs.length < 2 ^ A.wordBits) :
    OkWith (fun _ it' => InGroup A m E isUseRela n k o g g.recs o a t it')
      (xhElfPackedRelocIteratorReadGroupFields A.wordBits m it) := by
  obtain ⟨e₁, S₁, rfl, he₁, hE⟩ := WordsEnc.cons_iff.1 hE
  obtain ⟨e₂, S₂, rfl, he₂, hE⟩ := WordsEnc.cons_iff.1 hE
  obtain ⟨S₃, e₅, rfl, hE, he₅⟩ := WordsEnc.of_append hE
  obtain ⟨e₃, e₄, rfl, he₃, he₄⟩ := WordsEnc.of_append hE
  obtain ⟨hS, hd, hrela, hcount, hindex, -, hoff, hadd⟩ := hB
  simp only [List.append_assoc] at hS hd
  have hS1 := hS.split.2
  have hS2 := hS1.split.2
  have hS3 := hS2.split.2
  have hS4 := hS3.split.2
  simp only [xhElfPackedRelocIteratorReadGroupFields, estate_bind_apply, estate_get_apply]
  rw [decodeInto_of_stream _ he₁ hS hd]
  dsimp only
  rw [decodeInto_of_stream _ he₂ hS1 rfl]
  dsimp only
  have hflag : ∀ k ≤ 8, ((g.flags : ℤ) % 2 ^ A.wordBits).toNat &&& k = g.flags &&& k := fun k hk => by
    rw [toNat_natCast_emod, mod_and_flag (flag_lt A hk)]
  rw [decodeIntoIf_of_stream (by rw [hflag _ (by decide)]) (fun groupROffsetDelta it => { it with groupROffsetDelta })
    PackedRelocIterator.groupROffsetDelta (fun _ => rfl) he₃ hS2 rfl]
  dsimp only
  rw [decodeIntoIf_of_stream (by rw [hflag _ (by decide)]) (fun rInfo it => { it with rInfo })
    PackedRelocIterator.rInfo (fun _ => rfl) he₄ hS3 rfl]
  dsimp only
  rw [packedGroupAddend_spec he₅ hS4 rfl ?_ ?_ ?_]
  rotate_left
  · exact toNat_natCast_emod _ _
  · exact fun h => hrela.trans (hg.useRela h)
  · exact hadd
  simp only [estate_modify_apply, okWith_ok]
  exact { stream := hS4.split.2
          decoder := rfl
          rela := hrela
          count := hcount
          index := hindex
          size := (toNat_natCast_emod _ _).trans (Nat.mod_eq_of_lt hsz)
          gidx := Nat.zero_add _
          flags := toNat_natCast_emod _ _
          delta := fun h => if_pos h
          rOffset := hoff
          rInfo := fun h => (if_pos h).trans (toNat_natCast_emod _ _)
          rAddend := rfl
          chain := fun h => List.Chain.cons rfl (hg.offset h)
          sub := List.suffix_refl _ }

theorem packedNextEntry_spec {E n k o₀ o a : ℕ} {isUseRela : Bool} {g : Aps2Group} {r : ElfRela}
    {rs : List ElfRela} {S t : List UInt8} (hE : WordsEnc A.wordBits (aps2Entry g.flags o a r) S)
    (hI : InGroup A m E isUseRela n k o₀ g (r :: rs) o a (S ++ t) it) (hg : g.Legal isUseRela o₀) :
    OkWith (fun out it' => out = aps2Out A isUseRela r ∧
      InGroup A m E isUseRela n (k + 1) o₀ g rs r.rOffset r.rAddend t it') (packedNextEntry A.wordBits m it) := by
  obtain ⟨S₁, e₃, rfl, hE, he₃⟩ := WordsEnc.of_append hE
  obtain ⟨e₁, e₂, rfl, he₁, he₂⟩ := WordsEnc.of_append hE
  obtain ⟨hS, hd, hrela, hcount, hindex, hsize, hgidx, hflags, hdelta, hoff, hinfo, hadd, hchain, hsub⟩ := hI
  have hr : r ∈ g.recs := hsub.subset (List.mem_cons_self r rs)
  have hR : g.flags &&& relocationGroupedByOffsetDeltaFlag ≠ 0 →
      (g.first.rOffset : ℤ) - o₀ = r.rOffset - o := fun h => ((List.chain_cons.1 (hchain h)).1).symm
  simp only [List.append_assoc] at hS hd
  have hS1 := hS.split.2
  have hS2 := hS1.split.2
  simp only [packedNextEntry, estate_bind_apply]
  rw [packedNextOffset_spec he₁ hS hd hflags hoff fun h => by rw [hdelta h, hR h]]
  dsimp only
  rw [packedNextInfo_spec he₂ hS1 rfl ?_ ?_]
  rotate_left
  · exact hflags
  · exact fun h => by rw [hg.mem_recs_info hr h]; exact hinfo h
  dsimp only
  rw [packedNextAddend_spec he₃ hS2 rfl ?_ ?_ ?_]
  rotate_left
  · exact hflags
  · exact fun h => hrela.trans (hg.useRela h)
  · exact hadd
  simp only [estate_modify_apply, estate_get_apply, estate_pure_apply, okWith_ok]
  refine ⟨by rw [hrela, hg.groupAddend_mem hr]; rfl,
    { stream := hS2.split.2
      decoder := rfl
      rela := hrela
      count := hcount
      index := congrArg (· + 1) hindex
      size := hsize
      gidx := by
        simp only [List.length_cons] at hgidx
        show it.relocationGroupIndex + 1 + rs.length = _
        omega
      flags := hflags
      delta := hdelta
      rOffset := rfl
      rInfo := fun h => by rw [hg.mem_recs_info hr h]
      rAddend := rfl
      chain := fun h => (List.chain_cons.1 (hchain h)).2
      sub := (List.suffix_cons r rs).trans hsub }⟩

/-! ## Runs of `next` -/

theorem okWith_bind {ε σ α β : Type} {x : EStateM ε σ α} {f : α → EStateM ε σ β} {s : σ}
    {P : α → σ → Prop} {Q : β → σ → Prop} (hx : OkWith P (x s))
    (hf : ∀ a s', P a s' → OkWith Q (f a s')) : OkWith Q ((x >>= f) s) := by
  obtain ⟨a, s', h, hp⟩ := hx
  simp only [estate_bind_apply, h]
  exact hf a s' hp

theorem okWith_mono {ε σ α : Type} {x : EStateM.Result ε σ α} {P Q : α → σ → Prop}
    (hx : OkWith P x) (h : ∀ a s, P a s → Q a s) : OkWith Q x := by
  obtain ⟨a, s, hx, hp⟩ := hx
  exact ⟨a, s, hx, h a s hp⟩

theorem Aps2Group.recs_ne_nil (g : Aps2Group) : g.recs ≠ [] := List.cons_ne_nil _ _

/-- `next` at the start of group `g`: it reads the header, then the first entry. -/
theorem packedNextBody_first {E n k o a : ℕ} {isUseRela : Bool} {g : Aps2Group} {S₁ S₂ t : List UInt8}
    (hE₁ : WordsEnc A.wordBits (aps2Header o a g) S₁)
    (hE₂ : WordsEnc A.wordBits (aps2Entry g.flags o a g.first) S₂)
    (hB : Between A m E isUseRela n k o a (S₁ ++ (S₂ ++ t)) it)
    (hg : g.Legal isUseRela o) (hsz : g.recs.length < 2 ^ A.wordBits) :
    OkWith (fun out it' => out = aps2Out A isUseRela g.first ∧
      InGroup A m E isUseRela n (k + 1) o g g.rest g.first.rOffset g.first.rAddend t it')
      (packedNextBody A.wordBits m it) := by
  simp only [packedNextBody, estate_bind_apply, estate_get_apply, hB.used, if_true]
  exact okWith_bind (readGroupFields_spec hE₁ hB hg hsz) fun _ _ h => packedNextEntry_spec hE₂ h hg

/-- `next` inside a group with the records `r :: rs` still to come: it reads one entry. -/
theorem packedNextBody_rest {E n k o₀ o a : ℕ} {isUseRela : Bool} {g : Aps2Group} {r : ElfRela}
    {rs : List ElfRela} {S t : List UInt8} (hE : WordsEnc A.wordBits (aps2Entry g.flags o a r) S)
    (hI : InGroup A m E isUseRela n k o₀ g (r :: rs) o a (S ++ t) it) (hg : g.Legal isUseRela o₀) :
    OkWith (fun out it' => out = aps2Out A isUseRela r ∧
      InGroup A m E isUseRela n (k + 1) o₀ g rs r.rOffset r.rAddend t it') (packedNextBody A.wordBits m it) := by
  have hne : it.relocationGroupIndex ≠ it.groupSize := by
    have := hI.gidx; rw [hI.size]; simp only [List.length_cons] at this; omega
  simp only [packedNextBody, estate_bind_apply, estate_get_apply, hne, if_false, estate_pure_apply]
  exact packedNextEntry_spec hE hI hg

/-- A successful body below the count is a record returned by `next`. -/
theorem next_of_body {w : ℕ} {P : RelocOut → PackedRelocIterator → Prop}
    (hk : it.relocationIndex < it.relocationCount) (h : OkWith P (packedNextBody w m it)) :
    ∃ out it', xhElfPackedRelocIteratorNext w m it = (some out, it') ∧ P out it' := by
  obtain ⟨out, it', h, hp⟩ := h
  exact ⟨out, it', by simp only [xhElfPackedRelocIteratorNext, ge_iff_le, Nat.not_le.2 hk, if_false, h], hp⟩

theorem packedRecordsAux_some {w : ℕ} {fuel : ℕ} {out : RelocOut} {it' : PackedRelocIterator}
    (h : xhElfPackedRelocIteratorNext w m it = (some out, it')) :
    packedRecordsAux w m (fuel + 1) it = out :: packedRecordsAux w m fuel it' := by
  simp only [packedRecordsAux, h]

/-- The rest of a group: `next` returns the records still to come, in order. -/
theorem packedRecordsAux_todo {E n o₀ : ℕ} {isUseRela : Bool} {g : Aps2Group} {t : List UInt8}
    (hg : g.Legal isUseRela o₀) (fuel : ℕ) :
    ∀ (todo : List ElfRela) (k o a : ℕ) (S : List UInt8) (it : PackedRelocIterator),
      WordsEnc A.wordBits (aps2Entries g.flags o a todo) S →
      InGroup A m E isUseRela n k o₀ g todo o a (S ++ t) it → k + todo.length ≤ n →
      ∃ it', packedRecordsAux A.wordBits m (fuel + todo.length) it =
          todo.map (aps2Out A isUseRela) ++ packedRecordsAux A.wordBits m fuel it' ∧
        InGroup A m E isUseRela n (k + todo.length) o₀ g []
          (todo.foldl (fun _ r => r.rOffset) o) (todo.foldl (fun _ r => r.rAddend) a) t it'
  | [], k, o, a, S, it, hE, hI, _ => ⟨it, rfl, by rw [WordsEnc.nil_iff.1 hE] at hI; simpa using hI⟩
  | r :: rs, k, o, a, S, it, hE, hI, hk => by
    obtain ⟨S₁, S₂, rfl, hE₁, hE₂⟩ := WordsEnc.of_append hE
    rw [List.append_assoc] at hI
    have hlt : it.relocationIndex < it.relocationCount := by
      rw [hI.index, hI.count]; simp only [List.length_cons] at hk; omega
    obtain ⟨out, it1, hnext, rfl, hI1⟩ := next_of_body hlt (packedNextBody_rest hE₁ hI hg)
    obtain ⟨it', hrun, hI'⟩ := packedRecordsAux_todo hg fuel rs (k + 1) r.rOffset r.rAddend S₂ it1 hE₂ hI1
      (by simp only [List.length_cons] at hk; omega)
    refine ⟨it', ?_, ?_⟩
    · rw [List.length_cons, ← Nat.add_assoc, packedRecordsAux_some hnext, hrun]; rfl
    · simpa only [List.length_cons, List.foldl_cons, Nat.add_assoc, Nat.add_comm 1] using hI'


theorem foldl_last_apply {β : Type} (f : ElfRela → β) :
    ∀ (l : List ElfRela) (x : ElfRela), f (l.foldl (fun _ r => r) x) = l.foldl (fun _ r => f r) (f x)
  | [], _ => rfl
  | y :: l, _ => foldl_last_apply f l y

theorem foldl_last_mem : ∀ (l : List ElfRela) (x : ElfRela), l.foldl (fun _ r => r) x ∈ x :: l
  | [], _ => List.mem_cons_self _ _
  | y :: l, x => List.mem_cons_of_mem x (foldl_last_mem l y)

theorem Aps2Group.last_mem (g : Aps2Group) : g.last ∈ g.recs := foldl_last_mem g.rest g.first

/-- A used-up group leaves the iterator between groups, after the group's last record. -/
theorem InGroup.between {E n k o₀ : ℕ} {isUseRela : Bool} {g : Aps2Group} {t : List UInt8}
    (hI : InGroup A m E isUseRela n k o₀ g [] g.last.rOffset g.last.rAddend t it)
    (hg : g.Legal isUseRela o₀) :
    Between A m E isUseRela n k g.last.rOffset g.last.rAddend t it where
  stream := hI.stream
  decoder := hI.decoder
  rela := hI.rela
  count := hI.count
  index := hI.index
  used := by rw [hI.size, ← hI.gidx]; rfl
  rOffset := hI.rOffset
  rAddend := by
    rw [hI.rAddend, groupAddend]
    split_ifs with h8 h4
    · rw [hg.noAddend h8 _ g.last_mem]
    · rw [hg.mem_recs_addend g.last_mem h4]
    · rfl

/-- The records of a group, when `next` stands at its start. -/
theorem packedRecordsAux_group {E n k o a : ℕ} {isUseRela : Bool} {g : Aps2Group} {S t : List UInt8}
    (hE : WordsEnc A.wordBits (aps2Header o a g ++ aps2Entries g.flags o a g.recs) S)
    (hB : Between A m E isUseRela n k o a (S ++ t) it)
    (hg : g.Legal isUseRela o) (hk : k + g.recs.length ≤ n) (hn : n < 2 ^ A.wordBits) (fuel : ℕ) :
    ∃ it', packedRecordsAux A.wordBits m (fuel + g.recs.length) it =
        g.recs.map (aps2Out A isUseRela) ++ packedRecordsAux A.wordBits m fuel it' ∧
      Between A m E isUseRela n (k + g.recs.length) g.last.rOffset g.last.rAddend t it' := by
  obtain ⟨S₁, S₂, rfl, hE₁, hE₂⟩ := WordsEnc.of_append hE
  obtain ⟨S₂₁, S₂₂, rfl, hE₂₁, hE₂₂⟩ := WordsEnc.of_append hE₂
  rw [List.append_assoc, List.append_assoc] at hB
  have hlt : it.relocationIndex < it.relocationCount := by
    rw [hB.index, hB.count]; simp only [Aps2Group.recs, List.length_cons] at hk; omega
  obtain ⟨out, it1, hnext, rfl, hI1⟩ :=
    next_of_body hlt (packedNextBody_first hE₁ hE₂₁ hB hg (by omega))
  obtain ⟨it', hrun, hI'⟩ := packedRecordsAux_todo hg fuel g.rest (k + 1) _ _ S₂₂ it1 hE₂₂ hI1
    (by simp only [Aps2Group.recs, List.length_cons] at hk; omega)
  have hlast : g.last.rOffset = g.rest.foldl (fun _ r => r.rOffset) g.first.rOffset :=
    foldl_last_apply (fun r : ElfRela => r.rOffset) g.rest g.first
  have hlast' : g.last.rAddend = g.rest.foldl (fun _ r => r.rAddend) g.first.rAddend :=
    foldl_last_apply (fun r : ElfRela => r.rAddend) g.rest g.first
  rw [← hlast, ← hlast'] at hI'
  refine ⟨it', ?_, ?_⟩
  · rw [Aps2Group.recs, List.length_cons, ← Nat.add_assoc, packedRecordsAux_some hnext, hrun]; rfl
  · have := hI'.between hg
    simpa only [Aps2Group.recs, List.length_cons, Nat.add_assoc, Nat.add_comm 1] using this


theorem aps2Records_cons (g : Aps2Group) (gs : List Aps2Group) :
    aps2Records (g :: gs) = g.recs ++ aps2Records gs := List.flatMap_cons _ _ _

/-- The records of all the groups, when `next` stands before the first of them. -/
theorem packedRecordsAux_groups {E n : ℕ} {isUseRela : Bool} {t : List UInt8}
    (hn : n < 2 ^ A.wordBits) (fuel : ℕ) :
    ∀ (gs : List Aps2Group) (k o a : ℕ) (S : List UInt8) (it : PackedRelocIterator),
      WordsEnc A.wordBits (aps2Groups o a gs) S → Between A m E isUseRela n k o a (S ++ t) it →
      Aps2Legal isUseRela o gs → k + (aps2Records gs).length ≤ n →
      ∃ o' a' it', packedRecordsAux A.wordBits m (fuel + (aps2Records gs).length) it =
          (aps2Records gs).map (aps2Out A isUseRela) ++ packedRecordsAux A.wordBits m fuel it' ∧
        Between A m E isUseRela n (k + (aps2Records gs).length) o' a' t it'
  | [], k, o, a, S, it, hE, hB, _, _ =>
    ⟨o, a, it, rfl, by rw [WordsEnc.nil_iff.1 hE] at hB; simpa [aps2Records] using hB⟩
  | g :: gs, k, o, a, S, it, hE, hB, ⟨hg, hgs⟩, hk => by
    rw [aps2Records_cons, List.length_append] at hk ⊢
    obtain ⟨S₁, S₂, rfl, hE₁, hE₂⟩ := WordsEnc.of_append hE
    rw [List.append_assoc] at hB
    obtain ⟨it1, hrun1, hB1⟩ :=
      packedRecordsAux_group hE₁ hB hg (by omega) hn (fuel + (aps2Records gs).length)
    obtain ⟨o', a', it', hrun, hB'⟩ := packedRecordsAux_groups hn fuel gs _ _ _ S₂ it1 hE₂ hB1 hgs (by omega)
    refine ⟨o', a', it', ?_, by simpa only [Nat.add_assoc] using hB'⟩
    rw [show fuel + (g.recs.length + (aps2Records gs).length) =
      fuel + (aps2Records gs).length + g.recs.length by omega, hrun1, hrun, List.map_append,
      List.append_assoc]

/-- Once `relocation_count` records were returned, `next` returns `NULL`. -/
theorem packedRecordsAux_done {E n o a : ℕ} {isUseRela : Bool} {t : List UInt8}
    (hB : Between A m E isUseRela n n o a t it) (w fuel : ℕ) : packedRecordsAux w m fuel it = [] := by
  cases fuel
  · rfl
  · simp only [packedRecordsAux, xhElfPackedRelocIteratorNext, hB.index, hB.count, ge_iff_le,
      le_refl, if_true]

/-- `xh_elf_packed_reloc_iterator_init` reads the count `n` and the initial offset `o`, written
by `e₁` and `e₂`, and leaves its decoder before the rest `S` of the stream. -/
theorem packedInit_spec {rel n o : ℕ} (isUseRela : Bool) {e₁ e₂ S : List UInt8}
    (he₁ : WordEnc A.wordBits e₁ n) (he₂ : WordEnc A.wordBits e₂ o) (hS : m.Holds rel (e₁ ++ (e₂ ++ S)))
    (hsz : (e₁ ++ (e₂ ++ S)).length < 2 ^ 32) (hn : n < 2 ^ A.wordBits) :
    OkWith (fun _ it => Between A m (rel + (e₁ ++ (e₂ ++ S)).length) isUseRela n 0 o 0 S it)
      (xhElfPackedRelocIteratorInit A.wordBits m rel (e₁ ++ (e₂ ++ S)).length isUseRela) := by
  have hSt := streamAt_of_holds hS
  have hE : xhElfSleb128DecoderInit rel (e₁ ++ (e₂ ++ S)).length =
      ⟨rel + (e₁ ++ (e₂ ++ S)).length - (e₁ ++ (e₂ ++ S)).length, rel + (e₁ ++ (e₂ ++ S)).length⟩ := by
    simp only [xhElfSleb128DecoderInit, Nat.mod_eq_of_lt hsz, Nat.add_sub_cancel]
  rw [xhElfPackedRelocIteratorInit, hE]
  generalize rel + (e₁ ++ (e₂ ++ S)).length = E at hSt ⊢
  obtain ⟨l1, hSt⟩ := hSt.split
  obtain ⟨l2, hSt⟩ := hSt.split
  simp only [packedInitReads, estate_bind_apply, decodeInto_at _ he₁ l1, decodeInto_at _ he₂ l2,
    estate_modify_apply, okWith_ok]
  exact
    { stream := hSt
      decoder := rfl
      rela := rfl
      count := by rw [toNat_natCast_emod, Nat.mod_eq_of_lt hn]
      index := rfl
      used := rfl
      rOffset := toNat_natCast_emod o _
      rAddend := (Nat.zero_mod _).symm }

/-- **APS2 streams decode to the records they encode.** For legal groups whose records
number fewer than `2 ^ w`, and any bytes `S` stored at `rel` that write the stream's numbers,
each in an SLEB128 encoding that fits the word: `xh_elf_packed_reloc_iterator_init`
succeeds, and successive calls of `next` return the records, each word modulo `2 ^ w` and
the addend only for `RELA`, then `NULL`. -/
theorem packed_decode_encode (A : Arch) (m : Mem) (rel o : ℕ) (isUseRela : Bool)
    (gs : List Aps2Group) (S : List UInt8) (hlegal : Aps2Legal isUseRela o gs)
    (hn : (aps2Records gs).length < 2 ^ A.wordBits) (hE : WordsEnc A.wordBits (aps2Numbers o gs) S)
    (hS : m.Holds rel S) (hsz : S.length < 2 ^ 32) :
    ∃ it, xhElfPackedRelocIteratorInit A.wordBits m rel S.length isUseRela = .ok ⟨⟩ it ∧
      packedRecords A.wordBits m it = (aps2Records gs).map (aps2Out A isUseRela) := by
  obtain ⟨e₁, S₁, rfl, he₁, hE⟩ := WordsEnc.cons_iff.1 hE
  obtain ⟨e₂, S₂, rfl, he₂, hE⟩ := WordsEnc.cons_iff.1 hE
  obtain ⟨_, it, hinit, hB⟩ := packedInit_spec isUseRela he₁ he₂ hS hsz hn
  refine ⟨it, hinit, ?_⟩
  obtain ⟨o', a', it', hrun, hB'⟩ := packedRecordsAux_groups (t := []) hn 1 gs 0 o 0 S₂ it hE
    (by rwa [List.append_nil]) hlegal (by omega)
  rw [packedRecords, hB.count, hB.index, Nat.sub_zero, Nat.add_comm, hrun,
    packedRecordsAux_done (by simpa using hB'), List.append_nil]

/-- Two `RELA` groups after the initial offset `0x1000`: one sharing `r_info` and the
offset delta 8 with addends of its own, one with nothing shared and no addends. -/
def aps2SampleGroups : List Aps2Group :=
  [⟨11, ⟨⟨0x1008, 0x403⟩, 0x10⟩, [⟨⟨0x1010, 0x403⟩, 0x20⟩]⟩,
   ⟨0, ⟨⟨0x2000, 0x100000402⟩, 0⟩, [⟨⟨0x1ff8, 0x200000401⟩, 0⟩]⟩]


theorem packed_decode_encode_sample :
    ∃ it, xhElfPackedRelocIteratorInit Arch.arm64.wordBits
        (Mem.ofSegs [(0x4000, aps2Stream .arm64 0x1000 aps2SampleGroups)]) 0x4000
        (aps2Stream .arm64 0x1000 aps2SampleGroups).length true = .ok ⟨⟩ it ∧
      packedRecords Arch.arm64.wordBits (Mem.ofSegs [(0x4000, aps2Stream .arm64 0x1000 aps2SampleGroups)]) it =
        (aps2Records aps2SampleGroups).map (aps2Out .arm64 true) :=
  packed_decode_encode .arm64 _ 0x4000 0x1000 true aps2SampleGroups _
    ⟨⟨by decide, fun _ => .cons (by decide) .nil, by decide, by decide, by decide⟩,
      ⟨by decide, fun h => (h (by decide)).elim, by decide, by decide, by decide⟩, trivial⟩
    (by decide) (wordsEnc_encWord _ _) (Mem.holds_ofSegs_cons _ _ _) (by decide)

end XHook
