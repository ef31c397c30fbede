import XHook.Hook

/-!
# What a hook run reads

For each reader of `xh_elf_hook`, the bytes it reads as a list of addresses, and its frame
lemma: a memory that holds the same bytes there gives the same result. The lists follow the
readers' own control flow, so that on a concrete image they are computed.

* `xhElfFindSymidxByName_congr`: the lookup reads only `lookupReads`: bucket, chain and
  bloom words, `st_name` words and the compared name bytes.
* `xhElfGetMemAccess_congr`: `xh_elf_get_mem_access` reads only `e_phnum` and the program
  headers.
* `plainRecord_congr`: a plain record is read from its two words.
* `packedNext_congr`: the packed iterator reads only the bytes of its stream, and keeps its
  decoder inside them.
-/

namespace XHook

/-- `m'` holds the bytes of `m` at the addresses of `l`. -/
def Mem.AgreeOn (l : List ℕ) (m m' : Mem) : Prop := ∀ a ∈ l, m' a = m a

namespace Mem.AgreeOn

variable {l₁ l₂ : List ℕ} {m m' : Mem}

theorem append_iff : AgreeOn (l₁ ++ l₂) m m' ↔ AgreeOn l₁ m m' ∧ AgreeOn l₂ m m' :=
  List.forall_mem_append

/-- A load inside an agreeing window. -/
theorem read_of_le {p n q k : ℕ} (h : AgreeOn (List.range' p n) m m') (hq : p ≤ q)
    (hk : q + k ≤ p + n) : m'.read q k = m.read q k :=
  read_congr fun i _ => h _ (List.mem_range'_1.2 ⟨by omega, by omega⟩)

theorem read {p n : ℕ} (h : AgreeOn (List.range' p n) m m') : m'.read p n = m.read p n :=
  h.read_of_le le_rfl le_rfl

/-- `strcmp` against `s` looks at `s.length + 1` bytes at most. -/
theorem strEq {s : List UInt8} {p : ℕ} (h : AgreeOn (List.range' p (s.length + 1)) m m') :
    m'.strEq s p = m.strEq s p := by
  induction s generalizing p with
  | nil => simp only [Mem.strEq, h p (List.mem_range'_1.2 ⟨le_rfl, by omega⟩)]
  | cons c s ih =>
    rw [List.length_cons, List.range'_succ, AgreeOn, List.forall_mem_cons] at h
    simp only [Mem.strEq, h.1, ih h.2]

end Mem.AgreeOn

open Mem (AgreeOn)

theorem find?_congr_of_mem {α : Type} {l : List α} {p q : α → Bool} (h : ∀ x ∈ l, p x = q x) :
    l.find? p = l.find? q := by
  induction l with
  | nil => rfl
  | cons a l ih =>
    rw [List.forall_mem_cons] at h
    simp only [List.find?, h.1, ih h.2]

theorem map_find?_congr {α β : Type} {l : List α} {p q : α → Bool} {f g : α → β}
    (hp : ∀ x ∈ l, p x = q x) (hf : ∀ x ∈ l, f x = g x) : (l.find? p).map f = (l.find? q).map g := by
  rw [find?_congr_of_mem hp]
  cases h : l.find? q with
  | none => rfl
  | some x => exact congrArg some (hf x (List.mem_of_find?_eq_some h))

/-! ## The lookup -/

section LookupReads

variable (A : Arch) (m : Mem) (v : XhElf)

/-- The bytes `nameIs symbol i` reads: the `st_name` word of symbol `i`, then as many bytes
of the string it points at as `symbol` has, and one more. -/
def XhElf.nameReads (symbol : List UInt8) (i : ℕ) : List ℕ :=
  List.range' (v.symtab + A.symSize * i) 4 ++
    List.range' (v.strtab + v.stName A m i) (symbol.length + 1)

/-- The bytes the loop of `xh_elf_hash_lookup` reads from index `i`. -/
def hashLookupLoopReads (symbol : List UInt8) : ℕ → ℕ → List ℕ
  | 0, _ => []
  | fuel + 1, i =>
    if i = 0 then []
    else v.nameReads A m symbol i ++
      if v.nameIs A m symbol i then []
      else List.range' (v.chain + 4 * i) 4 ++ hashLookupLoopReads symbol fuel (v.chainAt m i)

/-- The bytes `xh_elf_hash_lookup` reads. -/
def hashLookupReads (symbol : List UInt8) : List ℕ :=
  let k := xhElfHash symbol % v.bucketCnt
  List.range' (v.bucket + 4 * k) 4 ++ hashLookupLoopReads A m v symbol loopFuel (v.bucketAt m k)

/-- The bytes the loop of `xh_elf_gnu_hash_lookup_def` reads from index `i`. -/
def gnuHashLookupDefLoopReads (hash : ℕ) (symbol : List UInt8) : ℕ → ℕ → List ℕ
  | 0, _ => []
  | fuel + 1, i =>
    let k := (i + 2 ^ 32 - v.symoffset) % 2 ^ 32
    let symhash := v.chainAt m k
    List.range' (v.chain + 4 * k) 4 ++ v.nameReads A m symbol i ++
      if (hash ||| 1 = symhash ||| 1 ∧ v.nameIs A m symbol i = true) ∨ symhash &&& 1 ≠ 0 then []
      else gnuHashLookupDefLoopReads hash symbol fuel ((i + 1) % 2 ^ 32)

/-- The bytes `xh_elf_gnu_hash_lookup_def` reads. -/
def gnuHashLookupDefReads (symbol : List UInt8) : List ℕ :=
  let hash := xhElfGnuHash symbol
  let k := hash / A.wordBits % v.bloomSz
  let mask := 1 <<< (hash % A.wordBits) ||| 1 <<< ((hash >>> v.bloomShift) % A.wordBits)
  List.range' (v.bloom + A.wordSize * k) A.wordSize ++
    if v.bloomAt A m k &&& mask ≠ mask then []
    else
      let b := hash % v.bucketCnt
      List.range' (v.bucket + 4 * b) 4 ++
        if v.bucketAt m b < v.symoffset then []
        else gnuHashLookupDefLoopReads A m v hash symbol loopFuel (v.bucketAt m b)

/-- The bytes `xh_elf_gnu_hash_lookup_undef` reads, when it finds nothing. -/
def gnuHashLookupUndefReads (symbol : List UInt8) : List ℕ :=
  (List.range v.symoffset).flatMap (v.nameReads A m symbol)

/-- The bytes `xh_elf_find_symidx_by_name` reads: the symbol, string and hash tables of
the lookup. -/
def lookupReads (symbol : List UInt8) : List ℕ :=
  if v.isUseGnuHash then gnuHashLookupDefReads A m v symbol ++ gnuHashLookupUndefReads A m v symbol
  else hashLookupReads A m v symbol

end LookupReads

section LookupCongr

variable {A : Arch} {m m' : Mem} {v : XhElf} {symbol : List UInt8}

theorem XhElf.nameIs_congr {i : ℕ} (h : AgreeOn (v.nameReads A m symbol i) m m') :
    v.nameIs A m' symbol i = v.nameIs A m symbol i := by
  rw [XhElf.nameReads, AgreeOn.append_iff] at h
  have hst : v.stName A m' i = v.stName A m i := h.1.read
  rw [XhElf.nameIs, XhElf.nameIs, hst]
  exact h.2.strEq

theorem hashLookupLoop_congr {fuel i : ℕ} (h : AgreeOn (hashLookupLoopReads A m v symbol fuel i) m m') :
    xhElfHashLookupLoop A m' v symbol fuel i = xhElfHashLookupLoop A m v symbol fuel i := by
  induction fuel generalizing i with
  | zero => rfl
  | succ fuel ih =>
    by_cases h0 : i = 0
    · simp only [xhElfHashLookupLoop, h0, if_true]
    rw [hashLookupLoopReads, if_neg h0, AgreeOn.append_iff] at h
    have hn := XhElf.nameIs_congr h.1
    by_cases hm : v.nameIs A m symbol i = true
    · simp only [xhElfHashLookupLoop, h0, hn, hm, if_false, if_true]
    rw [if_neg hm, AgreeOn.append_iff] at h
    have hc : v.chainAt m' i = v.chainAt m i := h.2.1.read
    simp only [xhElfHashLookupLoop, h0, hn, hm, hc, ih h.2.2, if_false]

theorem gnuHashLookupDefLoop_congr {hash fuel i : ℕ}
    (h : AgreeOn (gnuHashLookupDefLoopReads A m v hash symbol fuel i) m m') :
    xhElfGnuHashLookupDefLoop A m' v hash symbol fuel i =
      xhElfGnuHashLookupDefLoop A m v hash symbol fuel i := by
  induction fuel generalizing i with
  | zero => rfl
  | succ fuel ih =>
    simp only [gnuHashLookupDefLoopReads, AgreeOn.append_iff] at h
    obtain ⟨⟨hc, hn⟩, hr⟩ := h
    have hc : v.chainAt m' ((i + 2 ^ 32 - v.symoffset) % 2 ^ 32) =
        v.chainAt m ((i + 2 ^ 32 - v.symoffset) % 2 ^ 32) := hc.read
    simp only [xhElfGnuHashLookupDefLoop, hc, XhElf.nameIs_congr hn]
    by_cases c1 : hash ||| 1 = v.chainAt m ((i + 2 ^ 32 - v.symoffset) % 2 ^ 32) ||| 1 ∧
        v.nameIs A m symbol i = true
    · rw [if_pos c1, if_pos c1]
    by_cases c2 : v.chainAt m ((i + 2 ^ 32 - v.symoffset) % 2 ^ 32) &&& 1 ≠ 0
    · rw [if_neg c1, if_pos c2, if_neg c1, if_pos c2]
    rw [if_neg (not_or.2 ⟨c1, c2⟩)] at hr
    rw [if_neg c1, if_neg c2, if_neg c1, if_neg c2, ih hr]

theorem gnuHashLookupDef_congr (h : AgreeOn (gnuHashLookupDefReads A m v symbol) m m') :
    xhElfGnuHashLookupDef A m' v symbol = xhElfGnuHashLookupDef A m v symbol := by
  simp only [gnuHashLookupDefReads, AgreeOn.append_iff] at h
  obtain ⟨hw, hr⟩ := h
  have hw : v.bloomAt A m' (xhElfGnuHash symbol / A.wordBits % v.bloomSz) =
      v.bloomAt A m (xhElfGnuHash symbol / A.wordBits % v.bloomSz) := hw.read
  simp only [xhElfGnuHashLookupDef, hw]
  by_cases h1 : v.bloomAt A m (xhElfGnuHash symbol / A.wordBits % v.bloomSz) &&&
      (1 <<< (xhElfGnuHash symbol % A.wordBits) ||| 1 <<< ((xhElfGnuHash symbol >>> v.bloomShift) % A.wordBits)) ≠
      1 <<< (xhElfGnuHash symbol % A.wordBits) ||| 1 <<< ((xhElfGnuHash symbol >>> v.bloomShift) % A.wordBits)
  · rw [if_pos h1, if_pos h1]
  rw [if_neg h1, AgreeOn.append_iff] at hr
  have hb : v.bucketAt m' (xhElfGnuHash symbol % v.bucketCnt) =
      v.bucketAt m (xhElfGnuHash symbol % v.bucketCnt) := hr.1.read
  rw [if_neg h1, if_neg h1, hb]
  by_cases h2 : v.bucketAt m (xhElfGnuHash symbol % v.bucketCnt) < v.symoffset
  · rw [if_pos h2, if_pos h2]
  rw [if_neg h2] at hr
  rw [if_neg h2, if_neg h2, gnuHashLookupDefLoop_congr hr.2]

theorem gnuHashLookupUndef_congr (h : AgreeOn (gnuHashLookupUndefReads A m v symbol) m m') :
    xhElfGnuHashLookupUndef A m' v symbol = xhElfGnuHashLookupUndef A m v symbol := by
  rw [xhElfGnuHashLookupUndef, xhElfGnuHashLookupUndef, find?_congr_of_mem fun i hi =>
    XhElf.nameIs_congr fun a ha => h a (List.mem_flatMap.2 ⟨i, hi, ha⟩)]

/-- **The lookup reads only `lookupReads`.** -/
theorem xhElfFindSymidxByName_congr (h : AgreeOn (lookupReads A m v symbol) m m') :
    xhElfFindSymidxByName A m' v symbol = xhElfFindSymidxByName A m v symbol := by
  unfold lookupReads at h
  unfold xhElfFindSymidxByName
  split
  · rename_i hg
    rw [if_pos hg, AgreeOn.append_iff] at h
    simp only [xhElfGnuHashLookup, gnuHashLookupDef_congr h.1, gnuHashLookupUndef_congr h.2]
  · rename_i hg
    rw [if_neg hg] at h
    obtain ⟨hb, hl⟩ := AgreeOn.append_iff.1 h
    have hb : v.bucketAt m' (xhElfHash symbol % v.bucketCnt) = v.bucketAt m (xhElfHash symbol % v.bucketCnt) :=
      hb.read
    simp only [xhElfHashLookup, hb, hashLookupLoop_congr hl]

end LookupCongr

/-! ## Program headers and plain records -/

theorem Arch.phdr_fields_le (A : Arch) : 4 ≤ A.phdrSize ∧ A.pVaddrAt + A.wordSize ≤ A.phdrSize ∧
    A.pMemszAt + A.wordSize ≤ A.phdrSize ∧ A.pFlagsAt + 4 ≤ A.phdrSize := by
  cases A <;> decide

/-- The bytes `xh_elf_get_mem_access` reads: `e_phnum` and the `e_phnum` program headers. -/
def memAccessReads (A : Arch) (m : Mem) (v : XhElf) : List ℕ :=
  List.range' (v.ehdr + A.ePhnumAt) 2 ++ List.range' v.phdr (A.phdrSize * m.read (v.ehdr + A.ePhnumAt) 2)

section HeaderCongr

variable {A : Arch} {m m' : Mem} {v : XhElf}

/-- **`xh_elf_get_mem_access` reads only the program headers.** -/
theorem xhElfGetMemAccess_congr (h : AgreeOn (memAccessReads A m v) m m') (addr : ℕ) :
    xhElfGetMemAccess A m' v addr = xhElfGetMemAccess A m v addr := by
  rw [memAccessReads, AgreeOn.append_iff] at h
  obtain ⟨hn, hp⟩ := h
  have hk : ∀ k ∈ List.range (m.read (v.ehdr + A.ePhnumAt) 2), ∀ q n,
      v.phdr + A.phdrSize * k ≤ q → q + n ≤ v.phdr + A.phdrSize * k + A.phdrSize →
      m'.read q n = m.read q n := by
    intro k hk q n h1 h2
    have := Nat.mul_le_mul_left A.phdrSize (Nat.succ_le_of_lt (List.mem_range.1 hk))
    rw [Nat.mul_succ] at this
    exact hp.read_of_le (by omega) (by omega)
  obtain ⟨h4, hva, hms, hfl⟩ := A.phdr_fields_le
  unfold xhElfGetMemAccess
  rw [hn.read]
  exact map_find?_congr
    (fun k hk' => by
      simp only [hk k hk' (v.phdr + A.phdrSize * k) 4 le_rfl (by omega),
        hk k hk' (v.phdr + A.phdrSize * k + A.pVaddrAt) A.wordSize (by omega) (by omega),
        hk k hk' (v.phdr + A.phdrSize * k + A.pMemszAt) A.wordSize (by omega) (by omega)])
    (fun k hk' => hk k hk' (v.phdr + A.phdrSize * k + A.pFlagsAt) 4 (by omega) (by omega))

end HeaderCongr

theorem plainRecord_congr {A : Arch} {m m' : Mem} {p : ℕ}
    (h : AgreeOn (List.range' p (2 * A.wordSize)) m m') : plainRecord A m' p = plainRecord A m p := by
  have h1 : m'.read p A.wordSize = m.read p A.wordSize := h.read_of_le le_rfl (by omega)
  have h2 : m'.read (p + A.wordSize) A.wordSize = m.read (p + A.wordSize) A.wordSize :=
    h.read_of_le (Nat.le_add_right p _) (by omega)
  simp only [plainRecord, h1, h2]

/-! ## The packed stream -/

theorem sleb128Loop_rest_length {w : ℕ} :
    ∀ {l : List UInt8} {value shift x : ℕ} {rest : List UInt8},
      sleb128Loop w l value shift = .ok (x, rest) → rest.length < l.length
  | [], _, _, _, _, h => nomatch h
  | b :: t, value, shift, x, rest, h => by
    simp only [sleb128Loop] at h
    split_ifs at h
    · exact Nat.lt_succ_of_lt (sleb128Loop_rest_length h)
    · cases h; exact Nat.lt_succ_self _
    · cases h; exact Nat.lt_succ_self _

/-- The decoder's range lies inside `[lo, hi)`. -/
def Sleb128Decoder.Within (lo hi : ℕ) (d : Sleb128Decoder) : Prop := lo ≤ d.cur ∧ d.end ≤ hi

section Decoder

variable {w lo n : ℕ} {m m' : Mem} {d : Sleb128Decoder}

theorem decoderNext_congr (h : AgreeOn (List.range' lo n) m m') (hd : d.Within lo (lo + n)) :
    xhElfSleb128DecoderNext w m' d = xhElfSleb128DecoderNext w m d := by
  have hl : d.left m' = d.left m :=
    Mem.bytes_congr fun i hi => h _ (List.mem_range'_1.2 ⟨by unfold Sleb128Decoder.Within at hd; omega,
      by unfold Sleb128Decoder.Within at hd; omega⟩)
  simp only [xhElfSleb128DecoderNext, hl]

/-- A read moves the cursor forward and keeps the end. -/
theorem decoderNext_within {hi : ℕ} (hd : d.Within lo hi) :
    (xhElfSleb128DecoderNext w m d).2.Within lo hi := by
  unfold xhElfSleb128DecoderNext
  split
  · rename_i heq
    have hr := sleb128Loop_rest_length heq
    rw [Sleb128Decoder.left, Mem.bytes_length] at hr
    exact ⟨by dsimp only; unfold Sleb128Decoder.Within at hd; omega, hd.2⟩
  · exact ⟨le_trans hd.1 (le_max_left _ _), hd.2⟩

end Decoder

/-- The state a run leaves, on success or failure. -/
def resultState {ε σ α : Type} : EStateM.Result ε σ α → σ
  | .ok _ s => s
  | .error _ s => s

/-- `p` reads the memory only inside the window `[lo, lo + n)` when its decoder's range
lies there, and leaves a decoder whose range lies there too. -/
def StreamLocal {α : Type} (lo n : ℕ) (p : Mem → EStateM XhErrno PackedRelocIterator α) : Prop :=
  ∀ m m', AgreeOn (List.range' lo n) m m' → ∀ it : PackedRelocIterator, it.decoder.Within lo (lo + n) →
    p m' it = p m it ∧ (resultState (p m it)).decoder.Within lo (lo + n)

namespace StreamLocal

variable {lo n w : ℕ} {α β : Type}

theorem bind {x : Mem → EStateM XhErrno PackedRelocIterator α}
    {f : α → Mem → EStateM XhErrno PackedRelocIterator β} (hx : StreamLocal lo n x)
    (hf : ∀ a, StreamLocal lo n (f a)) : StreamLocal lo n fun m => x m >>= fun a => f a m := by
  intro m m' h it hit
  obtain ⟨he, hs⟩ := hx m m' h it hit
  dsimp only
  rw [estate_bind_apply, estate_bind_apply, he]
  cases hr : x m it with
  | ok a it' => rw [hr] at hs; exact hf a m m' h it' hs
  | error e it' => rw [hr] at hs; exact ⟨rfl, hs⟩

theorem get : StreamLocal lo n fun _ => (get : EStateM XhErrno PackedRelocIterator _) :=
  fun _ _ _ _ hit => ⟨rfl, hit⟩

theorem pure (a : α) : StreamLocal lo n fun _ => (Pure.pure a : EStateM XhErrno PackedRelocIterator α) :=
  fun _ _ _ _ hit => ⟨rfl, hit⟩

theorem throw (e : XhErrno) :
    StreamLocal lo n fun _ => (MonadExcept.throw e : EStateM XhErrno PackedRelocIterator α) :=
  fun _ _ _ _ hit => ⟨rfl, hit⟩

theorem modify (f : PackedRelocIterator → PackedRelocIterator) (hf : ∀ it, (f it).decoder = it.decoder) :
    StreamLocal lo n fun _ => (modify f : EStateM XhErrno PackedRelocIterator PUnit) :=
  fun _ _ _ it hit => ⟨rfl, (hf it).symm ▸ hit⟩

theorem ite {c : Prop} {_ : Decidable c} {p q : Mem → EStateM XhErrno PackedRelocIterator α}
    (hp : StreamLocal lo n p) (hq : StreamLocal lo n q) :
    StreamLocal lo n fun m => if c then p m else q m := by
  by_cases hc : c
  · simpa only [hc, if_true] using hp
  · simpa only [hc, if_false] using hq

theorem decode : StreamLocal lo n fun m => PackedRelocIterator.decode w m := by
  intro m m' h it hit
  have hw := decoderNext_within (w := w) (m := m) hit
  unfold PackedRelocIterator.decode
  dsimp only
  rw [decoderNext_congr h hit]
  split <;> (rename_i heq; rw [heq] at hw; exact ⟨rfl, hw⟩)

theorem decodeInto {set : ℕ → PackedRelocIterator → PackedRelocIterator}
    (hset : ∀ val it, (set val it).decoder = it.decoder) :
    StreamLocal lo n fun m => PackedRelocIterator.decodeInto w m set :=
  decode.bind fun val => modify (set val) (hset val)

theorem decodeIntoIf {c : Prop} {_ : Decidable c} {set : ℕ → PackedRelocIterator → PackedRelocIterator}
    (hset : ∀ val it, (set val it).decoder = it.decoder) :
    StreamLocal lo n fun m => PackedRelocIterator.decodeIntoIf w m c set :=
  ite (decodeInto hset) (pure _)

end StreamLocal

section Packed

variable {lo n w : ℕ}

theorem packedInitReads_local : StreamLocal lo n fun m => packedInitReads w m := by
  unfold packedInitReads
  exact (StreamLocal.decodeInto (by intros; rfl)).bind fun _ => StreamLocal.decodeInto (by intros; rfl)

theorem packedGroupAddend_local : StreamLocal lo n fun m => packedGroupAddend w m := by
  unfold packedGroupAddend
  exact StreamLocal.get.bind fun _ => .ite
    (.ite ((StreamLocal.throw _).bind fun _ => .decodeInto (by intros; rfl))
      ((StreamLocal.pure _).bind fun _ => .decodeInto (by intros; rfl)))
    (.ite (.modify _ (by intro; rfl)) (.pure _))

theorem readGroupFields_local : StreamLocal lo n fun m => xhElfPackedRelocIteratorReadGroupFields w m := by
  unfold xhElfPackedRelocIteratorReadGroupFields
  exact (StreamLocal.decodeInto (by intros; rfl)).bind fun _ =>
    (StreamLocal.decodeInto (by intros; rfl)).bind fun _ =>
    StreamLocal.get.bind fun _ => (StreamLocal.decodeIntoIf (by intros; rfl)).bind fun _ =>
    StreamLocal.get.bind fun _ => (StreamLocal.decodeIntoIf (by intros; rfl)).bind fun _ =>
    packedGroupAddend_local.bind fun _ => .modify _ (by intro; rfl)

theorem packedNextEntry_local : StreamLocal lo n fun m => packedNextEntry w m := by
  unfold packedNextEntry packedNextOffset packedNextInfo packedNextAddend
  exact (StreamLocal.get.bind fun _ => .ite (.modify _ (by intro; rfl)) (.decodeInto (by intros; rfl))).bind
    fun _ => (StreamLocal.get.bind fun _ => .decodeIntoIf (by intros; rfl)).bind
    fun _ => (StreamLocal.get.bind fun _ => .ite (.decodeInto (by intros; rfl)) (.pure _)).bind
    fun _ => (StreamLocal.modify _ (by intro; rfl)).bind fun _ => StreamLocal.get.bind fun _ => .pure _

theorem packedNextBody_local : StreamLocal lo n fun m => packedNextBody w m := by
  unfold packedNextBody
  exact StreamLocal.get.bind fun _ =>
    .ite (readGroupFields_local.bind fun _ => packedNextEntry_local)
      ((StreamLocal.pure _).bind fun _ => packedNextEntry_local)

variable {m m' : Mem}

/-- **The packed iterator reads only its stream**, and keeps its decoder inside it. -/
theorem packedNext_congr (h : AgreeOn (List.range' lo n) m m') {it : PackedRelocIterator}
    (hit : it.decoder.Within lo (lo + n)) :
    xhElfPackedRelocIteratorNext w m' it = xhElfPackedRelocIteratorNext w m it ∧
      (xhElfPackedRelocIteratorNext w m it).2.decoder.Within lo (lo + n) := by
  obtain ⟨he, hs⟩ := packedNextBody_local (w := w) m m' h it hit
  dsimp only at he hs
  unfold xhElfPackedRelocIteratorNext
  split
  · exact ⟨rfl, hit⟩
  · rw [he]
    split <;> (rename_i heq; rw [heq] at hs; exact ⟨rfl, hs⟩)

theorem packedInit_congr {rel relSz : ℕ} {u : Bool}
    (h : AgreeOn (List.range' rel (relSz % 2 ^ 32)) m m') :
    xhElfPackedRelocIteratorInit w m' rel relSz u = xhElfPackedRelocIteratorInit w m rel relSz u ∧
      (resultState (xhElfPackedRelocIteratorInit w m rel relSz u)).decoder.Within rel
        (rel + relSz % 2 ^ 32) :=
  packedInitReads_local m m' h _ ⟨le_rfl, le_rfl⟩

theorem packedRecordsAux_congr (h : AgreeOn (List.range' lo n) m m') {fuel : ℕ} {it : PackedRelocIterator}
    (hit : it.decoder.Within lo (lo + n)) :
    packedRecordsAux w m' fuel it = packedRecordsAux w m fuel it := by
  induction fuel generalizing it with
  | zero => rfl
  | succ fuel ih =>
    obtain ⟨he, hs⟩ := packedNext_congr (w := w) h hit
    simp only [packedRecordsAux, he]
    split
    · rfl
    · rename_i heq; rw [heq] at hs; rw [ih hs]

end Packed

/-- The bytes of the Android stream past its `APS2` prefix. -/
def streamReads (v : XhElf) : List ℕ := List.range' v.relandroid (v.relandroidSz % 2 ^ 32)

theorem androidIter_congr {A : Arch} {v : XhElf} {m m' : Mem} (h : AgreeOn (streamReads v) m m') :
    androidIter A v m' = androidIter A v m ∧
      (androidIter A v m).decoder.Within v.relandroid (v.relandroid + v.relandroidSz % 2 ^ 32) := by
  obtain ⟨he, hs⟩ := packedInit_congr (w := A.wordBits) (u := v.isUseRela) h
  unfold androidIter
  rw [he]
  split <;> (rename_i heq; rw [heq] at hs; exact ⟨rfl, hs⟩)

end XHook
