import XHook.Elf
import XHook.Hash
import XHook.View
import Mathlib.Data.List.Nodup
import Mathlib.Order.Interval.Finset.Nat
import Mathlib.Tactic.IntervalCases
import Mathlib.Dynamics.PeriodicPts

/-!
# Symbol lookups

`xh_elf_find_symidx_by_name` resolves a name to a symbol index through the image's
`DT_HASH` table (`xh_elf_hash_lookup`) or its `DT_GNU_HASH` table
(`xh_elf_gnu_hash_lookup`: the hashed, defined symbols through the bloom filter and the
buckets, then a linear scan of the undefined ones below `symoffset`). The chain walks of
both have no bound in C; here they run on fuel, and `none` is a walk that does not end.

`LookupAnswer` is what a lookup owes: an index of the given set whose name is the one
sought, or `NOT_FOUND` when no index of the set has that name.

* `hashLookup_answers`: on a well-formed `DT_HASH` table, the classic lookup answers over
  the indices `[1, chain_cnt)`.
* `gnuHashLookup_answers`: on a well-formed `DT_GNU_HASH` table of at most `2 ^ 32`
  symbols, the GNU lookup answers over all of them.
* `findSymidxByName_holds_name`: on every image, well-formed or not, an index the lookup
  returns names the symbol sought (`LookupSound`: and a failed lookup says `NOT_FOUND`).
* `hashLookupLoop_returns_iff`, `gnuHashLookupDefLoop_returns_iff`: **the fuel never cuts a
  walk short**: from a `uint32_t` index, each walk returns exactly when its C loop ends, since a
  walk that has not ended after `2 ^ 32` steps has met an index twice and repeats from there.
-/

namespace XHook

/-- The fuel of the chain walks. A walk's state is one `uint32_t` index, so a walk that has
not ended after `2 ^ 32` steps has met an index twice and never ends. -/
def loopFuel : ℕ := 2 ^ 32

section Model

variable (A : Arch) (m : Mem) (v : XhElf)

/-- `self->symtab[i].st_name`. -/
def XhElf.stName (i : ℕ) : ℕ := m.read (v.symtab + A.symSize * i) 4

/-- `0 == strcmp(symbol, self->strtab + self->symtab[i].st_name)`. -/
def XhElf.nameIs (symbol : List UInt8) (i : ℕ) : Bool := m.strEq symbol (v.strtab + v.stName A m i)

/-- `self->bucket[k]`. -/
def XhElf.bucketAt (k : ℕ) : ℕ := m.read (v.bucket + 4 * k) 4

/-- `self->chain[k]`. -/
def XhElf.chainAt (k : ℕ) : ℕ := m.read (v.chain + 4 * k) 4

/-- `self->bloom[k]`, an `ElfW(Addr)`. -/
def XhElf.bloomAt (k : ℕ) : ℕ := m.read (v.bloom + A.wordSize * k) A.wordSize

/-- A loop's `*symidx = i; return 0;`, or `return XH_ERRNO_NOTFND;` when it found nothing. -/
def foundOrNotfnd : Option ℕ → Except XhErrno ℕ
  | some i => .ok i
  | none => .error .notfnd

/-- The loop of `xh_elf_hash_lookup` from index `i`:
`for(; 0 != i; i = self->chain[i]) if(0 == strcmp(...)) return i;`. -/
def xhElfHashLookupLoop (symbol : List UInt8) : ℕ → ℕ → Option (Except XhErrno ℕ)
  | 0, _ => none
  | fuel + 1, i =>
    if i = 0 then some (.error .notfnd)
    else if v.nameIs A m symbol i then some (.ok i)
    else xhElfHashLookupLoop symbol fuel (v.chainAt m i)

/-- `xh_elf_hash_lookup`. -/
def xhElfHashLookup (symbol : List UInt8) : Option (Except XhErrno ℕ) :=
  xhElfHashLookupLoop A m v symbol loopFuel (v.bucketAt m (xhElfHash symbol % v.bucketCnt))

/-- The loop of `xh_elf_gnu_hash_lookup_def` from index `i`, in `uint32_t` arithmetic:
`i - self->symoffset` and `i++` wrap. -/
def xhElfGnuHashLookupDefLoop (hash : ℕ) (symbol : List UInt8) : ℕ → ℕ → Option (Except XhErrno ℕ)
  | 0, _ => none
  | fuel + 1, i =>
    let symhash := v.chainAt m ((i + 2 ^ 32 - v.symoffset) % 2 ^ 32)
    if hash ||| 1 = symhash ||| 1 ∧ v.nameIs A m symbol i = true then some (.ok i)
    else if symhash &&& 1 ≠ 0 then some (.error .notfnd)
    else xhElfGnuHashLookupDefLoop hash symbol fuel ((i + 1) % 2 ^ 32)

/-- `xh_elf_gnu_hash_lookup_def`: the bloom filter, the bucket, then the chain. -/
def xhElfGnuHashLookupDef (symbol : List UInt8) : Option (Except XhErrno ℕ) :=
  let hash := xhElfGnuHash symbol
  let word := v.bloomAt A m (hash / A.wordBits % v.bloomSz)
  let mask := 1 <<< (hash % A.wordBits) ||| 1 <<< ((hash >>> v.bloomShift) % A.wordBits)
  if word &&& mask ≠ mask then some (.error .notfnd)
  else
    let i := v.bucketAt m (hash % v.bucketCnt)
    if i < v.symoffset then some (.error .notfnd)
    else xhElfGnuHashLookupDefLoop A m v hash symbol loopFuel i

/-- `xh_elf_gnu_hash_lookup_undef`: the first index below `symoffset` with the name. -/
def xhElfGnuHashLookupUndef (symbol : List UInt8) : Except XhErrno ℕ :=
  foundOrNotfnd ((List.range v.symoffset).find? (v.nameIs A m symbol))

/-- `xh_elf_gnu_hash_lookup`: the defined symbols, then the undefined ones. -/
def xhElfGnuHashLookup (symbol : List UInt8) : Option (Except XhErrno ℕ) :=
  match xhElfGnuHashLookupDef A m v symbol with
  | some (.ok i) => some (.ok i)
  | some (.error _) =>
    match xhElfGnuHashLookupUndef A m v symbol with
    | .ok i => some (.ok i)
    | .error _ => some (.error .notfnd)
  | none => none

/-- `xh_elf_find_symidx_by_name`. -/
def xhElfFindSymidxByName (symbol : List UInt8) : Option (Except XhErrno ℕ) :=
  if v.isUseGnuHash then xhElfGnuHashLookup A m v symbol else xhElfHashLookup A m v symbol

end Model

/-- What a lookup of `s` owes over the indices `idx`, `name i` being the name of symbol `i`:
it returns, with an index of `idx` named `s`, or with `NOT_FOUND` when no index of `idx`
is named `s`. -/
def LookupAnswer (name : ℕ → List UInt8) (idx : ℕ → Prop) (s : List UInt8)
    (r : Option (Except XhErrno ℕ)) : Prop :=
  (∃ j, r = some (.ok j) ∧ idx j ∧ name j = s) ∨
    (r = some (.error .notfnd) ∧ ∀ i, idx i → name i ≠ s)

/-- Symbol `i` of `idx` is named by the C string `name i`. -/
def SymNames (A : Arch) (m : Mem) (v : XhElf) (idx : ℕ → Prop) (name : ℕ → List UInt8) : Prop :=
  ∀ i, idx i → 0 ∉ name i ∧ m.Holds (v.strtab + v.stName A m i) (name i ++ [0])

section Answer

variable {A : Arch} {m : Mem} {v : XhElf} {idx : ℕ → Prop} {name : ℕ → List UInt8}

theorem SymNames.nameIs_iff (h : SymNames A m v idx name) (s : CStr) {i : ℕ} (hi : idx i) :
    v.nameIs A m s.bytes i = true ↔ name i = s.bytes :=
  (Mem.strEq_iff_eq s (h i hi).1 (h i hi).2).trans eq_comm

/-- A search of the indices `l` for the name answers over `idx` when `l` holds only indices
of `idx` and every index of `idx` named `s`. -/
theorem lookupAnswer_find (hN : SymNames A m v idx name) (s : CStr) {l : List ℕ}
    (hl : ∀ j ∈ l, idx j) (hcover : ∀ j, idx j → name j = s.bytes → j ∈ l) :
    LookupAnswer name idx s.bytes (some (foundOrNotfnd (l.find? (v.nameIs A m s.bytes)))) := by
  cases hf : l.find? (v.nameIs A m s.bytes) with
  | some j =>
    have hj := hl j (List.mem_of_find?_eq_some hf)
    exact .inl ⟨j, rfl, hj, (hN.nameIs_iff s hj).1 (List.find?_some hf)⟩
  | none =>
    refine .inr ⟨rfl, fun i hi hs => List.find?_eq_none.1 hf i (hcover i hi hs) ?_⟩
    exact (hN.nameIs_iff s hi).2 hs

theorem LookupAnswer.mono {idx' : ℕ → Prop} {s : List UInt8} {r : Option (Except XhErrno ℕ)}
    (h : LookupAnswer name idx s r) (hsub : ∀ i, idx i → idx' i)
    (hnot : r = some (.error .notfnd) → ∀ i, idx' i → name i = s → idx i) :
    LookupAnswer name idx' s r := by
  rcases h with ⟨j, rfl, hj, hn⟩ | ⟨rfl, hn⟩
  · exact .inl ⟨j, rfl, hsub j hj, hn⟩
  · exact .inr ⟨rfl, fun i hi hs => hn i (hnot rfl i hi hs) hs⟩

end Answer

/-! ## The classic lookup -/

/-- `l` is the walk `i, next i, next (next i), …` up to the `0` that ends it. -/
def IsWalk (next : ℕ → ℕ) : List ℕ → ℕ → Prop
  | [], i => i = 0
  | j :: l, i => j ≠ 0 ∧ i = j ∧ IsWalk next l (next j)

instance (next : ℕ → ℕ) : ∀ l i, Decidable (IsWalk next l i)
  | [], i => inferInstanceAs (Decidable (i = 0))
  | j :: l, _ =>
    have := instDecidableIsWalk next l (next j)
    inferInstanceAs (Decidable (_ ∧ _ ∧ _))

/-- A well-formed `DT_HASH` table: each bucket's walk visits, without repeating one, exactly
the indices of `[1, chain_cnt)` whose names the ABI's `elf_hash` puts in that bucket, then
`0`. -/
structure ElfHashTable (A : Arch) (m : Mem) (v : XhElf) (name : ℕ → List UInt8) : Prop where
  names : SymNames A m v (fun i => 1 ≤ i ∧ i < v.chainCnt) name
  bucketCnt_pos : 0 < v.bucketCnt
  walk : ∀ b < v.bucketCnt, ∃ l, IsWalk (v.chainAt m) l (v.bucketAt m b) ∧ l.Nodup ∧
    (∀ i ∈ l, 1 ≤ i ∧ i < v.chainCnt ∧ elfHashAbi (name i) % v.bucketCnt = b) ∧
    ∀ i < v.chainCnt, 1 ≤ i → elfHashAbi (name i) % v.bucketCnt = b → i ∈ l

section Classic

variable {A : Arch} {m : Mem} {v : XhElf} {name : ℕ → List UInt8}

theorem hashLookupLoop_walk (s : List UInt8) {l : List ℕ} :
    ∀ {i fuel : ℕ}, IsWalk (v.chainAt m) l i → l.length < fuel →
      xhElfHashLookupLoop A m v s fuel i = some (foundOrNotfnd (l.find? (v.nameIs A m s))) := by
  induction l with
  | nil =>
    rintro i (_ | fuel) rfl hf
    · exact absurd hf (Nat.lt_irrefl 0)
    · rfl
  | cons j l ih =>
    rintro i (_ | fuel) ⟨hj, rfl, hw⟩ hf
    · exact absurd hf (Nat.not_lt_zero _)
    · simp only [xhElfHashLookupLoop, hj, if_false, List.find?_cons]
      cases v.nameIs A m s i
      · exact ih hw (by simpa using hf)
      · rfl

/-- Every index of a walk is the start or a value of `next`. -/
theorem IsWalk.lt {next : ℕ → ℕ} {N : ℕ} (hnext : ∀ k, next k < N) :
    ∀ {l : List ℕ} {i : ℕ}, IsWalk next l i → i < N → ∀ j ∈ l, j < N
  | [], _, _, _, _, hj => absurd hj (List.not_mem_nil _)
  | _ :: _, _, ⟨_, rfl, hw⟩, hi, _, hj =>
    (List.mem_cons.1 hj).elim (· ▸ hi) (hw.lt hnext (hnext _) _)

/-- A walk that repeats no index of `[1, N)` has fewer than `N` steps. -/
theorem length_lt_of_nodup {l : List ℕ} {N : ℕ} (hl : l.Nodup) (hpos : ∀ j ∈ l, j ≠ 0)
    (hlt : ∀ j ∈ l, j < N) (hN : 0 < N) : l.length < N := by
  have : l.toFinset ⊆ Finset.Ioo 0 N := fun j hj => by
    rw [List.mem_toFinset] at hj
    exact Finset.mem_Ioo.2 ⟨Nat.pos_of_ne_zero (hpos j hj), hlt j hj⟩
  have := Finset.card_le_card this
  rw [List.toFinset_card_of_nodup hl, Nat.card_Ioo] at this
  omega

theorem IsWalk.ne_zero {next : ℕ → ℕ} : ∀ {l : List ℕ} {i : ℕ}, IsWalk next l i → ∀ j ∈ l, j ≠ 0
  | [], _, _, _, hj => absurd hj (List.not_mem_nil _)
  | _ :: _, _, ⟨h0, _, hw⟩, _, hj => (List.mem_cons.1 hj).elim (· ▸ h0) (hw.ne_zero _)

/-- **The classic lookup answers**: on a well-formed `DT_HASH` table it returns, with an
index of `[1, chain_cnt)` named `s`, or with `NOT_FOUND` when no such index is named `s`. -/
theorem hashLookup_answers (hT : ElfHashTable A m v name) (s : CStr) :
    LookupAnswer name (fun i => 1 ≤ i ∧ i < v.chainCnt) s.bytes (xhElfHashLookup A m v s.bytes) := by
  obtain ⟨l, hw, hnd, hin, hall⟩ := hT.walk _ (Nat.mod_lt (xhElfHash s.bytes) hT.bucketCnt_pos)
  have hlen : l.length < loopFuel :=
    length_lt_of_nodup hnd hw.ne_zero (hw.lt (fun _ => Mem.read_lt m _ 4) (Mem.read_lt m _ 4))
      (Nat.two_pow_pos 32)
  rw [xhElfHashLookup, hashLookupLoop_walk s.bytes hw hlen]
  refine lookupAnswer_find hT.names s (fun j hj => (hin j hj).imp_right And.left) ?_
  rintro j ⟨h1, h2⟩ hs
  exact hall j h2 h1 (by rw [hs, xhElfHash_eq_elfHashAbi])

end Classic

/-- An AArch64 image with a `DT_HASH` table of two buckets over `puts` and `malloc` (bucket 1)
and `open` (bucket 0): the string table at `0x100`, the symbol table at `0x200`, the buckets
at `0x300` and the chain at `0x310`. -/
def classicImage : Mem :=
  Mem.ofFields 0 0x400
    [Mem.bytesField 0x100 [0, 112, 117, 116, 115, 0, 111, 112, 101, 110, 0, 109, 97, 108, 108, 111, 99, 0],
     (0x218, 4, 1), (0x230, 4, 6), (0x248, 4, 11), (0x300, 4, 2), (0x304, 4, 3), (0x31c, 4, 1)]

/-- The view of `classicImage`. -/
def classicView : XhElf :=
  { strtab := 0x100, symtab := 0x200, bucket := 0x300, bucketCnt := 2, chain := 0x310, chainCnt := 4 }

/-- The names of `classicImage`'s symbols. -/
def classicNames (i : ℕ) : List UInt8 :=
  [[], [112, 117, 116, 115], [111, 112, 101, 110], [109, 97, 108, 108, 111, 99]].getD i []

theorem classicImage_table : ElfHashTable .arm64 classicImage classicView classicNames where
  names := by
    rintro i ⟨h1, h2⟩
    change i < 4 at h2
    interval_cases i <;> decide
  bucketCnt_pos := by decide
  walk := by
    intro b hb
    change b < 2 at hb
    interval_cases b
    exacts [⟨[2], by decide⟩, ⟨[3, 1], by decide⟩]

theorem hashLookup_answers_malloc :
    LookupAnswer classicNames (fun i => 1 ≤ i ∧ i < 4) [109, 97, 108, 108, 111, 99]
      (xhElfHashLookup .arm64 classicImage classicView [109, 97, 108, 108, 111, 99]) :=
  hashLookup_answers classicImage_table ⟨[109, 97, 108, 108, 111, 99], by decide⟩

/-! ## The GNU lookup -/

/-- The bucket of symbol `i` in a `DT_GNU_HASH` table. -/
def gnuBucket (v : XhElf) (name : ℕ → List UInt8) (i : ℕ) : ℕ := xhElfGnuHash (name i) % v.bucketCnt

/-- A well-formed `DT_GNU_HASH` table over a symbol table of `nsyms` entries: symbols
`[symoffset, nsyms)` are hashed and sorted by bucket; `bucket[b]` is the first index of
bucket `b`, or below `symoffset` when `b` is empty; `chain[i - symoffset]` is symbol `i`'s
hash, with bit 0 set exactly at the last index of its bucket; the bloom filter has both
bits of every hashed symbol set. -/
structure GnuHashTable (A : Arch) (m : Mem) (v : XhElf) (nsyms : ℕ) (name : ℕ → List UInt8) :
    Prop where
  names : SymNames A m v (· < nsyms) name
  symoffset_pos : 1 ≤ v.symoffset
  symoffset_le : v.symoffset ≤ nsyms
  bucketCnt_pos : 1 ≤ v.bucketCnt
  sorted : ∀ j < nsyms, ∀ i ≤ j, v.symoffset ≤ i → gnuBucket v name i ≤ gnuBucket v name j
  bucket_first : ∀ i < nsyms, v.symoffset ≤ i →
    v.symoffset ≤ v.bucketAt m (gnuBucket v name i) ∧ v.bucketAt m (gnuBucket v name i) ≤ i ∧
      gnuBucket v name (v.bucketAt m (gnuBucket v name i)) = gnuBucket v name i
  bucket_empty : ∀ b < v.bucketCnt,
    (∀ i < nsyms, v.symoffset ≤ i → gnuBucket v name i ≠ b) → v.bucketAt m b < v.symoffset
  chain_hash : ∀ i < nsyms, v.symoffset ≤ i →
    v.chainAt m (i - v.symoffset) ||| 1 = xhElfGnuHash (name i) ||| 1
  chain_last : ∀ i < nsyms, v.symoffset ≤ i → (v.chainAt m (i - v.symoffset) &&& 1 ≠ 0 ↔
    ∀ j < nsyms, i < j → gnuBucket v name j ≠ gnuBucket v name i)
  bloomSz_pow : ∃ k, v.bloomSz = 2 ^ k
  bloomShift_lt : v.bloomShift < 32
  bloom : ∀ i < nsyms, v.symoffset ≤ i →
    (v.bloomAt A m (xhElfGnuHash (name i) / A.wordBits % v.bloomSz)).testBit
        (xhElfGnuHash (name i) % A.wordBits) ∧
      (v.bloomAt A m (xhElfGnuHash (name i) / A.wordBits % v.bloomSz)).testBit
        ((xhElfGnuHash (name i) >>> v.bloomShift) % A.wordBits)

theorem SymNames.mono {A : Arch} {m : Mem} {v : XhElf} {idx idx' : ℕ → Prop}
    {name : ℕ → List UInt8} (h : SymNames A m v idx name) (hsub : ∀ i, idx' i → idx i) :
    SymNames A m v idx' name :=
  fun i hi => h i (hsub i hi)

/-- Both bits set in `word` pass the filter's test `(word & mask) == mask`. -/
theorem and_mask_eq {word a b : ℕ} (ha : word.testBit a) (hb : word.testBit b) :
    word &&& (1 <<< a ||| 1 <<< b) = 1 <<< a ||| 1 <<< b := by
  apply Nat.eq_of_testBit_eq
  intro k
  simp only [Nat.testBit_and, Nat.testBit_or, Nat.one_shiftLeft, Nat.testBit_two_pow]
  by_cases hka : a = k
  · subst hka; simp [ha]
  · by_cases hkb : b = k
    · subst hkb; simp [hb]
    · simp [hka, hkb]

section Gnu

variable {A : Arch} {m : Mem} {v : XhElf} {nsyms : ℕ} {name : ℕ → List UInt8}

/-- The chain walk from an index `i` of a bucket answers over the indices of that bucket
from `i` on. -/
theorem gnuHashLookupDefLoop_answers (hT : GnuHashTable A m v nsyms name) (h32 : nsyms ≤ 2 ^ 32)
    (s : CStr) : ∀ (fuel i : ℕ), v.symoffset ≤ i → i < nsyms → nsyms - i ≤ fuel →
      LookupAnswer name (fun j => i ≤ j ∧ j < nsyms ∧ gnuBucket v name j = gnuBucket v name i)
        s.bytes (xhElfGnuHashLookupDefLoop A m v (xhElfGnuHash s.bytes) s.bytes fuel i)
  | 0, i, _, hin, hf => absurd hf (by omega)
  | fuel + 1, i, hsi, hin, hf => by
    have hw : (2 : ℕ) ^ 32 = 4294967296 := rfl
    have hidx : (i + 2 ^ 32 - v.symoffset) % 2 ^ 32 = i - v.symoffset := by omega
    have hmiss : ¬ (xhElfGnuHash s.bytes ||| 1 = v.chainAt m (i - v.symoffset) ||| 1 ∧
        v.nameIs A m s.bytes i = true) → name i ≠ s.bytes := fun hm hs =>
      hm ⟨by rw [hT.chain_hash i hin hsi, hs], (hT.names.nameIs_iff s hin).2 hs⟩
    simp only [xhElfGnuHashLookupDefLoop, hidx]
    split_ifs with hm hlast
    · exact .inl ⟨i, rfl, ⟨le_rfl, hin, rfl⟩, (hT.names.nameIs_iff s hin).1 hm.2⟩
    · refine .inr ⟨rfl, fun j ⟨hij, hjn, hb⟩ hs => ?_⟩
      rcases Nat.eq_or_lt_of_le hij with rfl | hlt
      · exact hmiss hm hs
      · exact (hT.chain_last i hin hsi).1 hlast j hjn hlt hb
    · obtain ⟨j, hlt, hjn, hb⟩ : ∃ j, i < j ∧ j < nsyms ∧ gnuBucket v name j = gnuBucket v name i := by
        by_contra hno
        push_neg at hno
        exact hlast ((hT.chain_last i hin hsi).2 fun j hjn hlt => hno j hlt hjn)
      have hnext : (i + 1) % 2 ^ 32 = i + 1 := by omega
      rw [hnext]
      have hb1 : gnuBucket v name (i + 1) = gnuBucket v name i :=
        le_antisymm (hb ▸ hT.sorted j hjn (i + 1) hlt (by omega)) (hT.sorted (i + 1) (by omega) i (by omega) hsi)
      refine (gnuHashLookupDefLoop_answers hT h32 s fuel (i + 1) (by omega) (by omega) (by omega)).mono
        (fun j ⟨h1, h2, h3⟩ => ⟨by omega, h2, h3.trans hb1⟩) fun _ j ⟨h1, h2, h3⟩ hs => ?_
      have hji : j ≠ i := fun e => hmiss hm (e ▸ hs)
      exact ⟨by omega, h2, h3.trans hb1.symm⟩

/-- The part over the defined symbols answers over the hashed indices `[symoffset, nsyms)`. -/
theorem gnuHashLookupDef_answers (hT : GnuHashTable A m v nsyms name) (h32 : nsyms ≤ 2 ^ 32)
    (s : CStr) :
    LookupAnswer name (fun j => v.symoffset ≤ j ∧ j < nsyms) s.bytes
      (xhElfGnuHashLookupDef A m v s.bytes) := by
  have hbkt : ∀ j, name j = s.bytes → gnuBucket v name j = xhElfGnuHash s.bytes % v.bucketCnt :=
    fun j hs => by rw [gnuBucket, hs]
  simp only [xhElfGnuHashLookupDef]
  split_ifs with hbloom hempty
  · refine .inr ⟨rfl, fun j ⟨hsj, hjn⟩ hs => hbloom ?_⟩
    have := hT.bloom j hjn hsj
    rw [hs] at this
    exact and_mask_eq this.1 this.2
  · refine .inr ⟨rfl, fun j ⟨hsj, hjn⟩ hs => ?_⟩
    have := (hT.bucket_first j hjn hsj).1
    rw [hbkt j hs] at this
    omega
  · obtain ⟨i, hsi, hin, hbi⟩ : ∃ i, v.symoffset ≤ i ∧ i < nsyms ∧
        gnuBucket v name i = xhElfGnuHash s.bytes % v.bucketCnt := by
      by_contra hno
      push_neg at hno
      exact hempty (hT.bucket_empty _ (Nat.mod_lt _ hT.bucketCnt_pos) fun i hin hsi => hno i hsi hin)
    obtain ⟨hf1, hf2, hf3⟩ := hT.bucket_first i hin hsi
    rw [hbi] at hf1 hf2 hf3
    refine (gnuHashLookupDefLoop_answers hT h32 s loopFuel _ hf1 (by omega)
      (by unfold loopFuel; omega)).mono (fun j ⟨h1, h2, _⟩ => ⟨by omega, h2⟩)
      fun _ j ⟨hsj, hjn⟩ hs => ?_
    have := (hT.bucket_first j hjn hsj).2.1
    rw [hbkt j hs] at this
    exact ⟨this, hjn, by rw [hbkt j hs, hf3]⟩

/-- The scan of the undefined symbols answers over `[0, symoffset)`. -/
theorem gnuHashLookupUndef_answers (hT : GnuHashTable A m v nsyms name) (s : CStr) :
    LookupAnswer name (· < v.symoffset) s.bytes (some (xhElfGnuHashLookupUndef A m v s.bytes)) :=
  lookupAnswer_find (hT.names.mono fun _ h => lt_of_lt_of_le h hT.symoffset_le) s
    (fun _ => List.mem_range.1) fun _ h _ => List.mem_range.2 h

/-- **The GNU lookup answers**: on a well-formed `DT_GNU_HASH` table of at most `2 ^ 32`
symbols it returns, with an index below `nsyms` named `s`, or with `NOT_FOUND` when no
symbol is named `s`. -/
theorem gnuHashLookup_answers (hT : GnuHashTable A m v nsyms name) (h32 : nsyms ≤ 2 ^ 32)
    (s : CStr) : LookupAnswer name (· < nsyms) s.bytes (xhElfGnuHashLookup A m v s.bytes) := by
  have hu := gnuHashLookupUndef_answers hT s
  rcases gnuHashLookupDef_answers hT h32 s with ⟨j, hdef, ⟨_, hj⟩, hn⟩ | ⟨hdef, hdn⟩
  · rw [xhElfGnuHashLookup, hdef]
    exact .inl ⟨j, rfl, hj, hn⟩
  · rw [xhElfGnuHashLookup, hdef]
    rcases hu with ⟨j, hund, hj, hn⟩ | ⟨hund, hun⟩
    · rw [Option.some.inj hund]
      exact .inl ⟨j, rfl, lt_of_lt_of_le hj hT.symoffset_le, hn⟩
    · rw [Option.some.inj hund]
      exact .inr ⟨rfl, fun i hi hs => if hlt : i < v.symoffset then hun i hlt hs
        else hdn i ⟨Nat.le_of_not_lt hlt, hi⟩ hs⟩

end Gnu

/-- An AArch64 image with a `DT_GNU_HASH` table of two buckets: `free` is undefined, below
`symoffset = 2`; `puts`, `open` and `malloc` hash to bucket 1 and bucket 0 is empty. The
string table is at `0x100`, the symbol table at `0x200`, the buckets at `0x300`, the chain
at `0x310` and the one-word bloom filter, shifted by 6, at `0x320`. -/
def gnuImage : Mem :=
  Mem.ofFields 0 0x400
    [Mem.bytesField 0x100 [0, 112, 117, 116, 115, 0, 111, 112, 101, 110, 0, 109, 97, 108, 108, 111, 99, 0,
      102, 114, 101, 101, 0],
     (0x218, 4, 18), (0x230, 4, 1), (0x248, 4, 6), (0x260, 4, 11), (0x304, 4, 2),
     (0x310, 4, 2090629904), (0x314, 4, 2090588022), (0x318, 4, 221883709), (0x320, 8, 2346392998583074816)]

/-- The view of `gnuImage`. -/
def gnuView : XhElf :=
  { strtab := 0x100, symtab := 0x200, bucket := 0x300, bucketCnt := 2, chain := 0x310,
    symoffset := 2, bloom := 0x320, bloomSz := 1, bloomShift := 6, isUseGnuHash := true }

/-- The names of `gnuImage`'s symbols. -/
def gnuNames (i : ℕ) : List UInt8 :=
  [[], [102, 114, 101, 101], [112, 117, 116, 115], [111, 112, 101, 110],
    [109, 97, 108, 108, 111, 99]].getD i []

theorem gnuImage_table : GnuHashTable .arm64 gnuImage gnuView 5 gnuNames where
  names := by unfold SymNames; decide
  symoffset_pos := by decide
  symoffset_le := by decide
  bucketCnt_pos := by decide
  sorted := by decide
  bucket_first := by decide
  bucket_empty := by decide
  chain_hash := by decide
  chain_last := by decide
  bloomSz_pow := ⟨0, rfl⟩
  bloomShift_lt := by decide
  bloom := by decide

theorem gnuHashLookup_answers_free :
    LookupAnswer gnuNames (· < 5) [102, 114, 101, 101]
      (xhElfGnuHashLookup .arm64 gnuImage gnuView [102, 114, 101, 101]) :=
  gnuHashLookup_answers gnuImage_table (by omega) ⟨[102, 114, 101, 101], by decide⟩

/-- A symbol table of `2 ^ 32 + 1` entries on AArch64 whose bucket 1 starts at index
`0xffffffff`: `a` names symbols `1 ..< 2 ^ 32 - 1` (bucket 0), `d` symbol `2 ^ 32 - 1` and `b`
symbol `2 ^ 32` (bucket 1). The string table is at `0x100`, the buckets at `0x200`, the
one-word bloom filter (all ones) at `0x300`, the symbol table at `0x1000` and the chain at
`0x2000000000`. -/
def wrapNames (i : ℕ) : List UInt8 :=
  if i = 0 then [] else if i ≤ 2 ^ 32 - 2 then [97] else if i = 2 ^ 32 - 1 then [100] else [98]

/-- Symbol `i`'s `st_name` in `wrapImage`. -/
def wrapStName (i : ℕ) : ℕ :=
  if i = 0 then 0 else if i ≤ 2 ^ 32 - 2 then 1 else if i = 2 ^ 32 - 1 then 5 else 3

/-- `chain[k]` in `wrapImage`: symbol `k + 1`'s hash, bit 0 set at the end of its bucket. -/
def wrapChain (k : ℕ) : ℕ :=
  if k + 1 ≤ 2 ^ 32 - 3 then 177670 else if k + 1 = 2 ^ 32 - 2 then 177671
  else if k + 1 = 2 ^ 32 - 1 then 177672 else 177671

/-- The image of `wrapNames`. -/
def wrapImage : Mem := fun a =>
  if a < 0x1000 then
    Mem.ofFields 0 0x1000 [Mem.bytesField 0x100 [0, 97, 0, 98, 0, 100, 0], (0x200, 4, 1),
      (0x204, 4, 0xffffffff), (0x300, 8, 2 ^ 64 - 1)] a
  else if a < 0x2000000000 then (Mem.leBytes 4 (wrapStName ((a - 0x1000) / 24))).getD ((a - 0x1000) % 24) 0
  else (Mem.leBytes 4 (wrapChain ((a - 0x2000000000) / 4))).getD ((a - 0x2000000000) % 4) 0

/-- The view of `wrapImage`. -/
def wrapView : XhElf :=
  { strtab := 0x100, symtab := 0x1000, bucket := 0x200, bucketCnt := 2, chain := 0x2000000000,
    symoffset := 1, bloom := 0x300, bloomSz := 1, bloomShift := 0, isUseGnuHash := true }

theorem wrapImage_stName {i : ℕ} (hi : i ≤ 2 ^ 32) :
    wrapView.stName .arm64 wrapImage i = wrapStName i := by
  have hlt : wrapStName i < 256 ^ 4 := by unfold wrapStName; split_ifs <;> norm_num
  have hH : wrapImage.Holds (0x1000 + 24 * i) (Mem.leBytes 4 (wrapStName i)) :=
    Mem.holds_of_apply fun j hj => by
      rw [Mem.leBytes_length] at hj
      simp only [wrapImage, if_neg (show ¬ 0x1000 + 24 * i + j < 0x1000 by omega),
        if_pos (show 0x1000 + 24 * i + j < 0x2000000000 by omega),
        show (0x1000 + 24 * i + j - 0x1000) / 24 = i by omega,
        show (0x1000 + 24 * i + j - 0x1000) % 24 = j by omega]
      exact List.getD_eq_getElem _ _ _
  rw [XhElf.stName, show Arch.symSize .arm64 = 24 from rfl, show wrapView.symtab = 0x1000 from rfl,
    Mem.read_of_holds_leBytes hH,
    Nat.mod_eq_of_lt hlt]

theorem wrapImage_chainAt {k : ℕ} (hk : k < 2 ^ 32) : wrapView.chainAt wrapImage k = wrapChain k := by
  have hlt : wrapChain k < 256 ^ 4 := by unfold wrapChain; split_ifs <;> norm_num
  have hH : wrapImage.Holds (0x2000000000 + 4 * k) (Mem.leBytes 4 (wrapChain k)) :=
    Mem.holds_of_apply fun j hj => by
      rw [Mem.leBytes_length] at hj
      simp only [wrapImage, if_neg (show ¬ 0x2000000000 + 4 * k + j < 0x1000 by omega),
        if_neg (show ¬ 0x2000000000 + 4 * k + j < 0x2000000000 by omega),
        show (0x2000000000 + 4 * k + j - 0x2000000000) / 4 = k by omega,
        show (0x2000000000 + 4 * k + j - 0x2000000000) % 4 = j by omega]
      exact List.getD_eq_getElem _ _ _
  rw [XhElf.chainAt, show wrapView.chain = 0x2000000000 from rfl, Mem.read_of_holds_leBytes hH,
    Nat.mod_eq_of_lt hlt]

theorem wrap_gnuBucket {i : ℕ} (hi : 1 ≤ i) :
    gnuBucket wrapView wrapNames i = if i ≤ 2 ^ 32 - 2 then 0 else 1 := by
  unfold gnuBucket wrapNames
  split_ifs <;> first | omega | decide

/-- In bucket 0 every symbol but the last is followed by one of its bucket; in bucket 1,
`2 ^ 32 - 1` is followed by `2 ^ 32`. -/
theorem wrap_last_iff {i : ℕ} (h1 : 1 ≤ i) (hi : i < 2 ^ 32 + 1) :
    (∀ j < 2 ^ 32 + 1, i < j → gnuBucket wrapView wrapNames j ≠ gnuBucket wrapView wrapNames i) ↔
      (i = 2 ^ 32 - 2 ∨ i = 2 ^ 32) := by
  constructor
  · intro h
    by_contra hne
    push_neg at hne
    have hnext := h (i + 1) (by omega) (by omega)
    rw [wrap_gnuBucket h1, wrap_gnuBucket (by omega)] at hnext
    split_ifs at hnext <;> omega
  · intro h j hj hij
    rw [wrap_gnuBucket h1, wrap_gnuBucket (by omega)]
    split_ifs <;> omega

theorem wrapImage_table : GnuHashTable .arm64 wrapImage wrapView (2 ^ 32 + 1) wrapNames where
  names i hi := by
    rw [wrapImage_stName (by omega)]
    unfold wrapStName wrapNames
    split_ifs <;> decide
  symoffset_pos := le_rfl
  symoffset_le := by decide
  bucketCnt_pos := by decide
  sorted j hj i hij hi := by
    change 1 ≤ i at hi
    rw [wrap_gnuBucket hi, wrap_gnuBucket (by omega)]
    split_ifs <;> omega
  bucket_first i hi h1 := by
    change 1 ≤ i at h1
    have hb0 : wrapView.bucketAt wrapImage 0 = 1 := by decide
    have hb1 : wrapView.bucketAt wrapImage 1 = 2 ^ 32 - 1 := by decide
    rw [wrap_gnuBucket h1]
    split_ifs with h
    · rw [hb0, wrap_gnuBucket le_rfl]; exact ⟨le_rfl, h1, by decide⟩
    · rw [hb1, wrap_gnuBucket (by decide)]; exact ⟨by decide, by omega, by decide⟩
  bucket_empty b hb hall := by
    change b < 2 at hb
    interval_cases b
    · exact absurd (wrap_gnuBucket le_rfl) (hall 1 (by decide) le_rfl)
    · exact absurd (wrap_gnuBucket (by decide)) (hall (2 ^ 32) (by decide) (by decide))
  chain_hash i hi h1 := by
    change 1 ≤ i at h1
    rw [show wrapView.symoffset = 1 from rfl, wrapImage_chainAt (by omega)]
    unfold wrapChain wrapNames
    split_ifs <;> first | omega | decide
  chain_last i hi h1 := by
    change 1 ≤ i at h1
    rw [show wrapView.symoffset = 1 from rfl, wrapImage_chainAt (by omega), wrap_last_iff h1 hi,
      Nat.and_one_is_mod]
    unfold wrapChain
    split_ifs <;> omega
  bloomSz_pow := ⟨0, rfl⟩
  bloomShift_lt := by decide
  bloom i _ _ := by
    have hw : wrapView.bloomAt .arm64 wrapImage 0 = 2 ^ 64 - 1 := by decide
    simp only [show wrapView.bloomSz = 1 from rfl, Nat.mod_one, hw, Nat.testBit_two_pow_sub_one,
      show Arch.wordBits .arm64 = 64 from rfl, decide_eq_true_eq]
    exact ⟨Nat.mod_lt _ (by decide), Nat.mod_lt _ (by decide)⟩

/-- Past `2 ^ 32` symbols the walk's `uint32_t` index wraps: from `0xffffffff` the lookup of
`b` steps to index 0, compares `b` with symbol 0's name against symbol `2 ^ 32`'s chain
word, stops there, and finds `b` among no undefined symbol either. -/
theorem gnuHashLookup_wraps :
    GnuHashTable .arm64 wrapImage wrapView (2 ^ 32 + 1) wrapNames ∧
      wrapNames (2 ^ 32) = [98] ∧
      xhElfGnuHashLookup .arm64 wrapImage wrapView [98] = some (.error .notfnd) :=
  ⟨wrapImage_table, rfl, rfl⟩

/-! ## What a lookup returns on every image -/

/-- What every lookup of `symbol` can return, whatever the tables hold: an index whose name
`strcmp` matched, or `NOT_FOUND`. -/
def LookupSound (A : Arch) (m : Mem) (v : XhElf) (symbol : List UInt8) :
    Option (Except XhErrno ℕ) → Prop
  | some (.ok k) => v.nameIs A m symbol k = true
  | some (.error e) => e = .notfnd
  | none => True

section Sound

variable {A : Arch} {m : Mem} {v : XhElf} {s : List UInt8}

theorem lookupSound_foundOrNotfnd {o : Option ℕ} (h : ∀ k, o = some k → v.nameIs A m s k = true) :
    LookupSound A m v s (some (foundOrNotfnd o)) := by
  cases o with
  | none => rfl
  | some k => exact h k rfl

theorem hashLookupLoop_sound : ∀ (fuel i : ℕ), LookupSound A m v s (xhElfHashLookupLoop A m v s fuel i)
  | 0, _ => trivial
  | fuel + 1, i => by
    unfold xhElfHashLookupLoop
    split_ifs with h0 hn
    · rfl
    · exact hn
    · exact hashLookupLoop_sound fuel _

theorem gnuHashLookupDefLoop_sound (hash : ℕ) :
    ∀ (fuel i : ℕ), LookupSound A m v s (xhElfGnuHashLookupDefLoop A m v hash s fuel i)
  | 0, _ => trivial
  | fuel + 1, i => by
    unfold xhElfGnuHashLookupDefLoop
    dsimp only
    split_ifs with hm hl
    · exact hm.2
    · rfl
    · exact gnuHashLookupDefLoop_sound hash fuel _

theorem gnuHashLookupDef_sound : LookupSound A m v s (xhElfGnuHashLookupDef A m v s) := by
  unfold xhElfGnuHashLookupDef
  dsimp only
  split_ifs
  · rfl
  · rfl
  · exact gnuHashLookupDefLoop_sound _ _ _

theorem gnuHashLookup_sound : LookupSound A m v s (xhElfGnuHashLookup A m v s) := by
  have hdef := gnuHashLookupDef_sound (A := A) (m := m) (v := v) (s := s)
  have hundef : LookupSound A m v s (some (xhElfGnuHashLookupUndef A m v s)) :=
    lookupSound_foundOrNotfnd fun _ hk => List.find?_some hk
  unfold xhElfGnuHashLookup
  split
  · next h => rw [h] at hdef; exact hdef
  · split
    · next h => rw [h] at hundef; exact hundef
    · rfl
  · trivial

theorem findSymidxByName_sound : LookupSound A m v s (xhElfFindSymidxByName A m v s) := by
  unfold xhElfFindSymidxByName
  split
  · exact gnuHashLookup_sound
  · exact hashLookupLoop_sound _ _

/-- **A lookup returns only names it compared**, on every image: whatever the hash tables
hold (chains that cycle, wrong hashes, buckets out of range), an index that
`xh_elf_find_symidx_by_name` returns is one whose name at `strtab + symtab[k].st_name` is
`symbol`. -/
theorem findSymidxByName_holds_name {k : ℕ} (h : xhElfFindSymidxByName A m v s = some (.ok k)) :
    m.Holds (v.strtab + v.stName A m k) (s ++ [0]) := by
  have hs := findSymidxByName_sound (A := A) (m := m) (v := v) (s := s)
  rw [h] at hs
  exact (Mem.strEq_iff_holds _ _ _).1 hs

/-- `free`, undefined in `gnuImage`, is found by the scan below `symoffset`. -/
theorem findSymidxByName_holds_name_free :
    xhElfFindSymidxByName .arm64 gnuImage gnuView [102, 114, 101, 101] = some (.ok 1) ∧
      gnuImage.Holds (gnuView.strtab + gnuView.stName .arm64 gnuImage 1) [102, 114, 101, 101, 0] :=
  ⟨by decide, findSymidxByName_holds_name (s := [102, 114, 101, 101]) (by decide)⟩

end Sound

/-! ## The fuel of the chain walks -/

/-- The C loop that starts at `i`, moves by `next` and stops at an index `stop` accepts ends:
one of its steps is accepted. -/
def LoopEnds (next : ℕ → ℕ) (stop : ℕ → Bool) (i : ℕ) : Prop := ∃ n, stop (next^[n] i) = true

/-- Where the loop of `xh_elf_hash_lookup` stops: at `0`, or at the name sought. -/
def hashLoopStop (A : Arch) (m : Mem) (v : XhElf) (s : List UInt8) (j : ℕ) : Bool :=
  decide (j = 0) || v.nameIs A m s j

/-- Where the loop of `xh_elf_gnu_hash_lookup_def` stops: at the name sought under its hash,
or at the last entry of the chain, whose `symhash` has its low bit set. -/
def gnuLoopStop (A : Arch) (m : Mem) (v : XhElf) (hash : ℕ) (s : List UInt8) (j : ℕ) : Bool :=
  let symhash := v.chainAt m ((j + 2 ^ 32 - v.symoffset) % 2 ^ 32)
  decide (hash ||| 1 = symhash ||| 1 ∧ v.nameIs A m s j = true) || decide (symhash &&& 1 ≠ 0)

section Fuel

variable {β : Type} {next : ℕ → ℕ} {stop : ℕ → Bool}

/-- A loop on fuel that returns where `stop` accepts and otherwise moves by `next` runs out of
fuel exactly when none of its first `fuel` steps is accepted. -/
theorem fuelLoop_eq_none_iff (L : ℕ → ℕ → Option β) (hz : ∀ i, L 0 i = none)
    (hs : ∀ fuel i, stop i = false → L (fuel + 1) i = L fuel (next i))
    (ht : ∀ fuel i, stop i = true → L (fuel + 1) i ≠ none) :
    ∀ fuel i, L fuel i = none ↔ ∀ n < fuel, stop (next^[n] i) = false
  | 0, i => by simp [hz]
  | fuel + 1, i => by
    cases h : stop i
    · rw [hs fuel i h, fuelLoop_eq_none_iff L hz hs ht fuel (next i)]
      constructor
      · intro hn n hlt
        cases n with
        | zero => exact h
        | succ n => rw [Function.iterate_succ_apply]; exact hn n (by omega)
      · intro hn n hlt
        rw [← Function.iterate_succ_apply]
        exact hn (n + 1) (by omega)
    · exact iff_of_false (ht fuel i h) fun hn => absurd (hn 0 (by omega)) (by simp [h])

/-- From an index met twice on, a walk only meets the indices between the two. -/
theorem iterate_of_repeat {i a b : ℕ} (hab : a < b) (heq : next^[b] i = next^[a] i) {n : ℕ} (hn : a ≤ n) :
    next^[n] i = next^[a + (n - a) % (b - a)] i := by
  have hp : Function.IsPeriodicPt next (b - a) (next^[a] i) := by
    show next^[b - a] (next^[a] i) = next^[a] i
    rw [← Function.iterate_add_apply, Nat.sub_add_cancel hab.le, heq]
  rw [Nat.add_comm, Function.iterate_add_apply, hp.iterate_mod_apply, ← Function.iterate_add_apply,
    Nat.sub_add_cancel hn]

/-- A walk over indices below `N` that no step of its first `N` stops never stops: two of its
first `N + 1` indices coincide, and from there it repeats. -/
theorem never_stops {N : ℕ} (hnext : ∀ k, next k < N) {i : ℕ} (hi : i < N)
    (h : ∀ n < N, stop (next^[n] i) = false) (n : ℕ) : stop (next^[n] i) = false := by
  have hlt : ∀ n, next^[n] i < N := fun n => by
    cases n with
    | zero => exact hi
    | succ n => rw [Function.iterate_succ_apply']; exact hnext _
  obtain ⟨x, hx, y, hy, hxy, heq⟩ := Finset.exists_ne_map_eq_of_card_lt_of_maps_to
    (s := Finset.range (N + 1)) (t := Finset.range N) (by simp) fun n _ => Finset.mem_range.2 (hlt n)
  rw [Finset.mem_range] at hx hy
  obtain ⟨a, b, hab, hbN, heq⟩ : ∃ a b, a < b ∧ b ≤ N ∧ next^[b] i = next^[a] i := by
    rcases Nat.lt_or_gt_of_ne hxy with hlt | hlt
    · exact ⟨x, y, hlt, by omega, heq.symm⟩
    · exact ⟨y, x, hlt, by omega, heq⟩
  by_cases hn : n < N
  · exact h n hn
  · rw [iterate_of_repeat hab heq (by omega)]
    exact h _ (by have := Nat.mod_lt (n - a) (Nat.sub_pos_of_lt hab); omega)

/-- With fuel `N` and indices below `N`, a loop on fuel returns exactly when the loop it
models ends. -/
theorem fuelLoop_isSome_iff (L : ℕ → ℕ → Option β) (hz : ∀ i, L 0 i = none)
    (hs : ∀ fuel i, stop i = false → L (fuel + 1) i = L fuel (next i))
    (ht : ∀ fuel i, stop i = true → L (fuel + 1) i ≠ none) {N : ℕ} (hnext : ∀ k, next k < N) {i : ℕ}
    (hi : i < N) : (L N i).isSome ↔ LoopEnds next stop i := by
  rw [← Option.ne_none_iff_isSome, Ne, fuelLoop_eq_none_iff L hz hs ht]
  constructor
  · intro h
    by_contra hne
    exact h fun n _ => Bool.eq_false_iff.2 fun hn => hne ⟨n, hn⟩
  · rintro ⟨n, hn⟩ h
    rw [never_stops hnext hi h n] at hn
    exact Bool.false_ne_true hn

end Fuel

section Walks

variable {A : Arch} {m : Mem} {v : XhElf} {s : List UInt8}

theorem chainAt_lt (k : ℕ) : v.chainAt m k < 2 ^ 32 := lt_of_lt_of_eq (Mem.read_lt _ _ 4) (by norm_num)

/-- **The classic lookup's fuel never cuts its loop short**: from a `uint32_t` index, the walk
of `xh_elf_hash_lookup` returns exactly when the C loop `for(; 0 != i; i = chain[i])`, with its
`strcmp`, ends; a `none` of the model is a lookup that never returns. -/
theorem hashLookupLoop_returns_iff {i : ℕ} (hi : i < 2 ^ 32) :
    (xhElfHashLookupLoop A m v s loopFuel i).isSome ↔ LoopEnds (v.chainAt m) (hashLoopStop A m v s) i :=
  fuelLoop_isSome_iff (xhElfHashLookupLoop A m v s) (fun _ => rfl)
    (fun fuel i h => by
      simp only [hashLoopStop, Bool.or_eq_false_iff, decide_eq_false_iff_not] at h
      rw [xhElfHashLookupLoop, if_neg h.1, if_neg (by simp [h.2])])
    (fun fuel i h => by
      simp only [hashLoopStop, Bool.or_eq_true, decide_eq_true_eq] at h
      rw [xhElfHashLookupLoop]
      split_ifs with h0 hn
      · exact Option.some_ne_none _
      · exact Option.some_ne_none _
      · exact (h.elim h0 hn).elim)
    chainAt_lt hi

/-- A walk from `malloc`'s bucket in `classicImage`. -/
theorem hashLookupLoop_returns_iff_classic :
    (1 : ℕ) < 2 ^ 32 ∧
      ((xhElfHashLookupLoop .arm64 classicImage classicView [109, 97, 108, 108, 111, 99] loopFuel 1).isSome ↔
        LoopEnds (classicView.chainAt classicImage)
          (hashLoopStop .arm64 classicImage classicView [109, 97, 108, 108, 111, 99]) 1) :=
  ⟨by decide, hashLookupLoop_returns_iff (by decide)⟩

/-- **The GNU lookup's fuel never cuts its loop short**: from a `uint32_t` index, the walk of
`xh_elf_gnu_hash_lookup_def` returns exactly when its C loop `while(1)`, which stops at the
name sought or at the chain's last entry and otherwise takes `i++`, ends. -/
theorem gnuHashLookupDefLoop_returns_iff (hash : ℕ) {i : ℕ} (hi : i < 2 ^ 32) :
    (xhElfGnuHashLookupDefLoop A m v hash s loopFuel i).isSome ↔
      LoopEnds (fun j => (j + 1) % 2 ^ 32) (gnuLoopStop A m v hash s) i :=
  fuelLoop_isSome_iff (xhElfGnuHashLookupDefLoop A m v hash s) (fun _ => rfl)
    (fun fuel i h => by
      simp only [gnuLoopStop, Bool.or_eq_false_iff, decide_eq_false_iff_not] at h
      rw [xhElfGnuHashLookupDefLoop, if_neg h.1, if_neg h.2])
    (fun fuel i h => by
      simp only [gnuLoopStop, Bool.or_eq_true, decide_eq_true_eq] at h
      rw [xhElfGnuHashLookupDefLoop]
      split_ifs with hm hl
      · exact Option.some_ne_none _
      · exact Option.some_ne_none _
      · exact (h.elim hm hl).elim)
    (fun k => (Nat.mod_lt (k + 1) (Nat.two_pow_pos 32) : (k + 1) % 2 ^ 32 < 2 ^ 32)) hi

/-- A walk of `gnuImage` under the hash of `free`. -/
theorem gnuHashLookupDefLoop_returns_iff_free :
    (1 : ℕ) < 2 ^ 32 ∧
      ((xhElfGnuHashLookupDefLoop .arm64 gnuImage gnuView (xhElfGnuHash [102, 114, 101, 101])
          [102, 114, 101, 101] loopFuel 1).isSome ↔
        LoopEnds (fun j => (j + 1) % 2 ^ 32)
          (gnuLoopStop .arm64 gnuImage gnuView (xhElfGnuHash [102, 114, 101, 101]) [102, 114, 101, 101]) 1) :=
  ⟨by decide, gnuHashLookupDefLoop_returns_iff _ (by decide)⟩

end Walks

end XHook
