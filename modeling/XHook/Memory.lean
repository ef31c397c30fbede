import Mathlib.Data.Nat.Bitwise
import Mathlib.Logic.Function.Basic
import Mathlib.Data.List.Basic

/-!
# Byte memory of the hooked process

The loaded image, its tables and its GOT slots live in one byte-addressed memory.
`Mem.read m a n` is the little-endian `n`-byte load at `a` that ARM and AArch64
perform for `*(uintN_t *)a`, and `Mem.write` the store.

* `read_write_self`, `read_write_of_sep`: a store is read back, and a load of
  disjoint bytes does not see it.
* `Mem.bytes`, `Mem.Holds`: the bytes of a range as a list, and a list stored at
  an address.
* `strEq_iff_eq`: `0 == strcmp(s, p)` for a C string `s` and a C string stored at `p`.
-/

namespace XHook

/-- The address space of the process: one byte per address. -/
abbrev Mem := ℕ → UInt8

/-- `[a, a + n)` and `[b, b + k)` are disjoint. -/
def Sep (a n b k : ℕ) : Prop := a + n ≤ b ∨ b + k ≤ a

theorem Sep.symm {a n b k : ℕ} (h : Sep a n b k) : Sep b k a n := Or.symm h

theorem byte_toNat_ofNat (v : ℕ) : (UInt8.ofNat v).toNat = v % 256 := by
  simp [UInt8.toNat, UInt8.ofNat, BitVec.toNat_ofNat]

namespace Mem

/-- The little-endian number in the `n` bytes at `a`. -/
def read (m : Mem) (a : ℕ) : ℕ → ℕ
  | 0 => 0
  | n + 1 => (m a).toNat + 256 * m.read (a + 1) n

/-- Store the low `n` bytes of `v` at `a`, little-endian. -/
def write (m : Mem) (a : ℕ) : ℕ → ℕ → Mem
  | 0, _ => m
  | n + 1, v => fun x => if x = a then UInt8.ofNat v else m.write (a + 1) n (v / 256) x

/-- The `n` bytes at `a`, in address order. -/
def bytes (m : Mem) (a : ℕ) : ℕ → List UInt8
  | 0 => []
  | n + 1 => m a :: m.bytes (a + 1) n

/-- The bytes of `l` are stored at `a`. -/
def Holds (m : Mem) (a : ℕ) (l : List UInt8) : Prop := m.bytes a l.length = l

instance (m : Mem) (a : ℕ) (l : List UInt8) : Decidable (m.Holds a l) :=
  inferInstanceAs (Decidable (_ = _))

variable {m m' : Mem}

theorem read_lt (m : Mem) (a n : ℕ) : m.read a n < 256 ^ n := by
  induction n generalizing a with
  | zero => simp [read]
  | succ n ih =>
    have := ih (a + 1); have := (m a).toNat_lt_size
    simp only [read, pow_succ]; change _ < 256 at this; omega

theorem write_succ_apply (a n v x : ℕ) :
    m.write a (n + 1) v x = if x = a then UInt8.ofNat v else m.write (a + 1) n (v / 256) x := rfl

theorem write_apply_of_not_mem {a n x : ℕ} (v : ℕ) (h : x < a ∨ a + n ≤ x) :
    m.write a n v x = m x := by
  induction n generalizing a v with
  | zero => rfl
  | succ n ih =>
    rw [write_succ_apply, if_neg (by omega), ih _ (by omega)]

theorem read_congr {a n : ℕ} (h : ∀ i < n, m (a + i) = m' (a + i)) : m.read a n = m'.read a n := by
  induction n generalizing a with
  | zero => rfl
  | succ n ih =>
    simp only [read]
    rw [show m a = m' a from h 0 (by omega), ih fun i hi => by
      rw [show a + 1 + i = a + (i + 1) by omega]; exact h (i + 1) (by omega)]

theorem read_write_of_sep {a n b k : ℕ} (v : ℕ) (h : Sep a n b k) :
    (m.write a n v).read b k = m.read b k :=
  read_congr fun i hi => write_apply_of_not_mem v (by unfold Sep at h; omega)

theorem read_write_self (a n v : ℕ) : (m.write a n v).read a n = v % 256 ^ n := by
  induction n generalizing a v with
  | zero => simp [read, Nat.mod_one]
  | succ n ih =>
    have hr : Mem.read (m.write a (n + 1) v) (a + 1) n = (m.write (a + 1) n (v / 256)).read (a + 1) n :=
      read_congr fun i _ => if_neg (by omega)
    simp only [read, hr, ih, pow_succ', write_succ_apply, if_pos, byte_toNat_ofNat]
    rw [Nat.mod_mul]

theorem bytes_length (m : Mem) (a n : ℕ) : (m.bytes a n).length = n := by
  induction n generalizing a <;> simp [bytes, *]

theorem bytes_congr {a n : ℕ} (h : ∀ i < n, m (a + i) = m' (a + i)) : m.bytes a n = m'.bytes a n := by
  induction n generalizing a with
  | zero => rfl
  | succ n ih =>
    simp only [bytes]
    rw [show m a = m' a from h 0 (by omega), ih fun i hi => by
      rw [show a + 1 + i = a + (i + 1) by omega]; exact h (i + 1) (by omega)]

theorem bytes_add (m : Mem) (a n k : ℕ) : m.bytes a (n + k) = m.bytes a n ++ m.bytes (a + n) k := by
  induction n generalizing a with
  | zero => simp [bytes]
  | succ n ih => simp [Nat.add_right_comm n 1 k, bytes, ih, Nat.add_right_comm a 1, Nat.add_assoc]

theorem getElem_bytes (m : Mem) (a n i : ℕ) (h : i < (m.bytes a n).length) :
    (m.bytes a n)[i] = m (a + i) := by
  induction n generalizing a i with
  | zero => simp [bytes] at h
  | succ n ih =>
    cases i with
    | zero => rfl
    | succ i => simp only [bytes, List.getElem_cons_succ, ih]; rw [Nat.add_right_comm, Nat.add_assoc]

theorem holds_append {a : ℕ} {l₁ l₂ : List UInt8} :
    m.Holds a (l₁ ++ l₂) ↔ m.Holds a l₁ ∧ m.Holds (a + l₁.length) l₂ := by
  unfold Holds
  rw [List.length_append, bytes_add]
  constructor
  · intro h; exact List.append_inj h (bytes_length m a _)
  · rintro ⟨h₁, h₂⟩; rw [h₁, h₂]

/-- What `m` holds at `a` is read back byte by byte. -/
theorem Holds.apply {a : ℕ} {l : List UInt8} (h : m.Holds a l) (i : ℕ) (hi : i < l.length) :
    m (a + i) = l[i] := by
  unfold Holds at h
  rw [← getElem_bytes m a l.length i (by rw [bytes_length]; exact hi)]
  simp only [h]

theorem holds_of_apply {a : ℕ} {l : List UInt8} (h : ∀ i (hi : i < l.length), m (a + i) = l[i]) :
    m.Holds a l := by
  unfold Holds
  apply List.ext_getElem (bytes_length m a _)
  intro i h1 h2
  rw [getElem_bytes, h i h2]

/-- The `n` little-endian bytes of `v`, the bytes `write` stores. -/
def leBytes : ℕ → ℕ → List UInt8
  | 0, _ => []
  | n + 1, v => UInt8.ofNat v :: leBytes n (v / 256)

theorem leBytes_length (n v : ℕ) : (leBytes n v).length = n := by
  induction n generalizing v <;> simp [leBytes, *]

/-- Consecutive little-endian fields, each a `(size, value)` pair. -/
def leFields (fs : List (ℕ × ℕ)) : List UInt8 := fs.flatMap fun f => leBytes f.1 f.2

/-- A load of stored little-endian bytes reads the number back. -/
theorem read_of_holds_leBytes {a n v : ℕ} (h : m.Holds a (leBytes n v)) : m.read a n = v % 256 ^ n := by
  induction n generalizing a v with
  | zero => simp [read, Nat.mod_one]
  | succ n ih =>
    unfold Holds at h
    simp only [leBytes_length, leBytes, bytes, List.cons.injEq] at h
    rw [read, h.1, byte_toNat_ofNat, ih (by unfold Holds; rw [leBytes_length]; exact h.2), pow_succ',
      Nat.mod_mul]

/-- The memory holding each segment's bytes at its base, the first segment that covers an
address winning, and zero elsewhere: concrete images are built this way. -/
def ofSegs : List (ℕ × List UInt8) → Mem
  | [] => fun _ => 0
  | (base, l) :: segs => fun a =>
    if base ≤ a then (l.get? (a - base)).getD (ofSegs segs a) else ofSegs segs a

/-- The little-endian number with each field `(offset, size, value)` at its byte offset. -/
def leNum : List (ℕ × ℕ × ℕ) → ℕ
  | [] => 0
  | (off, n, v) :: fs => (v % 256 ^ n) <<< (8 * off) ||| leNum fs

/-- The field holding the bytes `l` at offset `off`. -/
def bytesField (off : ℕ) (l : List UInt8) : ℕ × ℕ × ℕ :=
  (off, l.length, l.foldr (fun b acc => b.toNat + 256 * acc) 0)

/-- The memory holding the fields `fs` at their offsets from `base`, within
`[base, base + len)`, and zero elsewhere: concrete images are built this way, as one number
whose bytes a load reads. -/
def ofFields (base len : ℕ) (fs : List (ℕ × ℕ × ℕ)) : Mem := fun a =>
  if base ≤ a ∧ a < base + len then UInt8.ofNat (leNum fs >>> (8 * (a - base))) else 0

theorem holds_ofSegs_cons (base : ℕ) (l : List UInt8) (segs : List (ℕ × List UInt8)) :
    (ofSegs ((base, l) :: segs)).Holds base l :=
  holds_of_apply fun i hi => by
    simp [ofSegs, List.getElem?_eq_getElem hi]

end Mem

/-- A C string: its bytes before the terminating NUL. -/
structure CStr where
  bytes : List UInt8
  nul_free : 0 ∉ bytes

namespace Mem

variable {m : Mem}

/-- `0 == strcmp(s, p)`, for `s` free of NUL bytes. -/
def strEq (m : Mem) : List UInt8 → ℕ → Bool
  | [], p => m p == 0
  | c :: s, p => m p == c && m.strEq s (p + 1)

theorem strEq_iff_holds (m : Mem) (s : List UInt8) (p : ℕ) :
    m.strEq s p = true ↔ m.Holds p (s ++ [0]) := by
  induction s generalizing p with
  | nil => simp [strEq, Holds, bytes]
  | cons c s ih =>
    simp only [strEq, Bool.and_eq_true, beq_iff_eq, ih, List.cons_append, Holds, List.length_cons,
      bytes, List.cons.injEq]
    rfl

/-- Two C strings stored at one address are equal. -/
theorem eq_of_holds {p : ℕ} {s t : List UInt8} (hs : 0 ∉ s) (ht : 0 ∉ t)
    (h₁ : m.Holds p (s ++ [0])) (h₂ : m.Holds p (t ++ [0])) : s = t := by
  rw [← strEq_iff_holds] at h₁ h₂
  induction s generalizing p t with
  | nil =>
    cases t with
    | nil => rfl
    | cons d t =>
      simp only [strEq, beq_iff_eq, Bool.and_eq_true] at h₁ h₂
      exact absurd (h₂.1.symm.trans h₁) (fun e => ht (e ▸ List.mem_cons_self _ _))
  | cons c s ih =>
    cases t with
    | nil =>
      simp only [strEq, beq_iff_eq, Bool.and_eq_true] at h₁ h₂
      exact absurd (h₁.1.symm.trans h₂) (fun e => hs (e ▸ List.mem_cons_self _ _))
    | cons d t =>
      simp only [strEq, beq_iff_eq, Bool.and_eq_true] at h₁ h₂
      rw [← h₁.1, h₂.1, ih (fun h => hs (List.mem_cons_of_mem _ h))
        (fun h => ht (List.mem_cons_of_mem _ h)) h₁.2 h₂.2]

/-- **`strcmp` against a stored name**: for a C string `t` stored at `p`,
`0 == strcmp(s, p)` exactly when `s = t`. -/
theorem strEq_iff_eq {p : ℕ} (s : CStr) {t : List UInt8} (ht : 0 ∉ t) (h : m.Holds p (t ++ [0])) :
    m.strEq s.bytes p = true ↔ s.bytes = t := by
  rw [strEq_iff_holds]
  exact ⟨fun hs => eq_of_holds s.nul_free ht hs h, fun e => e ▸ h⟩

end Mem

end XHook
