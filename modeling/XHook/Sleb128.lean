import XHook.Elf
import XHook.Memory
import Mathlib.Data.Int.ModEq
import Mathlib.Data.Nat.Bitwise
import Mathlib.Tactic.Ring
import Mathlib.Tactic.Positivity
import Mathlib.Tactic.NormNum

/-!
# The SLEB128 decoder

`xh_elf_sleb128_decoder_next` reads seven payload bits a byte at shifts `0, 7, …`
into a `size_t`, and sign-extends from the last byte. `Sleb128Enc e n` says that
`e` encodes `n`; `sleb128Encode` is the minimal encoding.

* `sleb128Loop_enc`: on an encoding whose every payload lands below bit `w`, the loop
  returns `n` modulo `2 ^ w` and leaves exactly the bytes after it.
* `sleb128Loop_fits`: so does every encoding of at most `⌈w / 7⌉` bytes; `WordEnc` names
  those of an integer congruent to a given word, the minimal ones among them
  (`encWord_wordEnc`).
-/

namespace XHook

theorem or_two_pow_mul {a s : ℕ} (b : ℕ) (ha : a < 2 ^ s) : a ||| 2 ^ s * b = a + 2 ^ s * b := by
  apply Nat.eq_of_testBit_eq
  intro j
  rw [Nat.testBit_or, Nat.add_comm, Nat.testBit_mul_pow_two_add _ ha,
    show 2 ^ s * b = 2 ^ s * b + 0 from rfl, Nat.testBit_mul_pow_two_add _ (Nat.two_pow_pos s)]
  by_cases hj : j < s
  · simp [hj]
  · simp [hj, Nat.testBit_eq_false_of_lt
      (lt_of_lt_of_le ha (Nat.pow_le_pow_right (n := 2) (by omega) (show s ≤ j by omega)))]

/-- The `do … while (byte & 128)` loop of `xh_elf_sleb128_decoder_next` over the bytes
left in the range, with its accumulators `value` and `shift`, and the sign extension
after it. A shift past the word leaves nothing of the payload. -/
def sleb128Loop (w : ℕ) : List UInt8 → ℕ → ℕ → Except XhErrno (ℕ × List UInt8)
  | [], _, _ => .error .format
  | byte :: rest, value, shift =>
    let value := value ||| ((byte.toNat &&& 127) <<< shift) % 2 ^ w
    if byte.toNat &&& 128 ≠ 0 then sleb128Loop w rest value (shift + 7)
    else if shift + 7 < w ∧ byte.toNat &&& 64 ≠ 0 then .ok (value ||| (2 ^ w - 2 ^ (shift + 7)), rest)
    else .ok (value, rest)

/-- `xh_elf_sleb128_decoder_t`: a cursor over the byte range `[cur, end)`. -/
structure Sleb128Decoder where
  cur : ℕ
  «end» : ℕ
deriving DecidableEq, Repr

/-- `xh_elf_sleb128_decoder_init`; `rel_sz` is an `ElfW(Word)`. -/
def xhElfSleb128DecoderInit (rel relSz : ℕ) : Sleb128Decoder := ⟨rel, rel + relSz % 2 ^ 32⟩

/-- The bytes the decoder has left. -/
def Sleb128Decoder.left (d : Sleb128Decoder) (m : Mem) : List UInt8 := m.bytes d.cur (d.end - d.cur)

/-- `xh_elf_sleb128_decoder_next`: the status, the value stored in `*ret`, and the
cursor it leaves (at `end` when the range runs out). -/
def xhElfSleb128DecoderNext (w : ℕ) (m : Mem) (d : Sleb128Decoder) :
    Except XhErrno ℕ × Sleb128Decoder :=
  match sleb128Loop w (d.left m) 0 0 with
  | .ok (v, rest) => (.ok v, { d with cur := d.end - rest.length })
  | .error e => (.error e, { d with cur := max d.cur d.end })

/-- `e` is a SLEB128 encoding of `n`: every byte but the last has bit 7 set, and the
payloads, lowest first, spell `n` in two's complement. -/
inductive Sleb128Enc : List UInt8 → ℤ → Prop
  | last (b : UInt8) (hb : b.toNat < 128) :
      Sleb128Enc [b] (b.toNat - if 64 ≤ b.toNat then 128 else 0)
  | cont (b : UInt8) {e : List UInt8} {n : ℤ} (hb : 128 ≤ b.toNat) (he : Sleb128Enc e n) :
      Sleb128Enc (b :: e) (b.toNat - 128 + 128 * n)

theorem and127_of_lt {b : ℕ} (hb : b < 128) : b &&& 127 = b :=
  Nat.and_pow_two_sub_one_of_lt_two_pow (n := 7) hb

theorem and127_of_ge {b : ℕ} (hb : 128 ≤ b) (hb' : b < 256) : b &&& 127 = b - 128 := by
  rw [show (127 : ℕ) = 2 ^ 7 - 1 from rfl, Nat.and_pow_two_sub_one_eq_mod]; omega

theorem and_two_pow_eq {b i : ℕ} (hb : b < 2 ^ (i + 1)) : b &&& 2 ^ i = if 2 ^ i ≤ b then 2 ^ i else 0 := by
  rw [Nat.land_comm, Nat.two_pow_and, Nat.testBit_to_div_mod]
  have h2 : 2 ^ (i + 1) = 2 ^ i * 2 := Nat.pow_succ 2 i
  have hp := Nat.two_pow_pos i
  by_cases h : 2 ^ i ≤ b
  · have : b / 2 ^ i = 1 := Nat.div_eq_of_lt_le (by omega) (by omega)
    simp [h, this]
  · simp [h, Nat.div_eq_of_lt (Nat.lt_of_not_le h)]

theorem and128_eq {b : ℕ} (hb : b < 256) : b &&& 128 = if 128 ≤ b then 128 else 0 :=
  and_two_pow_eq (i := 7) hb

theorem and64_eq {b : ℕ} (hb : b < 128) : b &&& 64 = if 64 ≤ b then 64 else 0 :=
  and_two_pow_eq (i := 6) hb

/-- One payload `p` stored at `shift < w`: what the loop's `value |= …` adds. -/
theorem shift_mod {w shift : ℕ} (p : ℕ) (hs : shift < w) :
    (p <<< shift) % 2 ^ w = 2 ^ shift * (p % 2 ^ (w - shift)) := by
  rw [Nat.shiftLeft_eq, Nat.mul_comm, show w = shift + (w - shift) by omega, Nat.pow_add,
    Nat.mul_mod_mul_left, Nat.add_sub_cancel_left]

theorem two_pow_mul_mod_lt {value shift w : ℕ} (x : ℕ) (hv : value < 2 ^ shift) (hs : shift ≤ w) :
    value + 2 ^ shift * (x % 2 ^ (w - shift)) < 2 ^ w := by
  have h1 : x % 2 ^ (w - shift) + 1 ≤ 2 ^ (w - shift) := Nat.mod_lt _ (Nat.two_pow_pos _)
  have h2 : 2 ^ shift * (x % 2 ^ (w - shift) + 1) ≤ 2 ^ shift * 2 ^ (w - shift) :=
    Nat.mul_le_mul_left _ h1
  rw [← Nat.pow_add, Nat.add_sub_cancel' hs] at h2
  rw [Nat.mul_add] at h2; omega

theorem modEq_two_pow_mul_mod {shift w : ℕ} (x : ℕ) (hs : shift ≤ w) :
    ((2 ^ shift * (x % 2 ^ (w - shift)) : ℕ) : ℤ) ≡ x * 2 ^ shift [ZMOD 2 ^ w] := by
  have h : (2 : ℤ) ^ w = 2 ^ shift * 2 ^ (w - shift) := by rw [← pow_add, Nat.add_sub_cancel' hs]
  rw [h, mul_comm (x : ℤ)]
  push_cast
  exact (Int.mod_modEq _ _).mul_left'

/-- The loop on a byte with bit 7 set: it adds the payload and goes on. -/
theorem sleb128Loop_cont {w value shift : ℕ} {b : UInt8} (t : List UInt8) (hb : 128 ≤ b.toNat)
    (hv : value < 2 ^ shift) (hs : shift < w) :
    sleb128Loop w (b :: t) value shift =
      sleb128Loop w t (value + 2 ^ shift * ((b.toNat - 128) % 2 ^ (w - shift))) (shift + 7) := by
  have hb' := b.toNat_lt_size
  simp only [sleb128Loop, and127_of_ge hb hb', shift_mod _ hs, or_two_pow_mul _ hv, and128_eq hb',
    if_pos hb, ne_eq, show (128 : ℕ) ≠ 0 by omega, not_false_eq_true, if_true]

/-- The loop on a last byte: it adds the payload and sign-extends from bit 6. -/
theorem sleb128Loop_last {w value shift : ℕ} {b : UInt8} (t : List UInt8) (hb : b.toNat < 128)
    (hv : value < 2 ^ shift) (hs : shift < w) :
    sleb128Loop w (b :: t) value shift =
      .ok ((if shift + 7 < w ∧ 64 ≤ b.toNat then
        (value + 2 ^ shift * (b.toNat % 2 ^ (w - shift))) ||| (2 ^ w - 2 ^ (shift + 7))
        else value + 2 ^ shift * (b.toNat % 2 ^ (w - shift))), t) := by
  simp only [sleb128Loop, and127_of_lt hb, shift_mod _ hs, or_two_pow_mul _ hv,
    and128_eq b.toNat_lt_size, show ¬ 128 ≤ b.toNat by omega, if_false, ne_eq, not_true_eq_false,
    and64_eq hb]
  by_cases h64 : 64 ≤ b.toNat <;> by_cases hw : shift + 7 < w <;> simp [h64, hw]

/-- The sign extension of a last byte with bit 6 set, when it lands inside the word. -/
theorem sign_extend_eq {w value shift p : ℕ} (hp : p < 128) (hv : value < 2 ^ shift) (hw : shift + 7 < w) :
    (value + 2 ^ shift * (p % 2 ^ (w - shift))) ||| (2 ^ w - 2 ^ (shift + 7)) =
      value + 2 ^ shift * p + (2 ^ w - 2 ^ (shift + 7)) ∧
    value + 2 ^ shift * p < 2 ^ (shift + 7) ∧ 2 ^ (shift + 7) ≤ 2 ^ w := by
  have h7 : 2 ^ (shift + 7) = 2 ^ shift * 128 := Nat.pow_add 2 shift 7
  have hmod : p % 2 ^ (w - shift) = p := Nat.mod_eq_of_lt (lt_of_lt_of_le hp
    (Nat.pow_le_pow_right (n := 2) (by omega) (show 7 ≤ w - shift by omega)))
  have hlo : value + 2 ^ shift * p < 2 ^ (shift + 7) := by
    have := Nat.mul_le_mul_left (2 ^ shift) (show p ≤ 127 by omega); omega
  have hsplit : 2 ^ w - 2 ^ (shift + 7) = 2 ^ (shift + 7) * (2 ^ (w - (shift + 7)) - 1) := by
    rw [Nat.mul_sub, Nat.mul_one, ← Nat.pow_add, Nat.add_sub_cancel' hw.le]
  refine ⟨?_, hlo, Nat.pow_le_pow_right (by omega) hw.le⟩
  rw [hmod, hsplit, or_two_pow_mul _ hlo]

/-- The last byte of an encoding, read at a shift inside the word: with or without the sign
extension, the loop returns `value + n * 2 ^ shift` modulo `2 ^ w`. -/
theorem sleb128Loop_last_modEq {w value shift : ℕ} {b : UInt8} (t : List UInt8) (hb : b.toNat < 128)
    (hv : value < 2 ^ shift) (hs : shift < w) :
    ∃ r, sleb128Loop w (b :: t) value shift = .ok (r, t) ∧ r < 2 ^ w ∧
      (r : ℤ) ≡ value + ((b.toNat : ℤ) - if 64 ≤ b.toNat then 128 else 0) * 2 ^ shift [ZMOD 2 ^ w] := by
  rw [sleb128Loop_last t hb hv hs]
  have hm := modEq_two_pow_mul_mod (w := w) b.toNat hs.le
  have hlt := two_pow_mul_mod_lt b.toNat hv hs.le
  refine ⟨_, rfl, ?_⟩
  by_cases h64 : 64 ≤ b.toNat
  · rw [if_pos h64]
    by_cases hw : shift + 7 < w
    · obtain ⟨heq, hlo, hle⟩ := sign_extend_eq hb hv hw
      rw [if_pos ⟨hw, h64⟩, heq]
      refine ⟨by omega, ?_⟩
      have h0 : ((2 : ℤ) ^ w) ≡ 0 [ZMOD 2 ^ w] := Int.modEq_zero_iff_dvd.2 dvd_rfl
      have h7 : (2 : ℤ) ^ (shift + 7) = 2 ^ shift * 128 := pow_add 2 shift 7
      push_cast [Nat.cast_sub hle]
      calc _ = (value : ℤ) + b.toNat * 2 ^ shift - 2 ^ (shift + 7) + 2 ^ w := by ring
        _ ≡ value + b.toNat * 2 ^ shift - 2 ^ (shift + 7) + 0 [ZMOD 2 ^ w] := (Int.ModEq.refl _).add h0
        _ = _ := by rw [h7]; ring
    · rw [if_neg (fun h => hw h.1)]
      refine ⟨hlt, ?_⟩
      have h0 : ((2 : ℤ) ^ shift * 128) ≡ 0 [ZMOD 2 ^ w] := Int.modEq_zero_iff_dvd.2 (by
        rw [show (128 : ℤ) = 2 ^ 7 from rfl, ← pow_add]; exact pow_dvd_pow _ (by omega))
      push_cast
      calc _ ≡ (value : ℤ) + b.toNat * 2 ^ shift [ZMOD 2 ^ w] := (Int.ModEq.refl _).add (by exact_mod_cast hm)
        _ = value + (b.toNat - 128) * 2 ^ shift + 2 ^ shift * 128 := by ring
        _ ≡ value + (b.toNat - 128) * 2 ^ shift + 0 [ZMOD 2 ^ w] := (Int.ModEq.refl _).add h0
        _ = _ := by ring
  · rw [if_neg (fun h => h64 h.2), if_neg h64]
    refine ⟨hlt, ?_⟩
    push_cast; simpa using (Int.ModEq.refl (value : ℤ)).add (by exact_mod_cast hm)

/-- **The decoder on an encoding.** Every payload of `e` lands below bit `w`: the loop
returns `value + n * 2 ^ shift` modulo `2 ^ w` and leaves the bytes after `e`. -/
theorem sleb128Loop_enc {w : ℕ} {e : List UInt8} {n : ℤ} (he : Sleb128Enc e n) (t : List UInt8) :
    ∀ {value shift : ℕ}, value < 2 ^ shift → shift + 7 * (e.length - 1) < w →
      ∃ r, sleb128Loop w (e ++ t) value shift = .ok (r, t) ∧ r < 2 ^ w ∧
        (r : ℤ) ≡ value + n * 2 ^ shift [ZMOD 2 ^ w] := by
  induction he with
  | last b hb =>
    intro value shift hv hs
    simp only [List.length_singleton, Nat.sub_self, Nat.mul_zero, Nat.add_zero] at hs
    exact sleb128Loop_last_modEq t hb hv hs
  | @cont b e' n' hb he ih =>
    intro value shift hv hs
    have hsw : shift < w := by omega
    have hlt : value + 2 ^ shift * ((b.toNat - 128) % 2 ^ (w - shift)) < 2 ^ (shift + 7) := by
      have := b.toNat_lt_size
      have : 2 ^ shift * ((b.toNat - 128) % 2 ^ (w - shift)) ≤ 2 ^ shift * 127 :=
        Nat.mul_le_mul_left _ (le_trans (Nat.mod_le _ _) (by change b.toNat < 256 at this; omega))
      rw [Nat.pow_add]; change _ < _ * 128; omega
    have hlen : shift + 7 + 7 * (e'.length - 1) < w := by
      cases he with
      | last => simp only [List.length_cons, List.length_singleton] at hs ⊢; omega
      | cont => simp only [List.length_cons] at hs ⊢; omega
    obtain ⟨r, hr, hrw, hrm⟩ := ih hlt hlen
    refine ⟨r, by rw [List.cons_append, sleb128Loop_cont _ hb hv hsw, hr], hrw, hrm.trans ?_⟩
    have hm := modEq_two_pow_mul_mod (w := w) (b.toNat - 128) hsw.le
    calc ((value + 2 ^ shift * ((b.toNat - 128) % 2 ^ (w - shift)) : ℕ) : ℤ) + n' * 2 ^ (shift + 7)
        = ((value : ℕ) : ℤ) + ((2 ^ shift * ((b.toNat - 128) % 2 ^ (w - shift)) : ℕ) : ℤ) +
            n' * 2 ^ (shift + 7) := by push_cast; ring
      _ ≡ value + ((b.toNat - 128 : ℕ) : ℤ) * 2 ^ shift + n' * 2 ^ (shift + 7) [ZMOD 2 ^ w] :=
            ((Int.ModEq.refl _).add hm).add (Int.ModEq.refl _)
      _ = _ := by push_cast [Nat.cast_sub hb]; ring

/-- The minimal SLEB128 encoding of `n`, spending at most `fuel` bytes before the last. -/
def sleb128EncodeAux : ℕ → ℤ → List UInt8
  | 0, n => [UInt8.ofNat (n % 128).toNat]
  | fuel + 1, n =>
    if -64 ≤ n ∧ n < 64 then [UInt8.ofNat (n % 128).toNat]
    else UInt8.ofNat ((n % 128).toNat + 128) :: sleb128EncodeAux fuel (n / 128)

/-- The minimal SLEB128 encoding of `n`. -/
def sleb128Encode (n : ℤ) : List UInt8 := sleb128EncodeAux n.natAbs n

theorem toNat_emod_128 (n : ℤ) : (n % 128).toNat < 128 := by omega

/-- A number of `[-64, 64)` is encoded by its one byte. -/
theorem sleb128Enc_small {n : ℤ} (h1 : -64 ≤ n) (h2 : n < 64) :
    Sleb128Enc [UInt8.ofNat (n % 128).toNat] n := by
  have hb : (UInt8.ofNat (n % 128).toNat).toNat = (n % 128).toNat := by
    rw [byte_toNat_ofNat]; exact Nat.mod_eq_of_lt (by have := toNat_emod_128 n; omega)
  have := Sleb128Enc.last (UInt8.ofNat (n % 128).toNat) (by rw [hb]; exact toNat_emod_128 n)
  convert this using 1
  rw [hb]; split <;> omega

theorem sleb128EncodeAux_enc : ∀ (fuel : ℕ) (n : ℤ), -(fuel + 64 : ℤ) ≤ n → n < fuel + 64 →
    Sleb128Enc (sleb128EncodeAux fuel n) n
  | 0, n, h1, h2 => sleb128Enc_small (by omega) (by omega)
  | fuel + 1, n, h1, h2 => by
    unfold sleb128EncodeAux
    split
    · exact sleb128Enc_small (by omega) (by omega)
    · have hb : (UInt8.ofNat ((n % 128).toNat + 128)).toNat = (n % 128).toNat + 128 := by
        rw [byte_toNat_ofNat]; exact Nat.mod_eq_of_lt (by have := toNat_emod_128 n; omega)
      have := Sleb128Enc.cont (UInt8.ofNat ((n % 128).toNat + 128)) (by rw [hb]; omega)
        (sleb128EncodeAux_enc fuel (n / 128) (by omega) (by omega))
      convert this using 1
      rw [hb]; omega

theorem sleb128Encode_enc (n : ℤ) : Sleb128Enc (sleb128Encode n) n :=
  sleb128EncodeAux_enc _ n (by omega) (by omega)

/-- An integer of `7 * j + 7` bits, two's complement, takes at most `j + 1` bytes. -/
theorem sleb128EncodeAux_length : ∀ (j fuel : ℕ) (n : ℤ), -(2 ^ (7 * j + 6) : ℤ) ≤ n →
    n < 2 ^ (7 * j + 6) → (sleb128EncodeAux fuel n).length ≤ j + 1
  | _, 0, _, _, _ => by simp [sleb128EncodeAux]
  | 0, fuel + 1, n, h1, h2 => by
    simp only [Nat.mul_zero, Nat.zero_add, show (2 : ℤ) ^ 6 = 64 from rfl] at h1 h2
    simp [sleb128EncodeAux, h1, h2]
  | j + 1, fuel + 1, n, h1, h2 => by
    unfold sleb128EncodeAux
    split
    · simp
    · have hp : (2 : ℤ) ^ (7 * (j + 1) + 6) = 128 * 2 ^ (7 * j + 6) := by
        rw [show 7 * (j + 1) + 6 = 7 + (7 * j + 6) by omega, pow_add]; rfl
      have := sleb128EncodeAux_length j fuel (n / 128) (by omega) (by omega)
      simp only [List.length_cons]; omega

/-- The representative of `x` modulo `2 ^ w` in `[-2 ^ (w - 1), 2 ^ (w - 1))`: the signed
word a packer writes for a `w`-bit field or difference. -/
def toSignedW (w : ℕ) (x : ℤ) : ℤ := if x % 2 ^ w < 2 ^ (w - 1) then x % 2 ^ w else x % 2 ^ w - 2 ^ w

theorem toSignedW_modEq (w : ℕ) (x : ℤ) : toSignedW w x ≡ x [ZMOD 2 ^ w] := by
  unfold toSignedW
  split
  · exact Int.mod_modEq x _
  · calc x % 2 ^ w - 2 ^ w ≡ x % 2 ^ w - 0 [ZMOD 2 ^ w] :=
          (Int.ModEq.refl _).sub (Int.modEq_zero_iff_dvd.2 dvd_rfl)
      _ = x % 2 ^ w := sub_zero _
      _ ≡ x [ZMOD 2 ^ w] := Int.mod_modEq x _

theorem toSignedW_range {w : ℕ} (hw : 0 < w) (x : ℤ) :
    -(2 ^ (w - 1) : ℤ) ≤ toSignedW w x ∧ toSignedW w x < 2 ^ (w - 1) := by
  have h2 : (2 : ℤ) ^ w = 2 * 2 ^ (w - 1) := by
    rw [← pow_succ', Nat.sub_add_cancel hw]
  have h0 := Int.emod_nonneg x (show (2 : ℤ) ^ w ≠ 0 by positivity)
  have h1 := Int.emod_lt_of_pos x (show (0 : ℤ) < 2 ^ w by positivity)
  unfold toSignedW
  split <;> omega

/-- The minimal SLEB128 encoding of the signed `A`-word congruent to `x`. -/
def encWord (A : Arch) (x : ℤ) : List UInt8 := sleb128Encode (toSignedW A.wordBits x)

theorem encWord_shift_lt (A : Arch) (x : ℤ) : 7 * ((encWord A x).length - 1) < A.wordBits := by
  have hr := toSignedW_range (w := A.wordBits) (by cases A <;> decide) x
  cases A with
  | arm =>
    have := sleb128EncodeAux_length 4 (toSignedW 32 x).natAbs (toSignedW 32 x)
      (by have h := hr.1; norm_num [Arch.wordBits] at h ⊢; omega)
      (by have h := hr.2; norm_num [Arch.wordBits] at h ⊢; omega)
    unfold encWord sleb128Encode; simp only [Arch.wordBits] at this ⊢; omega
  | arm64 =>
    have := sleb128EncodeAux_length 9 (toSignedW 64 x).natAbs (toSignedW 64 x)
      (by have h := hr.1; norm_num [Arch.wordBits] at h ⊢; omega)
      (by have h := hr.2; norm_num [Arch.wordBits] at h ⊢; omega)
    unfold encWord sleb128Encode; simp only [Arch.wordBits] at this ⊢; omega

theorem eq_toNat_of_modEq {w r : ℕ} {x : ℤ} (hr : r < 2 ^ w) (h : (r : ℤ) ≡ x [ZMOD 2 ^ w]) :
    r = (x % 2 ^ w).toNat := by
  have : (r : ℤ) % 2 ^ w = r := Int.emod_eq_of_lt (by omega) (by exact_mod_cast hr)
  rw [← h, this]; simp

/-- **Round trip of one word.** The loop decodes an encoding `e` of `n` of at most `⌈w / 7⌉`
bytes, followed by any bytes, to `n` modulo `2 ^ w`, and leaves those bytes. -/
theorem sleb128Loop_fits {w : ℕ} {e : List UInt8} {n : ℤ} (he : Sleb128Enc e n)
    (hlen : e.length ≤ (w + 6) / 7) (t : List UInt8) :
    sleb128Loop w (e ++ t) 0 0 = .ok ((n % 2 ^ w).toNat, t) := by
  have hpos : 0 < e.length := List.length_pos.2 (by cases he <;> simp)
  obtain ⟨r, hr, hrw, hrm⟩ := @sleb128Loop_enc w _ _ he t 0 0 (by simp) (by omega)
  rw [hr, eq_toNat_of_modEq hrw (by simpa using hrm)]

/-- `e` writes the word `x`: it is an SLEB128 encoding, of at most `⌈w / 7⌉` bytes, of an
integer congruent to `x` modulo `2 ^ w`. Every minimal encoding of a `w`-bit integer is one. -/
def WordEnc (w : ℕ) (e : List UInt8) (x : ℤ) : Prop :=
  ∃ n, Sleb128Enc e n ∧ e.length ≤ (w + 6) / 7 ∧ n ≡ x [ZMOD 2 ^ w]

/-- The minimal encoding of the signed word congruent to `x` writes `x`. -/
theorem encWord_wordEnc (A : Arch) (x : ℤ) : WordEnc A.wordBits (encWord A x) x :=
  ⟨_, sleb128Encode_enc _, by have := encWord_shift_lt A x; omega, toSignedW_modEq A.wordBits x⟩

/-- **`xh_elf_sleb128_decoder_next` on a stored word**: on a range that starts with a word `x`
written by `e`, it stores `x` modulo `2 ^ w` and moves the cursor past `e`. -/
theorem xhElfSleb128DecoderNext_wordEnc {w : ℕ} {m : Mem} {d : Sleb128Decoder} {e t : List UInt8}
    {x : ℤ} (he : WordEnc w e x) (h : d.left m = e ++ t) :
    xhElfSleb128DecoderNext w m d = (.ok (x % 2 ^ w).toNat, { d with cur := d.end - t.length }) := by
  obtain ⟨n, hn, hlen, hx⟩ := he
  simp only [xhElfSleb128DecoderNext, h, sleb128Loop_fits hn hlen, show n % 2 ^ w = x % 2 ^ w from hx]

/-- The decoder on an encoding `e` of `n` that fits the word stores `n` modulo `2 ^ w` and
leaves `cur` at the first byte after `e`. -/
theorem xhElfSleb128DecoderNext_fits {w : ℕ} {m : Mem} {d : Sleb128Decoder} {e t : List UInt8}
    {n : ℤ} (he : Sleb128Enc e n) (hlen : e.length ≤ (w + 6) / 7) (h : d.left m = e ++ t) :
    xhElfSleb128DecoderNext w m d = (.ok (n % 2 ^ w).toNat, { d with cur := d.cur + e.length }) := by
  have hpos : 0 < e.length := List.length_pos.2 (by cases he <;> simp)
  have hl := congrArg List.length h
  simp only [Sleb128Decoder.left, Mem.bytes_length, List.length_append] at hl
  rw [xhElfSleb128DecoderNext_wordEnc ⟨n, he, hlen, Int.ModEq.refl n⟩ h]
  congr 3; omega

/-- The loop on a range with no byte that ends a number runs out of bytes. -/
theorem sleb128Loop_of_all_cont {w : ℕ} {l : List UInt8} (h : ∀ b ∈ l, b.toNat &&& 128 ≠ 0) :
    ∀ value shift, sleb128Loop w l value shift = .error .format := by
  induction l with
  | nil => intro _ _; rfl
  | cons b l ih =>
    intro value shift
    rw [List.forall_mem_cons] at h
    simp only [sleb128Loop, ne_eq, h.1, not_false_eq_true, if_true, ih h.2]

/-- The decoder on a range with no byte that ends a number fails with `FORMAT`. -/
theorem xhElfSleb128DecoderNext_all_cont {w : ℕ} {m : Mem} {d : Sleb128Decoder}
    (h : ∀ b ∈ d.left m, b.toNat &&& 128 ≠ 0) : (xhElfSleb128DecoderNext w m d).1 = .error .format := by
  simp only [xhElfSleb128DecoderNext, sleb128Loop_of_all_cont h]

/-- **`xh_elf_sleb128_decoder_next` decodes every encoding that fits the word.** On every
range that starts with an encoding `e` of `n` of at most `⌈w / 7⌉` bytes it stores `n` modulo
`2 ^ w` and leaves `cur` at the first byte after `e`; on every range with no byte that ends a
number it fails with `FORMAT`. -/
theorem sleb128DecoderNext_decodes {w : ℕ} :
    (∀ {m : Mem} {d : Sleb128Decoder} {e t : List UInt8} {n : ℤ}, Sleb128Enc e n →
      e.length ≤ (w + 6) / 7 → d.left m = e ++ t →
        xhElfSleb128DecoderNext w m d = (.ok (n % 2 ^ w).toNat, { d with cur := d.cur + e.length })) ∧
    ∀ (m : Mem) (d : Sleb128Decoder), (∀ b ∈ d.left m, b.toNat &&& 128 ≠ 0) →
      (xhElfSleb128DecoderNext w m d).1 = .error .format :=
  ⟨xhElfSleb128DecoderNext_fits, fun _ _ => xhElfSleb128DecoderNext_all_cont⟩

/-- A three-byte range at `0x10`: `0x80 0x01`, the two-byte encoding of `128`, then `0x05`. -/
def sleb128SampleMem : Mem := Mem.ofFields 0x10 3 [Mem.bytesField 0 [0x80, 0x01, 0x05]]

theorem sleb128DecoderNext_decodes_sample :
    xhElfSleb128DecoderNext 64 sleb128SampleMem ⟨0x10, 0x13⟩ = (.ok 128, ⟨0x12, 0x13⟩) ∧
      (xhElfSleb128DecoderNext 64 sleb128SampleMem ⟨0x10, 0x11⟩).1 = .error .format :=
  ⟨sleb128DecoderNext_decodes.1 (t := [5]) (Sleb128Enc.cont 0x80 (by decide) (.last 1 (by decide)))
    (by decide) (by decide), sleb128DecoderNext_decodes.2 _ _ (by decide)⟩


/-! ## The shift amounts -/

/-- The amounts `xh_elf_sleb128_decoder_next` shifts by, in the order it shifts: `shift` in
`(size_t)(byte & 127) << shift` for each byte the loop reads, then the post-loop `shift` of
the sign extension `(size_t)(1) << shift` when its guard `shift < size && (byte & 64)` holds.
The control flow is that of `sleb128Loop`. -/
def sleb128Shifts (w : ℕ) : List UInt8 → ℕ → List ℕ
  | [], _ => []
  | byte :: rest, shift =>
    shift :: if byte.toNat &&& 128 ≠ 0 then sleb128Shifts w rest (shift + 7)
      else if shift + 7 < w ∧ byte.toNat &&& 64 ≠ 0 then [shift + 7] else []

/-- **A shift past the word happens exactly on long runs of continuation bytes.** From the
`i`-th byte of a number on, the decoder shifts by `w` or more exactly when the range holds
more bytes than the `⌈w / 7⌉ - i` that land inside the word, all of those with bit 7 set;
the sign extension's own shift is guarded and never does. -/
theorem sleb128Shifts_overflow_iff {w : ℕ} : ∀ (l : List UInt8) (i : ℕ),
    (∃ s ∈ sleb128Shifts w l (7 * i), w ≤ s) ↔
      (w + 6) / 7 - i < l.length ∧ ∀ b ∈ l.take ((w + 6) / 7 - i), b.toNat &&& 128 ≠ 0
  | [], i => by simp [sleb128Shifts]
  | b :: l, i => by
    by_cases hi : w ≤ 7 * i
    · rw [show (w + 6) / 7 - i = 0 by omega]
      exact ⟨fun _ => ⟨Nat.succ_pos _, fun _ h => by cases h⟩, fun _ => ⟨7 * i, List.mem_cons_self _ _, hi⟩⟩
    rw [show (w + 6) / 7 - i = (w + 6) / 7 - (i + 1) + 1 by omega, List.take_succ_cons,
      List.length_cons, List.forall_mem_cons, Nat.add_lt_add_iff_right]
    by_cases hb : b.toNat &&& 128 = 0
    · simp only [sleb128Shifts, hb, ne_eq, not_true_eq_false, if_false, false_and, and_false, iff_false,
        List.mem_cons, exists_eq_or_imp, hi, false_or, not_exists, not_and]
      intro s hs
      split_ifs at hs with hg
      · rw [List.mem_singleton.1 hs]; exact Nat.not_le.2 hg.1
      · cases hs
    · have ih := sleb128Shifts_overflow_iff (w := w) l (i + 1)
      rw [show 7 * (i + 1) = 7 * i + 7 by ring] at ih
      simp only [sleb128Shifts, ne_eq, hb, not_false_eq_true, if_true, List.mem_cons,
        exists_eq_or_imp, hi, false_or, ih, true_and]

/-- A zero padded with `k` continuation bytes `0x80` is an encoding of `0`, of any length. -/
theorem sleb128Enc_padded_zero : ∀ k, Sleb128Enc (List.replicate k 0x80 ++ [0]) 0
  | 0 => .last 0 (by decide)
  | k + 1 => by
    have := Sleb128Enc.cont 0x80 (by decide) (sleb128Enc_padded_zero k)
    simpa using this

/-- Eleven bytes at `0x10`: ten continuation bytes `0x80`, then `0x00`. -/
def sleb128PaddedMem : Mem := Mem.ofFields 0x10 11 [Mem.bytesField 0 (List.replicate 10 0x80 ++ [0])]

/-- The eleven-byte encoding of `0` on AArch64: the decoder accepts it and stores `0`, having
evaluated `(size_t)(byte & 127) << 70` on its last byte. -/
theorem sleb128_padded_zero_shifts_past_word :
    Sleb128Enc (sleb128PaddedMem.bytes 0x10 11) 0 ∧
      xhElfSleb128DecoderNext 64 sleb128PaddedMem ⟨0x10, 0x1b⟩ = (.ok 0, ⟨0x1b, 0x1b⟩) ∧
      sleb128Shifts 64 (sleb128PaddedMem.bytes 0x10 11) 0 = [0, 7, 14, 21, 28, 35, 42, 49, 56, 63, 70] :=
  ⟨(show sleb128PaddedMem.bytes 0x10 11 = List.replicate 10 0x80 ++ [0] by decide) ▸ sleb128Enc_padded_zero 10,
    by decide, by decide⟩

end XHook
