import XHook.HookSpec

/-!
# Two hook runs

Hooking twice with one function, and unhooking by hooking again with the value `old_func`
received. Both rest on the slot list of `HookSpec`: the second run meets the slots the
first one met, because no slot overlaps a table hook reads, and slots that are one word or
disjoint words hold what was last stored in them.

* `hook_twice_same_state`: **a second identical hook changes nothing**: it returns `0` and
  leaves the whole process state as the first run left it.
* `unhook_restores_memory`: **hooking back with the old value restores the memory**, when
  every slot held that one value before.

Slots that overlap without being one word break both (`rehook_overlapping_slots_calls_mprotect`,
`overlapping_slots_old_differs`).
-/

namespace XHook

open Mem (AgreeOn)

theorem Arch.two_pow_wordBits (A : Arch) : 2 ^ A.wordBits = 256 ^ A.wordSize := by
  cases A <;> rfl

section TwoRuns

variable {A : Arch} {v : XhElf} {symbol : List UInt8} {k : ℕ} {S0 : Proc}

theorem hook_pathname_ne_zero {ok : ℕ → ℕ → Bool} {f : ℕ} {o : Bool}
    (h : (xhElfHook A ok v f o (some symbol) S0).map Prod.fst = some (.ok ())) : v.pathname ≠ 0 :=
  fun hp => by simp [xhElfHook, hp] at h

theorem hook_newFunc_ne_zero {ok : ℕ → ℕ → Bool} {f : ℕ} {o : Bool}
    (h : (xhElfHook A ok v f o (some symbol) S0).map Prod.fst = some (.ok ())) : f ≠ 0 :=
  fun hf => by simp [xhElfHook, hook_pathname_ne_zero h, hf] at h

/-- A hook that returns `0` ran `replaceAll` to its end over the slots, and changed no byte
outside them. -/
theorem hook_ok_replaceAll {ok : ℕ → ℕ → Bool} {f : ℕ} {o : Bool}
    (hk : xhElfFindSymidxByName A S0.mem v symbol = some (.ok k))
    (hrg : Untouched A.wordSize (hookSlots A v S0.mem k) (regionReads A v))
    (h1 : (xhElfHook A ok v f o (some symbol) S0).map Prod.fst = some (.ok ())) :
    ∃ S1, replaceAll A ok v f o (hookSlots A v S0.mem k) S0 = .ok () S1 ∧
      xhElfHook A ok v f o (some symbol) S0 = some (.ok (), S1) ∧
      SameOutside A.wordSize (hookSlots A v S0.mem k) S0.mem S1.mem := by
  have hp := hook_pathname_ne_zero h1
  have hf0 := hook_newFunc_ne_zero h1
  rw [xhElfHook_eq_replaceAll hp hf0 hk hrg] at h1 ⊢
  have hout : SameOutside A.wordSize (hookSlots A v S0.mem k) S0.mem
      (resultState (replaceAll A ok v f o (hookSlots A v S0.mem k) S0)).mem :=
    replaceAll_sameOutside (fun _ h => h) SameOutside.refl'
  cases hr : replaceAll A ok v f o (hookSlots A v S0.mem k) S0 with
  | error e S1 => rw [hr] at h1; simp at h1
  | ok _ S1 => rw [hr, resultState_ok] at hout; exact ⟨S1, rfl, rfl, hout⟩

/-- After a run that changed only the slots, hooking the symbol again is `replaceAll` over
the same slots: no slot overlaps the tables the lookup or the hook reads. -/
theorem rehook_eq_replaceAll {ok : ℕ → ℕ → Bool} {f : ℕ} {o : Bool} {S1 : Proc}
    (hp : v.pathname ≠ 0) (hf : f ≠ 0) (hk : xhElfFindSymidxByName A S0.mem v symbol = some (.ok k))
    (hlk : Untouched A.wordSize (hookSlots A v S0.mem k) (lookupReads A S0.mem v symbol))
    (hrg : Untouched A.wordSize (hookSlots A v S0.mem k) (regionReads A v))
    (hout : SameOutside A.wordSize (hookSlots A v S0.mem k) S0.mem S1.mem) :
    xhElfHook A ok v f o (some symbol) S1 =
      match replaceAll A ok v f o (hookSlots A v S0.mem k) S1 with
      | .ok _ s => some (.ok (), s)
      | .error e s => some (.error e, s) := by
  have hL1 : hookSlots A v S1.mem k = hookSlots A v S0.mem k := hookSlots_congr (hout.agreeOn hrg)
  rw [← hL1]
  exact xhElfHook_eq_replaceAll hp hf ((xhElfFindSymidxByName_congr (hout.agreeOn hlk)).trans hk) (hL1 ▸ hrg)

/-- **A second identical hook changes nothing.** After a run of `xh_elf_hook(v, s, f, &o1)`
that returns `0`, the same call returns `0` and leaves the process state, memory, page
protections, `mprotect` calls and `*old_func` included, as it was: when the slots are one
word or disjoint words, and none overlaps the symbol, string, hash or relocation tables. -/
theorem hook_twice_same_state {ok : ℕ → ℕ → Bool} (oldFunc oldFunc' : Bool) {f : ℕ}
    (hf : f < 2 ^ A.wordBits) (hk : xhElfFindSymidxByName A S0.mem v symbol = some (.ok k))
    (hsep : SlotsSep A.wordSize (hookSlots A v S0.mem k))
    (hu : Untouched A.wordSize (hookSlots A v S0.mem k) (lookupReads A S0.mem v symbol ++ regionReads A v))
    (h1 : (xhElfHook A ok v f oldFunc (some symbol) S0).map Prod.fst = some (.ok ())) :
    ∃ S1, xhElfHook A ok v f oldFunc (some symbol) S0 = some (.ok (), S1) ∧
      xhElfHook A ok v f oldFunc' (some symbol) S1 = some (.ok (), S1) := by
  obtain ⟨hlk, hrg⟩ := Untouched.append_iff.1 hu
  obtain ⟨S1, hr, hS1, hout⟩ := hook_ok_replaceAll hk hrg h1
  refine ⟨S1, hS1, ?_⟩
  rw [rehook_eq_replaceAll (hook_pathname_ne_zero h1) (hook_newFunc_ne_zero h1) hk hlk hrg hout,
    replaceAll_of_reads (replaceAll_reads (A.two_pow_wordBits ▸ hf) hsep hr)]

/-- **Hooking back with the old value restores the memory.** When every slot a hook of `s`
examines holds one value `v0`, neither `NULL` nor `f1`, the slots being one word or disjoint
words, none overlapping the tables hook reads or the program headers, and every `mprotect`
succeeding: a run of `xh_elf_hook(v, s, f1, &old)` that returns `0` leaves `old = v0`, and
`xh_elf_hook(v, s, old, &o)` then returns `0` with the memory as it was before the first. -/
theorem unhook_restores_memory (oldFunc' : Bool) {f1 v0 : ℕ} (hf : f1 < 2 ^ A.wordBits)
    (hk : xhElfFindSymidxByName A S0.mem v symbol = some (.ok k)) (hne : hookSlots A v S0.mem k ≠ [])
    (hv0 : ∀ a ∈ hookSlots A v S0.mem k, S0.mem.read a A.wordSize = v0) (hv0f : v0 ≠ f1) (hv00 : v0 ≠ 0)
    (hsep : SlotsSep A.wordSize (hookSlots A v S0.mem k))
    (hu : Untouched A.wordSize (hookSlots A v S0.mem k)
      (lookupReads A S0.mem v symbol ++ regionReads A v ++ memAccessReads A S0.mem v))
    (h1 : (xhElfHook A (fun _ _ => true) v f1 true (some symbol) S0).map Prod.fst = some (.ok ())) :
    ∃ S1, xhElfHook A (fun _ _ => true) v f1 true (some symbol) S0 = some (.ok (), S1) ∧ S1.old = v0 ∧
      ∃ S2, xhElfHook A (fun _ _ => true) v S1.old oldFunc' (some symbol) S1 = some (.ok (), S2) ∧
        S2.mem = S0.mem := by
  simp only [Untouched.append_iff] at hu
  obtain ⟨⟨hlk, hrg⟩, hma⟩ := hu
  have hw := A.two_pow_wordBits ▸ hf
  obtain ⟨a0, ha0⟩ := List.exists_mem_of_ne_nil _ hne
  have hv0w : v0 < 256 ^ A.wordSize := hv0 a0 ha0 ▸ Mem.read_lt _ _ _
  have hc : ∀ m', SameOutside A.wordSize (hookSlots A v S0.mem k) S0.mem m' →
      ∀ x, xhElfGetMemAccess A m' v x = xhElfGetMemAccess A S0.mem v x :=
    fun m' h x => xhElfGetMemAccess_congr (h.agreeOn hma) x
  obtain ⟨S1, hr, hS1, hout⟩ := hook_ok_replaceAll hk hrg h1
  have hold : S1.old = v0 :=
    replaceAll_old hw hsep hv0f hr (fun a ha => .inl (hv0 a ha)) (.inr ⟨a0, ha0, hv0 a0 ha0⟩)
  have hacc := replaceAll_access (fun _ h => h) hsep hc SameOutside.refl' hr
  refine ⟨S1, hS1, hold, ?_⟩
  obtain ⟨S2, hS2⟩ := replaceAll_exists (o := oldFunc') hv0w hsep hc (fun _ h => h) hout
    fun a ha _ => hacc a ha (by rw [hv0 a ha]; exact hv0f)
  rw [hold, rehook_eq_replaceAll (hook_pathname_ne_zero h1) hv00 hk hlk hrg hout, hS2]
  refine ⟨S2, rfl, ?_⟩
  have hout2 : SameOutside A.wordSize (hookSlots A v S0.mem k) S0.mem
      (resultState (replaceAll A (fun _ _ => true) v v0 oldFunc' (hookSlots A v S0.mem k) S1)).mem :=
    replaceAll_sameOutside (fun _ h => h) hout
  rw [hS2, resultState_ok] at hout2
  exact hout2.eq fun a ha => (replaceAll_reads hv0w hsep hS2 a ha).trans (hv0 a ha).symm

end TwoRuns

/-- `hookImage` with a `.rela.dyn` at `0x600` whose first record is empty and whose next
records bind `puts` (symbol `2`) as a glob-dat to the slots at `offs`; the walk, which skips
the first record and reads one past the end, meets exactly these. -/
def dynImage (offs : List ℕ) (fs : List (ℕ × ℕ × ℕ)) : Mem :=
  hookImage [(dtPltrel, dtRela), (dtRela, 0x600), (dtRelasz, 24 * (offs.length + 1))]
    (((List.range offs.length).zip offs).flatMap (fun (i, off) =>
      [(0x618 + 24 * i, 8, off), (0x620 + 24 * i, 8, 0x200000401)]) ++ fs)

/-- The view init builds from a `dynImage` of `n` bindings. -/
def dynView (n : ℕ) : XhElf :=
  { hookView with dynSz := 96, reldyn := 0x10600, reldynSz := 24 * (n + 1), isUseRela := true }

/-- Three bindings of `puts`, two to one slot, the slots at `0x800` and `0x808` holding
`0x1234`. -/
def rebindImage : Mem := dynImage [0x800, 0x808, 0x800] [(0x808, 8, 0x1234)]

/-- `puts` resolves to symbol `2` in `rebindImage`. -/
theorem rebindImage_lookup :
    xhElfFindSymidxByName .arm64 rebindImage (dynView 3) [112, 117, 116, 115] = some (.ok 2) := by
  decide

theorem rebindImage_hook_ok :
    (xhElfHook .arm64 (fun _ _ => true) (dynView 3) 0x5000 true (some [112, 117, 116, 115])
      (Proc.start rebindImage)).map Prod.fst = some (.ok ()) := by
  decide

theorem hook_twice_same_state_dyn :
    ∃ S1, xhElfHook .arm64 (fun _ _ => true) (dynView 3) 0x5000 true (some [112, 117, 116, 115])
        (Proc.start rebindImage) = some (.ok (), S1) ∧
      xhElfHook .arm64 (fun _ _ => true) (dynView 3) 0x5000 true (some [112, 117, 116, 115]) S1 =
        some (.ok (), S1) :=
  hook_twice_same_state true true (by decide) rebindImage_lookup (by decide) (by decide) rebindImage_hook_ok

theorem unhook_restores_memory_dyn :
    ∃ S1, xhElfHook .arm64 (fun _ _ => true) (dynView 3) 0x5000 true (some [112, 117, 116, 115])
        (Proc.start rebindImage) = some (.ok (), S1) ∧ S1.old = 0x1234 ∧
      ∃ S2, xhElfHook .arm64 (fun _ _ => true) (dynView 3) S1.old true (some [112, 117, 116, 115]) S1 =
        some (.ok (), S2) ∧ S2.mem = rebindImage :=
  unhook_restores_memory true (by decide) rebindImage_lookup (by decide) (by decide) (by decide) (by decide)
    (by decide) (Untouched.append_iff.2 ⟨by decide, by decide⟩) rebindImage_hook_ok

/-- Two bindings of `puts` to the overlapping slots at `0x800` and `0x804`, both holding
`0x123400001234`. -/
def overlapImage : Mem := dynImage [0x800, 0x804] [(0x804, 8, 0x123400001234)]

/-- The state a hook of `puts` by `0x5000` leaves in `overlapImage`: both slots rewritten
after an `mprotect` each, `old_func` holding what the second slot held then. -/
def overlapHooked : Proc :=
  ⟨(overlapImage.write 0x10800 8 0x5000).write 0x10804 8 0x5000,
    Function.update (Function.update (fun _ => 0) 0x10000 3) 0x10000 3, [(0x10000, 3), (0x10000, 3)],
    0x123400000000⟩

/-- Hooking `puts` twice in `overlapImage`, from an initialized view: the second call
calls `mprotect` twice more and stores `0` through `old_func`. -/
theorem rehook_overlapping_slots_calls_mprotect :
    xhElfInit .arm64 overlapImage {} 0x10000 0x9000 = some (.ok (), dynView 2) ∧
      hookSlots .arm64 (dynView 2) overlapImage 2 = [0x10800, 0x10804] ∧
      xhElfHook .arm64 (fun _ _ => true) (dynView 2) 0x5000 true (some [112, 117, 116, 115])
        (Proc.start overlapImage) = some (.ok (), overlapHooked) ∧
      (xhElfHook .arm64 (fun _ _ => true) (dynView 2) 0x5000 true (some [112, 117, 116, 115])
          overlapHooked).map (fun r => (r.1, r.2.mprotects.length, r.2.old)) = some (.ok (), 4, 0) :=
  ⟨by decide, by decide, rfl, by decide⟩

/-- Hooking `puts` in `overlapImage`, whose two slots both hold `0x123400001234`: the call
returns `0` with `old_func` holding `0x123400000000`, what the second slot held once the
first was rewritten. -/
theorem overlapping_slots_old_differs :
    xhElfInit .arm64 overlapImage {} 0x10000 0x9000 = some (.ok (), dynView 2) ∧
      (∀ a ∈ hookSlots .arm64 (dynView 2) overlapImage 2, overlapImage.read a 8 = 0x123400001234) ∧
      (xhElfHook .arm64 (fun _ _ => true) (dynView 2) 0x5000 true (some [112, 117, 116, 115])
          (Proc.start overlapImage)).map (fun r => (r.1, r.2.old)) = some (.ok (), 0x123400000000) := by
  decide

end XHook
