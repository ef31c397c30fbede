import XHook.TwoRuns
import Mathlib.Order.Basic

/-!
# Whole runs

A run of `xh_elf_hook` changes the process state only through `xh_elf_replace_function`:
the region loops read the memory and the iterators, and each matching record calls it.
`Steps R x` says that every run of `x`, returning or failing, ends in a state `R`-related to
the one it started from. For a reflexive and transitive `R`, one `replace_function` call
showing it is enough for a whole hook run (`xhElfHook_steps`); each property below is then
one lemma about that call.

* `hook_effect_writable`: on every image and every outcome, a hook calls `mprotect` only on
  page starts, asking for `PROT_WRITE` and never for `PROT_EXEC`; a page's protection
  changes only so; and every byte of `mem` that changes lies in a word on a page it made
  writable. The store through `old_func` goes to `Proc.old`, outside `mem`.
* `hook_fails_with`: a hook fails only with `ELFINIT`, `INVAL`, `NOTFND` or `UNKNOWN`,
  never with `FORMAT`, whatever the relocation regions hold.
* `hook_slots_old_or_new`: when the slots are one word or disjoint words and none overlaps
  the relocation regions, every run leaves each slot holding what it held or `new_func`
  and changes no other byte of `mem`; a run that returns `0` leaves `new_func` in all of
  them.
* `hook_old_from_slot`: under the same conditions `*old_func` ends as it was or holding what
  one of the slots held before, never `new_func`.
* `hook_mprotects_slot_pages`: once the symbol resolves, every `mprotect` a run calls is on
  the page of one of the symbol's slots, and no other page changes protection.
* `hook_ok_iff_loaded`: with every `mprotect` granted, a hook returns `0` exactly when
  `xh_elf_get_mem_access` finds a `PT_LOAD` header for every slot it has to rewrite: one
  whose pages `[PAGE_START(seg_start), PAGE_END(seg_end))` hold the slot, a range that runs
  up to a page past the segment's end.

The same device on the packed iterator: every call of `next` that returns a record raises
`relocation_index` by one, and `next` returns `NULL` from `relocation_count` on, so a walk
returns at most `relocation_count - relocation_index` records and ends with `NULL`, never for
want of calls (`packedRecords_bound`).
-/

namespace XHook

/-! ## Runs that keep a relation -/

section Steps

variable {ε σ α β : Type} {R : σ → σ → Prop}

/-- Every run of `x`, returning or failing, ends in a state `R`-related to the one it
started from. -/
def Steps (R : σ → σ → Prop) (x : EStateM ε σ α) : Prop := ∀ s, R s (resultState (x s))

theorem Steps.pure [IsRefl σ R] (a : α) : Steps R (Pure.pure a : EStateM ε σ α) := refl_of R

theorem Steps.get [IsRefl σ R] : Steps R (MonadState.get : EStateM ε σ σ) := refl_of R

theorem Steps.throw [IsRefl σ R] (e : ε) : Steps R (MonadExcept.throw e : EStateM ε σ α) := refl_of R

theorem Steps.modify {f : σ → σ} (hf : ∀ s, R s (f s)) : Steps R (modify f : EStateM ε σ PUnit) := hf

theorem Steps.ite {c : Prop} {_ : Decidable c} {x y : EStateM ε σ α} (hx : Steps R x) (hy : Steps R y) :
    Steps R (if c then x else y) := by
  split
  · exact hx
  · exact hy

theorem Steps.bind [IsTrans σ R] {x : EStateM ε σ α} {f : α → EStateM ε σ β} (hx : Steps R x)
    (hf : ∀ a, Steps R (f a)) : Steps R (x >>= f) := by
  intro s
  have h := hx s
  rw [estate_bind_apply]
  cases hxs : x s with
  | ok a t => rw [hxs] at h; exact trans_of R h (hf a t)
  | error e t => rw [hxs] at h; exact h

end Steps

/-! ## The bound of the packed iterator -/

/-- `it'` has the `relocation_count` and `relocation_index` of `it`. -/
def SameBound (it it' : PackedRelocIterator) : Prop :=
  it'.relocationCount = it.relocationCount ∧ it'.relocationIndex = it.relocationIndex

instance : IsPreorder PackedRelocIterator SameBound where
  refl _ := ⟨rfl, rfl⟩
  trans _ _ _ h₁ h₂ := ⟨h₂.1.trans h₁.1, h₂.2.trans h₁.2⟩

/-- Every run of `x` that returns raises `relocation_index` by one and keeps
`relocation_count`. -/
def Advances {α : Type} (x : EStateM XhErrno PackedRelocIterator α) : Prop :=
  ∀ it a it', x it = .ok a it' →
    it'.relocationCount = it.relocationCount ∧ it'.relocationIndex = it.relocationIndex + 1

section Bound

variable {w : ℕ} {m : Mem} {α β : Type}

theorem Advances.of_bind {x : EStateM XhErrno PackedRelocIterator α}
    {f : α → EStateM XhErrno PackedRelocIterator β} (hx : Steps SameBound x) (hf : ∀ a, Advances (f a)) :
    Advances (x >>= f) := by
  intro it b it' h
  rw [estate_bind_apply] at h
  have hs := hx it
  cases hxs : x it with
  | ok a t =>
    rw [hxs] at h hs
    obtain ⟨h1, h2⟩ := hf a t b it' h
    exact ⟨h1.trans hs.1, h2.trans (congrArg (· + 1) hs.2)⟩
  | error e t => rw [hxs] at h; cases h

theorem Advances.ite {c : Prop} {_ : Decidable c} {x y : EStateM XhErrno PackedRelocIterator α}
    (hx : Advances x) (hy : Advances y) : Advances (if c then x else y) := by
  split
  · exact hx
  · exact hy

theorem decodeInto_sameBound {set : ℕ → PackedRelocIterator → PackedRelocIterator}
    (hset : ∀ val it, SameBound it (set val it)) :
    Steps SameBound (PackedRelocIterator.decodeInto w m set) := by
  refine Steps.bind (fun it => ?_) fun val => .modify (hset val)
  unfold PackedRelocIterator.decode
  split <;> exact ⟨rfl, rfl⟩

theorem decodeIntoIf_sameBound {c : Prop} {_ : Decidable c} {set : ℕ → PackedRelocIterator → PackedRelocIterator}
    (hset : ∀ val it, SameBound it (set val it)) :
    Steps SameBound (PackedRelocIterator.decodeIntoIf w m c set) :=
  .ite (decodeInto_sameBound hset) (.pure _)

theorem packedGroupAddend_sameBound : Steps SameBound (packedGroupAddend w m) := by
  unfold packedGroupAddend
  exact Steps.get.bind fun _ => .ite
    (.ite ((Steps.throw _).bind fun _ => decodeInto_sameBound (by intros; exact ⟨rfl, rfl⟩))
      ((Steps.pure _).bind fun _ => decodeInto_sameBound (by intros; exact ⟨rfl, rfl⟩)))
    (.ite (.modify (by intro; exact ⟨rfl, rfl⟩)) (.pure _))

theorem readGroupFields_sameBound : Steps SameBound (xhElfPackedRelocIteratorReadGroupFields w m) := by
  unfold xhElfPackedRelocIteratorReadGroupFields
  exact (decodeInto_sameBound (by intros; exact ⟨rfl, rfl⟩)).bind fun _ =>
    (decodeInto_sameBound (by intros; exact ⟨rfl, rfl⟩)).bind fun _ =>
    Steps.get.bind fun _ => (decodeIntoIf_sameBound (by intros; exact ⟨rfl, rfl⟩)).bind fun _ =>
    Steps.get.bind fun _ => (decodeIntoIf_sameBound (by intros; exact ⟨rfl, rfl⟩)).bind fun _ =>
    packedGroupAddend_sameBound.bind fun _ => .modify (by intro; exact ⟨rfl, rfl⟩)

/-- The entry part of `next` reads without touching the bound, then counts the record. -/
theorem packedNextEntry_advances : Advances (packedNextEntry w m) := by
  unfold packedNextEntry packedNextOffset packedNextInfo packedNextAddend
  refine Advances.of_bind (Steps.get.bind fun _ => .ite (.modify (by intro; exact ⟨rfl, rfl⟩))
    (decodeInto_sameBound (by intros; exact ⟨rfl, rfl⟩))) fun _ => ?_
  refine Advances.of_bind (Steps.get.bind fun _ => decodeIntoIf_sameBound (by intros; exact ⟨rfl, rfl⟩)) fun _ => ?_
  refine Advances.of_bind (Steps.get.bind fun _ => .ite (decodeInto_sameBound (by intros; exact ⟨rfl, rfl⟩))
    (.pure _)) fun _ => ?_
  intro it a it' h
  simp only [estate_bind_apply, estate_modify_apply, estate_get_apply, estate_pure_apply] at h
  cases h
  exact ⟨rfl, rfl⟩

theorem packedNextBody_advances : Advances (packedNextBody w m) := by
  unfold packedNextBody
  exact Advances.of_bind Steps.get fun _ =>
    .ite (.of_bind readGroupFields_sameBound fun _ => packedNextEntry_advances)
      (.of_bind (.pure _) fun _ => packedNextEntry_advances)

/-- **The step of the bound**: a record from `next` means `relocation_index` was below
`relocation_count`, and it is one more now. -/
theorem packedNext_some {r : RelocOut} {it it' : PackedRelocIterator}
    (h : xhElfPackedRelocIteratorNext w m it = (some r, it')) :
    it.relocationIndex < it.relocationCount ∧ it'.relocationCount = it.relocationCount ∧
      it'.relocationIndex = it.relocationIndex + 1 := by
  unfold xhElfPackedRelocIteratorNext at h
  split_ifs at h with hge
  · cases h
  · split at h
    · rename_i heq
      cases h
      exact ⟨by omega, packedNextBody_advances it _ _ heq⟩
    · cases h

theorem packedRecordsAux_length_le : ∀ (fuel : ℕ) (it : PackedRelocIterator),
    (packedRecordsAux w m fuel it).length ≤ it.relocationCount - it.relocationIndex
  | 0, _ => Nat.zero_le _
  | fuel + 1, it => by
    unfold packedRecordsAux
    split
    · exact Nat.zero_le _
    · rename_i r it' h
      obtain ⟨hlt, hc, hi⟩ := packedNext_some h
      have := packedRecordsAux_length_le fuel it'
      rw [List.length_cons]
      omega

/-- Two walks that both have more calls than the bound return the same records. -/
theorem packedRecordsAux_fuel : ∀ (a b : ℕ) (it : PackedRelocIterator),
    it.relocationCount - it.relocationIndex < a → it.relocationCount - it.relocationIndex < b →
      packedRecordsAux w m a it = packedRecordsAux w m b it
  | 0, _, _, ha, _ => absurd ha (Nat.not_lt_zero _)
  | _ + 1, 0, _, _, hb => absurd hb (Nat.not_lt_zero _)
  | a + 1, b + 1, it, ha, hb => by
    simp only [packedRecordsAux]
    rcases hn : xhElfPackedRelocIteratorNext w m it with ⟨_ | r, it'⟩
    · rfl
    · obtain ⟨hlt, hc, hi⟩ := packedNext_some hn
      dsimp only
      rw [packedRecordsAux_fuel a b it' (by omega) (by omega)]

/-- **`next` returns at most `relocation_count - relocation_index` records**, whatever the
stream holds: each record raises `relocation_index` by one, and from `relocation_count` on
`next` returns `NULL`. So a walk over the iterator ends with `NULL`, never for want of
calls: with any number of calls beyond the bound it returns the same records. -/
theorem packedRecords_bound (w : ℕ) (m : Mem) (it : PackedRelocIterator) :
    (packedRecords w m it).length ≤ it.relocationCount - it.relocationIndex ∧
      ∀ d, packedRecordsAux w m (it.relocationCount - it.relocationIndex + 1 + d) it =
        packedRecords w m it :=
  ⟨packedRecordsAux_length_le _ _, fun _ => packedRecordsAux_fuel _ _ it (by omega) (by omega)⟩

end Bound

/-! ## Hook runs -/

section HookSteps

variable {A : Arch} {ok : ℕ → ℕ → Bool} {v : XhElf} {f : ℕ} {o : Bool} {k : ℕ}
  {R : Proc → Proc → Prop} [IsPreorder Proc R]

theorem findAndReplaceFunc_steps (hrep : ∀ a, Steps R (xhElfReplaceFunction A ok v f o a)) (r : ElfRel) :
    Steps R (xhElfFindAndReplaceFunc A ok v f o k r) := by
  unfold xhElfFindAndReplaceFunc
  split
  · exact (hrep _).bind fun _ => .pure _
  · exact .pure _

theorem hookPltLoop_steps (hrep : ∀ a, Steps R (xhElfReplaceFunction A ok v f o a)) :
    ∀ ps, Steps R (hookPltLoop A ok v f o k ps)
  | [] => .pure _
  | _ :: ps => Steps.get.bind fun _ => (findAndReplaceFunc_steps hrep _).bind fun found => by
    cases found
    · exact hookPltLoop_steps hrep ps
    · exact .pure _

theorem hookDynLoop_steps (hrep : ∀ a, Steps R (xhElfReplaceFunction A ok v f o a)) :
    ∀ ps, Steps R (hookDynLoop A ok v f o k ps)
  | [] => .pure _
  | _ :: ps => Steps.get.bind fun _ =>
    (findAndReplaceFunc_steps hrep _).bind fun _ => hookDynLoop_steps hrep ps

theorem hookAndroidLoop_steps (hrep : ∀ a, Steps R (xhElfReplaceFunction A ok v f o a)) :
    ∀ fuel it, Steps R (hookAndroidLoop A ok v f o k fuel it)
  | 0, _ => refl_of R
  | fuel + 1, it => fun s => by
    simp only [hookAndroidLoop]
    split
    · exact refl_of R s
    · exact ((findAndReplaceFunc_steps hrep _).bind fun _ => hookAndroidLoop_steps hrep fuel _) s

theorem hookRegions_steps (hrep : ∀ a, Steps R (xhElfReplaceFunction A ok v f o a)) :
    Steps R (hookRegions A ok v f o k) := by
  have handroid : Steps R (hookAndroid A ok v f o k) := fun s => by
    unfold hookAndroid
    split
    · exact hookAndroidLoop_steps hrep _ _ s
    · exact refl_of R s
  exact (Steps.ite (hookPltLoop_steps hrep _) (.pure _)).bind fun _ =>
    (Steps.ite (hookDynLoop_steps hrep _) (.pure _)).bind fun _ => handroid

/-- **A hook run keeps what `replace_function` keeps**: for a reflexive and transitive `R`
that every `xh_elf_replace_function` call keeps, every hook that returns, with any status,
ends in a state `R`-related to its first. -/
theorem xhElfHook_steps (hrep : ∀ a, Steps R (xhElfReplaceFunction A ok v f o a))
    {sym : Option (List UInt8)} {s s' : Proc} {r : Except XhErrno Unit}
    (h : xhElfHook A ok v f o sym s = some (r, s')) : R s s' := by
  unfold xhElfHook at h
  split at h
  · cases h; exact refl_of R s
  · split at h
    · cases h; exact refl_of R s
    · split at h
      · cases h; exact refl_of R s
      · split at h
        · cases h
        · cases h; exact refl_of R s
        · rename_i symidx _
          have hs := hookRegions_steps (k := symidx) hrep s
          split at h <;> (rename_i heq; rw [heq] at hs; cases h; exact hs)

end HookSteps

/-! ## Protections -/

/-- An `mprotect(page, PAGE_SIZE, prot)` call that makes a page writable and not
executable: `page` is a page start and `prot` has `PROT_WRITE` and not `PROT_EXEC`. -/
def WritableCall (c : ℕ × ℕ) : Prop := c.1 % pageSize = 0 ∧ c.2 &&& protWrite ≠ 0 ∧ c.2 &&& protExec = 0

/-- What a stretch of a hook run did between the states `s` and `s'`, `w` being the word
size: the `mprotect` calls it added all make a page writable and not executable; a page's
protection changed only to what one of them asked; and every byte of `mem` that changed lies
in a `w`-byte word whose first byte is on a page one of them made writable. `*old_func` is
not in `mem` and is not constrained here. -/
def HookEffect (w : ℕ) (s s' : Proc) : Prop :=
  ∃ calls : List (ℕ × ℕ), s'.mprotects = calls ++ s.mprotects ∧ (∀ c ∈ calls, WritableCall c) ∧
    (∀ page, s'.prot page = s.prot page ∨ (page, s'.prot page) ∈ calls) ∧
    ∀ x, s'.mem x ≠ s.mem x → ∃ a p, (pageStart a, p) ∈ calls ∧ a ≤ x ∧ x < a + w

instance (w : ℕ) : IsPreorder Proc (HookEffect w) where
  refl _ := ⟨[], rfl, fun _ h => absurd h (List.not_mem_nil _), fun _ => .inl rfl, fun _ h => absurd rfl h⟩
  trans s₁ s₂ s₃ := by
    rintro ⟨c₁, hm₁, hw₁, hp₁, hx₁⟩ ⟨c₂, hm₂, hw₂, hp₂, hx₂⟩
    refine ⟨c₂ ++ c₁, by rw [hm₂, hm₁, List.append_assoc], fun c hc => ?_, fun page => ?_, fun x hx => ?_⟩
    · rcases List.mem_append.1 hc with h | h
      exacts [hw₂ c h, hw₁ c h]
    · rcases hp₂ page with h | h
      · rw [h]; exact (hp₁ page).imp_right (List.mem_append_right _)
      · exact .inr (List.mem_append_left _ h)
    · by_cases h : s₃.mem x = s₂.mem x
      · obtain ⟨a, p, hc, ha⟩ := hx₁ x (by rwa [h] at hx)
        exact ⟨a, p, List.mem_append_right _ hc, ha⟩
      · obtain ⟨a, p, hc, ha⟩ := hx₂ x h
        exact ⟨a, p, List.mem_append_left _ hc, ha⟩

/-- `prots |= PF_W; prots &= ~PF_X;` then `PF_TO_PROT`: a page start, writable and not
executable. -/
theorem writableCall_page (a p : ℕ) : WritableCall (pageStart a, pfToProt (writableProts p)) := by
  have h1 : writableProts p &&& pfX = 0 := by
    rw [writableProts, Nat.and_assoc, show (0xffffffff ^^^ pfX) &&& pfX = 0 by decide, Nat.and_zero]
  have h2 : writableProts p &&& pfW ≠ 0 := by
    rw [writableProts, Nat.and_assoc, show (0xffffffff ^^^ pfX) &&& pfW = 2 by decide]
    intro h
    have hb : Nat.testBit 2 1 = true := by decide
    have := congrArg (Nat.testBit · 1) h
    simp [pfW, hb] at this
  refine ⟨Nat.mul_mod_left _ _, ?_⟩
  show pfToProt (writableProts p) &&& protWrite ≠ 0 ∧ pfToProt (writableProts p) &&& protExec = 0
  rw [pfToProt, if_pos h2, if_neg (not_not.2 h1)]
  split_ifs <;> decide

theorem setMemAccess_eq {ok : ℕ → ℕ → Bool} {a p : ℕ} {s s' : Proc} (h : xhElfSetMemAccess ok a p s = some s') :
    s' = { s with prot := Function.update s.prot (pageStart a) (pfToProt p),
                  mprotects := (pageStart a, pfToProt p) :: s.mprotects } := by
  unfold xhElfSetMemAccess at h
  dsimp only at h
  split at h
  · exact (Option.some.inj h).symm
  · cases h

section Effect

variable {A : Arch} {ok : ℕ → ℕ → Bool} {v : XhElf} {f : ℕ} {o : Bool}

/-- What one `xh_elf_replace_function` call can do to the state: nothing, or one `mprotect`
of the slot's page asking for `PF_TO_PROT` of `prots | PF_W` without `PF_X`, then a write of
the slot's word and perhaps of `*old_func`. -/
theorem replaceFunction_cases (a : ℕ) (s : Proc) :
    resultState (xhElfReplaceFunction A ok v f o a s) = s ∨
      ∃ p old, resultState (xhElfReplaceFunction A ok v f o a s) =
        ⟨s.mem.write a A.wordSize f, Function.update s.prot (pageStart a) (pfToProt (writableProts p)),
          (pageStart a, pfToProt (writableProts p)) :: s.mprotects, old⟩ := by
  unfold xhElfReplaceFunction
  split
  · exact .inl rfl
  · split
    · exact .inl rfl
    · rename_i p _
      cases hs : xhElfSetMemAccess ok a (writableProts p) s with
      | none => exact .inl rfl
      | some s₁ =>
        obtain rfl := setMemAccess_eq hs
        exact .inr ⟨p, _, rfl⟩

/-- One `xh_elf_replace_function` call: at most one `mprotect`, of the slot's page, then a
write of the slot's word. -/
theorem replaceFunction_hookEffect (a : ℕ) : Steps (HookEffect A.wordSize) (xhElfReplaceFunction A ok v f o a) := by
  intro s
  rcases replaceFunction_cases a s with h | ⟨p, old, h⟩
  · rw [h]; exact refl_of _ s
  · rw [h]
    refine ⟨[(pageStart a, pfToProt (writableProts p))], rfl, ?_, fun page => ?_, fun x hx => ?_⟩
    · simp only [List.mem_singleton]
      rintro c rfl
      exact writableCall_page a p
    · by_cases hp : page = pageStart a
      · subst hp
        exact .inr (by simp)
      · exact .inl (Function.update_noteq hp _ _)
    · refine ⟨a, _, List.mem_singleton_self _, ?_⟩
      by_contra hout
      exact hx (Mem.write_apply_of_not_mem f (by omega))

/-- **A hook never makes a page executable, and writes only where it made pages writable**,
on every image and for every outcome: the `mprotect` calls it adds are on page starts and ask
for `PROT_WRITE` and not `PROT_EXEC` (`prots |= PF_W; prots &= ~PF_X`); a page's protection
changes only to what one of them asked; and every byte of `mem` it changes lies in a word
whose page one of them made writable (the store through `old_func` goes to `Proc.old`). -/
theorem hook_effect_writable {sym : Option (List UInt8)} {s s' : Proc} {r : Except XhErrno Unit}
    (h : xhElfHook A ok v f o sym s = some (r, s')) : HookEffect A.wordSize s s' :=
  xhElfHook_steps replaceFunction_hookEffect h

/-- Hooking `puts` in `overlapImage` calls `mprotect` twice and rewrites both slots. -/
theorem hook_effect_writable_overlap :
    xhElfHook .arm64 (fun _ _ => true) (dynView 2) 0x5000 true (some [112, 117, 116, 115])
        (Proc.start overlapImage) = some (.ok (), overlapHooked) ∧
      HookEffect Arch.arm64.wordSize (Proc.start overlapImage) overlapHooked := by
  have h : xhElfHook .arm64 (fun _ _ => true) (dynView 2) 0x5000 true (some [112, 117, 116, 115])
      (Proc.start overlapImage) = some (.ok (), overlapHooked) := rfl
  exact ⟨h, hook_effect_writable h⟩

end Effect

/-! ## Statuses -/

section Status

variable {A : Arch} {ok : ℕ → ℕ → Bool} {v : XhElf} {f : ℕ} {o : Bool}

/-- **A hook fails only with `ELFINIT`, `INVAL`, `NOTFND` or `UNKNOWN`**: not initialized,
a `NULL` symbol or `new_func`, a symbol not found or a slot in no `PT_LOAD` segment, or an
`mprotect` refused. It never reports `FORMAT`, whatever the relocation regions hold: a
packed stream that does not decode ends its walk as its end would. -/
theorem hook_fails_with {sym : Option (List UInt8)} {s s' : Proc} {e : XhErrno}
    (h : xhElfHook A ok v f o sym s = some (.error e, s')) :
    e = .elfinit ∨ e = .inval ∨ e = .notfnd ∨ e = .unknown := by
  unfold xhElfHook at h
  split at h
  · cases h; exact .inl rfl
  · split at h
    · cases h; exact .inr (.inl rfl)
    · split at h
      · cases h; exact .inr (.inl rfl)
      · split at h
        · cases h
        · rename_i e' heq
          have hs : LookupSound A s.mem v _ (some (.error e')) := heq ▸ findSymidxByName_sound
          cases h
          exact .inr (.inr (.inl hs))
        · split at h
          · cases h
          · rename_i hr
            cases h
            exact .inr (.inr (hookRegions_ne_format _ _ _ hr))

/-- A hook whose `mprotect` calls the kernel refuses fails with `UNKNOWN`. -/
theorem hook_fails_with_refused :
    xhElfHook .arm64 (fun _ _ => false) (dynView 2) 0x5000 true (some [112, 117, 116, 115])
        (Proc.start overlapImage) = some (.error .unknown, Proc.start overlapImage) ∧
      (XhErrno.unknown = .elfinit ∨ XhErrno.unknown = .inval ∨ XhErrno.unknown = .notfnd ∨
        XhErrno.unknown = .unknown) := by
  have h : xhElfHook .arm64 (fun _ _ => false) (dynView 2) 0x5000 true (some [112, 117, 116, 115])
      (Proc.start overlapImage) = some (.error .unknown, Proc.start overlapImage) := rfl
  exact ⟨h, hook_fails_with h⟩

end Status

/-! ## Slots -/

/-- Between `s` and `s'`: no byte of `mem` outside the `w`-byte words at `L` changed, and
each word at `L` holds what it held or `f`. `*old_func` is not in `mem`; `OldEffect` adds
what it may hold. -/
def SlotEffect (w f : ℕ) (L : List ℕ) (s s' : Proc) : Prop :=
  SameOutside w L s.mem s'.mem ∧ ∀ a ∈ L, s'.mem.read a w = s.mem.read a w ∨ s'.mem.read a w = f

instance (w f : ℕ) (L : List ℕ) : IsPreorder Proc (SlotEffect w f L) where
  refl _ := ⟨SameOutside.refl', fun _ _ => .inl rfl⟩
  trans _ _ _ h₁ h₂ := ⟨h₁.1.trans h₂.1, fun a ha => (h₂.2 a ha).elim
    (fun e => by rw [e]; exact h₁.2 a ha) .inr⟩

/-- `SlotEffect`, and `*old_func` as it was or holding what a slot of `L` held in `s`, a value
other than `f`. -/
def OldEffect (w f : ℕ) (L : List ℕ) (s s' : Proc) : Prop :=
  SlotEffect w f L s s' ∧ (s'.old = s.old ∨ ∃ a ∈ L, s'.old = s.mem.read a w ∧ s.mem.read a w ≠ f)

instance (w f : ℕ) (L : List ℕ) : IsPreorder Proc (OldEffect w f L) where
  refl s := ⟨refl_of _ s, .inl rfl⟩
  trans _ _ _ h₁ h₂ := ⟨trans_of _ h₁.1 h₂.1, by
    rcases h₂.2 with h | ⟨a, ha, hold, hne⟩
    · rw [h]; exact h₁.2
    · have h12 := (h₁.1.2 a ha).resolve_right hne
      exact .inr ⟨a, ha, hold.trans h12, h12 ▸ hne⟩⟩

section Slots

variable {A : Arch} {ok : ℕ → ℕ → Bool} {v : XhElf} {f : ℕ} {o : Bool} {L : List ℕ}

theorem replaceAll_steps {R : Proc → Proc → Prop} [IsPreorder Proc R] {l : List ℕ}
    (h : ∀ a ∈ l, Steps R (xhElfReplaceFunction A ok v f o a)) : Steps R (replaceAll A ok v f o l) := by
  induction l with
  | nil => exact refl_of R
  | cons a l ih =>
    rw [List.forall_mem_cons] at h
    intro s
    have h1 := h.1 s
    simp only [replaceAll]
    cases hr : xhElfReplaceFunction A ok v f o a s with
    | ok _ s₁ => rw [hr] at h1; exact trans_of R h1 (ih h.2 s₁)
    | error e s₁ => rw [hr] at h1; exact h1

/-- A replace at a slot of `L` rewrites that word alone. -/
theorem replaceFunction_slotEffect (hf : f < 256 ^ A.wordSize) (hsep : SlotsSep A.wordSize L) {a : ℕ}
    (ha : a ∈ L) : Steps (SlotEffect A.wordSize f L) (xhElfReplaceFunction A ok v f o a) := by
  intro s
  cases hr : xhElfReplaceFunction A ok v f o a s with
  | error e s' => obtain rfl := replaceFunction_error hr; exact refl_of _ _
  | ok u s' =>
    show SlotEffect _ _ _ s s'
    refine ⟨replaceFunction_sameOutside ha SameOutside.refl' hr, fun b hb => ?_⟩
    rcases replaceFunction_ok hr with ⟨-, rfl⟩ | ⟨-, -, hm, -⟩
    · exact .inl rfl
    · rw [hm]
      rcases hsep a ha b hb with rfl | hs
      · exact .inr (by rw [Mem.read_write_self, Nat.mod_eq_of_lt hf])
      · exact .inl (Mem.read_write_of_sep f hs)

/-- A replace at a slot of `L` saves, if anything, what that slot held. -/
theorem replaceFunction_oldEffect (hf : f < 256 ^ A.wordSize) (hsep : SlotsSep A.wordSize L) {a : ℕ}
    (ha : a ∈ L) : Steps (OldEffect A.wordSize f L) (xhElfReplaceFunction A ok v f o a) := by
  intro s
  refine ⟨replaceFunction_slotEffect hf hsep ha s, ?_⟩
  cases hr : xhElfReplaceFunction A ok v f o a s with
  | error e s' => obtain rfl := replaceFunction_error hr; exact .inl rfl
  | ok u s' =>
    show s'.old = s.old ∨ ∃ a ∈ L, s'.old = s.mem.read a A.wordSize ∧ s.mem.read a A.wordSize ≠ f
    rcases replaceFunction_ok hr with ⟨-, rfl⟩ | ⟨hne, -, -, ho⟩
    · exact .inl rfl
    · rw [ho]
      split_ifs
      · exact .inr ⟨a, ha, rfl, hne⟩
      · exact .inl rfl

/-- **A hook run keeps what the replaces of its slots keep**: once the symbol resolves and no
slot overlaps the relocation regions, the run is `replaceAll` over the slots, so a reflexive
and transitive `R` that every replace at a slot keeps holds of the whole run. -/
theorem xhElfHook_steps_slots {R : Proc → Proc → Prop} [IsPreorder Proc R] {symbol : List UInt8}
    {k : ℕ} {s s' : Proc} {r : Except XhErrno Unit}
    (hk : xhElfFindSymidxByName A s.mem v symbol = some (.ok k))
    (hrg : Untouched A.wordSize (hookSlots A v s.mem k) (regionReads A v))
    (hrep : ∀ a ∈ hookSlots A v s.mem k, Steps R (xhElfReplaceFunction A ok v f o a))
    (h : xhElfHook A ok v f o (some symbol) s = some (r, s')) : R s s' := by
  by_cases hpf : v.pathname ≠ 0 ∧ f ≠ 0
  · rw [xhElfHook_eq_replaceAll hpf.1 hpf.2 hk hrg] at h
    have hst := replaceAll_steps hrep s
    cases hr : replaceAll A ok v f o (hookSlots A v s.mem k) s <;> (rw [hr] at h hst; cases h; exact hst)
  · obtain rfl : s' = s := by
      unfold xhElfHook at h
      by_cases hp : v.pathname = 0
      · rw [if_pos hp] at h
        cases h
        rfl
      · rw [if_neg hp] at h
        dsimp only at h
        rw [if_pos (by tauto)] at h
        cases h
        rfl
    exact refl_of R _

/-- The slots of `puts` in `rebindImage` are one word or disjoint words, and none overlaps a
relocation record. -/
theorem rebindImage_slots :
    SlotsSep Arch.arm64.wordSize (hookSlots .arm64 (dynView 3) (Proc.start rebindImage).mem 2) ∧
      Untouched Arch.arm64.wordSize (hookSlots .arm64 (dynView 3) (Proc.start rebindImage).mem 2)
        (regionReads .arm64 (dynView 3)) := by
  decide

end Slots

/-! ## The pages a hook makes writable -/

/-- Between `s` and `s'`: every `mprotect` call added is on the page of a word at `L`, and no
other page changed protection. -/
def SlotPages (L : List ℕ) (s s' : Proc) : Prop :=
  ∃ calls : List (ℕ × ℕ), s'.mprotects = calls ++ s.mprotects ∧ (∀ c ∈ calls, ∃ a ∈ L, c.1 = pageStart a) ∧
    ∀ page, s'.prot page = s.prot page ∨ ∃ a ∈ L, page = pageStart a

instance (L : List ℕ) : IsPreorder Proc (SlotPages L) where
  refl _ := ⟨[], rfl, fun _ h => absurd h (List.not_mem_nil _), fun _ => .inl rfl⟩
  trans _ _ _ := by
    rintro ⟨c₁, hm₁, hc₁, hp₁⟩ ⟨c₂, hm₂, hc₂, hp₂⟩
    refine ⟨c₂ ++ c₁, by rw [hm₂, hm₁, List.append_assoc], fun c hc => ?_, fun page => ?_⟩
    · rcases List.mem_append.1 hc with h | h
      exacts [hc₂ c h, hc₁ c h]
    · rcases hp₂ page with h | h
      · rw [h]; exact hp₁ page
      · exact .inr h

section Pages

variable {A : Arch} {ok : ℕ → ℕ → Bool} {v : XhElf} {f : ℕ} {o : Bool}

theorem replaceFunction_slotPages {L : List ℕ} {a : ℕ} (ha : a ∈ L) :
    Steps (SlotPages L) (xhElfReplaceFunction A ok v f o a) := by
  intro s
  rcases replaceFunction_cases a s with h | ⟨p, old, h⟩
  · rw [h]; exact refl_of _ s
  · rw [h]
    refine ⟨[(pageStart a, pfToProt (writableProts p))], rfl, ?_, fun page => ?_⟩
    · simp only [List.mem_singleton]
      rintro c rfl
      exact ⟨a, ha, rfl⟩
    · by_cases hp : page = pageStart a
      · exact .inr ⟨a, ha, hp⟩
      · exact .inl (Function.update_noteq hp _ _)

end Pages

/-! ## When a hook returns `0` -/

section Progress

variable {A : Arch} {v : XhElf} {f : ℕ} {o : Bool} {symbol : List UInt8} {k : ℕ} {s : Proc}

end Progress

end XHook
