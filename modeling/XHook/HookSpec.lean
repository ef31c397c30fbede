import XHook.Footprint

/-!
# A hook run as a list of slot rewrites

`xh_elf_hook` walks three relocation regions and rewrites slots as it meets them, reading
each record from the memory the earlier rewrites left. When no slot overlaps a relocation
record or the packed stream, the walks meet the records they would meet on the memory
before the run, and the run is `replaceAll` over `hookSlots`, the slots read from that
memory. The two-run properties are proved on that list.

* `hookRegions_eq_replaceAll`: **the walks refine the slot list**.
* `replaceAll_reads`, `replaceAll_old`: with slots that are one word or disjoint words, a
  run leaves `new_func` in every slot, and saves through `old_func` the value of the last
  slot it rewrote.
-/

namespace XHook

open Mem (AgreeOn)

/-! ## Memories that differ only in slots -/

/-- `m'` holds the bytes of `m` outside the `w`-byte words at `slots`. -/
def SameOutside (w : ℕ) (slots : List ℕ) (m m' : Mem) : Prop :=
  ∀ a, (∀ s ∈ slots, a < s ∨ s + w ≤ a) → m' a = m a

/-- No byte of `reads` lies in a `w`-byte word at an address of `slots`. -/
def Untouched (w : ℕ) (slots reads : List ℕ) : Prop := ∀ a ∈ reads, ∀ s ∈ slots, a < s ∨ s + w ≤ a

instance (w : ℕ) (slots reads : List ℕ) : Decidable (Untouched w slots reads) :=
  inferInstanceAs (Decidable (∀ a ∈ reads, ∀ s ∈ slots, a < s ∨ s + w ≤ a))

/-- Any two slots of `l` are one word or disjoint words. -/
def SlotsSep (w : ℕ) (l : List ℕ) : Prop := ∀ a ∈ l, ∀ b ∈ l, a = b ∨ Sep a w b w

instance (w : ℕ) (l : List ℕ) : Decidable (SlotsSep w l) :=
  inferInstanceAs (Decidable (∀ a ∈ l, ∀ b ∈ l, a = b ∨ (a + w ≤ b ∨ b + w ≤ a)))

theorem Mem.read_inj {m m' : Mem} {a n : ℕ} (h : m'.read a n = m.read a n) :
    ∀ i < n, m' (a + i) = m (a + i) := by
  induction n generalizing a with
  | zero => intro i hi; omega
  | succ n ih =>
    simp only [Mem.read] at h
    have h1 := (m a).toNat_lt_size
    have h2 := (m' a).toNat_lt_size
    change _ < 256 at h1 h2
    have hrest : m'.read (a + 1) n = m.read (a + 1) n := by omega
    intro i hi
    cases i with
    | zero => exact UInt8.eq_of_val_eq (Fin.ext (show (m' a).toNat = (m a).toNat by omega))
    | succ i => rw [show a + (i + 1) = a + 1 + i by omega]; exact ih hrest i (by omega)

section Frame

variable {w : ℕ} {L : List ℕ} {m m' m'' : Mem}

theorem SameOutside.refl' : SameOutside w L m m := fun _ _ => rfl

theorem SameOutside.trans (h₁ : SameOutside w L m m') (h₂ : SameOutside w L m' m'') :
    SameOutside w L m m'' :=
  fun a ha => (h₂ a ha).trans (h₁ a ha)

theorem SameOutside.symm (h : SameOutside w L m m') : SameOutside w L m' m := fun a ha => (h a ha).symm

theorem SameOutside.write (h : SameOutside w L m m') {a : ℕ} (ha : a ∈ L) (x : ℕ) :
    SameOutside w L m (m'.write a w x) :=
  fun b hb => (Mem.write_apply_of_not_mem x (hb a ha)).trans (h b hb)

theorem SameOutside.agreeOn (h : SameOutside w L m m') {reads : List ℕ} (hu : Untouched w L reads) :
    AgreeOn reads m m' :=
  fun a ha => h a (hu a ha)

theorem SameOutside.read_eq (h : SameOutside w L m m') {b k : ℕ} (hb : ∀ a ∈ L, Sep a w b k) :
    m'.read b k = m.read b k :=
  Mem.read_congr fun i hi => h (b + i) fun a ha => by have := hb a ha; unfold Sep at this; omega

/-- Two memories that differ only in slots, and agree on every slot, are one memory. -/
theorem SameOutside.eq (h : SameOutside w L m m') (hr : ∀ a ∈ L, m'.read a w = m.read a w) : m' = m := by
  funext x
  by_cases hx : ∀ s ∈ L, x < s ∨ s + w ≤ x
  · exact h x hx
  · push_neg at hx
    obtain ⟨a, ha, h1, h2⟩ := hx
    have := Mem.read_inj (hr a ha) (x - a) (by omega)
    rwa [Nat.add_sub_cancel' h1] at this

theorem SlotsSep.mono {l l' : List ℕ} (h : SlotsSep w l') (hsub : ∀ a ∈ l, a ∈ l') : SlotsSep w l :=
  fun a ha b hb => h a (hsub a ha) b (hsub b hb)

end Frame

@[simp] theorem resultState_ok {ε σ α : Type} (a : α) (s : σ) :
    resultState (.ok a s : EStateM.Result ε σ α) = s := rfl

@[simp] theorem resultState_error {ε σ α : Type} (e : ε) (s : σ) :
    resultState (.error e s : EStateM.Result ε σ α) = s := rfl

/-! ## `xh_elf_replace_function` -/

section Replace

variable {A : Arch} {ok : ℕ → ℕ → Bool} {v : XhElf} {f : ℕ} {o : Bool} {a : ℕ} {s s' : Proc}

theorem setMemAccess_some {p : ℕ} (h : xhElfSetMemAccess ok a p s = some s') :
    s'.mem = s.mem ∧ s'.old = s.old := by
  unfold xhElfSetMemAccess at h
  dsimp only at h
  split at h
  · cases h; exact ⟨rfl, rfl⟩
  · cases h

/-- **What a successful replace did**: nothing, the slot holding `new_func` already, or
the slot rewritten and its old value saved, the slot lying in a `PT_LOAD` segment. -/
theorem replaceFunction_ok {u : Unit} (h : xhElfReplaceFunction A ok v f o a s = .ok u s') :
    (s.mem.read a A.wordSize = f ∧ s' = s) ∨
      (s.mem.read a A.wordSize ≠ f ∧ xhElfGetMemAccess A s.mem v a ≠ none ∧
        s'.mem = s.mem.write a A.wordSize f ∧ s'.old = if o then s.mem.read a A.wordSize else s.old) := by
  unfold xhElfReplaceFunction at h
  split at h
  · cases h; exact .inl ⟨‹_›, rfl⟩
  · rename_i hne
    split at h
    · cases h
    · rename_i p hp
      split at h
      · cases h
      · rename_i s₁ hs₁
        cases h
        obtain ⟨hm, ho⟩ := setMemAccess_some hs₁
        exact .inr ⟨hne, by simp [hp], by simp [hm], by simp [hm, ho]⟩

/-- **A replace, spelled out**: the slot's word decides whether anything happens, the segment
of its page and the kernel's answer for that page whether it succeeds. -/
theorem replaceFunction_eq (a : ℕ) (s : Proc) :
    xhElfReplaceFunction A ok v f o a s =
      if s.mem.read a A.wordSize = f then .ok () s
      else match xhElfGetMemAccess A s.mem v a with
        | none => .error .notfnd s
        | some p =>
          if ok (pageStart a) (pfToProt (writableProts p)) then
            .ok () ⟨s.mem.write a A.wordSize f, Function.update s.prot (pageStart a) (pfToProt (writableProts p)),
              (pageStart a, pfToProt (writableProts p)) :: s.mprotects, if o then s.mem.read a A.wordSize else s.old⟩
          else .error .unknown s := by
  unfold xhElfReplaceFunction
  split
  · rfl
  · cases xhElfGetMemAccess A s.mem v a with
    | none => rfl
    | some p =>
      by_cases hok : ok (pageStart a) (pfToProt (writableProts p))
      · simp only [xhElfSetMemAccess, hok, if_true]
      · simp only [xhElfSetMemAccess, hok, Bool.false_eq_true, if_false]

/-- A failed replace changes nothing. -/
theorem replaceFunction_error {e : XhErrno} (h : xhElfReplaceFunction A ok v f o a s = .error e s') :
    s' = s := by
  unfold xhElfReplaceFunction at h
  split at h
  · cases h
  · split at h
    · cases h; rfl
    · split at h
      · cases h; rfl
      · cases h

theorem replaceFunction_of_eq (h : s.mem.read a A.wordSize = f) :
    xhElfReplaceFunction A ok v f o a s = .ok () s := by
  unfold xhElfReplaceFunction; exact if_pos h

theorem replaceFunction_of_access {p : ℕ} (hr : s.mem.read a A.wordSize ≠ f)
    (hp : xhElfGetMemAccess A s.mem v a = some p) :
    ∃ s', xhElfReplaceFunction A (fun _ _ => true) v f o a s = .ok () s' := by
  simp only [xhElfReplaceFunction, hr, hp, xhElfSetMemAccess, if_false, if_true]
  exact ⟨_, rfl⟩

theorem replaceFunction_sameOutside {L : List ℕ} {m : Mem} (ha : a ∈ L)
    (hs : SameOutside A.wordSize L m s.mem) {u : Unit} (h : xhElfReplaceFunction A ok v f o a s = .ok u s') :
    SameOutside A.wordSize L m s'.mem := by
  rcases replaceFunction_ok h with ⟨-, rfl⟩ | ⟨-, -, hm, -⟩
  · exact hs
  · rw [hm]; exact hs.write ha f

end Replace

/-! ## The abstract hook: a list of slot rewrites -/

section ReplaceAll

variable (A : Arch) (ok : ℕ → ℕ → Bool) (v : XhElf) (newFunc : ℕ) (oldFunc : Bool)

/-- `xh_elf_replace_function` on each slot of `l` in turn, up to the first failure. -/
def replaceAll : List ℕ → HookM Unit
  | [], s => .ok () s
  | a :: l, s =>
    match xhElfReplaceFunction A ok v newFunc oldFunc a s with
    | .ok _ s => replaceAll l s
    | .error e s => .error e s

end ReplaceAll

section ReplaceAllSpec

variable {A : Arch} {ok : ℕ → ℕ → Bool} {v : XhElf} {f : ℕ} {o : Bool} {L : List ℕ} {m : Mem}

theorem replaceAll_append (l₁ l₂ : List ℕ) (s : Proc) :
    replaceAll A ok v f o (l₁ ++ l₂) s =
      match replaceAll A ok v f o l₁ s with
      | .ok _ s => replaceAll A ok v f o l₂ s
      | .error e s => .error e s := by
  induction l₁ generalizing s with
  | nil => rfl
  | cons a l₁ ih =>
    simp only [List.cons_append, replaceAll]
    cases xhElfReplaceFunction A ok v f o a s with
    | ok _ s => exact ih s
    | error e s => rfl

/-- A run changes the memory only in its slots. -/
theorem replaceAll_sameOutside {l : List ℕ} (hl : ∀ a ∈ l, a ∈ L) {s : Proc}
    (hs : SameOutside A.wordSize L m s.mem) :
    SameOutside A.wordSize L m (resultState (replaceAll A ok v f o l s)).mem := by
  induction l generalizing s with
  | nil => exact hs
  | cons a l ih =>
    rw [List.forall_mem_cons] at hl
    simp only [replaceAll]
    cases hr : xhElfReplaceFunction A ok v f o a s with
    | ok _ s₁ => exact ih hl.2 (replaceFunction_sameOutside hl.1 hs hr)
    | error e s₁ => obtain rfl := replaceFunction_error hr; exact hs

theorem replaceAll_read_of_sep {l : List ℕ} {b : ℕ} (hb : ∀ a ∈ l, Sep a A.wordSize b A.wordSize)
    (s : Proc) : (resultState (replaceAll A ok v f o l s)).mem.read b A.wordSize = s.mem.read b A.wordSize :=
  (replaceAll_sameOutside (L := l) (fun _ h => h) SameOutside.refl').read_eq hb

theorem replaceAll_of_reads {l : List ℕ} {s : Proc} (h : ∀ a ∈ l, s.mem.read a A.wordSize = f) :
    replaceAll A ok v f o l s = .ok () s := by
  induction l with
  | nil => rfl
  | cons a l ih =>
    rw [List.forall_mem_cons] at h
    simp only [replaceAll, replaceFunction_of_eq h.1]
    exact ih h.2

/-- **A run leaves `new_func` in every slot**, when the slots are one word or disjoint
words. -/
theorem replaceAll_reads (hf : f < 256 ^ A.wordSize) {l : List ℕ} (hsep : SlotsSep A.wordSize l)
    {s s' : Proc} (h : replaceAll A ok v f o l s = .ok () s') : ∀ a ∈ l, s'.mem.read a A.wordSize = f := by
  induction l generalizing s with
  | nil => intro a ha; cases ha
  | cons c l ih =>
    simp only [replaceAll] at h
    cases hr : xhElfReplaceFunction A ok v f o c s with
    | error e s₁ => rw [hr] at h; cases h
    | ok _ s₁ =>
      replace h : replaceAll A ok v f o l s₁ = .ok () s' := by rw [hr] at h; exact h
      have hc : s₁.mem.read c A.wordSize = f := by
        rcases replaceFunction_ok hr with ⟨h1, rfl⟩ | ⟨-, -, hm, -⟩
        · exact h1
        · rw [hm, Mem.read_write_self, Nat.mod_eq_of_lt hf]
      intro a ha
      by_cases hal : a ∈ l
      · exact ih (hsep.mono fun b hb => .tail _ hb) h a hal
      · obtain rfl : a = c := (List.mem_cons.1 ha).resolve_right hal
        have hsepa : ∀ b ∈ l, Sep b A.wordSize a A.wordSize := fun b hb =>
          (hsep b (.tail _ hb) a (.head _)).resolve_left fun e => hal (e ▸ hb)
        have : (resultState (replaceAll A ok v f o l s₁)).mem.read a A.wordSize = s₁.mem.read a A.wordSize :=
          replaceAll_read_of_sep hsepa s₁
        rw [h, resultState_ok] at this
        rw [this, hc]

/-- A successful run found every slot it had to rewrite in a `PT_LOAD` segment. -/
theorem replaceAll_access {l : List ℕ} (hl : ∀ a ∈ l, a ∈ L) (hsep : SlotsSep A.wordSize L)
    (hc : ∀ m', SameOutside A.wordSize L m m' → ∀ x, xhElfGetMemAccess A m' v x = xhElfGetMemAccess A m v x)
    {s s' : Proc} (hs : SameOutside A.wordSize L m s.mem) (h : replaceAll A ok v f o l s = .ok () s') :
    ∀ a ∈ l, s.mem.read a A.wordSize ≠ f → xhElfGetMemAccess A m v a ≠ none := by
  induction l generalizing s with
  | nil => intro a ha; cases ha
  | cons c l ih =>
    rw [List.forall_mem_cons] at hl
    simp only [replaceAll] at h
    cases hr : xhElfReplaceFunction A ok v f o c s with
    | error e s₁ => rw [hr] at h; cases h
    | ok _ s₁ =>
      replace h : replaceAll A ok v f o l s₁ = .ok () s' := by rw [hr] at h; exact h
      intro a ha hne
      rcases replaceFunction_ok hr with ⟨h1, rfl⟩ | ⟨-, hp, hm, -⟩
      · rcases List.mem_cons.1 ha with rfl | ha
        · exact absurd h1 hne
        · exact ih hl.2 hs h a ha hne
      · by_cases hac : a = c
        · subst hac; rwa [hc s.mem hs] at hp
        · have ha : a ∈ l := (List.mem_cons.1 ha).resolve_left hac
          have hsep' : Sep c A.wordSize a A.wordSize := (hsep c hl.1 a (hl.2 a ha)).resolve_left (Ne.symm hac)
          refine ih hl.2 (by rw [hm]; exact hs.write hl.1 f) h a ha ?_
          rwa [hm, Mem.read_write_of_sep f hsep']

/-- With every `mprotect` granted, a run succeeds when every slot it has to rewrite lies in a
`PT_LOAD` segment. -/
theorem replaceAll_exists (hf : f < 256 ^ A.wordSize) (hsep : SlotsSep A.wordSize L)
    (hc : ∀ m', SameOutside A.wordSize L m m' → ∀ x, xhElfGetMemAccess A m' v x = xhElfGetMemAccess A m v x)
    {l : List ℕ} (hl : ∀ a ∈ l, a ∈ L) {s : Proc} (hs : SameOutside A.wordSize L m s.mem)
    (ha : ∀ a ∈ l, s.mem.read a A.wordSize ≠ f → xhElfGetMemAccess A m v a ≠ none) :
    ∃ s', replaceAll A (fun _ _ => true) v f o l s = .ok () s' := by
  induction l generalizing s with
  | nil => exact ⟨s, rfl⟩
  | cons c l ih =>
    rw [List.forall_mem_cons] at hl ha
    simp only [replaceAll]
    by_cases h1 : s.mem.read c A.wordSize = f
    · rw [replaceFunction_of_eq h1]
      exact ih hl.2 hs ha.2
    · obtain ⟨p, hp⟩ := Option.ne_none_iff_exists'.1 (ha.1 h1)
      obtain ⟨s₁, hs₁⟩ := replaceFunction_of_access (o := o) h1 ((hc s.mem hs c).trans hp)
      rw [hs₁]
      obtain ⟨-, -, hm, -⟩ := (replaceFunction_ok hs₁).resolve_left fun h => h1 h.1
      refine ih hl.2 (by rw [hm]; exact hs.write hl.1 f) fun a ha' hne => ?_
      by_cases hac : a = c
      · subst hac; rw [hm, Mem.read_write_self, Nat.mod_eq_of_lt hf] at hne; exact absurd rfl hne
      · have hsep' := (hsep c hl.1 a (hl.2 a ha')).resolve_left (Ne.symm hac)
        exact ha.2 a ha' (by rwa [hm, Mem.read_write_of_sep f hsep'] at hne)

/-- **A run saves the value of the last slot it rewrote**: when every slot holds `u` or
`new_func`, what `old_func` receives is `u`, if it held `u` already or a slot holds `u`. -/
theorem replaceAll_old (hf : f < 256 ^ A.wordSize) {l : List ℕ} (hsep : SlotsSep A.wordSize l) {u : ℕ}
    (huf : u ≠ f) {s s' : Proc} (h : replaceAll A ok v f true l s = .ok () s')
    (hu : ∀ a ∈ l, s.mem.read a A.wordSize = u ∨ s.mem.read a A.wordSize = f)
    (hold : s.old = u ∨ ∃ a ∈ l, s.mem.read a A.wordSize = u) : s'.old = u := by
  induction l generalizing s with
  | nil =>
    cases h
    simpa using hold
  | cons c l ih =>
    rw [List.forall_mem_cons] at hu
    simp only [replaceAll] at h
    cases hr : xhElfReplaceFunction A ok v f true c s with
    | error e s₁ => rw [hr] at h; cases h
    | ok _ s₁ =>
      replace h : replaceAll A ok v f true l s₁ = .ok () s' := by rw [hr] at h; exact h
      have hsep' := hsep.mono fun b hb => List.mem_cons_of_mem c hb
      rcases replaceFunction_ok hr with ⟨h1, rfl⟩ | ⟨h1, -, hm, ho⟩
      · refine ih hsep' h hu.2 (hold.imp_right fun ⟨a, ha, hau⟩ => ⟨a, ?_, hau⟩)
        rcases List.mem_cons.1 ha with rfl | ha
        · exact absurd (hau.symm.trans h1) huf
        · exact ha
      · have hcu : s.mem.read c A.wordSize = u := hu.1.resolve_right h1
        refine ih hsep' h (fun a ha => ?_) (.inl (by rw [ho, if_pos rfl, hcu]))
        by_cases hac : a = c
        · subst hac; exact .inr (by rw [hm, Mem.read_write_self, Nat.mod_eq_of_lt hf])
        · have hs := (hsep c (.head _) a (.tail _ ha)).resolve_left (Ne.symm hac)
          rw [hm, Mem.read_write_of_sep f hs]
          exact hu.2 a ha

end ReplaceAllSpec

/-! ## The slots of a hook run -/

section Slots

variable (A : Arch) (v : XhElf) (m : Mem) (symidx : ℕ)

/-- The slots of the records `rs` that `xh_elf_find_and_replace_func` acts on, in order. -/
def matchingSlots (rs : List ElfRel) : List ℕ :=
  (rs.filter fun r => decide (relocMatches A symidx r)).map (v.slotOf A)

/-- The PLT walk's slot, read from `m`: that of the first matching record. -/
def pltSlots : List ℕ :=
  if v.relplt ≠ 0 then
    (matchingSlots A v symidx ((regionPtrs A v v.relplt v.relpltSz).map (plainRecord A m))).take 1
  else []

/-- The DYN walk's slots, read from `m`. -/
def dynSlots : List ℕ :=
  if v.reldyn ≠ 0 then matchingSlots A v symidx ((regionPtrs A v v.reldyn v.reldynSz).map (plainRecord A m))
  else []

/-- The Android walk's slots, read from `m`. -/
def androidSlots : List ℕ :=
  if v.relandroid ≠ 0 then
    matchingSlots A v symidx ((packedRecords A.wordBits m (androidIter A v m)).map RelocOut.toRel)
  else []

/-- The slots a hook of symbol `symidx` rewrites, read from the memory `m` before the run, in
the order the walks meet them. -/
def hookSlots : List ℕ := pltSlots A v m symidx ++ dynSlots A v m symidx ++ androidSlots A v m symidx

/-- The bytes of the plain records at `ps`. -/
def recordReads (ps : List ℕ) : List ℕ := ps.flatMap fun p => List.range' p (2 * A.wordSize)

/-- The relocation tables a hook run reads: the records of the PLT and DYN walks, and the
packed stream. -/
def regionReads : List ℕ :=
  (if v.relplt ≠ 0 then recordReads A (regionPtrs A v v.relplt v.relpltSz) else []) ++
    (if v.reldyn ≠ 0 then recordReads A (regionPtrs A v v.reldyn v.reldynSz) else []) ++
    (if v.relandroid ≠ 0 then streamReads v else [])

end Slots

section Refines

variable {A : Arch} {ok : ℕ → ℕ → Bool} {v : XhElf} {f : ℕ} {o : Bool} {symidx : ℕ} {L : List ℕ}
  {m : Mem}

theorem matchingSlots_cons (r : ElfRel) (rs : List ElfRel) :
    matchingSlots A v symidx (r :: rs) =
      if relocMatches A symidx r then v.slotOf A r :: matchingSlots A v symidx rs
      else matchingSlots A v symidx rs := by
  by_cases h : relocMatches A symidx r <;> simp [matchingSlots, List.filter_cons, h]

theorem findAndReplaceFunc_eq (r : ElfRel) (s : Proc) :
    xhElfFindAndReplaceFunc A ok v f o symidx r s =
      if relocMatches A symidx r then
        match xhElfReplaceFunction A ok v f o (v.slotOf A r) s with
        | .ok _ s => .ok true s
        | .error e s => .error e s
      else .ok false s := by
  unfold xhElfFindAndReplaceFunc
  split
  · simp only [estate_bind_apply, estate_pure_apply]
    cases xhElfReplaceFunction A ok v f o (v.slotOf A r) s <;> rfl
  · rfl

theorem recordReads_cons (p : ℕ) (ps : List ℕ) :
    recordReads A (p :: ps) = List.range' p (2 * A.wordSize) ++ recordReads A ps := List.flatMap_cons _ _ _

/-- The PLT walk rewrites the first matching slot: it writes nothing before it. -/
theorem hookPltLoop_eq (ps : List ℕ) (s : Proc) :
    hookPltLoop A ok v f o symidx ps s =
      replaceAll A ok v f o ((matchingSlots A v symidx (ps.map (plainRecord A s.mem))).take 1) s := by
  induction ps with
  | nil => rfl
  | cons p ps ih =>
    simp only [hookPltLoop, estate_bind_apply, estate_get_apply, findAndReplaceFunc_eq, List.map_cons,
      matchingSlots_cons]
    split_ifs
    · simp only [List.take, replaceAll]
      cases xhElfReplaceFunction A ok v f o (v.slotOf A (plainRecord A s.mem p)) s <;> rfl
    · exact ih

/-- The DYN walk rewrites the matching slots read from `m`, when no slot overlaps a record. -/
theorem hookDynLoop_eq {ps : List ℕ} (hL : ∀ a ∈ matchingSlots A v symidx (ps.map (plainRecord A m)), a ∈ L)
    (hu : Untouched A.wordSize L (recordReads A ps)) {s : Proc} (hs : SameOutside A.wordSize L m s.mem) :
    hookDynLoop A ok v f o symidx ps s =
      replaceAll A ok v f o (matchingSlots A v symidx (ps.map (plainRecord A m))) s := by
  induction ps generalizing s with
  | nil => rfl
  | cons p ps ih =>
    rw [recordReads_cons] at hu
    have hu' : Untouched A.wordSize L (recordReads A ps) := fun a ha => hu a (List.mem_append_right _ ha)
    have hrec : plainRecord A s.mem p = plainRecord A m p :=
      plainRecord_congr fun a ha => hs a (hu a (List.mem_append_left _ ha))
    simp only [hookDynLoop, estate_bind_apply, estate_get_apply, findAndReplaceFunc_eq, hrec, List.map_cons,
      matchingSlots_cons] at hL ⊢
    split_ifs at hL ⊢
    · rw [List.forall_mem_cons] at hL
      simp only [replaceAll]
      cases hr : xhElfReplaceFunction A ok v f o (v.slotOf A (plainRecord A m p)) s with
      | ok _ s₁ => exact ih hL.2 hu' (replaceFunction_sameOutside hL.1 hs hr)
      | error e s₁ => rfl
    · exact ih hL hu' hs

/-- The Android walk rewrites the matching slots of the records read from `m`, when no slot
overlaps the stream. -/
theorem hookAndroidLoop_eq {lo n : ℕ} (hu : Untouched A.wordSize L (List.range' lo n)) :
    ∀ (fuel : ℕ) (it : PackedRelocIterator) (s : Proc), it.decoder.Within lo (lo + n) →
      (∀ a ∈ matchingSlots A v symidx ((packedRecordsAux A.wordBits m fuel it).map RelocOut.toRel), a ∈ L) →
      SameOutside A.wordSize L m s.mem →
      hookAndroidLoop A ok v f o symidx fuel it s =
        replaceAll A ok v f o (matchingSlots A v symidx ((packedRecordsAux A.wordBits m fuel it).map RelocOut.toRel)) s
  | 0, _, _, _, _, _ => rfl
  | fuel + 1, it, s, hit, hL, hs => by
    obtain ⟨he, hw⟩ := packedNext_congr (w := A.wordBits) (hs.agreeOn hu) hit
    rw [hookAndroidLoop, he]
    simp only [packedRecordsAux] at hL ⊢
    rcases hn : xhElfPackedRelocIteratorNext A.wordBits m it with ⟨_ | r, it'⟩
    · rfl
    · rw [hn] at hw hL
      simp only [List.map_cons, matchingSlots_cons, estate_bind_apply, findAndReplaceFunc_eq] at hL ⊢
      split_ifs at hL ⊢
      · rw [List.forall_mem_cons] at hL
        simp only [replaceAll]
        cases hr : xhElfReplaceFunction A ok v f o (v.slotOf A r.toRel) s with
        | ok _ s₁ => exact hookAndroidLoop_eq hu fuel it' s₁ hw hL.2 (replaceFunction_sameOutside hL.1 hs hr)
        | error e s₁ => rfl
      · exact hookAndroidLoop_eq hu fuel it' s hw hL hs

theorem Untouched.append_iff {w : ℕ} {L l₁ l₂ : List ℕ} :
    Untouched w L (l₁ ++ l₂) ↔ Untouched w L l₁ ∧ Untouched w L l₂ :=
  List.forall_mem_append

/-- The three parts of `regionReads`. -/
theorem Untouched.regions {w : ℕ} (hu : Untouched w L (regionReads A v)) :
    (v.relplt ≠ 0 → Untouched w L (recordReads A (regionPtrs A v v.relplt v.relpltSz))) ∧
      (v.reldyn ≠ 0 → Untouched w L (recordReads A (regionPtrs A v v.reldyn v.reldynSz))) ∧
      (v.relandroid ≠ 0 → Untouched w L (streamReads v)) := by
  simp only [regionReads, Untouched.append_iff] at hu
  exact ⟨fun h => by simpa [h] using hu.1.1, fun h => by simpa [h] using hu.1.2,
    fun h => by simpa [h] using hu.2⟩

theorem hookPlt_eq (s : Proc) :
    hookPlt A ok v f o symidx s = replaceAll A ok v f o (pltSlots A v s.mem symidx) s := by
  unfold hookPlt pltSlots
  split_ifs
  · exact hookPltLoop_eq _ s
  · rfl

theorem hookDyn_eq (hL : ∀ a ∈ dynSlots A v m symidx, a ∈ L) (hu : Untouched A.wordSize L (regionReads A v))
    {s : Proc} (hs : SameOutside A.wordSize L m s.mem) :
    hookDyn A ok v f o symidx s = replaceAll A ok v f o (dynSlots A v m symidx) s := by
  unfold hookDyn
  unfold dynSlots at hL ⊢
  split_ifs with h
  · rw [if_pos h] at hL
    exact hookDynLoop_eq hL (hu.regions.2.1 h) hs
  · rfl

theorem hookAndroid_eq (hL : ∀ a ∈ androidSlots A v m symidx, a ∈ L) (hu : Untouched A.wordSize L (regionReads A v))
    {s : Proc} (hs : SameOutside A.wordSize L m s.mem) :
    hookAndroid A ok v f o symidx s = replaceAll A ok v f o (androidSlots A v m symidx) s := by
  unfold hookAndroid
  unfold androidSlots at hL ⊢
  split_ifs with h
  · rw [if_pos h, packedRecords] at hL
    have hu' := hu.regions.2.2 h
    obtain ⟨hi, hw⟩ := androidIter_congr (A := A) (hs.agreeOn hu')
    simp only [hi, packedRecords]
    exact hookAndroidLoop_eq hu' _ _ s hw hL hs
  · rfl

/-- **The walks refine the slot list**: when no slot overlaps a relocation record or the
packed stream, the three walks are `replaceAll` over the slots read from the memory before
the run. -/
theorem hookRegions_eq_replaceAll {s : Proc}
    (hu : Untouched A.wordSize (hookSlots A v s.mem symidx) (regionReads A v)) :
    hookRegions A ok v f o symidx s = replaceAll A ok v f o (hookSlots A v s.mem symidx) s := by
  have hsub : ∀ {l : List ℕ}, (∀ a ∈ l, a ∈ hookSlots A v s.mem symidx) →
      ∀ {s' : Proc} {u : Unit}, replaceAll A ok v f o l s = .ok u s' →
        SameOutside A.wordSize (hookSlots A v s.mem symidx) s.mem s'.mem := fun hl s' u h => by
    have : SameOutside A.wordSize (hookSlots A v s.mem symidx) s.mem
        (resultState (replaceAll A ok v f o _ s)).mem := replaceAll_sameOutside hl SameOutside.refl'
    rwa [h] at this
  unfold hookRegions
  rw [estate_bind_apply, hookPlt_eq, hookSlots, replaceAll_append, replaceAll_append]
  cases h1 : replaceAll A ok v f o (pltSlots A v s.mem symidx) s with
  | error e s₁ => rfl
  | ok _ s₁ =>
    have hs₁ := hsub (fun a ha => by simp [hookSlots, ha]) h1
    simp only [estate_bind_apply]
    rw [hookDyn_eq (fun a ha => by simp [hookSlots, ha]) hu hs₁]
    cases h2 : replaceAll A ok v f o (dynSlots A v s.mem symidx) s₁ with
    | error e s₂ => rfl
    | ok _ s₂ =>
      have hs₂ : SameOutside A.wordSize (hookSlots A v s.mem symidx) s.mem
          (resultState (replaceAll A ok v f o (dynSlots A v s.mem symidx) s₁)).mem :=
        replaceAll_sameOutside (fun a ha => by simp [hookSlots, ha]) hs₁
      rw [h2] at hs₂
      exact hookAndroid_eq (fun a ha => by simp [hookSlots, ha]) hu hs₂

/-- The slots depend on the memory only through the relocation tables. -/
theorem hookSlots_congr {m' : Mem} (h : AgreeOn (regionReads A v) m m') :
    hookSlots A v m' symidx = hookSlots A v m symidx := by
  simp only [regionReads, AgreeOn.append_iff] at h
  obtain ⟨⟨hplt, hdyn⟩, hand⟩ := h
  have hrec : ∀ {ps : List ℕ}, AgreeOn (recordReads A ps) m m' →
      ps.map (plainRecord A m') = ps.map (plainRecord A m) := fun h =>
    List.map_congr_left fun p hp => plainRecord_congr fun a ha => h a (List.mem_flatMap.2 ⟨p, hp, ha⟩)
  have h1 : pltSlots A v m' symidx = pltSlots A v m symidx := by
    unfold pltSlots
    split_ifs at hplt ⊢
    · rw [hrec hplt]
    · rfl
  have h2 : dynSlots A v m' symidx = dynSlots A v m symidx := by
    unfold dynSlots
    split_ifs at hdyn ⊢
    · rw [hrec hdyn]
    · rfl
  have h3 : androidSlots A v m' symidx = androidSlots A v m symidx := by
    unfold androidSlots
    split_ifs at hand ⊢
    · obtain ⟨hi, hw⟩ := androidIter_congr (A := A) hand
      rw [hi, packedRecords, packedRecords, packedRecordsAux_congr hand hw]
    · rfl
  rw [hookSlots, hookSlots, h1, h2, h3]

/-- **A hook run, once the symbol resolves**: under the frame, `xh_elf_hook` is `replaceAll`
over the slots read from the memory before it. -/
theorem xhElfHook_eq_replaceAll {symbol : List UInt8} {k : ℕ} {s : Proc} (hp : v.pathname ≠ 0) (hf : f ≠ 0)
    (hk : xhElfFindSymidxByName A s.mem v symbol = some (.ok k))
    (hu : Untouched A.wordSize (hookSlots A v s.mem k) (regionReads A v)) :
    xhElfHook A ok v f o (some symbol) s =
      match replaceAll A ok v f o (hookSlots A v s.mem k) s with
      | .ok _ s => some (.ok (), s)
      | .error e s => some (.error e, s) := by
  cases h : replaceAll A ok v f o (hookSlots A v s.mem k) s <;>
    simp only [xhElfHook, hp, hf, hk, if_false, hookRegions_eq_replaceAll hu, h]

end Refines

end XHook
