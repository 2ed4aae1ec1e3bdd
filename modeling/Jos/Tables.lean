import Jos.Refs

/-!
  What one write to memory does to the page tables.

  Directories and page tables sit in frames of their own, so a write to one of them changes one
  entry of one owner, and a write elsewhere changes none. -/

namespace Jos

open Lib RefCount

/-- Directories and page tables occupy frames that nothing else refers to. -/
structure Separate (s : KState) : Prop where
  sole : Sole Slot.IsTable (target s)
  kern : ∀ r, target s r ≠ some s.kernPgdir

theorem PageInv.separate {s : KState} {L : List Nat} {H : Finset Nat} (h : PageInv s L H) :
    Separate s :=
  ⟨h.sole, fun r hr => h.kern (h.counted.target r _ hr)⟩

namespace Separate

variable {s : KState} (h : Separate s)

include h

theorem dir_inj {o q : Owner} {d : Nat} (ho : dirFrame s o = some d) (ho' : dirFrame s q = some d) :
    q = o := by
  cases o with
  | none =>
    cases q with
    | none => rfl
    | some e' =>
      obtain rfl := Option.some.inj ho
      exact absurd ho' (h.kern (.dir e'))
  | some e =>
    cases q with
    | none =>
      obtain rfl := Option.some.inj ho'
      exact absurd ho (h.kern (.dir e))
    | some e' =>
      have := h.sole (.dir e) d trivial ho (.dir e') ho'
      injection this with this
      rw [this]

theorem tab_ne_dir {o q : Owner} {i : Idx} {t d : Nat} (ht : tabFrame s o i = some t)
    (hd : dirFrame s q = some d) : t ≠ d := by
  rintro rfl
  cases q with
  | none =>
    obtain rfl := Option.some.inj hd
    exact h.kern (.tab o i) ht
  | some e =>
    have := h.sole (.tab o i) t trivial ht (.dir e) hd
    cases this

theorem tab_inj {o o' : Owner} {i i' : Idx} {t : Nat} (ht : tabFrame s o i = some t)
    (ht' : tabFrame s o' i' = some t) : o' = o ∧ i' = i := by
  have := h.sole (.tab o i) t trivial ht (.tab o' i') ht'
  injection this with h1 h2
  exact ⟨h1, h2⟩

/-- What a page-table entry maps is not used as a directory or page table. -/
theorem pte_not_table {e : EnvIdx} {i j : Idx} {f : Nat} (hf : target s (.pte e i j) = some f)
    (r : Slot) (hr : r.IsTable) : target s r ≠ some f := by
  intro hrf
  have := h.sole r f hr hrf _ hf
  rw [← this] at hr
  exact hr

end Separate

/-! ### Reading an entry -/

theorem pteAt_of_tab {s : KState} {o : Owner} {i : Idx} {t : Nat} (ht : tabFrame s o i = some t)
    (j : Idx) : pteAt s o i j = s.mem t j := by
  rw [pteAt, ht]

theorem pteAt_of_no_tab {s : KState} {o : Owner} {i : Idx} (ht : tabFrame s o i = none) (j : Idx) :
    pteAt s o i j = 0 := by
  rw [pteAt, ht]

theorem owns_of_tab {s : KState} {o : Owner} {i : Idx} {t : Nat} (ht : tabFrame s o i = some t) :
    Owns o i := by
  unfold tabFrame at ht
  by_contra hn
  rw [if_neg hn] at ht
  cases ht

theorem dir_of_tab {s : KState} {o : Owner} {i : Idx} {t : Nat} (ht : tabFrame s o i = some t) :
    ∃ d, dirFrame s o = some d ∧ entryFrame (s.mem d i) = some t := by
  have ho := owns_of_tab ht
  rw [tabFrame, if_pos ho, pdeAt] at ht
  cases hd : dirFrame s o with
  | none => rw [hd] at ht; simp at ht
  | some d => rw [hd] at ht; exact ⟨d, rfl, ht⟩

theorem tabFrame_of_dir {s : KState} {o : Owner} {i : Idx} {d : Nat} (hd : dirFrame s o = some d)
    (ho : Owns o i) : tabFrame s o i = entryFrame (s.mem d i) := by
  rw [tabFrame, if_pos ho, pdeAt, hd]

/-- A directory entry is in use exactly when the directory exists and the entry is present. -/
theorem dir_of_pte {s : KState} {o : Owner} {i j : Idx} {f : Nat}
    (hp : entryFrame (pteAt s o i j) = some f) :
    ∃ d t, dirFrame s o = some d ∧ entryFrame (s.mem d i) = some t ∧ tabFrame s o i = some t ∧
      entryFrame (s.mem t j) = some f := by
  cases ht : tabFrame s o i with
  | none => rw [pteAt_of_no_tab ht, entryFrame_zero] at hp; cases hp
  | some t =>
    rw [pteAt_of_tab ht] at hp
    obtain ⟨d, hd, he⟩ := dir_of_tab ht
    exact ⟨d, t, hd, he, rfl, hp⟩

/-- The entries of all slots determine what the slots refer to. -/
theorem target_eq_of_tables {s t : KState} (he : ∀ e, (t.envs e).envPgdir = (s.envs e).envPgdir)
    (ht : tabFrame t = tabFrame s) (hp : ∀ e i j, pteAt t (some e) i j = pteAt s (some e) i j) :
    target t = target s := by
  funext r
  cases r <;> simp [target, he, ht, hp]

/-! ### Writes to a frame that is not a directory -/

section NotDir

variable {s : KState} {f : Nat} (hf : ∀ o, dirFrame s o ≠ some f) (p : Page)

include hf

theorem pdeAt_setFrame : pdeAt (s.setFrame f p) = pdeAt s := by
  funext o i
  have hd : dirFrame (s.setFrame f p) o = dirFrame s o := rfl
  unfold pdeAt
  rw [hd]
  cases ho : dirFrame s o with
  | none => rfl
  | some d =>
    have hne : d ≠ f := fun e => hf o (e ▸ ho)
    simp only [KState.setFrame_mem, Function.update_of_ne hne]

theorem tabFrame_setFrame : tabFrame (s.setFrame f p) = tabFrame s := by
  funext o i
  rw [tabFrame, tabFrame, pdeAt_setFrame hf]

theorem pteAt_setFrame (o : Owner) (i j : Idx) :
    pteAt (s.setFrame f p) o i j = if tabFrame s o i = some f then p j else pteAt s o i j := by
  unfold pteAt
  rw [tabFrame_setFrame hf]
  cases ht : tabFrame s o i with
  | none => simp
  | some t =>
    by_cases hte : t = f
    · subst hte; simp
    · simp [hte]

end NotDir

/-- Frames used neither as a directory nor as a page table. -/
def NotTable (s : KState) (f : Nat) : Prop :=
  f ≠ s.kernPgdir ∧ ∀ r : Slot, r.IsTable → target s r ≠ some f

theorem NotTable.not_dir {s : KState} {f : Nat} (h : NotTable s f) (o : Owner) :
    dirFrame s o ≠ some f := by
  cases o with
  | none => exact fun hd => h.1 (Option.some.inj hd).symm
  | some e => exact h.2 (.dir e) trivial

theorem NotTable.not_tab {s : KState} {f : Nat} (h : NotTable s f) (o : Owner) (i : Idx) :
    tabFrame s o i ≠ some f := h.2 (.tab o i) trivial

/-- A write to a data frame changes no entry. -/
theorem NotTable.pteAt_setFrame {s : KState} {f : Nat} (h : NotTable s f) (p : Page) :
    pteAt (s.setFrame f p) = pteAt s := by
  funext o i j
  rw [Jos.pteAt_setFrame h.not_dir, if_neg (h.not_tab o i)]

theorem NotTable.target_setFrame {s : KState} {f : Nat} (h : NotTable s f) (p : Page) :
    target (s.setFrame f p) = target s :=
  target_eq_of_tables (fun _ => rfl) (tabFrame_setFrame h.not_dir p)
    (fun e i j => by rw [h.pteAt_setFrame])

/-! ### One page-table entry -/

section Pte

variable {s : KState} (h : Separate s) {o : Owner} {i : Idx} {t : Nat}
  (ht : tabFrame s o i = some t) (j : Idx) (w : Word)

include h ht

theorem tabFrame_poke_pte : tabFrame (s.poke t j w) = tabFrame s :=
  tabFrame_setFrame (fun _ hd => h.tab_ne_dir ht hd rfl) _

theorem pteAt_poke_pte (o' : Owner) (i' j' : Idx) :
    pteAt (s.poke t j w) o' i' j' = if o' = o ∧ i' = i ∧ j' = j then w else pteAt s o' i' j' := by
  rw [KState.poke_eq, pteAt_setFrame (fun _ hd => h.tab_ne_dir ht hd rfl)]
  by_cases ht' : tabFrame s o' i' = some t
  · obtain ⟨rfl, rfl⟩ := h.tab_inj ht ht'
    rw [if_pos ht', pteAt_of_tab ht, Function.update_apply]
    simp
  · have hne : ¬ (o' = o ∧ i' = i ∧ j' = j) := by
      rintro ⟨rfl, rfl, -⟩; exact ht' ht
    rw [if_neg ht', if_neg hne]

end Pte

/-- Writing a user's page-table entry changes what that one slot refers to. -/
theorem target_poke_pte {s : KState} (h : Separate s) {e : EnvIdx} {i : Idx} {t : Nat}
    (ht : tabFrame s (some e) i = some t) (j : Idx) (w : Word) :
    target (s.poke t j w) = Function.update (target s) (.pte e i j) (entryFrame w) := by
  funext r
  cases r with
  | dir e' => rw [Function.update_of_ne (by simp)]; rfl
  | tab o' i' =>
    rw [Function.update_of_ne (by simp)]
    simp only [target, tabFrame_poke_pte h ht]
  | pte e' i' j' =>
    simp only [target, pteAt_poke_pte h ht]
    by_cases hr : e' = e ∧ i' = i ∧ j' = j
    · obtain ⟨rfl, rfl, rfl⟩ := hr
      simp
    · have hne : (Slot.pte e' i' j') ≠ .pte e i j := by
        intro heq; injection heq with h1 h2 h3; exact hr ⟨h1, h2, h3⟩
      rw [Function.update_of_ne hne, if_neg (by simpa using hr)]
      rfl

/-- Writing an entry of a kernel page table changes no counted reference. -/
theorem target_poke_kern {s : KState} (h : Separate s) {i : Idx} {t : Nat}
    (ht : tabFrame s none i = some t) (j : Idx) (w : Word) : target (s.poke t j w) = target s :=
  target_eq_of_tables (fun _ => rfl) (tabFrame_poke_pte h ht j w)
    (fun e i' j' => by rw [pteAt_poke_pte h ht, if_neg (by simp)])

/-! ### One directory entry -/

section Pde

variable {s : KState} (h : Separate s) {o : Owner} {d : Nat} (hd : dirFrame s o = some d) (i : Idx)
  (w : Word)

include h hd

theorem pdeAt_poke_pde (o' : Owner) (i' : Idx) :
    pdeAt (s.poke d i w) o' i' = if o' = o ∧ i' = i then w else pdeAt s o' i' := by
  have hdf : dirFrame (s.poke d i w) o' = dirFrame s o' := rfl
  unfold pdeAt
  rw [hdf]
  cases ho : dirFrame s o' with
  | none =>
    have hne : o' ≠ o := by rintro rfl; rw [hd] at ho; cases ho
    simp [hne]
  | some d' =>
    by_cases hdd : d' = d
    · subst hdd
      obtain rfl := h.dir_inj hd ho
      simp only [KState.poke_mem_self, true_and]
    · have hne : o' ≠ o := by rintro rfl; rw [hd] at ho; exact hdd (Option.some.inj ho).symm
      simp only [KState.poke_mem_of_ne _ _ _ _ hdd, hne, false_and, if_false]

theorem tabFrame_poke_pde (ho : Owns o i) (o' : Owner) (i' : Idx) :
    tabFrame (s.poke d i w) o' i' = if o' = o ∧ i' = i then entryFrame w else tabFrame s o' i' := by
  unfold tabFrame
  rw [pdeAt_poke_pde h hd]
  by_cases hr : o' = o ∧ i' = i
  · obtain ⟨rfl, rfl⟩ := hr
    simp [ho]
  · simp [hr]

variable {i w}

/-- Entering a zeroed page table changes no page-table entry. -/
theorem pteAt_new_table (ho : Owns o i) (hi : tabFrame s o i = none) {t : Nat}
    (hw : entryFrame w = some t) (hz : s.mem t = fun _ => 0) (htd : t ≠ d) :
    pteAt (s.poke d i w) = pteAt s := by
  funext o' i' j'
  by_cases hr : o' = o ∧ i' = i
  · obtain ⟨rfl, rfl⟩ := hr
    have ht' : tabFrame (s.poke d i' w) o' i' = some t := by
      rw [tabFrame_poke_pde h hd i' w ho, if_pos ⟨rfl, rfl⟩, hw]
    rw [pteAt_of_tab ht', pteAt_of_no_tab hi, KState.poke_mem_of_ne _ _ _ _ htd, hz]
  · have heq : tabFrame (s.poke d i w) o' i' = tabFrame s o' i' := by
      rw [tabFrame_poke_pde h hd i w ho, if_neg hr]
    cases ht : tabFrame s o' i' with
    | none => rw [pteAt_of_no_tab ht, pteAt_of_no_tab (heq.trans ht)]
    | some t' =>
      rw [pteAt_of_tab ht, pteAt_of_tab (heq.trans ht),
        KState.poke_mem_of_ne _ _ _ _ (h.tab_ne_dir ht hd)]

/-- Clearing a directory entry removes the entries of its page table. -/
theorem pteAt_drop_table (ho : Owns o i) (o' : Owner) (i' j' : Idx) :
    pteAt (s.poke d i 0) o' i' j' = if o' = o ∧ i' = i then 0 else pteAt s o' i' j' := by
  by_cases hr : o' = o ∧ i' = i
  · have ht : tabFrame (s.poke d i 0) o' i' = none := by
      rw [tabFrame_poke_pde h hd i 0 ho, if_pos hr, entryFrame_zero]
    rw [if_pos hr, pteAt_of_no_tab ht]
  · have heq : tabFrame (s.poke d i 0) o' i' = tabFrame s o' i' := by
      rw [tabFrame_poke_pde h hd i 0 ho, if_neg hr]
    rw [if_neg hr]
    cases ht : tabFrame s o' i' with
    | none => rw [pteAt_of_no_tab ht, pteAt_of_no_tab (heq.trans ht)]
    | some t' =>
      rw [pteAt_of_tab ht, pteAt_of_tab (heq.trans ht),
        KState.poke_mem_of_ne _ _ _ _ (h.tab_ne_dir ht hd)]

theorem target_new_table (ho : Owns o i) (hi : tabFrame s o i = none) {t : Nat}
    (hw : entryFrame w = some t) (hz : s.mem t = fun _ => 0) (htd : t ≠ d) :
    target (s.poke d i w) = Function.update (target s) (.tab o i) (some t) := by
  funext r
  cases r with
  | dir e' => rw [Function.update_of_ne (by simp)]; rfl
  | tab o' i' =>
    simp only [target, tabFrame_poke_pde h hd i w ho]
    by_cases hr : o' = o ∧ i' = i
    · obtain ⟨rfl, rfl⟩ := hr
      simp [hw]
    · have hne : (Slot.tab o' i') ≠ .tab o i := by
        intro heq; injection heq with h1 h2; exact hr ⟨h1, h2⟩
      rw [Function.update_of_ne hne, if_neg hr]
      rfl
  | pte e' i' j' =>
    rw [Function.update_of_ne (by simp)]
    simp only [target, pteAt_new_table h hd ho hi hw hz htd]

theorem target_drop_table {e : EnvIdx} (hoe : o = some e) (ho : Owns o i)
    (hz : ∀ j, entryFrame (pteAt s o i j) = none) :
    target (s.poke d i 0) = Function.update (target s) (.tab o i) none := by
  funext r
  cases r with
  | dir e' => rw [Function.update_of_ne (by simp)]; rfl
  | tab o' i' =>
    simp only [target, tabFrame_poke_pde h hd i 0 ho]
    by_cases hr : o' = o ∧ i' = i
    · obtain ⟨rfl, rfl⟩ := hr
      simp
    · have hne : (Slot.tab o' i') ≠ .tab o i := by
        intro heq; injection heq with h1 h2; exact hr ⟨h1, h2⟩
      rw [Function.update_of_ne hne, if_neg hr]
      rfl
  | pte e' i' j' =>
    rw [Function.update_of_ne (by simp)]
    simp only [target, pteAt_drop_table h hd ho]
    split
    · rename_i hr
      obtain ⟨rfl, rfl⟩ := hr
      rw [entryFrame_zero, hz]
    · rfl

end Pde

/-! ### The directory of an environment -/

/-- Taking away a directory without page tables. -/
theorem tables_setEnv_none {s : KState} {e : EnvIdx} {v : Env} (hv : v.envPgdir = none)
    (hz : ∀ i, tabFrame s (some e) i = none) :
    tabFrame (s.setEnv e v) = tabFrame s ∧ pteAt (s.setEnv e v) = pteAt s ∧
      target (s.setEnv e v) = Function.update (target s) (.dir e) none := by
  have hm : (s.setEnv e v).mem = s.mem := rfl
  have htab : tabFrame (s.setEnv e v) = tabFrame s := by
    funext o i
    by_cases ho : o = some e
    · subst ho
      rw [hz i]
      simp [tabFrame, pdeAt, dirFrame, KState.setEnv, hv]
    · unfold tabFrame pdeAt
      rw [hm]
      cases o with
      | none => rfl
      | some e' =>
        have he : e' ≠ e := fun h => ho (by rw [h])
        simp [dirFrame, KState.setEnv, he]
  have hpte : pteAt (s.setEnv e v) = pteAt s := by
    funext o i j; unfold pteAt; rw [htab, hm]
  refine ⟨htab, hpte, ?_⟩
  funext r
  cases r with
  | dir e' =>
    by_cases he : e' = e
    · subst he; simp [target, KState.setEnv, hv]
    · rw [Function.update_of_ne (by simpa using he)]; simp [target, KState.setEnv, he]
  | tab o i => rw [Function.update_of_ne (by simp)]; simp [target, htab]
  | pte e' i j => rw [Function.update_of_ne (by simp)]; simp [target, hpte]

end Jos
