import Jos.Alloc

/-!
  What the page-table operations do (`pgdir_walk`, `page_lookup`, `page_remove`, `page_insert`).

  `Edited o P s t` frames an edit of the tables of owner `o` at the entries in `P`, and
  `TlbWithin s t` bounds what CPUs may have cached in between. -/

namespace Jos

open Lib RefCount

/-- From `s` to `t` only the tables of `o₀` changed, its entries only within `P`, and tables were
    only added. -/
structure Edited (o₀ : Owner) (P : Idx → Idx → Prop) (s t : KState) : Prop where
  only : PmOnly s t
  tab : ∀ o i T, tabFrame s o i = some T → tabFrame t o i = some T
  pde : ∀ o d i, dirFrame s o = some d → ¬ (o = o₀ ∧ Owns o i) → t.mem d i = s.mem d i
  pte : ∀ o i j, ¬ (o = o₀ ∧ P i j) → pteAt t o i j = pteAt s o i j
  data : ∀ f, NotTable t f → t.mem f = s.mem f

/-- The entry for `va`. -/
def At (va : Word) (i j : Idx) : Prop := i = pdx va ∧ j = ptx va

/-- No entry at all. -/
def Nowhere (_ _ : Idx) : Prop := False

/-- A frame that is no table after tables were added was none before. -/
theorem NotTable.of_edited {s t : KState} (ho : PmOnly s t)
    (htab : ∀ o i T, tabFrame s o i = some T → tabFrame t o i = some T) {f : Nat}
    (h : NotTable t f) : NotTable s f := by
  refine ⟨ho.kernPgdir ▸ h.1, fun r hr hs => h.2 r hr ?_⟩
  cases r with
  | dir e =>
    have : target t (.dir e) = target s (.dir e) := by simp only [target, ho.envs]
    rw [this]; exact hs
  | tab o i => exact htab o i f hs
  | pte e i j => exact hr.elim

namespace Edited

variable {o₀ : Owner} {P Q : Idx → Idx → Prop} {s t u : KState}

theorem refl (o₀ : Owner) (P : Idx → Idx → Prop) (s : KState) : Edited o₀ P s s :=
  ⟨.refl s, fun _ _ _ h => h, fun _ _ _ _ _ => rfl, fun _ _ _ _ => rfl, fun _ _ => rfl⟩

theorem trans (h : Edited o₀ P s t) (h' : Edited o₀ P t u) : Edited o₀ P s u where
  only := h.only.trans h'.only
  tab o i T hT := h'.tab o i T (h.tab o i T hT)
  pde o d i hd hn := by
    rw [h'.pde o d i (by rw [h.only.dirFrame]; exact hd) hn, h.pde o d i hd hn]
  pte o i j hn := by rw [h'.pte o i j hn, h.pte o i j hn]
  data f hf := by rw [h'.data f hf, h.data f (hf.of_edited h'.only h'.tab)]

theorem mono (h : Edited o₀ P s t) (hPQ : ∀ i j, P i j → Q i j) : Edited o₀ Q s t :=
  ⟨h.only, h.tab, h.pde, fun o i j hn => h.pte o i j fun ⟨ho, hp⟩ => hn ⟨ho, hPQ i j hp⟩, h.data⟩

/-- An update that leaves memory alone. -/
theorem of_mem (ho : PmOnly s t) (hm : t.mem = s.mem) : Edited o₀ P s t := by
  obtain ⟨htab, hpte⟩ := tables_of_mem ho hm
  exact ⟨ho, fun o i T h => by rw [htab]; exact h, fun _ _ _ _ _ => by rw [hm],
    fun _ _ _ _ => by rw [hpte], fun _ _ => by rw [hm]⟩

/-- Writing to a frame that is about to become a table, or to the entry of one. -/
theorem poke_pte (h : Separate s) {i j : Idx} {T : Nat} (hT : tabFrame s o₀ i = some T)
    (hP : P i j) (w : Word) : Edited o₀ P s (s.poke T j w) where
  only := .poke s T j w
  tab o i' T' h' := by rw [tabFrame_poke_pte h hT]; exact h'
  pde o d i' hd _ := by rw [KState.poke_mem_of_ne _ _ _ _ (Ne.symm (h.tab_ne_dir hT hd))]
  pte o i' j' hn := by
    rw [pteAt_poke_pte h hT, if_neg]
    rintro ⟨rfl, rfl, rfl⟩
    exact hn ⟨rfl, hP⟩
  data f hf := by
    refine KState.poke_mem_of_ne _ _ _ _ ?_
    rintro rfl
    refine hf.2 (.tab o₀ i) trivial ?_
    show tabFrame (s.poke f j w) o₀ i = some f
    rw [tabFrame_poke_pte h hT]; exact hT

end Edited

/-! ### Cached translations -/

/-- What page `j` of table `i` translates to under the directory of `e`. -/
theorem walk_eq {s : KState} {e : EnvIdx} {d : Nat} {i : Idx}
    (hd : (s.envs e).envPgdir = some d) (hi : i < utopPdx) (j : Idx) :
    walk s.mem d (i.val * 1024 + j.val) = target s (.pte e i j) := by
  have h1 : (Fin.ofNat 1024 ((i.val * 1024 + j.val) / 1024) : Idx) = i := by
    apply Fin.ext
    have := i.isLt; have := j.isLt
    show (i.val * 1024 + j.val) / 1024 % 1024 = i.val
    omega
  have h2 : (Fin.ofNat 1024 (i.val * 1024 + j.val) : Idx) = j := by
    apply Fin.ext
    have := i.isLt; have := j.isLt
    show (i.val * 1024 + j.val) % 1024 = j.val
    omega
  have ht : tabFrame s (some e) i = entryFrame (s.mem d i) := tabFrame_of_dir hd hi
  rw [walk, h1, h2, ← ht]
  cases htab : tabFrame s (some e) i with
  | none => simp [target, pteAt_of_no_tab htab]
  | some T => simp [target, pteAt_of_tab htab]

/-- CPU `k` has cached nothing below `UTOP` that the tables it has loaded do not say. -/
def Fresh (k : CpuIdx) (s : KState) : Prop :=
  ∀ e, (s.envs e).envPgdir = some (s.cr3 k) → ∀ i j g, i < utopPdx →
    s.tlb k (i.val * 1024 + j.val) g = true → target s (.pte e i j) = some g

/-- Whatever below `UTOP` became cached between `s` and `t` is said by the tables of `s` or of
    `t`. -/
def TlbWithin (s t : KState) : Prop :=
  ∀ k e, (s.envs e).envPgdir = some (s.cr3 k) → ∀ i j g, i < utopPdx →
    t.tlb k (i.val * 1024 + j.val) g = true →
      s.tlb k (i.val * 1024 + j.val) g = true ∨ target s (.pte e i j) = some g ∨
        target t (.pte e i j) = some g

/-- Page tables that CPU `k` has loaded only gain entries. -/
def KeepsOf (k : CpuIdx) (s t : KState) : Prop :=
  ∀ e, (s.envs e).envPgdir = some (s.cr3 k) → ∀ i j g,
    target s (.pte e i j) = some g → target t (.pte e i j) = some g

theorem Fresh.of_within {k : CpuIdx} {s t : KState} (h : Fresh k s) (hw : TlbWithin s t)
    (ho : PmOnly s t) (hk : KeepsOf k s t) : Fresh k t := by
  intro e he i j g hi hg
  rw [ho.envs, ho.cr3] at he
  rcases hw k e he i j g hi hg with h1 | h1 | h1
  · exact hk e he i j g (h e he i j g hi h1)
  · exact hk e he i j g h1
  · exact h1

namespace TlbWithin

variable {s m t : KState}

theorem refl (s : KState) : TlbWithin s s := fun _ _ _ _ _ _ _ hg => Or.inl hg

theorem of_tlb (ht : t.tlb = s.tlb) : TlbWithin s t :=
  fun _ _ _ _ _ _ _ hg => Or.inl (by rw [← ht]; exact hg)

theorem trans (h : TlbWithin s m) (h' : TlbWithin m t) (ho : PmOnly s m)
    (hm : ∀ e i j g, target m (.pte e i j) = some g →
      target s (.pte e i j) = some g ∨ target t (.pte e i j) = some g) : TlbWithin s t := by
  intro k e he i j g hi hg
  have he' : (m.envs e).envPgdir = some (m.cr3 k) := by rw [ho.envs, ho.cr3]; exact he
  rcases h' k e he' i j g hi hg with h1 | h1 | h1
  · rcases h k e he i j g hi h1 with h2 | h2 | h2
    · exact Or.inl h2
    · exact Or.inr (Or.inl h2)
    · exact Or.inr (hm e i j g h2)
  · exact Or.inr (hm e i j g h1)
  · exact Or.inr (Or.inr h1)

/-- Going on from a state with the same page tables. -/
theorem after (h : TlbWithin s m) (h' : TlbWithin m t) (ho : PmOnly s m)
    (ht : target m = target s) : TlbWithin s t :=
  h.trans h' ho fun _ _ _ _ hg => Or.inl (by rwa [ht] at hg)

theorem setFrame (s : KState) (f : Nat) (p : Page) : TlbWithin s (s.setFrame f p) := by
  intro k e he i j g hi hg
  have hx : s.tlb k (i.val * 1024 + j.val) g = true ∨
      walk (s.setFrame f p).mem (s.cr3 k) (i.val * 1024 + j.val) = some g := by
    simpa [KState.setFrame, KState.fill] using hg
  rcases hx with h1 | h1
  · exact Or.inl h1
  · rw [walk_eq (s := s.setFrame f p) he hi] at h1
    exact Or.inr (Or.inr h1)

theorem flush (s : KState) (c : CpuIdx) (pd : Nat) (va : Word) :
    TlbWithin s (s.flush c pd va) := by
  have hinv : TlbWithin s (s.invlpg c va) := by
    intro k e he i j g hi hg
    have hx : s.tlb k (i.val * 1024 + j.val) g = true ∨
        walk s.mem (s.cr3 k) (i.val * 1024 + j.val) = some g := by
      rcases eq_or_ne k c with rfl | hkc
      · simp only [KState.invlpg, KState.fill, Function.update_self, Bool.or_eq_true,
          Bool.and_eq_true, decide_eq_true_eq] at hg
        exact hg.imp (fun h => h.1) id
      · simpa [KState.invlpg, KState.fill, Function.update_of_ne hkc] using hg
    rcases hx with h1 | h1
    · exact Or.inl h1
    · rw [walk_eq he hi] at h1
      exact Or.inr (Or.inl h1)
  unfold KState.flush
  split
  · exact hinv
  · split
    · exact hinv
    · exact refl s

end TlbWithin

theorem unref_tlb (s : KState) (f : Nat) : (s.unref f).tlb = s.tlb := by
  unfold KState.unref; split <;> rfl

/-! ### `pgdir_walk` and `page_lookup` -/

section Walk

variable {s : KState} {d T f : Nat} {va : Word}

theorem tableEntry_run (hp : entryFrame (s.mem d (pdx va)) = some T) (hT : T < s.npages)
    (hw : s.npages ≤ 65536) : tableEntry d va s = .ok (some (T, ptx va)) s := by
  have hT' : pgnum (s.mem d (pdx va)) = T := (entryFrame_eq_some.mp hp).2
  simp only [tableEntry, run_bind, run_get, kaddr_run (hT' ▸ hT) hw, hT', run_pure]

theorem pgdirWalk_found (hp : entryFrame (s.mem d (pdx va)) = some T) (hT : T < s.npages)
    (hw : s.npages ≤ 65536) (create : Bool) :
    pgdirWalk d va create s = .ok (some (T, ptx va)) s := by
  have hne : ¬ s.mem d (pdx va) &&& pteP = 0 := (entryFrame_eq_some.mp hp).1
  simp only [pgdirWalk, run_bind, run_get, run_ite, if_neg hne, tableEntry_run hp hT hw]

theorem pgdirWalk_absent (hp : entryFrame (s.mem d (pdx va)) = none) :
    pgdirWalk d va false s = .ok none s := by
  have h0 : s.mem d (pdx va) &&& pteP = 0 := entryFrame_eq_none.mp hp
  simp only [pgdirWalk, run_bind, run_get, run_ite, if_pos h0, Bool.false_eq_true, if_false,
    run_pure]

theorem pageLookup_absent (hp : entryFrame (s.mem d (pdx va)) = none) :
    pageLookup d va s = .ok none s := by
  simp only [pageLookup, run_bind, pgdirWalk_absent hp, run_pure]

theorem pageLookup_empty (hp : entryFrame (s.mem d (pdx va)) = some T) (hT : T < s.npages)
    (hw : s.npages ≤ 65536) (he : entryFrame (s.mem T (ptx va)) = none) :
    pageLookup d va s = .ok none s := by
  have h0 : s.entry (T, ptx va) &&& pteP = 0 := entryFrame_eq_none.mp he
  simp only [pageLookup, run_bind, pgdirWalk_found hp hT hw, run_get, run_ite, if_pos h0, run_pure]

theorem pageLookup_found (hp : entryFrame (s.mem d (pdx va)) = some T) (hT : T < s.npages)
    (hw : s.npages ≤ 65536) (he : entryFrame (s.mem T (ptx va)) = some f) (hf : f < s.npages) :
    pageLookup d va s = .ok (some (f, (T, ptx va))) s := by
  obtain ⟨h1, h2⟩ := entryFrame_eq_some.mp he
  have h0 : ¬ s.entry (T, ptx va) &&& pteP = 0 := h1
  have hf' : pgnum (s.entry (T, ptx va)) = f := h2
  simp only [pageLookup, run_bind, pgdirWalk_found hp hT hw, run_get, run_ite, if_neg h0,
    pa2page_run (hf' ▸ hf), hf', run_pure]

/-- `page_remove` of a mapped page. -/
theorem pageRemove_run (c : CpuIdx) (hp : entryFrame (s.mem d (pdx va)) = some T)
    (hT : T < s.npages) (hw : s.npages ≤ 65536) (he : entryFrame (s.mem T (ptx va)) = some f)
    (hf : f < s.npages) (hl : (s.pages f).ppLink = none) :
    pageRemove c d va s = .ok () (((s.unref f).flush c d va).poke T (ptx va) 0) := by
  simp only [pageRemove, run_bind, pageLookup_found hp hT hw he hf, pageDecref_run hl,
    tlbInvalidate_run, run_modify]

theorem pageRemove_none (c : CpuIdx) (hl : pageLookup d va s = .ok none s) :
    pageRemove c d va s = .ok () s := by
  simp only [pageRemove, run_bind, hl, run_pure]

end Walk

/-- The flags `pgdir_walk` gives a new table leave its frame readable. -/
theorem entryFrame_pde {T : Nat} (h : T < 2 ^ 20) :
    entryFrame (page2pa T ||| pteP ||| pteW ||| pteU) = some T := by
  have : page2pa T ||| pteP ||| pteW ||| pteU = page2pa T ||| (pteW ||| pteU) ||| pteP := by
    ext i; simp only [BitVec.getElem_or]; cases (page2pa T)[i] <;> cases pteP[i] <;> simp
  rw [this, entryFrame_mk_of_lt h (by decide)]

section Spec

variable {s : KState} {L : List Nat} {H : Finset Nat}

theorem PageInv.tab_lt (h : PageInv s L H) {o : Owner} {i : Idx} {T : Nat}
    (hT : tabFrame s o i = some T) : T < s.npages :=
  (h.counted.target (.tab o i) T hT).1

theorem PageInv.pte_lt (h : PageInv s L H) {e : EnvIdx} {i j : Idx} {f : Nat}
    (hf : target s (.pte e i j) = some f) : f < s.npages :=
  (h.counted.target _ f hf).1

/-- What `pgdir_walk` makes of a missing page table: the head of the free list, zeroed and
    entered. -/
def newTable (s : KState) (d : Nat) (i : Idx) (T : Nat) : KState :=
  ((((s.pop T).setFrame T fun _ => 0).incref T).poke d i
    (page2pa T ||| pteP ||| pteW ||| pteU))

theorem pgdirWalk_full {d : Nat} {va : Word} (hl : s.pageFreeList = none)
    (hp : entryFrame (s.mem d (pdx va)) = none) : pgdirWalk d va true s = .ok none s := by
  have h0 : s.mem d (pdx va) &&& pteP = 0 := entryFrame_eq_none.mp hp
  have ha : pageAlloc true s = .ok none s := by
    simp only [pageAlloc, run_bind, run_get, hl, run_pure]
  simp only [pgdirWalk, run_bind, run_get, run_ite, if_pos h0, if_true, ha, run_pure]

theorem pgdirWalk_new {T d : Nat} {va : Word} (hl : s.pageFreeList = some T) (hT : T < s.npages)
    (hw : s.npages ≤ 65536) (hp : entryFrame (s.mem d (pdx va)) = none) :
    pgdirWalk d va true s = .ok (some (T, ptx va)) (newTable s d (pdx va) T) := by
  have h0 : s.mem d (pdx va) &&& pteP = 0 := entryFrame_eq_none.mp hp
  have hent : entryFrame ((newTable s d (pdx va) T).mem d (pdx va)) = some T := by
    rw [newTable, KState.poke_mem_self, if_pos rfl, entryFrame_pde (by omega)]
  have := tableEntry_run hent (T := T) hT hw
  simp only [pgdirWalk, run_bind, run_get, run_ite, if_pos h0, if_true, pageAlloc_run hl hT hw,
    ppIncref_run, run_modify]
  exact this

/-- A new table keeps the invariant and every entry. -/
theorem newTable_spec {T : Nat} (h : PageInv s (T :: L) H) {o : Owner} {d : Nat} {i : Idx}
    (hd : dirFrame s o = some d) (ho : Owns o i) (hi : tabFrame s o i = none) :
    PageInv (newTable s d i T) L H ∧ Edited o Nowhere s (newTable s d i T) ∧
      tabFrame (newTable s d i T) o i = some T ∧ TlbWithin s (newTable s d i T) ∧
      pteAt (newTable s d i T) = pteAt s ∧
      (∀ f, f ≠ T → (newTable s d i T).pages f = s.pages f) ∧
      target (newTable s d i T) = Function.update (target s) (.tab o i) (some T) := by
  have hTL : T ∈ T :: L := List.mem_cons_self ..
  have hnt := h.notTable_of_free hTL
  have hTH : T ∉ H := fun hh =>
    ((h.counted.free_iff T (h.counted.managed T hTL)).mp hTL).2 hh
  have hlt := h.lt_window (h.counted.managed T hTL)
  have hw : entryFrame (page2pa T ||| pteP ||| pteW ||| pteU) = some T := entryFrame_pde (by omega)
  -- the page, zeroed, before it is entered
  set m := ((s.pop T).setFrame T fun _ => 0).incref T with hm
  have hnt' : NotTable (s.pop T) T := by
    have := target_of_mem (PmOnly.pop s T) rfl
    exact ⟨hnt.1, fun r hr => by rw [this]; exact hnt.2 r hr⟩
  have hmp : PmOnly s m := ((PmOnly.pop s T).trans (.setFrame _ _ _)).trans (.incref _ _)
  have htgt : target m = target s := by
    rw [hm, target_of_mem (PmOnly.incref _ _) rfl, hnt'.target_setFrame, target_of_mem (PmOnly.pop s T) rfl]
  have htabs : tabFrame m = tabFrame s ∧ pteAt m = pteAt s := by
    obtain ⟨h1, h2⟩ := tables_of_mem (PmOnly.incref ((s.pop T).setFrame T fun _ => 0) T) rfl
    obtain ⟨h3, h4⟩ := tables_of_mem (PmOnly.pop s T) rfl
    exact ⟨by rw [h1, tabFrame_setFrame hnt'.not_dir, h3], by rw [h2, hnt'.pteAt_setFrame, h4]⟩
  have hinv : PageInv ((s.pop T).setFrame T fun _ => 0) L (insert T H) :=
    h.pop.setFrame hnt' _
  have hsep : Separate m :=
    ⟨by rw [htgt]; exact h.sole, by rw [htgt, hmp.kernPgdir]; exact h.separate.kern⟩
  have hdm : dirFrame m o = some d := by rw [hmp.dirFrame]; exact hd
  have hTd : T ≠ d := fun e => hnt.not_dir o (e ▸ hd)
  have hz : m.mem T = fun _ => 0 := by rw [hm]; simp
  have him : tabFrame m o i = none := by rw [htabs.1]; exact hi
  have htarget : target (newTable s d i T) = Function.update (target s) (.tab o i) (some T) := by
    rw [← htgt]; exact target_new_table hsep hdm ho him hw hz hTd
  have htab : ∀ o' i', tabFrame (newTable s d i T) o' i'
      = if o' = o ∧ i' = i then some T else tabFrame s o' i' := by
    intro o' i'
    have := tabFrame_poke_pde hsep hdm i (page2pa T ||| pteP ||| pteW ||| pteU) ho o' i'
    rw [hw, htabs.1] at this
    exact this
  have hpte : pteAt (newTable s d i T) = pteAt s := by
    rw [← htabs.2]; exact pteAt_new_table hsep hdm ho him hw hz hTd
  have honly : PmOnly s (newTable s d i T) := hmp.trans (.poke _ _ _ _)
  refine ⟨?_, ⟨honly, ?_, ?_, ?_, ?_⟩, ?_, ?_, hpte, ?_, htarget⟩
  · have hfree : ∀ r, target s r ≠ some T := h.counted.not_target_of_free hTL
    have hpre := hinv.assign (r := .tab o i) (f := T) (t := newTable s d i T)
      (by rw [hnt'.target_setFrame, target_of_mem (PmOnly.pop s T) rfl]; exact hi)
      (h.counted.managed T hTL) (List.nodup_cons.mp h.counted.nodup).1
      (by
        have h0 : (s.pages T).ppRef = 0 := h.counted.ref_free hTL
        simp [KState.pop, KState.setPage, h0])
      (by
        rw [hnt'.target_setFrame, target_of_mem (PmOnly.pop s T) rfl]
        exact h.sole.assign_fresh hfree)
      ((PmOnly.incref _ _).trans (.poke _ _ _ _)).limits
      (by rw [hnt'.target_setFrame, target_of_mem (PmOnly.pop s T) rfl]; exact htarget) rfl rfl
    rwa [Finset.erase_insert hTH] at hpre
  · intro o' i' T' hT'
    rw [htab]
    split
    · rename_i hr; obtain ⟨rfl, rfl⟩ := hr; rw [hi] at hT'; cases hT'
    · exact hT'
  · intro o' d' i' hd' hn
    have hmm : m.mem d' = s.mem d' := by
      have : d' ≠ T := fun e => hnt.not_dir o' (e ▸ hd')
      simp [hm, this]
    show (m.poke d i _).mem d' i' = s.mem d' i'
    by_cases hdd : d' = d
    · subst hdd
      obtain rfl := h.separate.dir_inj hd hd'
      have hne : i' ≠ i := fun e => hn ⟨rfl, e ▸ ho⟩
      rw [KState.poke_mem_self, if_neg hne, hmm]
    · rw [KState.poke_mem_of_ne _ _ _ _ hdd, hmm]
  · intro o' i' j' _; rw [hpte]
  · intro f hf
    have hfT : f ≠ T := by
      rintro rfl
      exact hf.not_tab o i (by rw [htab, if_pos ⟨rfl, rfl⟩])
    have hfd : f ≠ d := by
      rintro rfl
      exact hf.not_dir o (by rw [honly.dirFrame]; exact hd)
    show (m.poke d i _).mem f = s.mem f
    rw [KState.poke_mem_of_ne _ _ _ _ hfd, hm]
    simp [hfT]
  · rw [htab, if_pos ⟨rfl, rfl⟩]
  · have htz : target ((s.pop T).setFrame T fun _ => 0) = target s := by
      rw [hnt'.target_setFrame, target_of_mem (PmOnly.pop s T) rfl]
    have h1 : TlbWithin s ((s.pop T).setFrame T fun _ => 0) :=
      (TlbWithin.of_tlb (t := s.pop T) rfl).after (.setFrame _ _ _) (.pop s T)
        (target_of_mem (PmOnly.pop s T) rfl)
    have h2 : TlbWithin s m :=
      h1.after (.of_tlb rfl) ((PmOnly.pop s T).trans (.setFrame _ _ _)) htz
    exact h2.after (.setFrame _ _ _) hmp htgt
  · intro f hf
    simp [newTable, KState.poke, hf, KState.incref, KState.setPage, KState.pop]

/-- What `pgdir_walk` with `create` achieves: table `i` of `o` is `T`, and no entry changed. -/
structure Walked (s t : KState) (o : Owner) (i : Idx) (T : Nat) (L : List Nat)
    (H : Finset Nat) : Prop where
  inv : ∃ L', PageInv t L' H ∧ L' ⊆ L ∧ L.length ≤ L'.length + 1
  edit : Edited o Nowhere s t
  tab : tabFrame t o i = some T
  tlb : TlbWithin s t
  pte : pteAt t = pteAt s
  pages : ∀ f, f ∉ L → t.pages f = s.pages f
  notTable : ∀ f, f ∉ L → NotTable s f → NotTable t f

theorem pgdirWalk_create (h : PageInv s L H) {o : Owner} {d : Nat} {va : Word}
    (hd : dirFrame s o = some d) (ho : Owns o (pdx va)) :
    (tabFrame s o (pdx va) = none ∧ L = [] ∧ pgdirWalk d va true s = .ok none s) ∨
      ∃ T t, pgdirWalk d va true s = .ok (some (T, ptx va)) t ∧ Walked s t o (pdx va) T L H := by
  have hent := tabFrame_of_dir hd ho
  cases ht : tabFrame s o (pdx va) with
  | some T =>
    refine Or.inr ⟨T, s, pgdirWalk_found (hent ▸ ht) (h.tab_lt ht) h.window true, ?_⟩
    exact ⟨⟨L, h, fun _ hf => hf, Nat.le_succ _⟩, .refl _ _ _, ht, .refl s, rfl, fun _ _ => rfl,
      fun _ _ hf => hf⟩
  | none =>
    cases L with
    | nil => exact Or.inl ⟨rfl, rfl, pgdirWalk_full h.chain (hent ▸ ht)⟩
    | cons T L' =>
      obtain ⟨hinv, hedit, htab, htlb, hpte, hpages, htgt⟩ := newTable_spec h hd ho ht
      refine Or.inr ⟨T, _, pgdirWalk_new h.chain.1
        (h.counted.managed T (List.mem_cons_self ..)).1 h.window (hent ▸ ht), ?_⟩
      refine ⟨⟨L', hinv, fun f hf => List.mem_cons_of_mem T hf, le_refl _⟩, hedit, htab, htlb,
        hpte, ?_, ?_⟩
      · exact fun f hf => hpages f fun e => hf (e ▸ List.mem_cons_self ..)
      · intro f hf hnt
        refine ⟨hedit.only.kernPgdir ▸ hnt.1, fun r hr => ?_⟩
        rw [htgt, Function.update_apply]
        split
        · exact fun e => hf (Option.some.inj e ▸ List.mem_cons_self ..)
        · exact hnt.2 r hr

/-! ### `page_remove` and `page_insert` -/

/-- The words `pageLookup` reads, when page `va` of `e` is mapped to `f`. -/
theorem PageInv.mapped (h : PageInv s L H) {e : EnvIdx} {d f : Nat} {va : Word}
    (hd : (s.envs e).envPgdir = some d)
    (hf : target s (.pte e (pdx va) (ptx va)) = some f) :
    ∃ T, tabFrame s (some e) (pdx va) = some T ∧ entryFrame (s.mem d (pdx va)) = some T ∧
      T < s.npages ∧ entryFrame (s.mem T (ptx va)) = some f ∧ f < s.npages ∧
      (s.pages f).ppLink = none := by
  obtain ⟨d', T, hd', he, ht, hp⟩ := dir_of_pte (o := some e) hf
  obtain rfl : d' = d := Option.some.inj (hd'.symm.trans hd)
  exact ⟨T, ht, he, h.tab_lt ht, hp, h.pte_lt hf, h.link_of_target hf⟩

/-- `page_lookup` finds exactly what the slot refers to. -/
theorem pageLookup_run (h : PageInv s L H) {e : EnvIdx} {d : Nat} {va : Word}
    (hd : (s.envs e).envPgdir = some d) (hi : pdx va < utopPdx) :
    (target s (.pte e (pdx va) (ptx va)) = none ∧ pageLookup d va s = .ok none s) ∨
      ∃ f T, target s (.pte e (pdx va) (ptx va)) = some f ∧
        tabFrame s (some e) (pdx va) = some T ∧
        pageLookup d va s = .ok (some (f, (T, ptx va))) s ∧
        s.entry (T, ptx va) = pteAt s (some e) (pdx va) (ptx va) := by
  cases hf : target s (.pte e (pdx va) (ptx va)) with
  | some f =>
    obtain ⟨T, ht, he, hTn, hp, hfn, -⟩ := h.mapped hd hf
    exact Or.inr ⟨f, T, rfl, ht, pageLookup_found he hTn h.window hp hfn,
      (pteAt_of_tab ht _).symm⟩
  | none =>
    refine Or.inl ⟨rfl, ?_⟩
    have hent := tabFrame_of_dir (o := some e) hd hi
    cases ht : tabFrame s (some e) (pdx va) with
    | none => exact pageLookup_absent (hent ▸ ht)
    | some T =>
      have hT : target s (.pte e (pdx va) (ptx va)) = entryFrame (s.mem T (ptx va)) := by
        simp only [target, pteAt_of_tab ht]
      exact pageLookup_empty (hent ▸ ht) (h.tab_lt ht) h.window (hT ▸ hf)

/-- From `s` to `t` the entry of `e` for `va` was cleared, and what else happened was not in
    memory. -/
structure Cleared (s t : KState) (e : EnvIdx) (va : Word) : Prop where
  only : PmOnly s t
  edit : Edited (some e) (At va) s t
  tab : tabFrame t = tabFrame s
  entry : pteAt t (some e) (pdx va) (ptx va) = 0
  target : target t = Function.update (target s) (.pte e (pdx va) (ptx va)) none
  separate : Separate t

theorem PageInv.cleared (h : PageInv s L H) {m : KState} {e : EnvIdx} {va : Word} {T : Nat}
    (ho : PmOnly s m) (hm : m.mem = s.mem) (hT : tabFrame s (some e) (pdx va) = some T) :
    Cleared s (m.poke T (ptx va) 0) e va := by
  have htm : target m = target s := target_of_mem ho hm
  have hsep : Separate m :=
    ⟨by rw [htm]; exact h.sole, by rw [htm, ho.kernPgdir]; exact h.separate.kern⟩
  have htabm : tabFrame m = tabFrame s := (tables_of_mem ho hm).1
  have hTm : tabFrame m (some e) (pdx va) = some T := by rw [htabm]; exact hT
  have htarget : target (m.poke T (ptx va) 0)
      = Function.update (target s) (.pte e (pdx va) (ptx va)) none := by
    rw [target_poke_pte hsep hTm, htm, entryFrame_zero]
  refine ⟨ho.trans (.poke _ _ _ _), (Edited.of_mem ho hm).trans (.poke_pte hsep hTm ⟨rfl, rfl⟩ 0),
    ?_, ?_, htarget, ?_, fun r => ?_⟩
  · rw [tabFrame_poke_pte hsep hTm, htabm]
  · rw [pteAt_poke_pte hsep hTm, if_pos ⟨rfl, rfl, rfl⟩]
  · rw [htarget]
    exact h.sole.clear _
  · rw [htarget, (ho.trans (.poke _ _ _ _)).kernPgdir, Function.update_apply]
    split
    · exact fun hx => by cases hx
    · exact h.separate.kern r

/-- What `page_remove` achieves at a page mapped to `f`. -/
structure Unmapped (s t : KState) (e : EnvIdx) (va : Word) (f : Nat) (L : List Nat)
    (H : Finset Nat) : Prop where
  inv : PageInv t (if refs (target s) f = 1 then f :: L else L) H
  edit : Edited (some e) (At va) s t
  tab : tabFrame t = tabFrame s
  entry : pteAt t (some e) (pdx va) (ptx va) = 0
  target : target t = Function.update (target s) (.pte e (pdx va) (ptx va)) none
  tlb : TlbWithin s t
  pages : ∀ g, g ≠ f → t.pages g = s.pages g

theorem pageRemove_spec (c : CpuIdx) (h : PageInv s L H) {e : EnvIdx} {d : Nat} {va : Word}
    (hd : (s.envs e).envPgdir = some d) (hi : pdx va < utopPdx) :
    (target s (.pte e (pdx va) (ptx va)) = none ∧ pageRemove c d va s = .ok () s) ∨
      ∃ f t, target s (.pte e (pdx va) (ptx va)) = some f ∧ pageRemove c d va s = .ok () t ∧
        Unmapped s t e va f L H := by
  rcases pageLookup_run h hd hi with ⟨hn, hl⟩ | ⟨f, T, hf, -, -, -⟩
  · exact Or.inl ⟨hn, pageRemove_none c hl⟩
  obtain ⟨T, ht, he, hTn, hp, hfn, hlink⟩ := h.mapped hd hf
  refine Or.inr ⟨f, _, hf, pageRemove_run c he hTn h.window hp hfn hlink, ?_⟩
  set m := (s.unref f).flush c d va with hm
  have hmo : PmOnly s m := (PmOnly.unref s f).trans (.flush _ _ _ _)
  have hmm : m.mem = s.mem := by rw [hm, flush_mem, unref_mem]
  have hc := h.cleared hmo hmm ht
  refine ⟨h.clear hf hc.only.limits hc.target ?_ ?_, hc.edit, hc.tab, hc.entry, hc.target, ?_, ?_⟩
  · show m.pages = _
    rw [hm, flush_pages]
  · show m.pageFreeList = _
    rw [hm, flush_freeList]
  · have h1 : TlbWithin s m :=
      (TlbWithin.of_tlb (unref_tlb s f)).after (.flush _ _ _ _) (.unref s f)
        (target_of_mem (PmOnly.unref s f) (unref_mem s f))
    exact h1.after (.setFrame _ _ _) hmo (target_of_mem hmo hmm)
  · intro g hg
    show m.pages g = _
    rw [hm, flush_pages, pages_unref_of_ne s f hg]

/-- The free list is determined by its head and the links. -/
theorem PageInv.unique {L' : List Nat} {H' : Finset Nat} (h : PageInv s L H)
    (h' : PageInv s L' H') : L = L' :=
  h.chain.unique h'.chain

/-- What a successful `page_insert` of `pp` achieves. The counter stays exact unless it was full
    and the page is not merely replaced by itself. At most one page is taken off the free list. -/
structure Mapped (s t : KState) (e : EnvIdx) (va : Word) (pp : Nat) (w : Word)
    (H : Finset Nat) : Prop where
  edit : Edited (some e) (At va) s t
  entry : pteAt t (some e) (pdx va) (ptx va) = w
  tlb : TlbWithin s t
  inv : entryFrame w = some pp →
    (s.pages pp).ppRef ≠ 65535 ∨ target s (.pte e (pdx va) (ptx va)) = some pp →
      ∃ L', PageInv t L' (H.erase pp) ∧ ∀ L, PageInv s L H → L.length ≤ L'.length + 1

/-- `page_insert` on an entry that is not in use. -/
theorem pageInsert_fresh (c : CpuIdx) {d pp T : Nat} {va perm : Word} {m : KState}
    (hwalk : pgdirWalk d va true s = .ok (some (T, ptx va)) m)
    (hn : entryFrame (m.mem T (ptx va)) = none) :
    pageInsert c d pp va perm s
      = .ok (.ok ()) ((m.incref pp).poke T (ptx va) (page2pa pp ||| perm ||| pteP)) := by
  have h0 : ¬ (m.incref pp).entry (T, ptx va) &&& pteP ≠ 0 :=
    not_not.mpr (entryFrame_eq_none.mp hn)
  simp only [pageInsert, run_bind, hwalk, ppIncref_run, run_get, run_ite, if_neg h0, run_pure,
    run_modify]

/-- `page_insert` on an entry in use: the page there is removed between the increment and the
    write. -/
theorem pageInsert_over (c : CpuIdx) {d pp T g : Nat} {va perm : Word} {m : KState}
    (hwalk : pgdirWalk d va true s = .ok (some (T, ptx va)) m)
    (hp : entryFrame (m.mem d (pdx va)) = some T) (hT : T < m.npages) (hw : m.npages ≤ 65536)
    (he : entryFrame (m.mem T (ptx va)) = some g) (hg : g < m.npages)
    (hl : (m.pages g).ppLink = none) :
    pageInsert c d pp va perm s
      = .ok (.ok ()) ((((((m.incref pp).flush c d va).unref g).flush c d va).poke T (ptx va) 0).poke
          T (ptx va) (page2pa pp ||| perm ||| pteP)) := by
  have h0 : (m.incref pp).entry (T, ptx va) &&& pteP ≠ 0 := (entryFrame_eq_some.mp he).1
  have ho : PmOnly m ((m.incref pp).flush c d va) := (PmOnly.incref m pp).trans (.flush _ _ _ _)
  have hm : ((m.incref pp).flush c d va).mem = m.mem := by rw [flush_mem, incref_mem]
  have hlink : (((m.incref pp).flush c d va).pages g).ppLink = none := by
    rw [flush_pages]
    by_cases hgp : g = pp
    · subst hgp; simpa [KState.incref, KState.setPage] using hl
    · rw [pages_incref_of_ne m pp hgp]; exact hl
  have hrem := pageRemove_run c (s := (m.incref pp).flush c d va) (by rw [hm]; exact hp)
    (by rw [ho.npages]; exact hT) (by rw [ho.npages]; exact hw) (by rw [hm]; exact he)
    (by rw [ho.npages]; exact hg) hlink
  simp only [pageInsert, run_bind, hwalk, ppIncref_run, run_get, run_ite, if_pos h0,
    tlbInvalidate_run, hrem, run_modify, run_pure]

/-- Counting a page up and another one down commute. -/
theorem unref_incref_pages {m : KState} {f g : Nat} (hfg : f ≠ g) :
    ((m.incref f).unref g).pages = ((m.unref g).incref f).pages ∧
      ((m.incref f).unref g).pageFreeList = (m.unref g).pageFreeList := by
  have hg : (m.incref f).pages g = m.pages g := pages_incref_of_ne m f (Ne.symm hfg)
  refine ⟨?_, ?_⟩
  · funext x
    by_cases hxf : x = f
    · subst hxf
      rw [pages_unref_of_ne _ g hfg]
      simp only [KState.incref, KState.setPage, Function.update_self, pages_unref_of_ne m g hfg]
    · rw [pages_incref_of_ne _ f hxf]
      by_cases hxg : x = g
      · subst hxg
        unfold KState.unref
        rw [hg]
        split <;> simp [KState.push, KState.setPage, KState.incref]
      · rw [pages_unref_of_ne _ g hxg, pages_unref_of_ne _ g hxg, pages_incref_of_ne _ f hxf]
  · unfold KState.unref
    rw [hg]
    split <;> rfl

/-- Counting a page in use up and then down changes nothing. -/
theorem unref_incref_self {m : KState} {f : Nat} (h : (m.pages f).ppRef ≠ 0) :
    ((m.incref f).unref f).pages = m.pages ∧
      ((m.incref f).unref f).pageFreeList = m.pageFreeList := by
  have hr : ((m.incref f).pages f).ppRef - 1 = (m.pages f).ppRef := by
    rw [show ((m.incref f).pages f).ppRef = (m.pages f).ppRef + 1 by
      simp [KState.incref, KState.setPage]]
    exact BitVec.add_sub_cancel ..
  unfold KState.unref
  rw [hr, if_neg h]
  refine ⟨?_, rfl⟩
  funext x
  by_cases hx : x = f
  · subst hx; simp [KState.incref, KState.setPage]
  · simp [KState.incref, KState.setPage]

/-- A page that is replaced by itself keeps its counter. -/
theorem PageInv.again {m t : KState} {r : Slot} {pp : Nat} (h : PageInv m L H)
    (hr : target m r = some pp) (ho : PmOnly m t)
    (ht : target t = Function.update (target m) r (some pp))
    (hp : t.pages = ((m.incref pp).unref pp).pages)
    (hl : t.pageFreeList = ((m.incref pp).unref pp).pageFreeList) : PageInv t L (H.erase pp) := by
  have hr0 : (m.pages pp).ppRef ≠ 0 := by
    intro h0
    have hx : ((m.pages pp).ppRef).toNat = refs (target m) pp :=
      h.counted.exact pp (h.counted.target r pp hr)
    have := refs_pos hr
    rw [h0] at hx
    simp only [BitVec.ofNat_eq_ofNat, BitVec.toNat_ofNat, Nat.zero_mod] at hx
    omega
  obtain ⟨hp1, hp2⟩ := unref_incref_self hr0
  have hH : pp ∉ H := fun hh => (h.counted.inHand pp hh).2 r hr
  rw [Finset.erase_eq_of_notMem hH]
  refine h.congr ?_ (hp.trans hp1) (hl.trans hp2) ho.npages ho.nextfree ho.kernPgdir
  rw [ht, ← hr, Function.update_eq_self]

/-- A page that replaces another one is counted, and the other one no longer. `m'` is a state in
    between, in which the slot is empty. -/
theorem PageInv.replace {m m' t : KState} {r : Slot} {pp g : Nat} (h : PageInv m L H)
    (hr : target m r = some g) (hgp : pp ≠ g) (hM : Managed m pp) (hL : pp ∉ L)
    (hmax : (m.pages pp).ppRef ≠ 65535)
    (hsole : Sole Slot.IsTable (Function.update (target m) r (some pp)))
    (ho' : PmOnly m m') (ht' : target m' = Function.update (target m) r none) (ho : SameLimits m' t)
    (ht : target t = Function.update (target m) r (some pp))
    (hp : t.pages = ((m.incref pp).unref g).pages)
    (hl : t.pageFreeList = ((m.incref pp).unref g).pageFreeList) :
    PageInv t (if refs (target m) g = 1 then g :: L else L) (H.erase pp) := by
  obtain ⟨hp1, hp2⟩ := unref_incref_pages (m := m) hgp
  -- the same two changes in the other order
  let m4 : KState := { m' with pages := (m.unref g).pages, pageFreeList := (m.unref g).pageFreeList }
  have ho4 : PmOnly m m4 := ho'
  have ht4 : target m4 = Function.update (target m) r none :=
    (target_of_mem (s := m') rfl rfl).trans ht'
  have hc : PageInv m4 _ H := h.clear hr ho4.limits ht4 rfl rfl
  have hidem : Function.update (target m4) r (some pp)
      = Function.update (target m) r (some pp) := by
    rw [ht4, Function.update_idem]
  refine hc.assign (r := r) (by rw [ht4, Function.update_self]) (by rw [ho4.managed]; exact hM)
    (fun hx => ?_) ?_ (hidem ▸ hsole) ⟨ho.npages, ho.nextfree, ho.kernPgdir, ho.pagesAt, ho.envsAt⟩
    (by rw [ht, hidem]) (hp.trans hp1) (hl.trans hp2)
  · split at hx
    · exact (List.mem_cons.mp hx).elim hgp hL
    · exact hL hx
  · show ((m.unref g).pages pp).ppRef ≠ 65535
    rw [pages_unref_of_ne m g hgp]
    exact hmax

section

variable {m : KState} {e : EnvIdx} {va w : Word} {T pp g d : Nat} {c : CpuIdx}

/-- The entry is written in a state that differs from the one after the walk at `va` only. -/
theorem Walked.writes (W : Walked s m (some e) (pdx va) T L H) {m' : KState} (hsep : Separate m')
    (htab : tabFrame m' = tabFrame m) (hedit : Edited (some e) (At va) m m') (w : Word) :
    Edited (some e) (At va) s (m'.poke T (ptx va) w) ∧
      pteAt (m'.poke T (ptx va) w) (some e) (pdx va) (ptx va) = w ∧
      target (m'.poke T (ptx va) w)
        = Function.update (target m') (.pte e (pdx va) (ptx va)) (entryFrame w) := by
  have hT : tabFrame m' (some e) (pdx va) = some T := by rw [htab]; exact W.tab
  refine ⟨?_, ?_, target_poke_pte hsep hT _ _⟩
  · exact ((W.edit.mono fun _ _ hf => hf.elim).trans hedit).trans
      (.poke_pte hsep hT ⟨rfl, rfl⟩ w)
  · rw [pteAt_poke_pte hsep hT, if_pos ⟨rfl, rfl, rfl⟩]

theorem Walked.target (W : Walked s m (some e) (pdx va) T L H) (e' : EnvIdx) (i j : Idx) :
    Jos.target m (.pte e' i j) = Jos.target s (.pte e' i j) := by
  simp only [Jos.target, W.pte]

/-- Going on from the state after the walk. -/
theorem Walked.within (W : Walked s m (some e) (pdx va) T L H) {t : KState} (h : TlbWithin m t) :
    TlbWithin s t :=
  W.tlb.trans h W.edit.only fun e' i j g hg => Or.inl (by rwa [W.target] at hg)

/-- A page that was in use before the walk can be mapped after it. -/
theorem Walked.usable (W : Walked s m (some e) (pdx va) T L H) (hM : Managed s pp) (hL : pp ∉ L)
    (hT : NotTable s pp) : ∃ L', PageInv m L' H ∧ pp ∉ L' ∧ Managed m pp ∧
      m.pages pp = s.pages pp ∧ L.length ≤ L'.length + 1 ∧
      Sole Slot.IsTable (Function.update (Jos.target m) (.pte e (pdx va) (ptx va)) (some pp)) := by
  obtain ⟨L', hm, hsub, hlen⟩ := W.inv
  have hTm : NotTable m pp := W.notTable pp hL hT
  refine ⟨L', hm, fun hp => hL (hsub hp), ?_, W.pages pp hL, hlen, ?_⟩
  · rw [W.edit.only.managed]
    exact hM
  · exact hm.sole.assign (fun hr => hr) fun r hr => hTm.2 r hr

theorem Walked.mapped_fresh (h : PageInv s L H) (W : Walked s m (some e) (pdx va) T L H)
    (hM : Managed s pp) (hL : pp ∉ L) (hT : NotTable s pp)
    (hf : Jos.target m (.pte e (pdx va) (ptx va)) = none) (w : Word) :
    Mapped s ((m.incref pp).poke T (ptx va) w) e va pp w H := by
  obtain ⟨L', hm, hLm, hMm, hpages, hlen, hsole⟩ := W.usable hM hL hT
  have ho := PmOnly.incref m pp
  have htm : Jos.target (m.incref pp) = Jos.target m := target_of_mem ho rfl
  have hsep : Separate (m.incref pp) := ⟨by rw [htm]; exact hm.sole, by
    rw [htm]; exact hm.separate.kern⟩
  obtain ⟨hedit, hentry, htarget⟩ := W.writes hsep (tables_of_mem ho rfl).1 (.of_mem ho rfl) w
  refine ⟨hedit, hentry, W.within ?_, fun hw hmax => ?_⟩
  · exact (TlbWithin.of_tlb (t := m.incref pp) rfl).after (.setFrame _ _ _) ho htm
  · rw [hw, htm] at htarget
    have hmax' : (m.pages pp).ppRef ≠ 65535 := by
      rw [hpages]
      refine hmax.resolve_right fun hs => ?_
      rw [← W.target, hf] at hs
      cases hs
    exact ⟨L', hm.assign hf hMm hLm hmax' hsole (ho.trans (.poke _ _ _ _)).limits
      htarget rfl rfl, fun L₁ h₁ => h.unique h₁ ▸ hlen⟩

/-- What CPUs have cached when the page at `va` has been counted down, before its entry is
    cleared. -/
theorem within_over (m : KState) (c : CpuIdx) (d pp g : Nat) (va : Word) :
    TlbWithin m ((((m.incref pp).flush c d va).unref g).flush c d va) := by
  have ho1 : PmOnly m (m.incref pp) := .incref m pp
  have ho2 : PmOnly m ((m.incref pp).flush c d va) := ho1.trans (.flush _ _ _ _)
  have ho3 : PmOnly m (((m.incref pp).flush c d va).unref g) := ho2.trans (.unref _ _)
  have hm2 : ((m.incref pp).flush c d va).mem = m.mem := by rw [flush_mem, incref_mem]
  have h1 : TlbWithin m ((m.incref pp).flush c d va) :=
    (TlbWithin.of_tlb (t := m.incref pp) rfl).after (.flush _ _ _ _) ho1 (target_of_mem ho1 rfl)
  have h2 : TlbWithin m (((m.incref pp).flush c d va).unref g) :=
    h1.after (.of_tlb (unref_tlb _ _)) ho2 (target_of_mem ho2 hm2)
  exact h2.after (.flush _ _ _ _) ho3 (target_of_mem ho3 (by rw [unref_mem, hm2]))

theorem Walked.mapped_over (c : CpuIdx) (d : Nat) (h : PageInv s L H)
    (W : Walked s m (some e) (pdx va) T L H) (hM : Managed s pp) (hL : pp ∉ L) (hT : NotTable s pp)
    (hf : Jos.target m (.pte e (pdx va) (ptx va)) = some g) (w : Word) :
    Mapped s (((((m.incref pp).flush c d va).unref g).flush c d va |>.poke T (ptx va) 0).poke T
      (ptx va) w) e va pp w H := by
  obtain ⟨L', hm, hLm, hMm, hpages, hlen, hsole⟩ := W.usable hM hL hT
  have hlen' : ∀ L₁, PageInv s L₁ H → L₁.length ≤ L'.length + 1 := fun L₁ h₁ => h.unique h₁ ▸ hlen
  set m1 := ((m.incref pp).flush c d va).unref g with hm1
  set m2 := m1.flush c d va with hm2
  have ho2 : PmOnly m m2 :=
    (((PmOnly.incref m pp).trans (.flush _ _ _ _)).trans (.unref _ _)).trans (.flush _ _ _ _)
  have hmm2 : m2.mem = m.mem := by rw [hm2, flush_mem, hm1, unref_mem, flush_mem, incref_mem]
  have hc : Cleared m (m2.poke T (ptx va) 0) e va := hm.cleared ho2 hmm2 W.tab
  set m3 := m2.poke T (ptx va) 0 with hm3
  obtain ⟨hedit, hentry, htarget⟩ := W.writes hc.separate hc.tab hc.edit w
  rw [hc.target, Function.update_idem] at htarget
  have htlb : TlbWithin m (m3.poke T (ptx va) w) := by
    have h3 : TlbWithin m m3 :=
      (within_over m c d pp g va).after (.setFrame _ _ _) ho2 (target_of_mem ho2 hmm2)
    refine h3.trans (.setFrame _ _ _) hc.only fun e' i' j' g' hg' => Or.inl ?_
    rw [hc.target, Function.update_apply] at hg'
    split at hg'
    · cases hg'
    · exact hg'
  refine ⟨hedit, hentry, W.within htlb, fun hw hmax => ?_⟩
  rw [hw] at htarget
  obtain ⟨hp, hl⟩ : m1.pages = ((m.incref pp).unref g).pages ∧
      m1.pageFreeList = ((m.incref pp).unref g).pageFreeList :=
    unref_congr (flush_pages _ _ _ _) (flush_freeList _ _ _ _) g
  have hp3 : (m3.poke T (ptx va) w).pages = ((m.incref pp).unref g).pages := by
    show (m1.flush c d va).pages = _
    rw [flush_pages, hp]
  have hl3 : (m3.poke T (ptx va) w).pageFreeList = ((m.incref pp).unref g).pageFreeList := by
    show (m1.flush c d va).pageFreeList = _
    rw [flush_freeList, hl]
  by_cases hgp : pp = g
  · subst hgp
    exact ⟨L', hm.again hf (hc.only.trans (.poke _ _ _ _)) htarget hp3 hl3, hlen'⟩
  · have hmax' : (m.pages pp).ppRef ≠ 65535 := by
      rw [hpages]
      refine hmax.resolve_right fun hs => ?_
      rw [← W.target, hf] at hs
      exact hgp (Option.some.inj hs).symm
    refine ⟨_, hm.replace hf hgp hMm hLm hmax' hsole hc.only hc.target ⟨rfl, rfl, rfl, rfl, rfl⟩
      htarget hp3 hl3, fun L₁ h₁ => ?_⟩
    have := hlen' L₁ h₁
    split
    · rw [List.length_cons]
      omega
    · exact this

end

theorem pageInsert_spec (c : CpuIdx) (perm : Word) (h : PageInv s L H) {e : EnvIdx} {d pp : Nat}
    {va : Word} (hd : (s.envs e).envPgdir = some d) (hi : pdx va < utopPdx)
    (hM : Managed s pp) (hL : pp ∉ L) (hT : NotTable s pp) :
    (tabFrame s (some e) (pdx va) = none ∧ L = [] ∧
        pageInsert c d pp va perm s = .ok (.error .noMem) s) ∨
      ∃ t, pageInsert c d pp va perm s = .ok (.ok ()) t ∧
        Mapped s t e va pp (page2pa pp ||| perm ||| pteP) H := by
  rcases pgdirWalk_create h (o := some e) hd hi with ⟨hn, rfl, hrun⟩ | ⟨T, m, hwalk, W⟩
  · refine Or.inl ⟨hn, rfl, ?_⟩
    simp only [pageInsert, run_bind, hrun, run_pure]
  refine Or.inr ?_
  have hslot : target m (.pte e (pdx va) (ptx va)) = entryFrame (m.mem T (ptx va)) := by
    simp only [target, pteAt_of_tab W.tab]
  cases hf : target m (.pte e (pdx va) (ptx va)) with
  | none => exact ⟨_, pageInsert_fresh c hwalk (hslot ▸ hf), W.mapped_fresh h hM hL hT hf _⟩
  | some g =>
    obtain ⟨L', hm, -⟩ := W.inv
    have hmd : (m.envs e).envPgdir = some d := by rw [W.edit.only.envs]; exact hd
    have hmT : entryFrame (m.mem d (pdx va)) = some T := by
      rw [← tabFrame_of_dir (o := some e) hmd hi]
      exact W.tab
    exact ⟨_, pageInsert_over c hwalk hmT (hm.tab_lt W.tab) hm.window (hslot ▸ hf) (hm.pte_lt hf)
      (hm.link_of_target hf), W.mapped_over c d h hM hL hT hf _⟩

end Spec

end Jos
