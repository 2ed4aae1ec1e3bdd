import Jos.Env
import Jos.Paging

/-!
  The address space of an environment as a whole: setting one up (`env_setup_vm`) and giving back
  all of it (`env_free`). -/

namespace Jos

open Lib RefCount

/-- From `s` to `t` the tables of every owner but `o₀` are untouched, and so is what CPUs that do
    not use the tables of `o₀` have cached. -/
structure Others (o₀ : Owner) (s t : KState) : Prop where
  only : PmOnly s t
  tab : ∀ o i, o ≠ o₀ → tabFrame t o i = tabFrame s o i
  pde : ∀ o d i, dirFrame s o = some d → ¬ (o = o₀ ∧ Owns o i) → t.mem d i = s.mem d i
  pte : ∀ o i j, o ≠ o₀ → pteAt t o i j = pteAt s o i j
  fresh : ∀ k, (∀ e, o₀ = some e → (s.envs e).envPgdir ≠ some (s.cr3 k)) → Fresh k s → Fresh k t

namespace Others

variable {o₀ : Owner} {s t u : KState}

theorem refl (o₀ : Owner) (s : KState) : Others o₀ s s :=
  ⟨.refl s, fun _ _ _ => rfl, fun _ _ _ _ _ => rfl, fun _ _ _ _ => rfl, fun _ _ h => h⟩

theorem trans (h : Others o₀ s t) (h' : Others o₀ t u) : Others o₀ s u where
  only := h.only.trans h'.only
  tab o i hn := by rw [h'.tab o i hn, h.tab o i hn]
  pde o d i hd hn := by
    rw [h'.pde o d i (by rw [h.only.dirFrame]; exact hd) hn, h.pde o d i hd hn]
  pte o i j hn := by rw [h'.pte o i j hn, h.pte o i j hn]
  fresh k hk hf := h'.fresh k (by rw [h.only.envs, h.only.cr3]; exact hk) (h.fresh k hk hf)

theorem of_edited {P : Idx → Idx → Prop} (h : Edited o₀ P s t) (hw : TlbWithin s t) :
    Others o₀ s t where
  only := h.only
  tab o i hn := by
    unfold tabFrame pdeAt
    rw [h.only.dirFrame]
    cases hd : dirFrame s o with
    | none => rfl
    | some d => simp only [h.pde o d i hd fun hx => hn hx.1]
  pde := h.pde
  pte o i j hn := h.pte o i j fun hx => hn hx.1
  fresh k hk hf := hf.of_within hw h.only fun e he i j g hg => by
    have hne : (some e : Owner) ≠ o₀ := fun heq => hk e heq.symm he
    simpa only [target, h.pte (some e) i j fun hx => hne hx.1] using hg

theorem of_mem (ho : PmOnly s t) (hm : t.mem = s.mem) (ht : t.tlb = s.tlb) : Others o₀ s t :=
  of_edited (P := Nowhere) (.of_mem ho hm) (.of_tlb ht)

end Others

/-- Tables of `e` were only taken away, and every data frame kept its contents. -/
structure Freed (e : EnvIdx) (s t : KState) : Prop where
  others : Others (some e) s t
  gone : ∀ i, tabFrame t (some e) i = tabFrame s (some e) i ∨ tabFrame t (some e) i = none
  data : ∀ f, NotTable s f → t.mem f = s.mem f
  unmanaged : ∀ f, ¬ Managed s f → t.pages f = s.pages f

namespace Freed

variable {e : EnvIdx} {s t u : KState}

theorem refl (e : EnvIdx) (s : KState) : Freed e s s :=
  ⟨.refl _ s, fun _ => Or.inl rfl, fun _ _ => rfl, fun _ _ => rfl⟩

theorem notTable (h : Freed e s t) {f : Nat} (hf : NotTable s f) : NotTable t f := by
  refine ⟨by rw [h.others.only.kernPgdir]; exact hf.1, fun r hr ht => ?_⟩
  cases r with
  | dir e' =>
    have : target t (.dir e') = target s (.dir e') := by simp only [target, h.others.only.envs]
    exact hf.2 (.dir e') trivial (this ▸ ht)
  | tab o i =>
    by_cases ho : o = some e
    · subst ho
      rcases h.gone i with hg | hg
      · exact hf.not_tab _ i (hg.symm.trans ht)
      · rw [target, hg] at ht; cases ht
    · exact hf.not_tab o i (h.others.tab o i ho ▸ ht)
  | pte e' i j => exact hr.elim

theorem trans (h : Freed e s t) (h' : Freed e t u) : Freed e s u where
  others := h.others.trans h'.others
  gone i := by
    rcases h'.gone i with h1 | h1
    · rw [h1]; exact h.gone i
    · exact Or.inr h1
  data f hf := by rw [h'.data f (h.notTable hf), h.data f hf]
  unmanaged f hf := by
    rw [h'.unmanaged f (by rw [h.others.only.managed]; exact hf), h.unmanaged f hf]

end Freed

/-! ### `env_free` -/

section Free

variable {s : KState} {L : List Nat} {H : Finset Nat} {e : EnvIdx} {d : Nat}

/-- One row of the inner loop. -/
theorem envFreePte_spec (c : CpuIdx) (h : PageInv s L H) (hd : (s.envs e).envPgdir = some d)
    {i : Idx} {T : Nat} (hT : tabFrame s (some e) i = some T) (j : Idx) :
    ∃ t, envFreePte c d T i j s = .ok () t ∧ Freed e s t ∧ (∃ L', PageInv t L' H) ∧
      tabFrame t = tabFrame s ∧ target t (.pte e i j) = none ∧
      ∀ r, target s r = none → target t r = none := by
  have hi : i < utopPdx := owns_of_tab hT
  have hpte : target s (.pte e i j) = entryFrame (s.mem T j) := by
    simp only [target, pteAt_of_tab hT]
  by_cases hp : s.mem T j &&& pteP ≠ 0
  · have hrun : envFreePte c d T i j s = pageRemove c d (pgaddr i j) s := by
      simp only [envFreePte, run_bind, run_get, run_ite, if_pos hp]
    have hi' : pdx (pgaddr i j) < utopPdx := by rw [pdx_pgaddr]; exact hi
    have hspec := pageRemove_spec c h hd hi'
    rw [pdx_pgaddr, ptx_pgaddr] at hspec
    rcases hspec with ⟨hn, -⟩ | ⟨f, t, hf, ht, U⟩
    · rw [hpte, entryFrame_eq_none] at hn
      exact absurd hn hp
    · refine ⟨t, hrun.trans ht, ⟨.of_edited U.edit U.tlb, fun _ => Or.inl (by rw [U.tab]), ?_, ?_⟩,
        ⟨_, U.inv⟩, U.tab, ?_, ?_⟩
      · intro g hg
        refine U.edit.data g ⟨by rw [U.edit.only.kernPgdir]; exact hg.1, fun r hr => ?_⟩
        rw [U.target, Function.update_apply]
        split
        · exact fun he => by cases he
        · exact hg.2 r hr
      · exact fun g hg => U.pages g fun he => hg (he ▸ h.counted.target _ _ hf)
      · rw [U.target, pdx_pgaddr, ptx_pgaddr, Function.update_self]
      · intro r hr
        rw [U.target, Function.update_apply]
        split
        · rfl
        · exact hr
  · refine ⟨s, ?_, .refl e s, ⟨L, h⟩, rfl, ?_, fun _ hr => hr⟩
    · simp only [envFreePte, run_bind, run_get, run_ite, if_neg hp, run_pure]
    · rw [hpte, entryFrame_eq_none]
      exact not_not.mp hp

/-- The inner loop empties a page table. -/
theorem envFreePtes_spec (c : CpuIdx) {i : Idx} {T : Nat} :
    ∀ (l : List Idx) {s : KState} {L : List Nat}, PageInv s L H → (s.envs e).envPgdir = some d →
      tabFrame s (some e) i = some T →
      ∃ t, l.forM (envFreePte c d T i) s = .ok ⟨⟩ t ∧ Freed e s t ∧ (∃ L', PageInv t L' H) ∧
        tabFrame t = tabFrame s ∧ (∀ j ∈ l, target t (.pte e i j) = none) ∧
        ∀ r, target s r = none → target t r = none
  | [], s, L, h, _, _ => ⟨s, rfl, .refl e s, ⟨L, h⟩, rfl, by simp, fun _ hr => hr⟩
  | j :: l, s, L, h, hd, hT => by
    obtain ⟨m, hm, hf, ⟨L', hinv⟩, htab, hj, hnone⟩ := envFreePte_spec c h hd hT j
    obtain ⟨t, ht, hf', hinv', htab', hl, hnone'⟩ := envFreePtes_spec c l hinv
      (by rw [hf.others.only.envs]; exact hd) (by rw [htab]; exact hT)
    refine ⟨t, ?_, hf.trans hf', hinv', htab'.trans htab, ?_, fun r hr => hnone' r (hnone r hr)⟩
    · show (envFreePte c d T i j >>= fun _ => l.forM (envFreePte c d T i)) s = _
      rw [run_bind_ok hm, ht]
    · intro j' hj'
      rcases List.mem_cons.mp hj' with rfl | hj'
      · exact hnone' _ hj
      · exact hl j' hj'

/-- Dropping an emptied page table: the entry is cleared, then the table's page is released. -/
theorem dropTable_spec (h : PageInv s L H) (hd : (s.envs e).envPgdir = some d) {i : Idx} {T : Nat}
    (hT : tabFrame s (some e) i = some T) (hz : ∀ j, target s (.pte e i j) = none) :
    Freed e s ((s.poke d i 0).unref T) ∧
      PageInv ((s.poke d i 0).unref T) (if refs (target s) T = 1 then T :: L else L) H ∧
      (∀ i', tabFrame ((s.poke d i 0).unref T) (some e) i'
        = if i' = i then none else tabFrame s (some e) i') := by
  have hi : i < utopPdx := owns_of_tab hT
  have hdf : dirFrame s (some e) = some d := hd
  have hou := PmOnly.unref (s.poke d i 0) T
  have ho : PmOnly s ((s.poke d i 0).unref T) := (PmOnly.poke s d i 0).trans hou
  obtain ⟨htabu, hpteu⟩ := tables_of_mem hou (unref_mem _ _)
  have htab : ∀ o' i', tabFrame ((s.poke d i 0).unref T) o' i'
      = if o' = some e ∧ i' = i then none else tabFrame s o' i' := by
    intro o' i'
    rw [htabu, tabFrame_poke_pde h.separate hdf i 0 hi, entryFrame_zero]
  have hpte : ∀ o' i' j', pteAt ((s.poke d i 0).unref T) o' i' j'
      = if o' = some e ∧ i' = i then 0 else pteAt s o' i' j' := by
    intro o' i' j'
    rw [hpteu, pteAt_drop_table h.separate hdf hi]
  have htarget : target ((s.poke d i 0).unref T)
      = Function.update (target s) (.tab (some e) i) none := by
    rw [target_of_mem hou (unref_mem _ _)]
    exact target_drop_table h.separate hdf rfl hi hz
  refine ⟨⟨⟨ho, ?_, ?_, ?_, ?_⟩, ?_, ?_, ?_⟩, ?_, ?_⟩
  · intro o i' hn; rw [htab, if_neg fun hx => hn hx.1]
  · intro o d' i' hd' hn
    rw [unref_mem]
    by_cases hdd : d' = d
    · subst hdd
      obtain rfl := h.separate.dir_inj hdf hd'
      have hne : i' ≠ i := fun he => hn ⟨rfl, he ▸ hi⟩
      rw [KState.poke_mem_self, if_neg hne]
    · rw [KState.poke_mem_of_ne _ _ _ _ hdd]
  · intro o i' j' hn; rw [hpte, if_neg fun hx => hn hx.1]
  · intro k hk hf
    have hw : TlbWithin s ((s.poke d i 0).unref T) :=
      (TlbWithin.setFrame s d _).trans (.of_tlb (unref_tlb _ _)) (.setFrame s d _)
        fun e' i' j' g hg => Or.inr (by rwa [target_of_mem hou (unref_mem _ _)])
    refine hf.of_within hw ho fun e' he' i' j' g hg => ?_
    have hne : e' ≠ e := fun heq => hk e rfl (heq ▸ he')
    simpa only [target, hpte, Option.some.injEq, hne, false_and, if_false] using hg
  · intro i'
    rw [htab]
    split
    · exact Or.inr rfl
    · exact Or.inl rfl
  · intro f hf
    have hfd : f ≠ d := fun he => hf.not_dir (some e) (he ▸ hd)
    rw [unref_mem, KState.poke_mem_of_ne _ _ _ _ hfd]
  · intro f hf
    exact pages_unref_of_ne _ _ fun he => hf (he ▸ h.counted.target (.tab (some e) i) T hT)
  · obtain ⟨hp, hl⟩ := unref_congr (s := s) (t := s.poke d i 0) rfl rfl T
    exact h.clear (r := .tab (some e) i) hT ho.limits htarget hp hl
  · intro i'; rw [htab]; simp

/-- One row of the outer loop. -/
theorem envFreePde_spec (c : CpuIdx) (h : PageInv s L H) (hd : (s.envs e).envPgdir = some d)
    {i : Idx} (hi : i < utopPdx) :
    ∃ t, envFreePde c d i s = .ok () t ∧ Freed e s t ∧ (∃ L', PageInv t L' H) ∧
      tabFrame t (some e) i = none := by
  have hent : tabFrame s (some e) i = entryFrame (s.mem d i) := tabFrame_of_dir (o := some e) hd hi
  by_cases hp : s.mem d i &&& pteP ≠ 0
  · have hT : tabFrame s (some e) i = some (pgnum (s.mem d i)) := by
      rw [hent, entryFrame_of_present hp]
    have hTn := h.tab_lt hT
    obtain ⟨m, hm, hf, ⟨L', hinv⟩, htab, hz, -⟩ :=
      envFreePtes_spec (e := e) (d := d) c (List.finRange 1024) h hd hT
    have hdm : (m.envs e).envPgdir = some d := by rw [hf.others.only.envs]; exact hd
    have hTm : tabFrame m (some e) i = some (pgnum (s.mem d i)) := by rw [htab]; exact hT
    obtain ⟨hf', hinv', htab'⟩ := dropTable_spec hinv hdm hTm fun j => hz j (List.mem_finRange j)
    refine ⟨_, ?_, hf.trans hf', ⟨_, hinv'⟩, by rw [htab', if_pos rfl]⟩
    have hpa : pgnum (page2pa (pgnum (s.mem d i))) = pgnum (s.mem d i) :=
      pgnum_page2pa (pgnum_lt _)
    have hlink : (m.pages (pgnum (s.mem d i))).ppLink = none := hinv.link_of_target (r := .tab _ i) hTm
    have hTm' : pgnum (page2pa (pgnum (s.mem d i))) < (m.poke d i 0).npages := by
      rw [hpa]
      exact hinv.tab_lt hTm
    simp only [envFreePde, run_bind, run_get, run_ite, if_pos hp, kaddr_run hTn h.window, hm,
      run_modify, pa2page_run hTm', hpa]
    exact pageDecref_run hlink
  · refine ⟨s, ?_, .refl e s, ⟨L, h⟩, ?_⟩
    · simp only [envFreePde, run_bind, run_get, run_ite, if_neg hp, run_pure]
    · rw [hent, entryFrame_eq_none]; exact not_not.mp hp

/-- The outer loop leaves no page table below `UTOP`. -/
theorem envFreePdes_spec (c : CpuIdx) :
    ∀ (l : List Idx) {s : KState} {L : List Nat}, (∀ i ∈ l, i < utopPdx) → PageInv s L H →
      (s.envs e).envPgdir = some d →
      ∃ t, l.forM (envFreePde c d) s = .ok ⟨⟩ t ∧ Freed e s t ∧ (∃ L', PageInv t L' H) ∧
        ∀ i ∈ l, tabFrame t (some e) i = none
  | [], s, L, _, h, _ => ⟨s, rfl, .refl e s, ⟨L, h⟩, by simp⟩
  | i :: l, s, L, hl, h, hd => by
    obtain ⟨m, hm, hf, ⟨L', hinv⟩, hi⟩ := envFreePde_spec c h hd (hl i (List.mem_cons_self ..))
    obtain ⟨t, ht, hf', hinv', hnone⟩ := envFreePdes_spec c l
      (fun i' hi' => hl i' (List.mem_cons_of_mem i hi')) hinv
      (by rw [hf.others.only.envs]; exact hd)
    refine ⟨t, ?_, hf.trans hf', hinv', ?_⟩
    · show (envFreePde c d i >>= fun _ => l.forM (envFreePde c d)) s = _
      rw [run_bind_ok hm, ht]
    · intro i' hi'
      rcases List.mem_cons.mp hi' with rfl | hi'
      · rcases hf'.gone i' with hg | hg
        · rw [hg, hi]
        · exact hg
      · exact hnone i' hi'

theorem mem_userPdes {i : Idx} : i ∈ userPdes ↔ i < utopPdx := by
  simp [userPdes]

end Free

/-- The tables of an owner depend on its directory and on the contents of its own frames. -/
theorem owner_congr {s t : KState} {o : Owner} (hd : dirFrame t o = dirFrame s o)
    (hm : ∀ d, dirFrame s o = some d → t.mem d = s.mem d)
    (hT : ∀ i T, tabFrame s o i = some T → t.mem T = s.mem T) :
    (∀ i, tabFrame t o i = tabFrame s o i) ∧ ∀ i j, pteAt t o i j = pteAt s o i j := by
  have htab : ∀ i, tabFrame t o i = tabFrame s o i := by
    intro i
    unfold tabFrame pdeAt
    rw [hd]
    cases ho : dirFrame s o with
    | none => rfl
    | some d => simp only [hm d ho]
  refine ⟨htab, fun i j => ?_⟩
  unfold pteAt
  rw [htab]
  cases hi : tabFrame s o i with
  | none => rfl
  | some T => simp only [hT i T hi]

/-- What `env_free` achieves, when `d` was the directory of `e`. -/
structure EnvGone (c : CpuIdx) (e : EnvIdx) (d : Nat) (s t : KState) : Prop where
  limits : SameLimits s t
  cpus : t.cpus = s.cpus
  cr3 : t.cr3 = if s.curenv c = some e then Function.update s.cr3 c s.kernPgdir else s.cr3
  envs : t.envs = Function.update s.envs e
    { s.envs e with envPgdir := none, envStatus := .free, envLink := s.envFreeList }
  envFreeList : t.envFreeList = some e
  tab : ∀ o i, o ≠ some e → tabFrame t o i = tabFrame s o i
  noTab : ∀ i, tabFrame t (some e) i = none
  pde : ∀ o d i, o ≠ some e → dirFrame s o = some d → t.mem d i = s.mem d i
  pte : ∀ o i j, o ≠ some e → pteAt t o i j = pteAt s o i j
  data : ∀ f, NotTable s f → t.mem f = s.mem f
  unmanaged : ∀ f, ¬ Managed s f → t.pages f = s.pages f
  fresh : ∀ k, k ≠ c → s.cr3 k ≠ d → Fresh k s → Fresh k t

/-- Loading the kernel's directory changes no table and no other CPU. -/
theorem lcr3_spec {s : KState} (c : CpuIdx) (d : Nat) :
    target (s.lcr3 c d) = target s ∧ tabFrame (s.lcr3 c d) = tabFrame s ∧
      pteAt (s.lcr3 c d) = pteAt s ∧ ∀ k, k ≠ c → Fresh k s → Fresh k (s.lcr3 c d) := by
  refine ⟨target_congr (fun _ => rfl) rfl rfl, rfl, rfl, fun k hk hf e he i j g hi hg => ?_⟩
  have he' : (s.envs e).envPgdir = some (s.cr3 k) := by
    simpa [KState.lcr3, Function.update_of_ne hk] using he
  have hg' : s.tlb k (i.val * 1024 + j.val) g = true := by
    simpa [KState.lcr3, Function.update_of_ne hk] using hg
  exact hf e he' i j g hi hg'

/-- Updates of environments that keep every directory leave the cached translations valid. -/
theorem Fresh.congr {k : CpuIdx} {s t : KState} (h : Fresh k s)
    (he : ∀ e, (t.envs e).envPgdir = some (t.cr3 k) → (s.envs e).envPgdir = some (s.cr3 k) ∧
      ∀ i j, target t (.pte e i j) = target s (.pte e i j))
    (ht : t.tlb k = s.tlb k) : Fresh k t := by
  intro e hd i j g hi hg
  obtain ⟨hd', htgt⟩ := he e hd
  rw [htgt]
  exact h e hd' i j g hi (by rw [← ht]; exact hg)

/-- The state in which `env_free` begins to take the address space apart: if `c` is in it, the
    kernel's directory is loaded. -/
def unloaded (c : CpuIdx) (e : EnvIdx) (s : KState) : KState :=
  if s.curenv c = some e then s.lcr3 c s.kernPgdir else s

theorem unloaded_eq (c : CpuIdx) (e : EnvIdx) (s : KState) :
    ∃ r tl, unloaded c e s = { s with cr3 := r, tlb := tl } := by
  unfold unloaded
  split
  · exact ⟨_, _, rfl⟩
  · exact ⟨s.cr3, s.tlb, rfl⟩

theorem unloaded_cr3 (c : CpuIdx) (e : EnvIdx) (s : KState) : (unloaded c e s).cr3 =
    if s.curenv c = some e then Function.update s.cr3 c s.kernPgdir else s.cr3 := by
  unfold unloaded
  split <;> rfl

/-- Another CPU does not notice. -/
theorem unloaded_of_ne {c k : CpuIdx} (hk : k ≠ c) (e : EnvIdx) (s : KState) :
    (unloaded c e s).cr3 k = s.cr3 k ∧ (Fresh k s → Fresh k (unloaded c e s)) := by
  unfold unloaded
  split
  · exact ⟨Function.update_of_ne hk _ _, (lcr3_spec c _).2.2.2 k hk⟩
  · exact ⟨rfl, id⟩

/-- The state at the end of `env_free`: the directory `d` is given back and the slot is free. -/
def retired (e : EnvIdx) (d : Nat) (s : KState) : KState :=
  let t := (s.setEnv e { s.envs e with envPgdir := none }).unref d
  { t.setEnv e { t.envs e with envStatus := .free, envLink := t.envFreeList } with
    envFreeList := some e }

section

variable {s m : KState} {L : List Nat} {H : Finset Nat} {e : EnvIdx} {d : Nat}

theorem envFree_run (c : CpuIdx) (hd : (s.envs e).envPgdir = some d) :
    envFree c e s = envFreeRest c e (some d) (unloaded c e s) := by
  unfold unloaded
  simp only [envFree, envFreeRest, run_bind, run_get, run_ite, hd]
  split <;> simp only [run_set]

theorem envFreeRest_run {c : CpuIdx} (hm : userPdes.forM (envFreePde c d) s = .ok ⟨⟩ m)
    (h : PageInv m L H) (hd : (m.envs e).envPgdir = some d) :
    envFreeRest c e (some d) s = .ok () (retired e d m) := by
  have hr : target m (.dir e) = some d := hd
  have hdn : d < m.npages := (h.counted.target _ d hr).1
  have hpa : pgnum (page2pa d) = d := pgnum_page2pa (by have := h.window; omega)
  have hlink : (m.pages d).ppLink = none := h.link_of_target hr
  set m1 := m.setEnv e { m.envs e with envPgdir := none } with hm1
  have hpage : pa2page (page2pa d) m1 = .ok d m1 := by
    have hrun := pa2page_run (s := m1) (show pgnum (page2pa d) < m1.npages by rw [hpa]; exact hdn)
    rwa [hpa] at hrun
  have hfree : pageDecref d m1 = .ok () (m1.unref d) := pageDecref_run hlink
  rw [envFreeRest, run_bind_ok hm]
  simp only [run_bind, run_modify]
  rw [← hm1, hpage]
  simp only [hfree]
  rfl

/-- What giving back the directory changes, if no tables are left in it. -/
structure Retired (e : EnvIdx) (d : Nat) (s t : KState) : Prop where
  limits : SameLimits s t
  cpus : t.cpus = s.cpus
  cr3 : t.cr3 = s.cr3
  tlb : t.tlb = s.tlb
  mem : t.mem = s.mem
  envs : t.envs = Function.update s.envs e
    { s.envs e with envPgdir := none, envStatus := .free, envLink := s.envFreeList }
  tab : tabFrame t = tabFrame s
  pte : pteAt t = pteAt s
  target : target t = Function.update (target s) (.dir e) none
  pages : ∀ f, f ≠ d → t.pages f = s.pages f

theorem retired_spec (d : Nat) (hz : ∀ i, tabFrame s (some e) i = none) :
    Retired e d s (retired e d s) := by
  set v : Env := { s.envs e with envPgdir := none } with hv
  set m := s.setEnv e v with hm
  obtain ⟨htab, hpte, htgt⟩ := tables_setEnv_none (s := s) (e := e) (v := v) rfl hz
  have ho : PmOnly m (m.unref d) := .unref m d
  set t := retired e d s with ht
  have hl := ho.limits
  have hdir : ∀ x, (t.envs x).envPgdir = ((m.unref d).envs x).envPgdir := by
    intro x
    by_cases hx : x = e
    · subst hx
      simp [ht, retired, KState.setEnv, hm, hv]
    · simp [ht, retired, KState.setEnv, hx, hm, hv]
  have htgt' : Jos.target t = Jos.target m :=
    (target_congr hdir rfl rfl).trans (target_of_mem ho (unref_mem _ _))
  have hmem : t.mem = s.mem := by
    show (m.unref d).mem = s.mem
    rw [unref_mem]
    rfl
  have htab' : tabFrame t = tabFrame s := by
    rw [← htab]
    funext o i
    exact congrFun htgt' (.tab o i)
  refine ⟨⟨hl.npages, hl.nextfree, hl.kernPgdir, hl.pagesAt, hl.envsAt⟩, ho.cpus, ho.cr3, ?_, hmem,
    ?_, htab', ?_, htgt'.trans htgt, fun f hf => ?_⟩
  · show (m.unref d).tlb = _
    rw [unref_tlb]
    rfl
  · have henvs : t.envs = Function.update (m.unref d).envs e { (m.unref d).envs e with
        envStatus := .free, envLink := (m.unref d).envFreeList } := rfl
    have hme : m.envs = Function.update s.envs e v := rfl
    rw [henvs, ho.envs, ho.envFreeList, hme, Function.update_idem, Function.update_self]
    rfl
  · funext o i j
    unfold pteAt
    rw [htab', hmem]
  · show (m.unref d).pages f = _
    rw [pages_unref_of_ne m d hf]
    rfl

theorem PageInv.retired (h : PageInv s L H) (hd : (s.envs e).envPgdir = some d)
    (hz : ∀ i, tabFrame s (some e) i = none) : ∃ L', PageInv (retired e d s) L' H := by
  have hr := retired_spec d hz
  obtain ⟨hp, hl⟩ := unref_congr (s := s) (t := s.setEnv e { s.envs e with envPgdir := none }) rfl
    rfl d
  exact ⟨_, h.clear (show target s (.dir e) = some d from hd) hr.limits hr.target hp hl⟩

theorem envFree_spec (c : CpuIdx) (h : PageInv s L H) (hd : (s.envs e).envPgdir = some d) :
    ∃ t, envFree c e s = .ok () t ∧ EnvGone c e d s t ∧ ∃ L', PageInv t L' H := by
  have hcr3 := unloaded_cr3 c e s
  have hothers := fun k (hk : k ≠ c) => unloaded_of_ne hk e s
  rw [envFree_run c hd]
  obtain ⟨r, tl, hs0⟩ := unloaded_eq c e s
  rw [hs0] at hcr3 hothers ⊢
  set s0 : KState := { s with cr3 := r, tlb := tl } with hs0
  have htgt0 : target s0 = target s := target_congr (fun _ => rfl) rfl rfl
  have h0 : PageInv s0 L H := h.congr htgt0 rfl rfl rfl rfl rfl
  obtain ⟨m, hm, hf, ⟨L1, h1⟩, hnone⟩ := envFreePdes_spec (e := e) c userPdes
    (fun i hi => mem_userPdes.mp hi) h0 hd
  have hmo := hf.others.only
  have hdm : (m.envs e).envPgdir = some d := by rw [hmo.envs]; exact hd
  have hnotab : ∀ i, tabFrame m (some e) i = none := by
    intro i
    by_cases hi : i < utopPdx
    · exact hnone i (mem_userPdes.mpr hi)
    · exact if_neg hi
  have hr := retired_spec d hnotab
  refine ⟨_, envFreeRest_run hm h1 hdm, ?_, h1.retired hdm hnotab⟩
  have hdata : ∀ f, NotTable s f → m.mem f = s.mem f := fun f hf' =>
    hf.data f ⟨hf'.1, fun r hr => by rw [htgt0]; exact hf'.2 r hr⟩
  have hlim0 : SameLimits s s0 := ⟨rfl, rfl, rfl, rfl, rfl⟩
  refine ⟨(hlim0.trans hmo.limits).trans hr.limits, hr.cpus.trans hmo.cpus,
    (hr.cr3.trans hmo.cr3).trans hcr3, ?_, rfl, ?_, ?_, ?_, ?_, ?_, ?_, ?_⟩
  · rw [hr.envs, hmo.envs, hmo.envFreeList]
  · intro o i ho
    rw [hr.tab]
    exact hf.others.tab o i ho
  · intro i
    rw [hr.tab]
    exact hnotab i
  · intro o d' i ho hd'
    rw [hr.mem]
    exact hf.others.pde o d' i hd' fun hx => ho hx.1
  · intro o i j ho
    rw [hr.pte]
    exact hf.others.pte o i j ho
  · intro f hf'
    rw [hr.mem]
    exact hdata f hf'
  · intro f hfu
    have hne : f ≠ d := fun he => hfu (he ▸ h.counted.target (.dir e) d hd)
    rw [hr.pages f hne]
    exact hf.unmanaged f hfu
  · intro k hk hkd hfr
    obtain ⟨hcr, hfr0⟩ := hothers k hk
    have hfrm : Fresh k m := by
      refine hf.others.fresh k (fun e' he' hd' => ?_) (hfr0 hfr)
      obtain rfl := Option.some.inj he'
      rw [hcr] at hd'
      exact hkd (Option.some.inj (hd.symm.trans hd')).symm
    refine hfrm.congr (fun e' he' => ?_) (congrFun hr.tlb k)
    rw [hr.envs, hr.cr3] at he'
    by_cases hx : e' = e
    · subst hx
      rw [Function.update_self] at he'
      cases he'
    · rw [Function.update_of_ne hx] at he'
      exact ⟨he', fun i j => by simp only [target, hr.pte]⟩

end

/-! ### `env_setup_vm` -/

/-- What `env_setup_vm` achieves with the page `p`. -/
structure SetUp (e : EnvIdx) (p : Nat) (s t : KState) : Prop where
  rest : t.rest = (s.setEnv e { s.envs e with envPgdir := some p }).rest
  free : NotTable s p
  dir : t.mem p = newPgdir s p
  mem : ∀ f, f ≠ p → t.mem f = s.mem f
  fresh : ∀ k, s.cr3 k ≠ p → Fresh k s → Fresh k t

namespace SetUp

variable {e : EnvIdx} {p : Nat} {s t : KState} (h : SetUp e p s t)

include h

theorem limits : SameLimits s t :=
  ⟨show t.rest.npages = _ by rw [h.rest]; rfl, show t.rest.nextfree = _ by rw [h.rest]; rfl,
    show t.rest.kernPgdir = _ by rw [h.rest]; rfl, show t.rest.pagesAt = _ by rw [h.rest]; rfl,
    show t.rest.envsAt = _ by rw [h.rest]; rfl⟩

theorem envs : t.envs = Function.update s.envs e { s.envs e with envPgdir := some p } :=
  show t.rest.envs = _ by rw [h.rest]; rfl

theorem dirFrame_of_ne {o : Owner} (ho : o ≠ some e) : dirFrame t o = dirFrame s o := by
  cases o with
  | none => simp [dirFrame, h.limits.kernPgdir]
  | some e' =>
    have he : e' ≠ e := fun hx => ho (by rw [hx])
    simp [dirFrame, h.envs, he]

theorem tables_of_ne {o : Owner} (ho : o ≠ some e) :
    (∀ i, tabFrame t o i = tabFrame s o i) ∧ ∀ i j, pteAt t o i j = pteAt s o i j := by
  refine owner_congr (h.dirFrame_of_ne ho) (fun d hd => ?_) (fun i T hT => ?_)
  · exact h.mem d fun hx => h.free.not_dir o (hx ▸ hd)
  · exact h.mem T fun hx => h.free.not_tab o i (hx ▸ hT)

/-- The new directory has no page tables of its own. -/
theorem noTab (i : Idx) : tabFrame t (some e) i = none := by
  by_cases hi : i < utopPdx
  · have hd : dirFrame t (some e) = some p := by simp [dirFrame, h.envs]
    have hne : i ≠ uvptPdx := by
      have : uvptPdx.val = 957 := by decide
      rw [Fin.lt_def, utopPdx_val] at hi
      exact fun hx => by rw [hx] at hi; omega
    rw [tabFrame_of_dir hd hi, h.dir]
    simp [newPgdir, hi, hne]
  · exact if_neg hi

theorem target_eq (hn : (s.envs e).envPgdir = none) :
    target t = Function.update (target s) (.dir e) (some p) := by
  have hns : ∀ i, tabFrame s (some e) i = none := by
    intro i; simp [tabFrame, pdeAt, dirFrame, hn]
  have htab : ∀ o i, tabFrame t o i = tabFrame s o i := by
    intro o i
    by_cases ho : o = some e
    · subst ho; rw [h.noTab, hns]
    · exact (h.tables_of_ne ho).1 i
  have hpte : ∀ o i j, pteAt t o i j = pteAt s o i j := by
    intro o i j
    by_cases ho : o = some e
    · subst ho; rw [pteAt_of_no_tab (h.noTab i), pteAt_of_no_tab (hns i)]
    · exact (h.tables_of_ne ho).2 i j
  funext r
  cases r with
  | dir e' =>
    by_cases he : e' = e
    · subst he; simp [target, h.envs]
    · rw [Function.update_of_ne (by simpa using he)]; simp [target, h.envs, he]
  | tab o i => rw [Function.update_of_ne (by simp)]; simp [target, htab]
  | pte e' i j => rw [Function.update_of_ne (by simp)]; simp [target, hpte]

end SetUp

theorem envSetupVm_spec {s : KState} {L : List Nat} {H : Finset Nat} (e : EnvIdx)
    (h : PageInv s L H) :
    (L = [] ∧ envSetupVm e s = .ok (.error .noMem) s) ∨
      ∃ p L' t, L = p :: L' ∧ envSetupVm e s = .ok (.ok ()) t ∧ SetUp e p s t ∧
        ((s.envs e).envPgdir = none → PageInv t L' H) := by
  cases L with
  | nil =>
    refine Or.inl ⟨rfl, ?_⟩
    simp only [envSetupVm, run_bind, pageAlloc_nil h, run_pure]
  | cons p L' =>
    have hpL : p ∈ p :: L' := List.mem_cons_self ..
    have hM := h.counted.managed p hpL
    have hlt := h.lt_window hM
    have hpop := PmOnly.pop s p
    have hnt := h.notTable_of_free hpL
    have hntp : NotTable (s.pop p) p :=
      ⟨hnt.1, fun r hr => by rw [target_of_mem hpop rfl]; exact hnt.2 r hr⟩
    set m := (s.pop p).setFrame p fun _ => 0 with hm
    have hmo : PmOnly s m := hpop.trans (.setFrame _ _ _)
    set m1 := (m.setEnv e { s.envs e with envPgdir := some p }).incref p with hm1
    have hker : s.kernPgdir ≠ p := fun hx => h.kern (hx ▸ hM)
    have hnew : newPgdir m1 p = newPgdir s p := by
      funext i
      have : m1.mem s.kernPgdir = s.mem s.kernPgdir := by
        show (Function.update s.mem p _) s.kernPgdir = _
        rw [Function.update_of_ne hker]
      unfold newPgdir
      rw [show m1.kernPgdir = s.kernPgdir from rfl, this]
    have hrun : envSetupVm e s = .ok (.ok ()) (m1.setFrame p (newPgdir m1 p)) := by
      simp only [envSetupVm, run_bind, pageAlloc_cons h, if_true]
      rw [← hm, page2kva_run (s := m) hlt.1 h.window]
      simp only [run_modify, ppIncref_run]
      rfl
    have htm : target m = target s := by
      rw [hm, hntp.target_setFrame, target_of_mem hpop rfl]
    have hset : SetUp e p s (m1.setFrame p (newPgdir m1 p)) := by
      refine ⟨rfl, hnt, ?_, ?_, ?_⟩
      · rw [KState.setFrame_mem, Function.update_self, hnew]
      · intro f hf
        rw [KState.setFrame_mem, Function.update_of_ne hf]
        show (Function.update s.mem p _) f = _
        rw [Function.update_of_ne hf]
      · intro k hk hfr
        have hw1 : TlbWithin s m :=
          (TlbWithin.of_tlb (t := s.pop p) rfl).after (.setFrame _ _ _) hpop
            (target_of_mem hpop rfl)
        have hfm : Fresh k m := hfr.of_within hw1 hmo fun e' _ i j g hg => by rw [htm]; exact hg
        -- the directory of every environment but `e` is what it was
        have hdir : ∀ e', (m1.envs e').envPgdir = some (m1.cr3 k) → e' ≠ e ∧
            (m.envs e').envPgdir = some (m.cr3 k) := by
          intro e' he'
          have hne : e' ≠ e := by
            rintro rfl
            have : (m1.envs e').envPgdir = some p := by
              simp [hm1, KState.setEnv, KState.incref, KState.setPage]
            rw [this] at he'
            exact hk (Option.some.inj he').symm
          refine ⟨hne, ?_⟩
          simpa [hm1, KState.setEnv, KState.incref, KState.setPage, hne] using he'
        have htne : ∀ {u : KState}, u.kernPgdir = s.kernPgdir → u.envs = m1.envs →
            (∀ f, f ≠ p → u.mem f = s.mem f) → ∀ e', e' ≠ e → ∀ i j,
            target u (.pte e' i j) = target s (.pte e' i j) := by
          intro u hk' he' hmem e' hne i j
          have hd : dirFrame u (some e') = dirFrame s (some e') := by
            simp [dirFrame, he', hm1, hm, KState.setEnv, KState.incref, KState.setPage, KState.pop,
              hne]
          have := (owner_congr hd (fun d hd => hmem d fun hx => hnt.not_dir _ (hx ▸ hd))
            (fun i T hT => hmem T fun hx => hnt.not_tab _ i (hx ▸ hT))).2 i j
          simp only [target, this]
        have hmem1 : ∀ f, f ≠ p → m1.mem f = s.mem f := by
          intro f hf
          show (Function.update s.mem p _) f = _
          rw [Function.update_of_ne hf]
        have hf1 : Fresh k m1 := hfm.congr (fun e' he' => ⟨(hdir e' he').2, fun i j => by
          rw [htm, htne (u := m1) rfl rfl hmem1 e' (hdir e' he').1]⟩) rfl
        refine Fresh.of_within hf1 (.setFrame _ _ _) (.setFrame _ _ _) fun e' he' i j g hg => ?_
        have hne := (hdir e' he').1
        rw [htne (u := m1) rfl rfl hmem1 e' hne] at hg
        rw [htne (u := m1.setFrame p (newPgdir m1 p)) rfl rfl (fun f hf => ?_) e' hne]
        · exact hg
        · rw [KState.setFrame_mem, Function.update_of_ne hf]; exact hmem1 f hf
    refine Or.inr ⟨p, L', _, rfl, hrun, hset, fun hn => ?_⟩
    have hpH : p ∉ H := fun hh => ((h.counted.free_iff p hM).mp hpL).2 hh
    have htgt := hset.target_eq hn
    have hpt : target (s.pop p) = target s := target_of_mem hpop rfl
    have hass := h.pop.assign (r := .dir e) (f := p) (t := m1.setFrame p (newPgdir m1 p))
      (by rw [hpt]; exact hn) hM (List.nodup_cons.mp h.counted.nodup).1
      (by
        have h0 : (s.pages p).ppRef = 0 := h.counted.ref_free hpL
        simp [KState.pop, KState.setPage, h0])
      (by rw [hpt]; exact h.sole.assign_fresh (h.counted.not_target_of_free hpL))
      ⟨rfl, rfl, rfl, rfl, rfl⟩ (by rw [hpt]; exact htgt) rfl rfl
    rwa [Finset.erase_insert hpH] at hass

end Jos
