import Jos.Confine
import Jos.Send

/-!
  The result codes of `sys_page_alloc` and `sys_page_map`.

  Each call tests its arguments in the order that its comment lists. When memory runs out, the two
  calls report `-E_INVAL` in one place each where the comment lists `-E_NO_MEM`. -/

namespace Jos

open Lib RefCount

/-- How many page tables a mapping at `va` in `e` still needs. -/
def tablesMissing (s : KState) (e : EnvIdx) (va : Word) : Nat :=
  if tabFrame s (some e) (pdx va) = none then 1 else 0

/-- The documented result of `sys_page_alloc` with `free` pages on the free list. -/
def pageAllocResult (s : KState) (cur : EnvIdx) (free : Nat) (envid va perm : Word) :
    Except Err Word :=
  match lookupEnv s cur envid true with
  | none => .error .badEnv
  | some e =>
    if vaOk va = false ∨ permOk perm = false then .error .inval
    else if free < 1 + tablesMissing s e va then .error .noMem
    else .ok 0

/-- The documented result of `sys_page_map`. -/
def pageMapResult (s : KState) (cur : EnvIdx) (free : Nat) (srcenvid srcva dstenvid dstva perm : Word) :
    Except Err Word :=
  match lookupEnv s cur srcenvid true, lookupEnv s cur dstenvid true with
  | some src, some dst =>
    if (vaOk srcva = false ∨ vaOk dstva = false) ∨ permOk perm = false ∨
        mappedAt s src srcva = none ∨ (pteOf s src srcva &&& pteW = 0 ∧ perm &&& pteW ≠ 0) then
      .error .inval
    else if free < tablesMissing s dst dstva then .error .noMem
    else .ok 0
  | _, _ => .error .badEnv

/-- At `va`, `e` has frame `f` with exactly the permissions `perm`. -/
structure Shows (t : KState) (e : EnvIdx) (va : Word) (f : Nat) (perm : Word) : Prop where
  entry : pteOf t e va = page2pa f ||| perm
  frame : mappedAt t e va = some f

/-- `sys_page_alloc` returns the documented result, and after success the address shows a page that
    was free, zeroed. -/
def PageAllocKept (s : KState) (c : CpuIdx) (cur : EnvIdx) (L : List Nat) (envid va perm : Word) :
    Prop :=
  ∃ t, sysPageAlloc c envid va perm s = .ok (pageAllocResult s cur L.length envid va perm) t ∧
    (pageAllocResult s cur L.length envid va perm = .ok 0 →
      ∃ e f, lookupEnv s cur envid true = some e ∧ f ∈ L ∧ Shows t e va f perm ∧
        t.mem f = fun _ => 0)

/-- `sys_page_map` returns the documented result, and after success the destination shows the source
    frame. -/
def PageMapKept (s : KState) (c : CpuIdx) (cur : EnvIdx) (L : List Nat)
    (srcenvid srcva dstenvid dstva perm : Word) : Prop :=
  ∃ t, sysPageMap c srcenvid srcva dstenvid dstva perm s =
      .ok (pageMapResult s cur L.length srcenvid srcva dstenvid dstva perm) t ∧
    (pageMapResult s cur L.length srcenvid srcva dstenvid dstva perm = .ok 0 →
      ∃ src dst f, lookupEnv s cur srcenvid true = some src ∧
        lookupEnv s cur dstenvid true = some dst ∧ mappedAt s src srcva = some f ∧
        Shows t dst dstva f perm)

/-- The arguments of `sys_page_map` pass all tests. -/
structure MayMap (s : KState) (src : EnvIdx) (srcva dstva perm : Word) : Prop where
  va : vaOk srcva = true ∧ vaOk dstva = true
  bits : permOk perm = true
  mapped : mappedAt s src srcva ≠ none
  write : ¬ (pteOf s src srcva &&& pteW = 0 ∧ perm &&& pteW ≠ 0)

section

variable {c : CpuIdx} {cur e src dst : EnvIdx} {s : KState} {L : List Nat} {d d' : Nat}
  {envid va perm srcenvid srcva dstenvid dstva : Word}

/-- Accepted permissions contain `PTE_P` already. -/
theorem or_present_of_permOk (h : permOk perm = true) (w : Word) :
    w ||| perm ||| pteP = w ||| perm := by
  have hp : perm &&& pteP = pteP := by
    simp only [permOk, Bool.and_eq_true, decide_eq_true_eq] at h
    have hne : (perm &&& pteP).toNat ≠ 0 := fun h0 => h.1.2 (BitVec.eq_of_toNat_eq h0)
    apply BitVec.eq_of_toNat_eq
    have h1 : pteP.toNat = 1 := by decide
    rw [BitVec.toNat_and, h1, Nat.and_one_is_mod] at hne ⊢
    omega
  rw [BitVec.or_assoc]
  conv_lhs => rw [← hp]
  congr 1
  ext x
  simp only [BitVec.getElem_or, BitVec.getElem_and]
  cases perm[x] <;> simp

/-- What `page_insert` with accepted permissions leaves at the address. -/
theorem Mapped.shows {t : KState} {f : Nat} {H : Finset Nat}
    (h : Mapped s t e va f (page2pa f ||| perm ||| pteP) H) (hf : f < 65536)
    (hperm : permOk perm = true) : Shows t e va f perm := by
  refine ⟨h.entry.trans (or_present_of_permOk hperm _), ?_⟩
  have hlow : perm.toNat < 4096 := perm_lt (perm_of_permOk hperm)
  simp only [mappedAt, target, h.entry]
  exact entryFrame_mk_of_lt (by omega) hlow

/-- `page_insert` without a page table and without a page for one. -/
theorem pageInsert_full {H : Finset Nat} {pp : Nat} (h : PageInv s [] H)
    (hd : (s.envs e).envPgdir = some d) (hi : pdx va < utopPdx)
    (hn : tabFrame s (some e) (pdx va) = none) :
    pageInsert c d pp va perm s = .ok (.error .noMem) s := by
  rw [tabFrame_of_dir (o := some e) hd hi] at hn
  simp only [pageInsert, run_bind, pgdirWalk_full h.chain hn, run_pure]

/-- `page_insert` fails exactly if a page table is missing and there is no page for one. -/
theorem pageInsert_cases (c : CpuIdx) (perm : Word) {H : Finset Nat} {pp : Nat} (h : PageInv s L H)
    (hd : (s.envs e).envPgdir = some d) (hi : pdx va < utopPdx) (hM : Managed s pp) (hL : pp ∉ L)
    (hT : NotTable s pp) :
    (L.length < tablesMissing s e va ∧ pageInsert c d pp va perm s = .ok (.error .noMem) s) ∨
      ¬ L.length < tablesMissing s e va ∧ ∃ t, pageInsert c d pp va perm s = .ok (.ok ()) t ∧
        Mapped s t e va pp (page2pa pp ||| perm ||| pteP) H := by
  rcases pageInsert_spec c perm h hd hi hM hL hT with ⟨hnone, rfl, hins⟩ | ⟨t, hins, hmap⟩
  · refine Or.inl ⟨?_, hins⟩
    rw [tablesMissing, if_pos hnone]
    simp
  · refine Or.inr ⟨fun hlt => ?_, t, hins, hmap⟩
    by_cases hnone : tabFrame s (some e) (pdx va) = none
    · rw [tablesMissing, if_pos hnone] at hlt
      obtain rfl := List.length_eq_zero_iff.mp (Nat.lt_one_iff.mp hlt)
      rw [pageInsert_full h hd hi hnone] at hins
      cases hins
    · rw [tablesMissing, if_neg hnone] at hlt
      omega

/-- The page that `sys_page_alloc` maps. -/
theorem Taken.mapped {m t : KState} {f : Nat} (h : Taken true s m f L)
    (hmap : Mapped m t e va f (page2pa f ||| perm ||| pteP) {f}) (hperm : permOk perm = true) :
    Shows t e va f perm ∧ (t.mem f = fun _ => 0) ∧ ∃ L', PageInv t L' ∅ := by
  have hshow := hmap.shows (h.inv.lt_window h.managed).2 hperm
  have hentry : entryFrame (page2pa f ||| perm ||| pteP) = some f := by
    rw [← hmap.entry]
    exact hshow.frame
  obtain ⟨L', hL', -⟩ := hmap.inv hentry (Or.inl (by rw [h.unused]; decide))
  rw [Finset.erase_singleton] at hL'
  refine ⟨hshow, ?_, L', hL'⟩
  rw [hmap.edit.data f (hL'.notTable_of_pte hshow.frame), h.zeroed rfl]

/-- `sys_page_alloc` with arguments that pass all tests. -/
theorem sysPageAlloc_run (h : PageInv s L ∅) (hc : s.curenv c = some cur)
    (hl : lookupEnv s cur envid true = some e) (hd : (s.envs e).envPgdir = some d)
    (hva : vaOk va = true) (hperm : permOk perm = true) :
    (L = [] ∧ sysPageAlloc c envid va perm s = .ok (.error .inval) s) ∨
    (∃ t, L ≠ [] ∧ L.length < 1 + tablesMissing s e va ∧
      sysPageAlloc c envid va perm s = .ok (.error .noMem) t) ∨
    (∃ f m t L', ¬ L.length < 1 + tablesMissing s e va ∧
      sysPageAlloc c envid va perm s = .ok (.ok 0) t ∧ L = f :: L' ∧ Taken true s m f L' ∧
      Mapped m t e va f (page2pa f ||| perm ||| pteP) {f}) := by
  have hva' : ¬ vaOk va = false := by simp [hva]
  have hperm' : ¬ permOk perm = false := by simp [hperm]
  rcases h.alloc true with ⟨rfl, hrun⟩ | ⟨f, m, L, rfl, hrun, hm⟩
  · refine Or.inl ⟨rfl, ?_⟩
    simp only [sysPageAlloc, run_bind, envid2env_run hc, hl, if_neg hva', if_neg hperm',
      hrun, run_pure]
  · right
    have hdm : (m.envs e).envPgdir = some d := by rw [hm.only.envs]; exact hd
    have hpg : getPgdir e m = .ok d m := by simp only [getPgdir, run_bind, run_get, hdm, run_pure]
    have htab : tablesMissing m e va = tablesMissing s e va := by
      rw [tablesMissing, hm.tables.1, tablesMissing]
    rcases pageInsert_cases c perm hm.inv hdm (pdx_of_vaOk hva) hm.managed hm.notFree
      hm.notTable with ⟨hlt, hins⟩ | ⟨hge, t, hins, hmap⟩
    · refine Or.inl ⟨m.push f, by simp, ?_, ?_⟩
      · rw [← htab, List.length_cons]
        omega
      · simp only [sysPageAlloc, run_bind, envid2env_run hc, hl, if_neg hva',
          if_neg hperm', hrun, hpg, hins, hm.free, run_pure]
    · refine Or.inr ⟨f, m, t, L, ?_, ?_, rfl, hm, hmap⟩
      · rw [← htab, List.length_cons]
        omega
      · simp only [sysPageAlloc, run_bind, envid2env_run hc, hl, if_neg hva',
          if_neg hperm', hrun, hpg, hins, run_pure]

/-- `sys_page_map` with arguments that pass all tests. -/
theorem sysPageMap_run (h : PageInv s L ∅) (hc : s.curenv c = some cur)
    (hl : lookupEnv s cur srcenvid true = some src) (hl' : lookupEnv s cur dstenvid true = some dst)
    (hd : (s.envs src).envPgdir = some d) (hd' : (s.envs dst).envPgdir = some d')
    (hmay : MayMap s src srcva dstva perm) :
    (L.length < tablesMissing s dst dstva ∧
      sysPageMap c srcenvid srcva dstenvid dstva perm s = .ok (.error .inval) s) ∨
    ¬ L.length < tablesMissing s dst dstva ∧
      ∃ f t, sysPageMap c srcenvid srcva dstenvid dstva perm s = .ok (.ok 0) t ∧
        mappedAt s src srcva = some f ∧
        Mapped s t dst dstva f (page2pa f ||| perm ||| pteP) ∅ := by
  obtain ⟨⟨hsva, hdva⟩, hperm, hmapped, hw⟩ := hmay
  have hva' : ¬ (vaOk srcva = false ∨ vaOk dstva = false) := by simp [hsva, hdva]
  have hperm' : ¬ permOk perm = false := by simp [hperm]
  have hpg : getPgdir src s = .ok d s := by simp only [getPgdir, run_bind, run_get, hd, run_pure]
  have hpg' : getPgdir dst s = .ok d' s := by simp only [getPgdir, run_bind, run_get, hd', run_pure]
  rcases pageLookup_run h hd (pdx_of_vaOk hsva) with ⟨hn, -⟩ | ⟨f, T, hf, -, hrun, hent⟩
  · exact absurd hn hmapped
  have hw' : ¬ (s.entry (T, ptx srcva) &&& pteW = 0 ∧ perm &&& pteW ≠ 0) := by
    rw [hent]
    exact hw
  obtain ⟨hM, hfree, hnt⟩ := insertable h hf
  rcases pageInsert_cases c perm h hd' (pdx_of_vaOk hdva) hM (hfree L h) hnt with
    ⟨hlt, hins⟩ | ⟨hge, t, hins, hmap⟩
  · refine Or.inl ⟨hlt, ?_⟩
    simp only [sysPageMap, run_bind, envid2env_run hc, hl, hl', if_neg hva', if_neg hperm',
      hpg, hrun, run_get, if_neg hw', hpg', hins, run_pure]
  · refine Or.inr ⟨hge, f, t, ?_, hf, hmap⟩
    simp only [sysPageMap, run_bind, envid2env_run hc, hl, hl', if_neg hva', if_neg hperm',
      hpg, hrun, run_get, if_neg hw', hpg', hins, run_pure]

/-- Arguments that fail a test of `sys_page_map`. -/
theorem sysPageMap_inval (h : PageInv s L ∅) (hc : s.curenv c = some cur)
    (hl : lookupEnv s cur srcenvid true = some src) (hl' : lookupEnv s cur dstenvid true = some dst)
    (hd : (s.envs src).envPgdir = some d) (hno : ¬ MayMap s src srcva dstva perm) :
    sysPageMap c srcenvid srcva dstenvid dstva perm s = .ok (.error .inval) s := by
  have hpg : getPgdir src s = .ok d s := by simp only [getPgdir, run_bind, run_get, hd, run_pure]
  by_cases hva : vaOk srcva = false ∨ vaOk dstva = false
  · simp only [sysPageMap, run_bind, envid2env_run hc, hl, hl', if_pos hva, run_pure]
  by_cases hperm : permOk perm = false
  · simp only [sysPageMap, run_bind, envid2env_run hc, hl, hl', if_neg hva, if_pos hperm,
      run_pure]
  have hva' : vaOk srcva = true ∧ vaOk dstva = true := by simpa using hva
  rcases pageLookup_run h hd (pdx_of_vaOk hva'.1) with ⟨-, hrun⟩ | ⟨f, T, hf, -, hrun, hent⟩
  · simp only [sysPageMap, run_bind, envid2env_run hc, hl, hl', if_neg hva, if_neg hperm,
      hpg, hrun, run_pure]
  · have hw : s.entry (T, ptx srcva) &&& pteW = 0 ∧ perm &&& pteW ≠ 0 := by
      by_contra hw
      rw [hent] at hw
      exact hno ⟨hva', by simpa using hperm, by rw [mappedAt, hf]; simp, hw⟩
    simp only [sysPageMap, run_bind, envid2env_run hc, hl, hl', if_neg hva, if_neg hperm,
      hpg, hrun, run_get, if_pos hw, run_pure]

/-- `sys_page_alloc` keeps to its comment unless the data page itself is missing. -/
theorem pageAllocKept_iff (h : PageInv s L ∅) (hdir : ∀ e, (s.envs e).envStatus ≠ .free →
    (s.envs e).envPgdir ≠ none) (hlive : (s.envs cur).envStatus ≠ .free)
    (hc : s.curenv c = some cur) :
    PageAllocKept s c cur L envid va perm ↔ ∀ e, lookupEnv s cur envid true = some e →
      vaOk va = true → permOk perm = true → L ≠ [] := by
  unfold PageAllocKept pageAllocResult
  cases hl : lookupEnv s cur envid true with
  | none =>
    refine ⟨fun _ _ he => (nomatch he), fun _ => ⟨s, ?_, fun hx => (nomatch hx)⟩⟩
    simp only [sysPageAlloc, run_bind, envid2env_run hc, hl, run_pure]
  | some e =>
    obtain ⟨d, hd⟩ := Option.ne_none_iff_exists'.mp (hdir e (lookupEnv_live hlive hl))
    by_cases hbad : vaOk va = false ∨ permOk perm = false
    · simp only [if_pos hbad]
      refine ⟨fun _ x _ hva hperm => ?_, fun _ => ⟨s, ?_, fun hx => (nomatch hx)⟩⟩
      · rcases hbad with hx | hx
        · exact absurd (hva.symm.trans hx) (by simp)
        · exact absurd (hperm.symm.trans hx) (by simp)
      · by_cases hva : vaOk va = false
        · simp only [sysPageAlloc, run_bind, envid2env_run hc, hl, if_pos hva, run_pure]
        · simp only [sysPageAlloc, run_bind, envid2env_run hc, hl, if_neg hva,
            if_pos (hbad.resolve_left hva), run_pure]
    · have hva : vaOk va = true ∧ permOk perm = true := by simpa using hbad
      simp only [if_neg hbad]
      rcases sysPageAlloc_run h hc hl hd hva.1 hva.2 with ⟨rfl, hrun⟩ | ⟨t, hne, hlt, hrun⟩ |
        ⟨f, m, t, L', hge, hrun, rfl, hm, hmap⟩
      · refine ⟨fun ⟨t, ht, _⟩ => ?_, fun hok => absurd rfl (hok e rfl hva.1 hva.2)⟩
        rw [hrun, if_pos (by rw [List.length_nil]; omega)] at ht
        cases ht
      · rw [if_pos hlt]
        exact ⟨fun _ _ _ _ _ => hne, fun _ => ⟨t, hrun, fun hx => (nomatch hx)⟩⟩
      · obtain ⟨hshow, hzero, -⟩ := hm.mapped hmap hva.2
        rw [if_neg hge]
        exact ⟨fun _ _ _ _ _ => List.cons_ne_nil _ _,
          fun _ => ⟨t, hrun, fun _ => ⟨e, f, rfl, List.mem_cons_self .., hshow, hzero⟩⟩⟩

/-- `sys_page_map` keeps to its comment unless a page table cannot be made. -/
theorem pageMapKept_iff (h : PageInv s L ∅) (hdir : ∀ e, (s.envs e).envStatus ≠ .free →
    (s.envs e).envPgdir ≠ none) (hlive : (s.envs cur).envStatus ≠ .free)
    (hc : s.curenv c = some cur) :
    PageMapKept s c cur L srcenvid srcva dstenvid dstva perm ↔
      ∀ src dst, lookupEnv s cur srcenvid true = some src →
        lookupEnv s cur dstenvid true = some dst → MayMap s src srcva dstva perm →
        tabFrame s (some dst) (pdx dstva) = none → L ≠ [] := by
  unfold PageMapKept pageMapResult
  cases hl : lookupEnv s cur srcenvid true with
  | none =>
    refine ⟨fun _ _ _ he => (nomatch he), fun _ => ⟨s, ?_, fun hx => (nomatch hx)⟩⟩
    simp only [sysPageMap, run_bind, envid2env_run hc, hl, run_pure]
  | some src =>
    cases hl' : lookupEnv s cur dstenvid true with
    | none =>
      refine ⟨fun _ _ _ _ he => (nomatch he), fun _ => ⟨s, ?_, fun hx => (nomatch hx)⟩⟩
      simp only [sysPageMap, run_bind, envid2env_run hc, hl, hl', run_pure]
    | some dst =>
      obtain ⟨d, hd⟩ := Option.ne_none_iff_exists'.mp (hdir src (lookupEnv_live hlive hl))
      obtain ⟨d', hd'⟩ := Option.ne_none_iff_exists'.mp (hdir dst (lookupEnv_live hlive hl'))
      by_cases hbad : (vaOk srcva = false ∨ vaOk dstva = false) ∨ permOk perm = false ∨
          mappedAt s src srcva = none ∨ (pteOf s src srcva &&& pteW = 0 ∧ perm &&& pteW ≠ 0)
      · have hno : ¬ MayMap s src srcva dstva perm := by
          rintro ⟨⟨h1, h2⟩, h3, h4, h5⟩
          rcases hbad with (hx | hx) | hx | hx | hx
          · exact absurd (h1.symm.trans hx) (by simp)
          · exact absurd (h2.symm.trans hx) (by simp)
          · exact absurd (h3.symm.trans hx) (by simp)
          · exact h4 hx
          · exact h5 hx
        simp only [if_pos hbad]
        refine ⟨fun _ x y hx _ hmay => ?_, fun _ => ⟨s, sysPageMap_inval h hc hl hl' hd hno,
          fun hx => (nomatch hx)⟩⟩
        cases hx
        exact absurd hmay hno
      · have hmay : MayMap s src srcva dstva perm := by
          simp only [not_or, Bool.not_eq_false] at hbad
          exact ⟨hbad.1, hbad.2.1, hbad.2.2.1, hbad.2.2.2⟩
        simp only [if_neg hbad]
        rcases sysPageMap_run h hc hl hl' hd hd' hmay with ⟨hlt, hrun⟩ | ⟨hge, f, t, hrun, hf, hmap⟩
        · refine ⟨fun ⟨t, ht, _⟩ => ?_, fun hok => ?_⟩
          · rw [hrun, if_pos hlt] at ht
            cases ht
          · exfalso
            by_cases hnone : tabFrame s (some dst) (pdx dstva) = none
            · rw [tablesMissing, if_pos hnone] at hlt
              exact hok src dst rfl rfl hmay hnone
                (List.length_eq_zero_iff.mp (Nat.lt_one_iff.mp hlt))
            · rw [tablesMissing, if_neg hnone] at hlt
              omega
        · have hshow := hmap.shows (h.lt_window (h.counted.target _ f hf)).2 hmay.bits
          rw [if_neg hge]
          refine ⟨fun _ x y hx hy _ hnone => ?_,
            fun _ => ⟨t, hrun, fun _ => ⟨src, dst, f, rfl, rfl, hf, hshow⟩⟩⟩
          cases hy
          rintro rfl
          rw [tablesMissing, if_pos hnone] at hge
          simp at hge

/-- Both calls return what their comments list, and map what was asked for, exactly if the failures
    that they misreport do not occur: a missing data page for `sys_page_alloc`, a missing page
    table for `sys_page_map`. -/
theorem map_calls_results_iff (h : PageInv s L ∅) (hdir : ∀ e, (s.envs e).envStatus ≠ .free →
    (s.envs e).envPgdir ≠ none) (hlive : (s.envs cur).envStatus ≠ .free)
    (hc : s.curenv c = some cur) :
    (∀ envid va perm, PageAllocKept s c cur L envid va perm ↔
      ∀ e, lookupEnv s cur envid true = some e → vaOk va = true → permOk perm = true → L ≠ []) ∧
    ∀ srcenvid srcva dstenvid dstva perm,
      PageMapKept s c cur L srcenvid srcva dstenvid dstva perm ↔
        ∀ src dst, lookupEnv s cur srcenvid true = some src →
          lookupEnv s cur dstenvid true = some dst → MayMap s src srcva dstva perm →
          tabFrame s (some dst) (pdx dstva) = none → L ≠ [] :=
  ⟨fun _ _ _ => pageAllocKept_iff h hdir hlive hc,
    fun _ _ _ _ _ => pageMapKept_iff h hdir hlive hc⟩

end

/-! ### Out of memory -/

/-- Environment 0 runs, and its page directory is the only page there is. -/
def noPages : KState :=
  { startState demo with
    npages := 2
    pages := fun f => ⟨none, if f = 1 then 1 else 0⟩
    mem := fun _ _ => 0
    envs := Function.update emptyEnv 0 { emptyEnv 0 with envStatus := .running, envPgdir := some 1 }
    cpus := fun _ => ⟨.started, some 0, .user⟩ }

theorem noPages_target {r : Slot} {f : Nat} (h : target noPages r = some f) :
    r = .dir 0 ∧ f = 1 := by
  have htab : ∀ o i, tabFrame noPages o i = none := by
    intro o i
    unfold tabFrame pdeAt
    split
    · cases dirFrame noPages o <;> exact entryFrame_zero
    · rfl
  cases r with
  | dir e =>
    by_cases he : e = 0
    · subst he
      exact ⟨rfl, (Option.some.inj h).symm⟩
    · simp [target, noPages, he, emptyEnv] at h
  | tab o i =>
    rw [target, htab] at h
    cases h
  | pte e i j =>
    rw [target, pteAt_of_no_tab (htab _ _), entryFrame_zero] at h
    cases h

theorem noPages_inv : PageInv noPages [] ∅ := by
  have hdir : target noPages (.dir 0) = some 1 := rfl
  have hone : ∀ f, Managed noPages f → f = 1 := by
    rintro f ⟨hlt, hres⟩
    have hlt' : f < 2 := hlt
    have h0 : f ≠ 0 := by
      rintro rfl
      exact absurd hres (by decide)
    omega
  have hrefs : refs (target noPages) 1 = 1 :=
    refs_eq_one hdir fun r hr => (noPages_target hr).1
  refine ⟨rfl, fun _ _ _ => rfl, ⟨List.nodup_nil, by simp, fun r f hr => ?_, by simp,
    fun f hf => ?_, fun f hf => ?_⟩, fun r f _ hr r' hr' => ?_, by decide, by decide⟩
  · rw [(noPages_target hr).2]
    decide
  · rw [hone f hf, hrefs]
    rfl
  · rw [hone f hf, hrefs]
    simp
  · rw [(noPages_target hr).1, (noPages_target hr').1]

/-- With no page left, `sys_page_alloc` blames its arguments. -/
theorem no_memory_misreported : PageInv noPages [] ∅ ∧ noPages.curenv 1 = some 0 ∧
    sysPageAlloc 1 0 0 7 noPages = .ok (.error .inval) noPages ∧
    ¬ PageAllocKept noPages 1 0 [] 0 0 7 := by
  have hc : noPages.curenv 1 = some 0 := rfl
  have hrun : sysPageAlloc 1 0 0 7 noPages = .ok (.error .inval) noPages := by
    have hl : lookupEnv noPages 0 0 true = some 0 := rfl
    have hva : vaOk 0 = true := by decide
    have hperm : permOk 7 = true := by decide
    rcases sysPageAlloc_run noPages_inv hc hl rfl hva hperm with
      ⟨-, hrun⟩ | ⟨t, hne, -⟩ | ⟨f, m, t, L, -, -, hf, -⟩
    · exact hrun
    · exact absurd rfl hne
    · cases hf
  refine ⟨noPages_inv, hc, hrun, ?_⟩
  rintro ⟨t, ht, -⟩
  rw [hrun] at ht
  cases ht

/-- The calls of the first program of the demonstration machine. -/
theorem map_calls_results_iff_demo : ∃ s L, PageInv s L ∅ ∧ s.curenv 1 = some 0 ∧
    ∀ envid va perm, PageAllocKept s 1 0 L envid va perm ↔
      ∀ e, lookupEnv s 0 envid true = some e → vaOk va = true → permOk perm = true → L ≠ [] := by
  obtain ⟨s, L, h, ⟨Le, hLe⟩, hlive, hc, -⟩ := demo_waiting
  exact ⟨s, L, h, hc, (map_calls_results_iff h (fun e he hn => he ((hLe.dir e).mp hn)) hlive hc).1⟩

end Jos
