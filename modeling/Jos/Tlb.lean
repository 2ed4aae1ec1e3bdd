import Jos.TwoCpus
import Jos.Fork

/-!
  Cached translations and the free list.

  `env_run` loads `cr3` before every return to user mode, so a CPU forgets what it had cached for
  its own environment. `tlb_invalidate` concerns the CPU that executes it only: a page that is
  unmapped from an environment running elsewhere can be freed while the other CPU still reaches
  it. -/

namespace Jos

open Lib RefCount Fork

/-- CPU `k` runs user code and may still reach frame `f`, which is on `page_free_list`, through a
    translation of a user address that it has cached. -/
def Lingers (s : KState) (k : CpuIdx) (f : Nat) : Prop :=
  (s.cpus k).mode = .user ∧ (∃ va, va < utop ∧ s.tlb k (pgnum va) f = true) ∧
    ∃ L, Chain (fun g => (s.pages g).ppLink) s.pageFreeList L ∧ f ∈ L

/-- In a careful run a CPU in user mode has cached of user addresses only what its page directory
    says now; in particular nothing that leads to a free page. -/
theorem no_stale_translation {p : BootParams} {ls : List (CpuIdx × Event)} {s : KState}
    (h : BootRun (Careful True) p ls s) :
    (∀ k va f, (s.cpus k).mode = .user → va < utop → s.tlb k (pgnum va) f = true →
      walk s.mem (s.cr3 k) (pgnum va) = some f) ∧ ∀ k f, ¬ Lingers s k f := by
  obtain ⟨-, hinv⟩ := careful_run h
  have hwalk : ∀ k va f, (s.cpus k).mode = .user → va < utop → s.tlb k (pgnum va) f = true →
      walk s.mem (s.cr3 k) (pgnum va) = some f ∧
        ∃ e, target s (.pte e (pdx va) (ptx va)) = some f := by
    intro k va f hm hva hf
    obtain ⟨e, -, hd⟩ := (hinv.cpus k).running hm
    have hi : pdx va < utopPdx := pdx_lt_utopPdx.mpr hva
    rw [pgnum_eq] at hf ⊢
    have htgt := (hinv.cpus k).fresh trivial hm e hd _ _ f hi hf
    exact ⟨(walk_eq hd hi _).trans htgt, e, htgt⟩
  refine ⟨fun k va f hm hva hf => (hwalk k va f hm hva hf).1, ?_⟩
  rintro k f ⟨hm, ⟨va, hva, hf⟩, L, hL, hmem⟩
  obtain ⟨-, e, htgt⟩ := hwalk k va f hm hva hf
  obtain ⟨L', hL'⟩ := hinv.core.page
  obtain rfl : L = L' := hL.unique hL'.chain
  exact hL'.counted.not_free_of_target htgt hmem

/-- While the child runs on CPU 1 and its parent on CPU 0. -/
theorem no_stale_translation_demo : ∃ ls s, BootRun (Careful True) oneProgram ls s ∧
    InUser s 0 0 ∧ InUser s 1 1 ∧ (∀ va f, va < utop → s.tlb 1 (pgnum va) f = true →
      walk s.mem (s.cr3 1) (pgnum va) = some f) ∧ ∀ k f, ¬ Lingers s k f := by
  obtain ⟨ls, s, hplain, h, hu, -⟩ := child_runs
  have hr := hplain.mono (Careful True) fun _ _ hc => hc.1
  obtain ⟨hwalk, hfree⟩ := no_stale_translation hr
  exact ⟨ls, s, hr, h.user, hu, fun va f => hwalk 1 va f hu.mode, hfree⟩

/-! ### A page unmapped from an environment that runs elsewhere -/

section

variable {c k : CpuIdx} {s t : KState} {v f : Nat}

/-- Writes to memory only add to what a CPU may have cached. -/
theorem setFrame_tlb_mono {g : Nat} {p : Page} (h : s.tlb k v f = true) :
    (s.setFrame g p).tlb k v f = true := by
  simp [KState.setFrame, KState.fill, h]

/-- Another CPU's flush is not noticed. -/
theorem flush_tlb_keeps {d : Nat} {va : Word} (hk : k ≠ c) (h : s.tlb k v f = true) :
    (s.flush c d va).tlb k v f = true := by
  have hinv : (s.invlpg c va).tlb k v f = true := by
    simp [KState.invlpg, KState.fill, hk, h]
  unfold KState.flush
  split
  · exact hinv
  · split
    · exact hinv
    · exact h

/-- `page_remove` on CPU `c` of a page that is mapped once: the page joins the free list, and
    another CPU keeps what it has cached. -/
theorem pageRemove_lingers {L : List Nat} {e : EnvIdx} {d : Nat} {va : Word} (h : PageInv s L ∅)
    (hd : (s.envs e).envPgdir = some d) (hva : pdx va < utopPdx)
    (hf : mappedAt s e va = some f) (hone : (s.pages f).ppRef = 1) (hk : k ≠ c)
    (ht : s.tlb k (pgnum va) f = true) : ∃ t, pageRemove c d va s = .ok () t ∧ PmOnly s t ∧
      PageInv t (f :: L) ∅ ∧ t.tlb k (pgnum va) f = true := by
  rcases pageRemove_spec c h hd hva with ⟨hn, -⟩ | ⟨g, t, hg, hrun, hun⟩
  · exact nomatch hn.symm.trans hf
  obtain rfl : g = f := Option.some.inj (hg.symm.trans hf)
  obtain ⟨T, -, he, hT, hp, hgn, hlink⟩ := h.mapped hd hg
  have hr : refs (target s) g = 1 := by
    have hex := h.counted.exact g (h.counted.target _ g hg)
    rw [hone] at hex
    exact hex.symm
  have hinv := hun.inv
  rw [if_pos hr] at hinv
  refine ⟨t, hrun, hun.edit.only, hinv, ?_⟩
  have hex := pageRemove_run c he hT h.window hp hgn hlink
  rw [hrun] at hex
  injection hex with _ hex
  rw [hex]
  refine setFrame_tlb_mono (flush_tlb_keeps hk ?_)
  rw [unref_tlb]
  exact ht

/-- The parent gives its child a page. -/
theorem Pair.allocs {L : List Nat} {va : Word} (h : Pair s .notRunnable) (inp : Input)
    (hw : Waits1 s) (hL : PageInv s L ∅) (hlen : 2 ≤ L.length) (hva : vaOk va = true) :
    ∃ t f, Step s (0, .trap inp (callFrame 4 4097 va 7)) t ∧ Pair t .notRunnable ∧ Waits1 t ∧
      mappedAt t 1 va = some f ∧ (t.pages f).ppRef = 1 := by
  set m := saved 0 0 (callFrame 4 4097 va 7) s with hm
  have hma : Alike s m := saved_alike _
  have hLm : PageInv m L ∅ :=
    pageInv_congr hL hma.mem hma.dir hma.pages hma.freeList hma.limits
  have hm1 : m.envs 1 = s.envs 1 := by rw [hm, saved_envs, if_neg (by decide)]
  have hc : m.curenv 0 = some 0 := (saved_curenv _ 0).trans h.user.current
  have hl : lookupEnv m 0 4097 true = some 1 := (saved_lookup _ _ _).trans (h.look (by simp))
  obtain ⟨Le, hLe⟩ := h.inv.core.envs
  obtain ⟨d, hd⟩ : ∃ d, (m.envs 1).envPgdir = some d :=
    Option.ne_none_iff_exists'.mp fun hn => by
      rw [hm1] at hn
      have hx := (hLe.dir 1).mp hn
      rw [h.status] at hx
      cases hx
  have hroom : ¬ L.length < 1 + tablesMissing m 1 va := by
    unfold tablesMissing
    split <;> omega
  rcases sysPageAlloc_run hLm hc hl hd hva (by decide : permOk 7 = true) with
    ⟨rfl, -⟩ | ⟨_, -, hlt, -⟩ | ⟨f, v, u, L2, -, hrun, -, -, -⟩
  · simp at hlen
  · exact absurd hlt hroom
  obtain ⟨g, hg, hset, hone, -⟩ := sysPageAlloc_sets hLm hc hl hd hrun
  have ho := hset.only
  have hsys : syscall 0 inp 4 4097 va 7 0 0 m = .ok 0 u := by
    simp only [syscall]
    rw [show (4 : Word).toNat = 4 from rfl]
    simp only [run_bind, hrun]
    rfl
  have hnone : ∀ e, ¬ Elsewhere m 0 e := by
    rintro e ⟨k, hk, hmk, -⟩
    rw [saved_mode] at hmk
    obtain ⟨rfl, -⟩ := h.others k hk hmk
    rw [hw.1] at hmk
    cases hmk
  have hsafe : (Call.ofTf (callFrame 4 4097 va 7)).Safe m 0 True 0 := by
    have hno : (Call.ofTf (callFrame 4 4097 va 7)).no = 4 := rfl
    refine ⟨fun e he => absurd (hno.symm.trans he.1) (by decide),
      fun e he => absurd (hno.symm.trans he.1) (by decide), fun e x f hi => ?_, fun _ e _ => hnone e⟩
    cases hi with
    | map hx => exact absurd (hno.symm.trans hx) (by decide)
    | send hx => exact absurd (hno.symm.trans hx.1) (by decide)
  obtain ⟨t, hst, hp, henvs, ha, -⟩ := h.called inp (callFrame 4 4097 va 7) rfl
    (callFrame_ebp _ _ _ _) rfl hsys hsafe ho.cpus (by rw [ho.envs]) fun e he => by
      have he0 : e ≠ 0 := by
        rintro rfl
        exact absurd he (by decide)
      rw [ho.envs, hm, saved_envs, if_neg he0]
      exact h.rest e he
  have h1 : t.envs 1 = s.envs 1 := by rw [henvs 1 (by decide), ho.envs, hm1]
  have hcpu : t.cpus 1 = s.cpus 1 := step_cpus_of_ne hst (by decide)
  refine ⟨t, g, hst, ⟨hp, by rw [h1]; exact h.status, by rw [h1]; exact h.childId,
    by rw [h1]; exact h.parentId⟩, ⟨by rw [hcpu]; exact hw.1, by rw [KState.curenv, hcpu]; exact hw.2⟩,
    ?_, by rw [ha.pages]; exact hone⟩
  rw [mappedAt, ha.target]
  exact hg.frame

/-- The child's page is cached by the CPU that runs it. -/
theorem Runs.caches {e : EnvIdx} {va : Word} (h : Runs c e s t) (hva : va < utop)
    (hf : mappedAt s e va = some f) : t.tlb c (pgnum va) f = true := by
  obtain ⟨pd, hpd, rfl⟩ := h
  have hp : Alike s (preempt c s) := preempt_alike
  rw [resume_tlb, hp.mem, pgnum_eq, walk_eq hpd (pdx_lt_utopPdx.mpr hva)]
  exact hf

/-- The parent unmaps a page of the child that CPU 1 is running. -/
theorem Pair.unmaps {va : Word} (h : Pair s .running) (inp : Input) (hva : vaOk va = true)
    (hf : mappedAt s 1 va = some f) (hone : (s.pages f).ppRef = 1)
    (ht : s.tlb 1 (pgnum va) f = true) : ∃ t, Step s (0, .trap inp (callFrame 6 4097 va 0)) t ∧
      t.tlb 1 (pgnum va) f = true ∧
      ∃ L, Chain (fun g => (t.pages g).ppLink) t.pageFreeList L ∧ f ∈ L := by
  set m := saved 0 0 (callFrame 6 4097 va 0) s with hm
  have hma : Alike s m := saved_alike _
  obtain ⟨L, hL⟩ := h.inv.core.page
  have hLm : PageInv m L ∅ :=
    pageInv_congr hL hma.mem hma.dir hma.pages hma.freeList hma.limits
  have hc : m.curenv 0 = some 0 := (saved_curenv _ 0).trans h.user.current
  have hl : lookupEnv m 0 4097 true = some 1 := (saved_lookup _ _ _).trans (h.look (by simp))
  obtain ⟨Le, hLe⟩ := h.inv.core.envs
  obtain ⟨d, hd⟩ : ∃ d, (m.envs 1).envPgdir = some d := by
    rw [hma.dir]
    exact Option.ne_none_iff_exists'.mp (eligible_dir hLe (Or.inr h.status))
  have hfm : mappedAt m 1 va = some f := by
    rw [mappedAt, hma.target]
    exact hf
  obtain ⟨u, hrun, ho, hLu, htu⟩ := pageRemove_lingers (c := 0) (k := 1) hLm hd (pdx_of_vaOk hva)
    hfm hone (by decide) ht
  have hsys : syscall 0 inp 6 4097 va 0 0 0 m = .ok 0 u := by
    have hcall : sysPageUnmap 0 4097 va m = .ok (.ok 0) u := by
      have hva' : ¬ vaOk va = false := by simp [hva]
      simp only [sysPageUnmap, run_bind, envid2env_run hc, hl, if_neg hva', getPgdir_run hd, hrun,
        run_pure]
    simp only [syscall]
    rw [show (6 : Word).toNat = 6 from rfl]
    simp only [run_bind, hcall]
    rfl
  obtain ⟨t, hst, -, -, -, ha, hk⟩ := h.returns inp (callFrame 6 4097 va 0) rfl
    (callFrame_ebp _ _ _ _) rfl hsys ho.cpus (by rw [ho.envs])
  refine ⟨t, hst, by rw [(hk 1 (by decide)).2]; exact htu, f :: L, ?_, List.mem_cons_self ..⟩
  rw [ha.pages, ha.freeList]
  exact hLu.chain

end

/-- The parent gives the child a page, CPU 1 runs the child, the parent unmaps the page: it is free,
    and CPU 1 can still reach it. -/
theorem unmapped_page_lingers : ∃ ls s f, BootRun (fun _ _ => True) oneProgram ls s ∧
    Lingers s 1 f := by
  have hva : vaOk 0x800000 = true := by decide
  obtain ⟨s0, hboot, h0⟩ := oneProgram_boot
  obtain ⟨s1, L, hs1, h1, hL, hlen, -, -, hw1, -⟩ := h0.forks .plain
  obtain ⟨s2, f, hs2, h2, hw2, hf2, hone2⟩ := h1.allocs .plain hw1 hL (by omega) hva
  obtain ⟨s3, hs3, h3, -, ha3, -⟩ := h2.setsStatus .plain (by simp) (w := 2) rfl
  have hcpu3 : s3.cpus 1 = s2.cpus 1 := step_cpus_of_ne hs3 (by decide)
  have hw3 : Waits1 s3 := ⟨by rw [hcpu3]; exact hw2.1, by rw [KState.curenv, hcpu3]; exact hw2.2⟩
  have hf3 : mappedAt s3 1 0x800000 = some f := by rw [mappedAt, ha3.target]; exact hf2
  obtain ⟨s4, hs4, h4, hu4, hr4, ha4, -⟩ := h3.starts hw3
  have hf4 : mappedAt s4 1 0x800000 = some f := by rw [mappedAt, ha4.target]; exact hf3
  obtain ⟨s5, hs5, ht5, hfree⟩ := h4.unmaps .plain hva hf4
    (by rw [ha4.pages, ha3.pages]; exact hone2) (hr4.caches (by decide) hf3)
  have hcpu5 : s5.cpus 1 = s4.cpus 1 := step_cpus_of_ne hs5 (by decide)
  exact ⟨_, s5, f, ⟨s0, hboot, .cons ⟨trivial, hs1⟩ (.cons ⟨trivial, hs2⟩ (.cons ⟨trivial, hs3⟩
    (.cons ⟨trivial, hs4⟩ (.single ⟨trivial, hs5⟩))))⟩, by rw [hcpu5]; exact hu4.mode,
    ⟨0x800000, by decide, ht5⟩, hfree⟩

end Jos
