import Jos.Invariant
import Jos.Sched

/-!
  Environments, the scheduler and the page-table operations keep the invariant. -/

namespace Jos

open Lib RefCount

/-- What `envid2env` finds: `cur` for id 0, else the slot with exactly this id, if the permission
    asked for allows it. -/
def lookupEnv (s : KState) (cur : EnvIdx) (envid : Word) (checkperm : Bool) : Option EnvIdx :=
  if envid = 0 then some cur
  else if (s.envs (envx envid)).envStatus = .free ∨ (s.envs (envx envid)).envId ≠ envid then none
  else if checkperm = true ∧ envx envid ≠ cur ∧
      (s.envs (envx envid)).envParentId ≠ (s.envs cur).envId then none
  else some (envx envid)

theorem envid2env_run {s : KState} {c : CpuIdx} {cur : EnvIdx} (hc : s.curenv c = some cur)
    (envid : Word) (checkperm : Bool) :
    envid2env c envid checkperm s = .ok (match lookupEnv s cur envid checkperm with
      | none => .error .badEnv
      | some e => .ok e) s := by
  unfold envid2env lookupEnv
  simp only [run_bind, run_get, hc, run_ite, run_pure]
  split
  · rfl
  · split
    · rfl
    · split <;> rfl

section

variable {T : Prop} {c : CpuIdx} {s : KState} {H : Finset Nat} {e : EnvIdx} {d : Nat}
  {R : KState → Prop}

theorem getPgdir_wp {Q : Nat → KState → Prop}
    (h : ∀ d, (s.envs e).envPgdir = some d → Q d s) : wp (getPgdir e) Q (Leaves R) s := by
  unfold getPgdir
  simp only [wp_bind, wp_get]
  cases hd : (s.envs e).envPgdir with
  | none => simp
  | some d => simpa using h d hd

theorem getCurenv_run {cur : EnvIdx} (hc : s.curenv c = some cur) : getCurenv c s = .ok cur s := by
  simp only [getCurenv, run_bind, run_get, hc, run_pure]

/-! ### Page tables -/

/-- `page_insert` of a page that may be mapped, with permissions inside `PTE_SYSCALL`. -/
theorem Mid.pageInsert (h : Mid T c H s) (hd : (s.envs e).envPgdir = some d) {va perm : Word}
    {pp : Nat} (hi : pdx va < utopPdx) (hM : Managed s pp) (hL : ∀ L, PageInv s L H → pp ∉ L)
    (hnt : NotTable s pp) (hperm : perm &&& ~~~pteSyscall = 0)
    (hmax : (s.pages pp).ppRef ≠ 65535 ∨ target s (.pte e (pdx va) (ptx va)) = some pp)
    (hT : T → Elsewhere s c e → ∀ g, target s (.pte e (pdx va) (ptx va)) = some g → g = pp) :
    (PageInv s [] H ∧ pageInsert c d pp va perm s = .ok (.error .noMem) s) ∨
      ∃ t, pageInsert c d pp va perm s = .ok (.ok ()) t ∧ Mid T c (H.erase pp) t ∧
        Mapped s t e va pp (page2pa pp ||| perm ||| pteP) H := by
  obtain ⟨L, hL'⟩ := h.core.page
  rcases pageInsert_spec c perm hL' hd hi hM (hL L hL') hnt with
    ⟨-, rfl, hrun⟩ | ⟨t, hrun, hm⟩
  · exact Or.inl ⟨hL', hrun⟩
  have hlt := hL'.lt_window hM
  have hw := entryFrame_insert (f := pp) (by omega) hperm
  obtain ⟨L₁, hL₁, -⟩ := hm.inv hw hmax
  refine Or.inr ⟨t, hrun, h.edited hm.edit hm.tlb ⟨L₁, hL₁⟩ ?_ ?_, hm⟩
  · rintro i j ⟨rfl, rfl⟩
    rw [hm.entry]
    exact Or.inr ⟨pp, perm, rfl, hperm⟩
  · intro hT' he i j g hg
    by_cases hij : At va i j
    · obtain ⟨rfl, rfl⟩ := hij
      rw [hT hT' he g hg]
      simp only [target, hm.entry, hw]
    · have := hm.edit.pte (some e) i j fun hx => hij hx.2
      simpa only [target, this] using hg

theorem Mid.pageRemove (h : Mid T c H s) (hd : (s.envs e).envPgdir = some d) {va : Word}
    (hi : pdx va < utopPdx)
    (hT : T → Elsewhere s c e → target s (.pte e (pdx va) (ptx va)) = none) :
    ∃ t, pageRemove c d va s = .ok () t ∧ Mid T c H t ∧ PmOnly s t := by
  obtain ⟨L, hL⟩ := h.core.page
  rcases pageRemove_spec c hL hd hi with ⟨-, hrun⟩ | ⟨f, t, hf, hrun, hu⟩
  · exact ⟨s, hrun, h, .refl s⟩
  · refine ⟨t, hrun, h.edited hu.edit hu.tlb ⟨_, hu.inv⟩ ?_ ?_, hu.edit.only⟩
    · rintro i j ⟨rfl, rfl⟩
      rw [hu.entry]
      exact Or.inl rfl
    · intro hT' he
      rw [hT hT' he] at hf
      cases hf

/-- `page_alloc`: the page is zeroed, and it is in hand. -/
theorem Mid.pageAlloc (h : Mid T c ∅ s) (zero : Bool) :
    (PageInv s [] ∅ ∧ pageAlloc zero s = .ok none s) ∨
      ∃ f t, pageAlloc zero s = .ok (some f) t ∧ Mid T c {f} t ∧ PmOnly s t ∧ target t = target s ∧
        Managed t f ∧ (t.pages f).ppRef = 0 ∧ (∀ r, target t r ≠ some f) ∧
        (∀ g, g ≠ f → t.mem g = s.mem g) ∧ (zero = true → t.mem f = fun _ => 0) ∧
        ∃ L, PageInv s (f :: L) ∅ ∧ PageInv t L {f} := by
  obtain ⟨L, hL⟩ := h.core.page
  cases L with
  | nil => exact Or.inl ⟨hL, pageAlloc_nil hL zero⟩
  | cons f L =>
    have hfL : f ∈ f :: L := List.mem_cons_self ..
    have hfree := hL.counted.not_target_of_free hfL
    have hpop := PmOnly.pop s f
    have hpt : target (s.pop f) = target s := target_of_mem hpop rfl
    have hnt := hL.notTable_of_free hfL
    have hntp : NotTable (s.pop f) f := ⟨hnt.1, fun r hr => by rw [hpt]; exact hnt.2 r hr⟩
    have h0 : ((s.pop f).pages f).ppRef = 0 := by
      have : (s.pages f).ppRef = 0 := hL.counted.ref_free hfL
      simp [KState.pop, KState.setPage, this]
    have hP : PageInv (s.pop f) L {f} := hL.pop
    have hE : Edited (some 0) Nowhere s (s.pop f) := .of_mem hpop rfl
    have hmid : Mid T c {f} (s.pop f) := h.edited hE (.of_tlb rfl) ⟨L, hP⟩
      (fun _ _ hx => hx.elim) (fun _ _ i j g hg => by rw [hpt]; exact hg)
    refine Or.inr ⟨f, _, pageAlloc_cons hL zero, ?_⟩
    cases zero with
    | false =>
      exact ⟨hmid, hpop, hpt, hL.counted.managed f hfL, h0, fun r => by
        rw [if_neg (by simp), hpt]; exact hfree r, fun _ _ => rfl, (fun hz => by cases hz),
        L, hL, hP⟩
    | true =>
      have ht : target ((s.pop f).setFrame f fun _ => 0) = target s := by
        rw [hntp.target_setFrame, hpt]
      refine ⟨hmid.setFrame hntp _, hpop.trans (.setFrame _ _ _), ht,
        hL.counted.managed f hfL, h0, fun r => by rw [if_pos rfl, ht]; exact hfree r, ?_, ?_,
        L, hL, hP.setFrame hntp _⟩
      · intro g hg
        simp [hg, KState.pop, KState.setPage]
      · intro _
        simp

/-! ### Creating and destroying environments -/

/-- The environment that `env_alloc` makes of a free slot. -/
def newEnv (s : KState) (e : EnvIdx) (parent : Word) (p : Nat) : Env :=
  { s.envs e with
    envPgdir := some p
    envId := nextGeneration (s.envs e).envId ||| BitVec.ofNat 32 e.val
    envParentId := parent
    envStatus := .runnable
    envRuns := 0
    envTf := initTf
    envPgfaultUpcall := 0
    envIpcRecving := false }

/-- What `env_alloc` achieves in slot `e`, with the page `p` as directory. -/
structure Created (parent : Word) (e : EnvIdx) (p : Nat) (s t : KState) : Prop where
  head : s.envFreeList = some e
  envs : t.envs = Function.update s.envs e (newEnv s e parent p)
  envFreeList : t.envFreeList = (s.envs e).envLink
  cpus : t.cpus = s.cpus
  cr3 : t.cr3 = s.cr3
  limits : SameLimits s t
  tables : ∀ o, o ≠ some e → (∀ i, tabFrame t o i = tabFrame s o i) ∧
    (∀ i j, pteAt t o i j = pteAt s o i j) ∧ ∀ d, dirFrame s o = some d → t.mem d = s.mem d
  noTab : ∀ i, tabFrame t (some e) i = none
  free : NotTable s p
  mem : ∀ f, f ≠ p → t.mem f = s.mem f

theorem envAlloc_spec {L : List Nat} (h : PageInv s L H) (parent : Word) :
    ((s.envFreeList = none ∨ L = []) ∧ ∃ err, envAlloc parent s = .ok (.error err) s) ∨
      ∃ e p m t, envAlloc parent s = .ok (.ok e) t ∧ Created parent e p s t ∧ SetUp e p s m ∧
        t.mem = m.mem ∧ t.tlb = m.tlb ∧ t.mem p = newPgdir s p ∧
        ∃ L', L = p :: L' ∧ ((s.envs e).envPgdir = none → PageInv t L' H) := by
  cases hf : s.envFreeList with
  | none =>
    refine Or.inl ⟨Or.inl rfl, .noFreeEnv, ?_⟩
    simp only [envAlloc, run_bind, run_get, hf, run_pure]
  | some e =>
    rcases envSetupVm_spec e h with ⟨hL, hrun⟩ | ⟨p, L', m, hL, hrun, hset, hinv⟩
    · refine Or.inl ⟨Or.inr hL, .noMem, ?_⟩
      simp only [envAlloc, run_bind, run_get, hf, hrun, run_pure]
    · set m1 := m.setEnv e { m.envs e with
        envId := nextGeneration (m.envs e).envId ||| BitVec.ofNat 32 e.val
        envParentId := parent
        envStatus := .runnable
        envRuns := 0
        envTf := initTf
        envPgfaultUpcall := 0
        envIpcRecving := false } with hm1
      set t : KState := { m1 with envFreeList := (m1.envs e).envLink } with ht
      have hr : envAlloc parent s = .ok (.ok e) t := by
        simp only [envAlloc, run_bind, run_get, hf, hrun, run_modify, run_pure]
        rfl
      have henvs : t.envs = Function.update s.envs e (newEnv s e parent p) := by
        show Function.update m.envs e _ = _
        rw [hset.envs]
        simp [newEnv]
      have hdir : ∀ x, (t.envs x).envPgdir = (m.envs x).envPgdir := by
        intro x
        rw [henvs, hset.envs]
        by_cases hx : x = e
        · subst hx; simp [newEnv]
        · simp [hx]
      have hml : SameLimits m t := ⟨rfl, rfl, rfl, rfl, rfl⟩
      obtain ⟨htab, hpte⟩ := tables_congr (s := m) (t := t) rfl hdir rfl
      refine Or.inr ⟨e, p, m, t, hr, ⟨hf, henvs, ?_, ?_, ?_, hset.limits.trans hml, ?_, ?_,
        hset.free, hset.mem⟩, hset, rfl, rfl, hset.dir, L', hL, fun hn => ?_⟩
      · show (m1.envs e).envLink = _
        simp [hm1, KState.setEnv, hset.envs]
      · exact (show m.rest.cpus = _ by rw [hset.rest]; rfl)
      · exact (show m.rest.cr3 = _ by rw [hset.rest]; rfl)
      · intro o ho
        obtain ⟨h1, h2⟩ := hset.tables_of_ne ho
        refine ⟨fun i => by rw [htab, h1], fun i j => by rw [hpte, h2], fun d hd => ?_⟩
        exact hset.mem d fun hx => hset.free.not_dir o (hx ▸ hd)
      · intro i; rw [htab]; exact hset.noTab i
      · exact pageInv_congr (hinv hn) rfl hdir rfl rfl hml

theorem Mid.envAlloc (h : Mid T c ∅ s) (parent : Word) :
    ((s.envFreeList = none ∨ PageInv s [] ∅) ∧ ∃ err, envAlloc parent s = .ok (.error err) s) ∨
      ∃ e p t, envAlloc parent s = .ok (.ok e) t ∧ Mid T c ∅ t ∧ Created parent e p s t ∧
        (s.envs e).envStatus = .free ∧ ∃ L, PageInv s (p :: L) ∅ ∧ PageInv t L ∅ := by
  obtain ⟨L, hL⟩ := h.core.page
  obtain ⟨Le, hLe⟩ := h.core.envs
  rcases envAlloc_spec hL parent with
    ⟨hwhy, herr⟩ | ⟨e, p, m, t, hrun, hc, hset, hmem, htlb, hdir, L', rfl, hinv⟩
  · exact Or.inl ⟨hwhy.imp_right fun hx => by rw [hx] at hL; exact hL, herr⟩
  refine Or.inr ⟨e, p, t, hrun, ?_, hc, ?_⟩
  all_goals
    obtain ⟨Lt, rfl⟩ : ∃ Lt, Le = e :: Lt := by
      have hh := hLe.chain.head_eq
      rw [hc.head] at hh
      cases Le with
      | nil => cases hh
      | cons x Lt => cases hh; exact ⟨Lt, rfl⟩
    have hfree : (s.envs e).envStatus = .free := (hLe.free e).mp (List.mem_cons_self ..)
  · have hnd : (s.envs e).envPgdir = none := (hLe.dir e).mpr hfree
    have hpM := hL.counted.managed p (List.mem_cons_self ..)
    have hpfree := hL.counted.not_target_of_free (List.mem_cons_self (a := p) (l := L'))
    have hne : ∀ x, x ≠ e → t.envs x = s.envs x := fun x hx => by
      rw [hc.envs, Function.update_of_ne hx]
    have he : t.envs e = newEnv s e parent p := by rw [hc.envs, Function.update_self]
    have hkern : t.mem s.kernPgdir = s.mem s.kernPgdir := (hc.tables none (by simp)).2.2 _ rfl
    refine ⟨⟨⟨L', hinv hnd⟩, fun e' i j => ?_, ⟨fun e' d hd i hi => ?_, fun i j hi => ?_,
      h.core.kern.pages.congr hc.limits hkern (hc.tables none (by simp)).2.1⟩, Lt, ?_⟩,
      fun k hk => ?_⟩
    · by_cases hx : e' = e
      · subst hx
        rw [pteAt_of_no_tab (hc.noTab i)]
        exact Or.inl rfl
      · rw [(hc.tables (some e') (by simpa using hx)).2.1]
        exact h.core.entries e' i j
    · have hk : t.mem t.kernPgdir = s.mem s.kernPgdir := by
        rw [hc.limits.kernPgdir]
        exact hkern
      rw [hk]
      by_cases hx : e' = e
      · subst hx
        rw [he] at hd
        cases hd
        rw [hdir, newPgdir, if_neg (not_lt.mpr hi)]
      · rw [hne e' hx] at hd
        rw [(hc.tables (some e') (by simpa using hx)).2.2 d hd]
        exact h.core.kern.upper e' d hd i hi
    · rw [(hc.tables none (by simp)).2.1]
      exact h.core.kern.noWrite i j hi
    · obtain ⟨Lu, hLu, hE⟩ := hLe.take hc.head hc.envs (by simp [newEnv]) (by simp [newEnv])
        hc.envFreeList
      cases hLu
      exact hE
    · obtain ⟨hrun', hfr⟩ := h.others k hk
      refine ⟨fun hu => ?_, fun hT hu => ?_⟩
      · rw [hc.cpus] at hu
        obtain ⟨e', he', hd⟩ := hrun' hu
        have hx : e' ≠ e := by
          rintro rfl
          rw [hnd] at hd; cases hd
        exact ⟨e', by unfold KState.curenv at he' ⊢; rw [hc.cpus]; exact he', by
          rw [hne e' hx, hc.cr3]; exact hd⟩
      · rw [hc.cpus] at hu
        obtain ⟨e', he', hd⟩ := hrun' hu
        have hkp : s.cr3 k ≠ p := fun hx => hpfree (.dir e') (hx ▸ hd)
        refine (hset.fresh k hkp (hfr hT hu)).congr (fun x hx => ?_) (by rw [htlb])
        have hxe : x ≠ e := by
          rintro rfl
          rw [he, hc.cr3] at hx
          exact hkp (Option.some.inj hx).symm
        refine ⟨?_, fun i j => ?_⟩
        · have hcr : m.cr3 = s.cr3 := show m.rest.cr3 = _ by rw [hset.rest]; rfl
          rw [hne x hxe, hc.cr3] at hx
          rw [hset.envs, Function.update_of_ne hxe, hcr]
          exact hx
        · have h1 := (hc.tables (some x) (by simpa using hxe)).2.1 i j
          have h2 := (hset.tables_of_ne (o := some x) (by simpa using hxe)).2 i j
          simp only [target, h1, h2]
  · exact ⟨hfree, L', hL, hinv ((hLe.dir e).mpr hfree)⟩

theorem Mid.envFree (h : Mid T c ∅ s) (hd : (s.envs e).envPgdir = some d)
    (hno : ¬ Elsewhere s c e) :
    ∃ t, envFree c e s = .ok () t ∧ Mid T c ∅ t ∧ EnvGone c e d s t := by
  obtain ⟨L, hL⟩ := h.core.page
  obtain ⟨Le, hLe⟩ := h.core.envs
  obtain ⟨t, hrun, hg, hinv⟩ := envFree_spec c hL hd
  have hne : ∀ x, x ≠ e → t.envs x = s.envs x := fun x hx => by
    rw [hg.envs, Function.update_of_ne hx]
  have he : t.envs e = { s.envs e with
      envPgdir := none, envStatus := .free, envLink := s.envFreeList } := by
    rw [hg.envs, Function.update_self]
  have hlive : (s.envs e).envStatus ≠ .free := fun hs => by
    rw [(hLe.dir e).mpr hs] at hd; cases hd
  refine ⟨t, hrun, ⟨⟨hinv, fun e' i j => ?_, ?_, e :: Le, ?_⟩, fun k hk => ?_⟩, hg⟩
  · by_cases hx : e' = e
    · subst hx
      rw [pteAt_of_no_tab (hg.noTab i)]
      exact Or.inl rfl
    · rw [hg.pte (some e') i j (by simpa using hx)]
      exact h.core.entries e' i j
  · have hkern : t.mem s.kernPgdir = s.mem s.kernPgdir := by
      funext i
      exact hg.pde none _ i (by simp) rfl
    have hk : t.mem t.kernPgdir = s.mem s.kernPgdir := by
      rw [hg.limits.kernPgdir]
      exact hkern
    refine ⟨fun e' d' hd' i hi => ?_, fun i j hi => ?_,
      h.core.kern.pages.congr hg.limits hkern fun i j => hg.pte none i j (by simp)⟩
    · have hx : e' ≠ e := by
        rintro rfl
        rw [he] at hd'; cases hd'
      rw [hne e' hx] at hd'
      rw [hk, hg.pde (some e') d' i (by simpa using hx) hd']
      exact h.core.kern.upper e' d' hd' i hi
    · rw [hg.pte none i j (by simp)]
      exact h.core.kern.noWrite i j hi
  · exact hLe.give hlive hg.envs rfl rfl rfl hg.envFreeList
  · obtain ⟨hrun', hfr⟩ := h.others k hk
    have hcr : t.cr3 k = s.cr3 k := by
      rw [hg.cr3]; split
      · exact Function.update_of_ne hk _ _
      · rfl
    have hcur : ∀ e', s.curenv k = some e' → (s.cpus k).mode = .user → e' ≠ e := by
      rintro e' hc' hu rfl
      exact hno ⟨k, hk, hu, hc'⟩
    refine ⟨fun hu => ?_, fun hT hu => ?_⟩
    · rw [hg.cpus] at hu
      obtain ⟨e', he', hd'⟩ := hrun' hu
      exact ⟨e', by unfold KState.curenv at he' ⊢; rw [hg.cpus]; exact he', by
        rw [hne e' (hcur e' he' hu), hcr]; exact hd'⟩
    · rw [hg.cpus] at hu
      obtain ⟨e', he', hd'⟩ := hrun' hu
      refine hg.fresh k hk (fun hx => ?_) (hfr hT hu)
      have := (h.others k hk).dir_unique hL.separate hu (x := e) (by rw [hd, hx])
      exact hcur e this hu rfl

theorem envFree_wp {Q : Unit → KState → Prop} (h : Mid T c ∅ s) (hno : ¬ Elsewhere s c e)
    (hQ : ∀ d t, (s.envs e).envPgdir = some d → Mid T c ∅ t → EnvGone c e d s t → Q () t) :
    wp (envFree c e) Q (Leaves R) s := by
  cases hd : (s.envs e).envPgdir with
  | none =>
    unfold envFree
    simp only [wp_bind, wp_get, wp_ite, wp_set, hd]
    exact ⟨fun _ => by simp, fun _ => by simp⟩
  | some d =>
    obtain ⟨t, hrun, ht, hg⟩ := h.envFree hd hno
    exact (wp_ok hrun).mpr (hQ d t hd ht hg)

/-! ### Leaving the kernel -/

theorem Mid.preempt (h : Mid T c H s) : Mid T c H (preempt c s) := by
  unfold Jos.preempt
  split
  · exact h
  · split
    · rename_i cur _ hr
      exact h.setEnv rfl rfl (by simp [hr])
    · exact h

theorem preempt_alike : Alike s (preempt c s) := by
  unfold Jos.preempt
  split
  · exact .refl s
  · split
    · rename_i cur _ hr
      exact .setEnv rfl rfl (by simp [hr])
    · exact .refl s

theorem Mid.runs {t : KState} (h : Mid T c ∅ s) (hr : Runs c e s t) : Inv T t := by
  obtain ⟨pd, hpd, rfl⟩ := hr
  have hp := h.preempt
  have hpd' : ((Jos.preempt c s).envs e).envPgdir = some pd := by
    rw [preempt_alike.dir]; exact hpd
  obtain ⟨Le, hLe⟩ := hp.core.envs
  have hlive : ((Jos.preempt c s).envs e).envStatus ≠ .free := fun hs => by
    rw [(hLe.dir e).mpr hs] at hpd'; cases hpd'
  have hmid : Mid T c ∅ (resume c e pd (Jos.preempt c s)) := by
    refine Mid.setCpu (Mid.setEnv (Mid.lcr3 (Mid.setEnv (Mid.setCpu hp _) ?_ ?_ ?_) pd)
      ?_ ?_ ?_) _
    any_goals rfl
    simpa [KState.setCpu] using hlive
  have hcpus := resume_cpus (c := c) (e := e) (d := pd) (s := Jos.preempt c s)
  have hcr3 : (resume c e pd (Jos.preempt c s)).cr3 c = pd := by
    simp [resume, KState.setCpu, KState.setEnv, KState.lcr3]
  have hdir : ((resume c e pd (Jos.preempt c s)).envs e).envPgdir = some pd := by
    rw [resume_envs, if_pos rfl]; exact hpd'
  refine ⟨hmid.core, fun k => ?_⟩
  by_cases hk : k = c
  · subst hk
    refine ⟨fun _ => ⟨e, ?_, by rw [hcr3]; exact hdir⟩, fun _ _ x hx i j g hi hg => ?_⟩
    · simp [KState.curenv, hcpus]
    · have hw := resume_tlb.mp hg
      rw [← resume_mem (c := k) (e := e) (d := pd)] at hw
      rw [hcr3] at hx
      rwa [walk_eq hx hi] at hw
  · exact hmid.others k hk

theorem Mid.halted (h : Mid T c ∅ s) : Inv T (halted c s) := by
  have hmid : Mid T c ∅ (Jos.halted c s) := ((h.setCpu _).lcr3 _).setCpu _
  refine ⟨hmid.core, fun k => ?_⟩
  by_cases hk : k = c
  · subst hk
    have hm : ((Jos.halted k s).cpus k).mode = .halted := by simp [halted_cpus]
    exact ⟨fun hu => (by rw [hm] at hu; cases hu), fun _ hu => (by rw [hm] at hu; cases hu)⟩
  · exact hmid.others k hk

theorem Mid.yields {t : KState} (h : Mid T c ∅ s) (hy : Yields c s t) : Inv T t := by
  cases hy with
  | pick _ hr => exact h.runs hr
  | stay _ _ _ hr => exact h.runs hr
  | halt _ _ _ => exact h.halted

theorem Mid.returns {t : KState} (h : Mid T c ∅ s) (hy : Returns c s t) : Inv T t := by
  cases hy with
  | stay _ _ hr => exact h.runs hr
  | yield _ hy => exact h.yields hy

/-! ### `env_destroy` -/

/-- Destroying is safe for an environment that is only to be marked, or that no other CPU runs. -/
def MayDestroy (s : KState) (c : CpuIdx) (e : EnvIdx) : Prop :=
  ((s.envs e).envStatus = .running ∧ s.curenv c ≠ some e) ∨ ¬ Elsewhere s c e

theorem envDestroy_mid {Q : Unit → KState → Prop} (h : Mid T c ∅ s) (hd : MayDestroy s c e)
    (hQ : ∀ t, Mid T c ∅ t → Q () t) : wp (envDestroy c e) Q (Leaves (Inv T)) s := by
  unfold envDestroy
  simp only [wp_bind, wp_get, wp_ite, wp_set]
  refine ⟨fun hr => hQ _ (h.setEnv rfl rfl (by simp [hr.1])), fun hr => ?_⟩
  refine envFree_wp h (hd.resolve_left hr) fun d t _ ht _ => ?_
  refine ⟨fun _ => ?_, fun _ => (wp_pure _).mpr (hQ t ht)⟩
  exact schedYield_wp fun u hu => (ht.setCpu _).yields hu

/-! ### `user_mem_check` -/

theorem kaddr_wp {pa : Word} : wp (kaddr pa) (fun f t => t = s ∧ f = pgnum pa) (Leaves R) s := by
  unfold kaddr
  simp only [wp_bind, wp_get, wp_ite, wp_throw, wp_pure]
  exact ⟨fun _ => by simp, fun _ => ⟨trivial, trivial⟩⟩

/-- Looking an entry up changes nothing. -/
theorem pgdirWalk_wp {va : Word} : wp (pgdirWalk d va false) (fun _ t => t = s) (Leaves R) s := by
  unfold pgdirWalk tableEntry
  simp only [wp_bind, wp_get, wp_ite, wp_pure, Bool.false_eq_true, false_implies, true_and,
    not_false_eq_true, implies_true]
  refine fun _ => kaddr_wp.mono (fun f t ht => ht.1) fun _ _ hR => hR

theorem userMemCheckLoop_wp {va last perm : Word} (fuel : Nat) :
    ∀ start, wp (userMemCheckLoop d va last perm fuel start)
      (fun _ t => ∃ a, t = { s with userMemCheckAddr := a }) (Leaves R) s := by
  induction fuel with
  | zero => intro start; exact (wp_pure _).mpr ⟨_, rfl⟩
  | succ fuel ih =>
    intro start
    unfold userMemCheckLoop
    simp only [wp_ite, wp_bind, wp_pure]
    refine ⟨fun _ => ?_, fun _ => ⟨_, rfl⟩⟩
    refine pgdirWalk_wp.mono (fun cur t ht => ?_) fun _ _ hR => hR
    subst ht
    simp only [wp_get, wp_set]
    refine ⟨fun _ => ⟨_, rfl⟩, fun _ => ih _⟩

theorem userMemCheck_wp {va len perm : Word} : wp (userMemCheck e va len perm)
    (fun _ t => ∃ a, t = { s with userMemCheckAddr := a }) (Leaves R) s := by
  unfold userMemCheck
  simp only [wp_bind, wp_get]
  cases (s.envs e).envPgdir with
  | none => simp
  | some pd => exact userMemCheckLoop_wp _ _

theorem Mid.checkAddr (h : Mid T c H s) (a : Word) :
    Mid T c H { s with userMemCheckAddr := a } :=
  h.alike ⟨rfl, rfl, rfl, ⟨rfl, rfl, rfl, rfl, rfl⟩, rfl, fun _ => rfl, fun _ => rfl, fun _ => Iff.rfl⟩
    fun _ _ => ⟨rfl, rfl, rfl⟩

/-- The current environment is freed at once, and the CPU goes on to another one. -/
theorem envDestroy_cur {Q : Unit → KState → Prop} (h : Mid T c ∅ s) (hc : s.curenv c = some e)
    (hno : ¬ Elsewhere s c e) : wp (envDestroy c e) Q (Leaves (Inv T)) s := by
  unfold envDestroy
  simp only [wp_bind, wp_get, wp_ite, wp_set]
  refine ⟨fun hr => absurd hc hr.2, fun _ => ?_⟩
  refine envFree_wp h hno fun d t _ ht hg => ?_
  have hct : t.curenv c = some e := by unfold KState.curenv at hc ⊢; rw [hg.cpus]; exact hc
  exact ⟨fun _ => schedYield_wp fun u hu => (ht.setCpu _).yields hu, fun hn => absurd hct hn⟩

/-- `user_mem_assert` on the current environment returns only if the check passes. -/
theorem userMemAssert_mid {Q : Unit → KState → Prop} {va len perm : Word} (h : Mid T c ∅ s)
    (hc : s.curenv c = some e) (hno : ¬ Elsewhere s c e)
    (hQ : ∀ a, Mid T c ∅ { s with userMemCheckAddr := a } →
      Q () { s with userMemCheckAddr := a }) :
    wp (userMemAssert c e va len perm) Q (Leaves (Inv T)) s := by
  unfold userMemAssert
  rw [wp_bind]
  refine userMemCheck_wp.mono (fun r t ht => ?_) fun _ _ hR => hR
  obtain ⟨a, rfl⟩ := ht
  have ha := h.checkAddr a
  cases r with
  | ok u => exact (wp_pure _).mpr (hQ a ha)
  | error err => exact envDestroy_cur ha hc hno

end

end Jos
