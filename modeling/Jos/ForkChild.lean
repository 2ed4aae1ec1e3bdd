import Jos.Duppage

/-!
  The child of `fork`: what it has when the parent gets its id (`lib/fork.c`). -/

namespace Jos

open Lib RefCount

namespace Fork

/-! ### `sys_exofork` and the rest of `fork` -/

section

variable {c : CpuIdx} {cur child : EnvIdx} {d d' : Nat} {u v : User} {s t s0 : KState}
  {envid : Word} {n : Nat} {dups : List Dup} {x : Dup}

theorem setEnv_dir {e : EnvIdx} {w : Env} (hw : w.envPgdir = (s.envs e).envPgdir) (y : EnvIdx) :
    ((s.setEnv e w).envs y).envPgdir = (s.envs y).envPgdir := by
  by_cases hy : y = e
  · subst hy
    simp [KState.setEnv, hw]
  · simp [KState.setEnv, hy]

theorem Parent.setEnv (h : Parent c cur d s) {e : EnvIdx} {w : Env}
    (hw : w.envPgdir = (s.envs e).envPgdir) : Parent c cur d (s.setEnv e w) := by
  obtain ⟨L, hL⟩ := h.page
  exact ⟨⟨L, pageInv_congr hL rfl (setEnv_dir hw) rfl rfl ⟨rfl, rfl, rfl, rfl, rfl⟩⟩, h.running,
    (setEnv_dir hw cur).trans h.dir.1, h.dir.2⟩

theorem pteAt_setEnv {e : EnvIdx} {w : Env} (hw : w.envPgdir = (s.envs e).envPgdir) :
    pteAt (s.setEnv e w) = pteAt s := by
  have hm : (s.setEnv e w).mem = s.mem := rfl
  exact (tables_congr hm (setEnv_dir hw) rfl).2

/-- The calls that set a field of the child keep what `fork` knows of it. -/
theorem Child.setEnv (h : Child cur child d' envid s) {w : Env}
    (hd : w.envPgdir = (s.envs child).envPgdir) (hid : w.envId = (s.envs child).envId)
    (hpar : w.envParentId = (s.envs child).envParentId) (hfree : w.envStatus ≠ .free) :
    Child cur child d' envid (s.setEnv child w) := by
  refine ⟨(setEnv_dir hd child).trans h.dir, ?_, h.ne⟩
  have hcur : (s.setEnv child w).envs cur = s.envs cur := by
    simp [KState.setEnv, h.ne.symm]
  have hchild : (s.setEnv child w).envs child = w := by simp [KState.setEnv]
  have hl := h.look
  unfold lookupEnv at hl ⊢
  by_cases h0 : envid = 0
  · rw [if_pos h0] at hl
    exact absurd (Option.some.inj hl).symm h.ne
  rw [if_neg h0] at hl ⊢
  split at hl
  · cases hl
  rename_i hno
  split at hl
  · cases hl
  rename_i hfam
  have hx : envx envid = child := Option.some.inj hl
  rw [hx] at hno hfam ⊢
  rw [hchild, hcur, hid, hpar, if_neg (not_or.mpr ⟨hfree, (not_or.mp hno).2⟩), if_neg hfam]

theorem setUpcall_ok {e : EnvIdx} {func : Word} {r : Except Err Word} (hc : s.curenv c = some cur)
    (hl : lookupEnv s cur envid true = some e)
    (hrun : sysEnvSetPgfaultUpcall c envid func s = .ok r t) :
    t = s.setEnv e { s.envs e with envPgfaultUpcall := func } := by
  simp only [sysEnvSetPgfaultUpcall, run_bind, envid2env_run hc, hl, run_modify, run_pure] at hrun
  cases hrun
  rfl

theorem setRunnable_ok {e : EnvIdx} {r : Except Err Word} (hc : s.curenv c = some cur)
    (hl : lookupEnv s cur envid true = some e) (hrun : sysEnvSetStatus c envid 2 s = .ok r t) :
    t = s.setEnv e { s.envs e with envStatus := .runnable } := by
  have hst : statusOfWord 2 = some .runnable := by decide
  simp only [sysEnvSetStatus, hst, run_bind, envid2env_run hc, hl, run_modify, run_pure] at hrun
  cases hrun
  rfl

theorem sysExofork_ok {Le : List EnvIdx} (hp : Parent c cur d s) (hE : EnvList s Le)
    (hlive : (s.envs cur).envStatus ≠ .free) {r : Except Err Word}
    (hrun : sysExofork c s = .ok r t) :
    (∃ err, r = .error err) ∨ ∃ child p id, r = .ok id ∧ Parent c cur d t ∧
      (id ≠ 0 → Child cur child p id t) ∧ (∀ b, mappedAt t child b = none) ∧
      ∀ x, x ≠ child → ∀ b, pteOf t x b = pteOf s x b := by
  obtain ⟨L, hL⟩ := hp.page
  rcases envAlloc_spec hL (s.envs cur).envId with ⟨-, err, hr⟩ | ⟨e, p, -, m, hr, hcr, -, -, -, -,
    L', -, hinv⟩
  · simp only [sysExofork, run_bind, getCurenv_run hp.running, run_get, hr, run_pure] at hrun
    cases hrun
    exact Or.inl ⟨err, rfl⟩
  simp only [sysExofork, run_bind, getCurenv_run hp.running, run_get, hr, run_modify, run_pure]
    at hrun
  cases hrun
  have hmem : e ∈ Le := by
    have hh := hE.chain.head_eq
    rw [hcr.head] at hh
    exact List.mem_of_mem_head? hh.symm
  have hfree := (hE.free e).mp hmem
  have hne : e ≠ cur := fun hx => hlive (hx ▸ hfree)
  have hee : m.envs e = newEnv s e (s.envs cur).envId p := by rw [hcr.envs, Function.update_self]
  have hce : m.envs cur = s.envs cur := by rw [hcr.envs, Function.update_of_ne hne.symm]
  have hpm : Parent c cur d m :=
    ⟨⟨L', hinv ((hE.dir e).mpr hfree)⟩, by
      have hcpu : m.curenv c = s.curenv c := by rw [KState.curenv, hcr.cpus, KState.curenv]
      rw [hcpu]
      exact hp.running, by rw [hce, hcr.cr3]; exact hp.dir⟩
  have hpte : pteAt (m.setEnv e { m.envs e with
      envStatus := .notRunnable, envTf := (m.envs cur).envTf.withEax 0 }) = pteAt m :=
    pteAt_setEnv rfl
  refine Or.inr ⟨e, p, _, rfl, hpm.setEnv rfl, fun hid => ⟨?_, ?_, hne⟩, fun b => ?_,
    fun x hx b => ?_⟩
  · simp [KState.setEnv, hee, newEnv]
  · have hx : envx ((m.setEnv e { m.envs e with
        envStatus := .notRunnable, envTf := (m.envs cur).envTf.withEax 0 }).envs e).envId = e := by
      simp [KState.setEnv, hee, newEnv, envx_nextGeneration]
    unfold lookupEnv
    rw [if_neg hid, hx]
    simp [KState.setEnv, hee, newEnv, hne.symm, hce]
  · simp only [mappedAt, target, hpte, pteAt_of_no_tab (hcr.noTab _), entryFrame_zero]
  · rw [pteOf, hpte, (hcr.tables (some x) (by simpa using hx)).2.1, pteOf]

/-- The environment before it has a child. -/
structure Begun (c : CpuIdx) (cur : EnvIdx) (d : Nat) (s0 s : KState) : Prop where
  parent : Parent c cur d s
  envs : ∃ Le, EnvList s Le
  live : (s.envs cur).envStatus ≠ .free
  same : ∀ b, b < utop → pgnum b < pgnum ustacktop → pgnum b ≠ pgnum pftemp → SameOrOwn s0 s cur b

theorem Begun.start {L : List Nat} {Le : List EnvIdx} (hL : PageInv s L ∅) (hE : EnvList s Le)
    (hlive : (s.envs cur).envStatus ≠ .free) (hc : s.curenv c = some cur)
    (hd : (s.envs cur).envPgdir = some (s.cr3 c)) : Begun c cur (s.cr3 c) s s :=
  ⟨⟨⟨L, hL⟩, hc, hd, rfl⟩, ⟨Le, hE⟩, hlive, fun _ _ _ _ => Or.inl rfl⟩

theorem Begun.of_only (h : Begun c cur d s0 s) (hp : Parent c cur d t) (ho : PmOnly s t)
    (hs : ∀ b, b < utop → pgnum b < pgnum ustacktop → pgnum b ≠ pgnum pftemp →
      SameOrOwn s0 t cur b) : Begun c cur d s0 t := by
  obtain ⟨Le, hLe⟩ := h.envs
  exact ⟨hp, ⟨Le, hLe.congr ho.envFreeList (fun _ => by rw [ho.envs]) (fun _ => by rw [ho.envs])
    fun _ => by rw [ho.envs]⟩, by rw [ho.envs]; exact h.live, hs⟩

theorem uxstackPage_pgnum : pgnum ustacktop < pgnum uxstackPage := by decide

theorem setPgfaultHandler_ok (cur : EnvIdx) (d : Nat) (s0 : KState) {first : Bool} {upcall : Word}
    (h : setPgfaultHandler c first upcall u = .ok () v) :
    Goes u v ∧ (Begun c cur d s0 u.kern → (∀ b, pteOf u.kern cur b = pteOf s0 cur b) →
      Begun c cur d s0 v.kern ∧ TempAged cur u v) := by
  cases first with
  | false =>
    cases h
    exact ⟨.refl _, fun hb _ => ⟨hb, .refl _ _⟩⟩
  | true =>
    obtain ⟨_, a, halloc, h⟩ := bind_eq_ok h
    obtain ⟨r, b, hcall, h⟩ := bind_eq_ok h
    cases h
    have hfaults := (machine_faults hcall).trans (needMachine_faults halloc)
    obtain ⟨_, halloc, hgo⟩ := needMachine_ok halloc
    obtain ⟨hcall, hgo'⟩ := machine_ok hcall
    refine ⟨hgo.trans hgo', fun hb hsame => ?_⟩
    obtain ⟨L, hL⟩ := hb.parent.page
    obtain ⟨f, -, hset, -⟩ := sysPageAlloc_sets hL hb.parent.running (lookupEnv_self ..)
      hb.parent.dir.1 halloc
    have hpa := hb.parent.sets hset
    have hkeep : ∀ y, pgnum y < pgnum ustacktop → pteOf a.kern cur y = pteOf s0 cur y :=
      fun y hst => (hset.away (by have := uxstackPage_pgnum; omega)).trans (hsame y)
    have ha : Begun c cur d s0 a.kern :=
      hb.of_only hpa hset.only fun y _ hst _ => Or.inl (hkeep y hst)
    have hend := setUpcall_ok hpa.running (lookupEnv_self ..) hcall
    obtain ⟨Le, hLe⟩ := ha.envs
    have halike : Alike a.kern (a.kern.setEnv cur { a.kern.envs cur with
      envPgfaultUpcall := upcall }) := Alike.setEnv rfl rfl Iff.rfl
    have hpte : pteAt (a.kern.setEnv cur { a.kern.envs cur with envPgfaultUpcall := upcall })
      = pteAt a.kern := pteAt_setEnv rfl
    have htemp : pteOf v.kern cur pftemp = pteOf u.kern cur pftemp := by
      rw [hend, pteOf, hpte, ← pteOf, hkeep _ (by decide), hsame]
    refine ⟨?_, .of_pteOf hfaults htemp⟩
    rw [hend]
    refine ⟨hpa.setEnv rfl, ⟨Le, hLe.congr halike.envFreeList halike.dir halike.link halike.free⟩,
      ?_, fun y hy hst _ => ?_⟩
    · simp only [KState.setEnv, Function.update_self]
      exact ha.live
    · exact Or.inl (by rw [pteOf, hpte]; exact hkeep y hst)

/-- All pages went through the loop. -/
structure Done (cur child : EnvIdx) (s : KState) (dups : List Dup) : Prop where
  numbers : ∀ x ∈ dups, x.pn < pgnum ustacktop
  inherited : ∀ x ∈ dups, Inherited s cur child x ↔ Dupable cur child x
  marked : ∀ x ∈ dups, x.pn ≠ pgnum pftemp → Dupable cur child x → Marked s cur x
  only : ∀ b, pgnum b ≠ pgnum uxstackPage → mappedAt s child b ≠ none →
    ∃ x ∈ dups, x.pn = pgnum b ∧ mappedAt x.moment cur b ≠ none

theorem Done.apart (h : Done cur child s dups) (hap : Apart s t cur child (pgnum uxstackPage)) :
    Done cur child t dups := by
  have hux := uxstackPage_pgnum
  refine ⟨h.numbers, fun x hx => ?_, fun x hx htemp hd => ?_, fun b hb hm => h.only b hb ?_⟩
  · have hlt := h.numbers x hx
    rw [Inherited.congr (hap.child _ (by rw [pgnum_pageVa hlt]; omega))]
    exact h.inherited x hx
  · have hlt := h.numbers x hx
    exact (h.marked x hx htemp hd).apart hap (by omega) hlt htemp
  · rw [← mappedAt_of_pteOf (hap.child b hb)]
    exact hm

theorem Apart.of_pteAt (h : pteAt t = pteAt s) : Apart s t cur child n := by
  have hp : ∀ e b, pteOf t e b = pteOf s e b := fun e b => by rw [pteOf, h, pteOf]
  exact ⟨fun b _ => hp child b, fun b _ _ _ => Or.inl (hp cur b), fun b _ _ _ f hf =>
    hf.keep (hp cur b) fun x y hy => Or.inl ((mappedAt_of_pteOf (hp x y)).symm.trans hy)⟩

/-- The state of the parent and of its child from the end of the loop on. -/
structure Ready (c : CpuIdx) (cur child : EnvIdx) (d d' : Nat) (envid : Word) (s : KState)
    (dups : List Dup) : Prop where
  parent : Parent c cur d s
  forked : Child cur child d' envid s
  finished : Done cur child s dups

theorem Ready.aged (h : Ready c cur child d d' envid s dups) (hp : Parent c cur d t)
    (hst : Aged s t cur) : Ready c cur child d d' envid t dups :=
  ⟨hp, h.forked.of_only hst.only, h.finished.apart (hst.apart h.forked.ne)⟩

/-- Setting a field of the child. -/
theorem Ready.setEnv (h : Ready c cur child d d' envid s dups) {w : Env}
    (hd : w.envPgdir = (s.envs child).envPgdir) (hid : w.envId = (s.envs child).envId)
    (hpar : w.envParentId = (s.envs child).envParentId) (hfree : w.envStatus ≠ .free) :
    Ready c cur child d d' envid (s.setEnv child w) dups :=
  ⟨h.parent.setEnv hd, h.forked.setEnv hd hid hpar hfree,
    h.finished.apart (.of_pteAt (pteAt_setEnv hd))⟩

theorem Child.live (h : Child cur child d' envid s) : (s.envs child).envStatus ≠ .free := by
  have hl := h.look
  unfold lookupEnv at hl
  split at hl
  · exact absurd (Option.some.inj hl).symm h.ne
  split at hl
  · cases hl
  rename_i hno
  split at hl
  · cases hl
  · rw [← Option.some.inj hl]
    exact (not_or.mp hno).1

/-- The exception stack of the child. -/
theorem Ready.stack (h : Ready c cur child d d' envid s dups) {a : Word}
    (hrun : sysPageAlloc c envid uxstackPage (pteP ||| pteW ||| pteU) s = .ok (.ok a) t) :
    Ready c cur child d d' envid t dups ∧ pteOf t cur pftemp = pteOf s cur pftemp ∧
      ∃ f, Own t child uxstackPage f := by
  obtain ⟨L, hL⟩ := h.parent.page
  obtain ⟨f, hshow, hset, -, hsole⟩ := sysPageAlloc_sets hL h.parent.running h.forked.look
    h.forked.dir hrun
  have hown : Own t child uxstackPage f := by
    refine ⟨hshow, fun x b hb => ?_⟩
    have hslot := hsole (.pte x (pdx b) (ptx b)) hb
    injection hslot with h1 h2 h3
    exact ⟨h1, at_iff.mp ⟨h2, h3⟩⟩
  refine ⟨⟨h.parent.sets hset, h.forked.of_only hset.only, h.finished.apart
    ⟨fun b hb => hset.away hb, fun b _ _ _ => Or.inl (hset.other h.forked.ne.symm _ _),
      fun b _ _ _ g hg => hg.sets hset (fun hx => h.forked.ne hx.1) fun hx => ?_⟩⟩,
    hset.other h.forked.ne.symm _ _, f, hown⟩
  obtain rfl := Option.some.inj (hshow.frame.symm.trans hx)
  have hb : mappedAt t cur b = some f :=
    (mappedAt_of_pteOf (hset.other h.forked.ne.symm _ _)).trans hg.shows.frame
  exact h.forked.ne (hown.sole cur b hb).1.symm

theorem retCode_error (err : Err) : (retCode (.error err)).slt 0 = true := by
  cases err <;> decide

/-- The part of `fork` behind its loop. -/
theorem finish_ok (child : EnvIdx) (d d' : Nat) {w : Point → List (Word × Byte)} {upcall id : Word}
    (h : (do
      stores c cur (w (.finish 0))
      need (machine (sysPageAlloc c envid uxstackPage (pteP ||| pteW ||| pteU)))
      stores c cur (w (.finish 1))
      need (machine (sysEnvSetPgfaultUpcall c envid upcall))
      stores c cur (w (.finish 2))
      need (machine (sysEnvSetStatus c envid 2))
      stores c cur (w (.finish 3))
      return envid) u = .ok id v) :
    id = envid ∧ Goes u v ∧ (Fits cur v.calls → Ready c cur child d d' envid u.kern u.dups →
      Ready c cur child d d' envid v.kern u.dups ∧ TempAged cur u v ∧
        ∃ f, Own v.kern child uxstackPage f) := by
  obtain ⟨_, u1, h1, h⟩ := bind_eq_ok h
  obtain ⟨_, u2, h2, h⟩ := bind_eq_ok h
  obtain ⟨_, u3, h3, h⟩ := bind_eq_ok h
  obtain ⟨_, u4, h4, h⟩ := bind_eq_ok h
  obtain ⟨_, u5, h5, h⟩ := bind_eq_ok h
  obtain ⟨_, u6, h6, h⟩ := bind_eq_ok h
  obtain ⟨_, u7, h7, h⟩ := bind_eq_ok h
  cases h
  obtain ⟨g1, a1⟩ := stores_ok (d := d) h1
  have q2 := needMachine_faults h2
  obtain ⟨_, h2, g2⟩ := needMachine_ok h2
  obtain ⟨g3, a3⟩ := stores_ok (d := d) h3
  have q4 := needMachine_faults h4
  obtain ⟨_, h4, g4⟩ := needMachine_ok h4
  obtain ⟨g5, a5⟩ := stores_ok (d := d) h5
  have q6 := needMachine_faults h6
  obtain ⟨_, h6, g6⟩ := needMachine_ok h6
  obtain ⟨g7, a7⟩ := stores_ok (d := d) h7
  have g67 := g6.trans g7
  have g57 := g5.trans g67
  have g47 := g4.trans g57
  have g37 := g3.trans g47
  have g27 := g2.trans g37
  refine ⟨rfl, g1.trans g27, fun hfit hr => ?_⟩
  have hstack : ∀ {s t : KState}, Child cur child d' envid s → Aged s t cur →
      (∃ f, Own s child uxstackPage f) → ∃ f, Own t child uxstackPage f := by
    rintro s t hc hst ⟨f, hf⟩
    exact ⟨f, hf.aged hst (hst.other child hc.ne _ _)⟩
  have hfield : ∀ {s : KState} {x : Env}, x.envPgdir = (s.envs child).envPgdir →
      (∃ f, Own s child uxstackPage f) → ∃ f, Own (s.setEnv child x) child uxstackPage f := by
    rintro s x hx ⟨f, hf⟩
    have hp : ∀ e b, pteOf (s.setEnv child x) e b = pteOf s e b := fun e b => by
      rw [pteOf, pteAt_setEnv hx, pteOf]
    exact ⟨f, hf.keep (hp _ _) fun y b hb => Or.inl ((mappedAt_of_pteOf (hp y b)).symm.trans hb)⟩
  have htemp : ∀ {s : KState} {x : Env}, x.envPgdir = (s.envs child).envPgdir →
      pteOf (s.setEnv child x) cur pftemp = pteOf s cur pftemp := fun hx => by
    rw [pteOf, pteAt_setEnv hx, pteOf]
  obtain ⟨hp1, ha1, t1⟩ := a1 (hfit.of_goes g27) hr.parent
  obtain ⟨hr2, hsame2, hs2⟩ := (hr.aged hp1 ha1).stack h2
  have t2 : TempAged cur u1 u2 := .of_pteOf q2 hsame2
  obtain ⟨hp3, ha3, t3⟩ := a3 (hfit.of_goes g47) hr2.parent
  have hr3 := hr2.aged hp3 ha3
  have hs3 := hstack hr2.forked ha3 hs2
  have e4 := setUpcall_ok hr3.parent.running hr3.forked.look h4
  have hr4 : Ready c cur child d d' envid u4.kern u.dups := by
    rw [e4]
    exact hr3.setEnv rfl rfl rfl hr3.forked.live
  have hs4 : ∃ f, Own u4.kern child uxstackPage f := by
    rw [e4]
    exact hfield rfl hs3
  have t4 : TempAged cur u3 u4 := .of_pteOf q4 (by
    rw [e4]
    exact htemp rfl)
  obtain ⟨hp5, ha5, t5⟩ := a5 (hfit.of_goes g67) hr4.parent
  have hr5 := hr4.aged hp5 ha5
  have hs5 := hstack hr4.forked ha5 hs4
  have e6 := setRunnable_ok hr5.parent.running hr5.forked.look h6
  have hr6 : Ready c cur child d d' envid u6.kern u.dups := by
    rw [e6]
    exact hr5.setEnv rfl rfl rfl (by simp)
  have hs6 : ∃ f, Own u6.kern child uxstackPage f := by
    rw [e6]
    exact hfield rfl hs5
  have t6 : TempAged cur u5 u6 := .of_pteOf q6 (by
    rw [e6]
    exact htemp rfl)
  obtain ⟨hp7, ha7, t7⟩ := a7 hfit hr6.parent
  exact ⟨hr6.aged hp7 ha7, t1.trans g27 (t2.trans g37 (t3.trans g47 (t4.trans g57 (t5.trans g67
    (t6.trans g7 t7))))), hstack hr6.forked ha7 hs6⟩

/-- `fork`, when it returns to the parent with a child. -/
theorem fork_ok {w : Point → List (Word × Byte)} {first : Bool} {upcall id : Word}
    (h : fork c cur w first upcall u = .ok id v) (hid : id ≠ 0) (hfit : Fits cur v.calls)
    (hb : Begun c cur d u.kern u.kern) (hdups : u.dups = []) (hfaults : u.faults = []) :
    ∃ child d' a, Scanned c cur child d d' id u.kern (pgnum ustacktop) a v.dups ∧
      Ready c cur child d d' id v.kern v.dups ∧ Scratch cur u.kern (pgnum ustacktop) v ∧
      ∃ f, Own v.kern child uxstackPage f := by
  obtain ⟨_, u1, h1, h⟩ := bind_eq_ok h
  obtain ⟨_, u2, h2, h⟩ := bind_eq_ok h
  obtain ⟨r, u3, h3, h⟩ := bind_eq_ok h
  obtain ⟨g1, b1⟩ := setPgfaultHandler_ok cur d u.kern h1
  obtain ⟨g2, a2⟩ := stores_ok (d := d) h2
  have q3 := machine_faults h3
  obtain ⟨h3, g3⟩ := machine_ok h3
  by_cases hneg : (retCode r).slt 0 = true
  · simp only [if_pos hneg] at h
    cases h
  simp only [if_neg hneg] at h
  by_cases hzero : retCode r = 0
  · simp only [if_pos hzero] at h
    cases h
    exact absurd rfl hid
  simp only [if_neg hzero] at h
  obtain ⟨_, u4, h4, h⟩ := bind_eq_ok h
  -- the history first, since all of it has to fit
  obtain ⟨c4, -⟩ := scan_ok cur d 0 u.kern (le_refl _) h4
  obtain ⟨rfl, g5, -⟩ := finish_ok cur d 0 h
  have f5 := hfit.of_goes g5
  have f3 : Fits cur u3.calls := fun m hm => f5 m (c4 hm)
  obtain ⟨hb1, t1⟩ := b1 hb fun _ => rfl
  obtain ⟨hp2, ha2, t2⟩ := a2 (f3.of_goes g3) hb1.parent
  have hb2 : Begun c cur d u.kern u2.kern := hb1.of_only hp2 ha2.only fun b hlt hst htemp =>
    (hb1.same b hlt hst htemp).aged ha2 hlt htemp
  obtain ⟨Le, hLe⟩ := hb2.envs
  rcases sysExofork_ok hp2 hLe hb2.live h3 with ⟨err, rfl⟩ | ⟨child, d', id, rfl, hp3, hc3, hnone,
    hsame⟩
  · exact absurd (retCode_error err) hneg
  have hnil : u3.dups = [] := ((g1.trans g2).trans g3).dups.trans hdups
  have hstart : Scanned c cur child d d' id u.kern 0 u3.kern u3.dups := by
    rw [hnil]
    refine ⟨hp3, hc3 hzero, by simp, by simp, by simp, fun b hm => absurd (hnone b) hm,
      fun b hlt _ hst htemp => ?_, fun b hb => absurd hb (Nat.not_lt_zero _)⟩
    have hp : pteOf u3.kern cur b = pteOf u2.kern cur b := hsame cur (hc3 hzero).ne.symm b
    rcases hb2.same b hlt hst htemp with h1 | ⟨hcow, f, hf⟩
    · exact Or.inl (hp.trans h1)
    · refine Or.inr ⟨hcow, f, hf.keep hp fun x y hy => Or.inl ?_⟩
      by_cases hx : x = child
      · rw [hx, hnone] at hy
        cases hy
      · exact (mappedAt_of_pteOf (hsame x hx y)).symm.trans hy
  have hquiet : Scratch cur u.kern 0 u :=
    ⟨fun hq => absurd hfaults hq, fun _ _ => rfl, by simp [hfaults], by simp [hdups],
      fun hn => absurd hn (Nat.not_lt_zero _), fun _ hn => absurd hn (Nat.not_lt_zero _)⟩
  have hs3 : Scratch cur u.kern 0 u3 := ((hquiet.goes g1 t1).goes g2 t2).goes g3
    (.of_pteOf q3 (hsame cur (hc3 hzero).ne.symm _))
  obtain ⟨hscan, hs4⟩ := (scan_ok child d d' u.kern (le_refl _) h4).2 f5 hstart hs3
  have hready : Ready c cur child d d' id u4.kern u4.dups :=
    ⟨hscan.parent, hscan.forked, hscan.numbers, hscan.inherited, hscan.marked,
      fun b _ hm => hscan.only b hm⟩
  obtain ⟨-, -, hfin⟩ := finish_ok child d d' h
  obtain ⟨hr, t5, hs⟩ := hfin hfit hready
  rw [g5.dups]
  exact ⟨child, d', u4.kern, hscan, hr, hs4.goes g5 t5, hs⟩

/-! ### Completeness -/

/-- The child is complete: all pages that the parent had below `USTACKTOP` are there, with the
    permissions of a child, and nothing else but an exception stack; and the parent cannot write to
    what it shares copy-on-write. `s` is the state when `fork` was called, `t` the one when it
    returned. -/
structure Complete (s t : KState) (cur child : EnvIdx) (dups : List Dup) : Prop where
  all : ∀ b, b < ustacktop → UserPage (pteOf s cur b) →
    ∃ x ∈ dups, x.pn = pgnum b ∧ SameOrOwn s x.moment cur b
  inherited : ∀ x ∈ dups, Inherited t cur child x
  marked : ∀ x ∈ dups, Marked t cur x
  only : ∀ b, mappedAt t child b ≠ none →
    (∃ x ∈ dups, x.pn = pgnum b ∧ mappedAt x.moment cur b ≠ none) ∨
      pgnum b = pgnum uxstackPage ∧ ∃ f, Own t child b f

/-- If the parent has a page at `PFTEMP`, `pgfault` runs only after `duppage` had that page, and not
    at all if the page is to be shared copy-on-write. -/
def TempSpared (s : KState) (cur : EnvIdx) (faults : List (List Dup)) : Prop :=
  UserPage (pteOf s cur pftemp) → ∀ done ∈ faults,
    (∃ x ∈ done, x.pn = pgnum pftemp) ∧ childPerm (pteOf s cur pftemp) ≠ cowPerm

theorem SameOrOwn.childPerm {b : Word} (h : SameOrOwn s t cur b)
    (hcow : childPerm (pteOf s cur b) = cowPerm) : childPerm (pteOf t cur b) = cowPerm := by
  rcases h with h | ⟨-, f, hf⟩
  · rw [h]
    exact hcow
  · exact hf.childPerm

/-- What a complete child says about the scratch page. -/
theorem Complete.spared (h : Complete s v.kern cur child v.dups)
    (hs : Scratch cur s (pgnum ustacktop) v) : TempSpared s cur v.faults := by
  intro hu done hd
  obtain ⟨x, hx, hpn, hsame⟩ := h.all pftemp (by decide) hu
  have hmap : mappedAt x.moment cur pftemp ≠ none := (hsame.userPage hu).mapped
  obtain ⟨-, ⟨-, hin⟩ | ⟨hnone, -⟩⟩ := hs.read x hx hpn
  swap
  · exact absurd hnone hmap
  refine ⟨⟨x, hin done hd, hpn⟩, fun hcow => ?_⟩
  -- the parent has lost a page that it should share with the child
  have hgone := hs.gone (List.ne_nil_of_mem hd)
  have hva : pageVa x.pn = pftemp := by rw [hpn, pageVa_pftemp]
  have hmarked := h.marked x hx
  rw [Marked, hva] at hmarked
  rcases hmarked (hsame.childPerm hcow) hmap with ⟨f, hf⟩ | ⟨f, hf⟩
  · rw [hf.frame] at hgone
    cases hgone
  · rw [hf.shows.frame] at hgone
    cases hgone

theorem Scratch.kept_all (h : Scratch cur s (pgnum ustacktop) v) (hsp : TempSpared s cur v.faults)
    {b : Word} (hb : pgnum b = pgnum pftemp) (hu : UserPage (pteOf s cur b)) :
    ∃ x ∈ v.dups, x.pn = pgnum b ∧ SameOrOwn s x.moment cur b := by
  rw [pteOf_page hb] at hu
  obtain ⟨x, hx, hpn⟩ := h.all (by decide) hu fun done hd => (hsp hu done hd).1
  refine ⟨x, hx, hpn.trans hb.symm, ?_⟩
  obtain ⟨-, ⟨hsame, -⟩ | ⟨-, done, hd, hearly⟩⟩ := h.read x hx hpn
  · exact Or.inl (by rw [pteOf_page hb, pteOf_page hb]; exact hsame)
  · obtain ⟨y, hy, hpy⟩ := (hsp hu done hd).1
    exact absurd hpy (hearly y hy)

theorem Scratch.kept_marked (h : Scratch cur s (pgnum ustacktop) v)
    (hsp : TempSpared s cur v.faults) (hx : x ∈ v.dups) (hpn : x.pn = pgnum pftemp) :
    Marked v.kern cur x := by
  have hva : pageVa x.pn = pftemp := by rw [hpn, pageVa_pftemp]
  rw [Marked, hva]
  intro hcow hmap
  obtain ⟨hu, ⟨hsame, -⟩ | ⟨hnone, -⟩⟩ := h.read x hx hpn
  swap
  · exact absurd hnone hmap
  rw [hsame] at hcow
  have hq : v.faults = [] := by
    by_contra hq
    obtain ⟨done, hd⟩ := List.exists_mem_of_ne_nil _ hq
    exact (hsp hu done hd).2 hcow
  exact Or.inl (h.marked hq (by decide) hu hcow)

/-- When `fork` returns the id of a child, and no counter wrapped, the child is complete exactly if
    every page that went through `duppage` was one for which this works, and no page fault of the
    parent took its page at `PFTEMP`. -/
theorem fork_complete_iff {w : Point → List (Word × Byte)} {first : Bool} {upcall id : Word}
    {L : List Nat} {Le : List EnvIdx} (hL : PageInv s L ∅) (hE : EnvList s Le)
    (hlive : (s.envs cur).envStatus ≠ .free) (hc : s.curenv c = some cur)
    (hd : (s.envs cur).envPgdir = some (s.cr3 c))
    (h : fork c cur w first upcall ⟨s, [], [], []⟩ = .ok id v) (hid : 0 < id.toInt)
    (hfit : Fits cur v.calls) :
    ∃ child, child ≠ cur ∧ lookupEnv v.kern cur id true = some child ∧
      (Complete s v.kern cur child v.dups ↔
        (∀ x ∈ v.dups, Dupable cur child x) ∧ TempSpared s cur v.faults) := by
  have hne : id ≠ 0 := by
    rintro rfl
    exact absurd hid (by decide)
  obtain ⟨child, d', a, hscan, hready, hscratch, f, hf⟩ :=
    fork_ok h hne hfit (Begun.start hL hE hlive hc hd) rfl rfl
  refine ⟨child, hready.forked.ne, hready.forked.look, fun hcomp =>
    ⟨fun x hx => (hready.finished.inherited x hx).mp (hcomp.inherited x hx),
      hcomp.spared hscratch⟩, fun ⟨hall, hsp⟩ => ⟨fun b hb hu => ?_,
    fun x hx => (hready.finished.inherited x hx).mpr (hall x hx), fun x hx => ?_, fun b hm => ?_⟩⟩
  · by_cases htemp : pgnum b = pgnum pftemp
    · exact hscratch.kept_all hsp htemp hu
    refine hscan.all b ?_ htemp hu
    have hst : ustacktop.toNat = 0xEEBFE000 := by decide
    unfold pgnum
    rw [BitVec.lt_def] at hb
    omega
  · by_cases htemp : x.pn = pgnum pftemp
    · exact hscratch.kept_marked hsp hx htemp
    · exact hready.finished.marked x hx htemp (hall x hx)
  · by_cases hb : pgnum b = pgnum uxstackPage
    · exact Or.inr ⟨hb, f, hf.page hb⟩
    · exact Or.inl (hready.finished.only b hb hm)

end

/-! ### A parent with one shared page -/

/-- No stores at all. -/
def noStores (_ : Point) : List (Word × Byte) := []

section

variable {c : CpuIdx} {cur child : EnvIdx} {d d' : Nat} {u v : User} {s t : KState} {envid : Word}

/-- One turn of the loop with a page. -/
theorem scan_dup {m : Nat} {x : User} (h : scan c cur noStores envid m u = .ok () v)
    (hcheck : pdeAt v.kern (some cur) (pdx (pageVa m)) &&& pteP ≠ 0 ∧
      pteOf v.kern cur (pageVa m) &&& pteP ≠ 0 ∧ pteOf v.kern cur (pageVa m) &&& pteU ≠ 0)
    (hdup : duppage c cur noStores envid m v = .ok () x) :
    scan c cur noStores envid (m + 1) u = .ok () x := by
  have hread : ∀ {f : Word → U Unit}, (uvpd cur (pageVa m) >>= f) v
      = f (pdeAt v.kern (some cur) (pdx (pageVa m))) v := rfl
  have hread' : ∀ {f : Word → U Unit}, (uvpt cur (pageVa m) >>= f) v
      = f (pteOf v.kern cur (pageVa m)) v := rfl
  have hstores : stores c cur (noStores (.scan m)) v = .ok () v := rfl
  simp only [scan, run_bind_ok h, run_bind_ok hstores, hread, hread', if_pos hcheck, hdup]

/-- Pages that the parent does not have are passed over. -/
theorem scan_idle {m : Nat} (h : scan c cur noStores envid m u = .ok () v) : ∀ (k : Nat),
    (∀ j, m ≤ j → j < m + k → ¬ UserPage (pteOf v.kern cur (pageVa j))) →
    scan c cur noStores envid (m + k) u = .ok () v
  | 0, _ => h
  | k + 1, hno => by
    have hprev := scan_idle h k fun j hj hlt => hno j hj (Nat.lt_succ_of_lt hlt)
    have hk : ¬ (pdeAt v.kern (some cur) (pdx (pageVa (m + k))) &&& pteP ≠ 0 ∧
        pteOf v.kern cur (pageVa (m + k)) &&& pteP ≠ 0 ∧
        pteOf v.kern cur (pageVa (m + k)) &&& pteU ≠ 0) := fun hx =>
      hno (m + k) (Nat.le_add_right ..) (Nat.lt_succ_self _) hx.2
    have hread : ∀ {f : Word → U Unit}, (uvpd cur (pageVa (m + k)) >>= f) v
        = f (pdeAt v.kern (some cur) (pdx (pageVa (m + k)))) v := rfl
    have hread' : ∀ {f : Word → U Unit}, (uvpt cur (pageVa (m + k)) >>= f) v
        = f (pteOf v.kern cur (pageVa (m + k))) v := rfl
    have hstores : stores c cur (noStores (.scan (m + k))) v = .ok () v := rfl
    rw [← Nat.add_assoc]
    simp only [scan, run_bind_ok hprev, run_bind_ok hstores, hread, hread', if_neg hk]
    rfl

theorem machine_run {α : Type} {m : K α} {a : α} (h : m u.kern = .ok a t) :
    machine m u = .ok a { u with kern := t } := by
  unfold machine
  rw [h]

theorem need_run {m : U (Except Err Word)} {a : Word} (h : m u = .ok (.ok a) v) :
    need m u = .ok () v := by
  unfold need
  rw [run_bind_ok h]
  rfl

/-- A shared page goes through `duppage`, whatever `sys_page_map` returns. -/
theorem duppage_shared {pn : Nat} {r : Except Err Word}
    (hshare : pteOf u.kern cur (pageVa pn) &&& pteShare ≠ 0)
    (hrun : sysPageMap c 0 (pageVa pn) envid (pageVa pn) pteSyscall u.kern = .ok r t) :
    duppage c cur noStores envid pn u = .ok () ⟨t, u.calls ++ [(u.kern, pageVa pn)],
      u.dups ++ [⟨pn, pteOf u.kern cur (pageVa pn), u.kern⟩], u.faults⟩ := by
  have hread : ∀ {f : Word → U Unit}, (uvpt cur (pageVa pn) >>= f) u
      = f (pteOf u.kern cur (pageVa pn)) u := rfl
  have hstores : stores c cur (noStores (.enter pn)) u = .ok () u := rfl
  have habout : aboutToMap c cur noStores pn (pteOf u.kern cur (pageVa pn)) u
      = .ok () { u with dups := u.dups ++ [⟨pn, pteOf u.kern cur (pageVa pn), u.kern⟩] } := rfl
  have hmap : pageMap c (pageVa pn) envid (pageVa pn) pteSyscall
      { u with dups := u.dups ++ [⟨pn, pteOf u.kern cur (pageVa pn), u.kern⟩] }
      = .ok r ⟨t, u.calls ++ [(u.kern, pageVa pn)],
        u.dups ++ [⟨pn, pteOf u.kern cur (pageVa pn), u.kern⟩], u.faults⟩ := by
    simp only [pageMap, run_bind, run_modify]
    exact machine_run (m := sysPageMap c 0 (pageVa pn) envid (pageVa pn) pteSyscall) hrun
  simp only [duppage, run_bind_ok hstores, hread, run_bind_ok habout, if_pos hshare,
    run_bind_ok hmap]
  rfl

/-- On the demonstration machine, a new environment whose only page is `0x800`. -/
structure Alone (s : KState) (L : List Nat) (d : Nat) (perm : Word) : Prop where
  page : PageInv s L ∅
  envs : ∃ Le, EnvList s Le
  parent : Parent 1 2 d s
  live : (s.envs 2).envStatus ≠ .free
  next : s.envFreeList = some 3 ∧ (s.envs 3).envId = 0
  room : 900 ≤ L.length
  shows : ∃ f, Shows s 2 (pageVa 0x800) f perm ∧
    ∀ x b, mappedAt s x b = some f → x = 2 ∧ pgnum b = 0x800
  alone : ∀ b, pgnum b ≠ 0x800 → pteOf s 2 b = 0

theorem demo_alone (perm : Word) (hperm : permOk perm = true) : ∃ s L d, Alone s L d perm := by
  obtain ⟨s, L, -, hb, hL, hlen⟩ := demo_boots
  have hmid : Mid False 1 ∅ s :=
    ⟨hb.inv.core, fun k _ => ⟨(hb.inv.cpus k).running, fun hf => hf.elim⟩⟩
  have hhead : s.envFreeList = some 2 := hb.head
  rcases hmid.envAlloc 0 with ⟨hwhy, -⟩ | ⟨e, p, t, -, hmt, hcr, -, L', hL', ht⟩
  · rcases hwhy with hnone | hnil
    · rw [hnone] at hhead
      cases hhead
    · rw [hL.unique hnil] at hlen
      simp at hlen
  have he : e = 2 := Option.some.inj (hcr.head.symm.trans hhead)
  subst he
  rw [hL.unique hL', List.length_cons] at hlen
  have hempty : ∀ k : EnvIdx, 2 ≤ k.val → s.envs k = emptyEnv k := by
    intro k hk
    have hk0 : k ≠ 0 := by
      rintro rfl
      exact absurd hk (by decide)
    have hbe := hb.envs k hk0
    rwa [if_neg (by
      have : demo.images.length = 2 := rfl
      omega)] at hbe
  -- it runs on CPU 1
  set t1 := (t.setCurenv 1 (some 2)).lcr3 1 p with ht1
  have hp1 : PageInv t1 L' ∅ :=
    pageInv_congr ht rfl (fun _ => rfl) rfl rfl ⟨rfl, rfl, rfl, rfl, rfl⟩
  have h2 : t1.envs 2 = newEnv s 2 0 p := by
    show t.envs 2 = _
    rw [hcr.envs, Function.update_self]
  have hpar : Parent 1 2 p t1 :=
    ⟨⟨L', hp1⟩, by simp [ht1, KState.curenv, KState.setCurenv, KState.setCpu, KState.lcr3],
      by rw [h2]; rfl, by simp [ht1, KState.lcr3]⟩
  have htab : ∀ i, tabFrame t1 (some 2) i = none := hcr.noTab
  obtain ⟨Le, hLe⟩ := hmt.core.envs
  have hE : EnvList t1 Le := hLe.congr rfl (fun _ => rfl) (fun _ => rfl) fun _ => Iff.rfl
  -- and gets its page
  have hva : vaOk (pageVa 0x800) = true := by decide
  have hroom : ¬ L'.length < 1 + tablesMissing t1 2 (pageVa 0x800) := by
    unfold tablesMissing
    split <;> omega
  rcases sysPageAlloc_run hp1 hpar.running (lookupEnv_self ..) hpar.dir.1 hva hperm with
    ⟨rfl, -⟩ | ⟨_, -, hlt, -⟩ | ⟨f, m, t2, L2, -, hrun, rfl, hm, hmap⟩
  · simp at hlen
  · exact absurd hlt hroom
  obtain ⟨g, hg, hset, -, hsole⟩ := sysPageAlloc_sets hp1 hpar.running (lookupEnv_self ..)
    hpar.dir.1 hrun
  obtain ⟨hshow, -, -⟩ := hm.mapped hmap hperm
  obtain ⟨L3, hL3, hlen3⟩ := hmap.inv (by rw [← hmap.entry]; exact hshow.frame)
    (Or.inl (by rw [hm.unused]; decide))
  rw [Finset.erase_singleton] at hL3
  have hle := hlen3 L2 hm.inv
  rw [List.length_cons] at hlen
  have ho := hset.only
  refine ⟨t2, L3, p, hL3, ⟨Le, hE.congr ho.envFreeList (fun _ => by rw [ho.envs])
    (fun _ => by rw [ho.envs]) fun _ => by rw [ho.envs]⟩, hpar.sets hset, ?_, ⟨?_, ?_⟩, by omega,
    ⟨g, hg, fun x b hb => ?_⟩, fun b hb => ?_⟩
  · rw [ho.envs, h2]
    simp [newEnv]
  · rw [ho.envFreeList]
    show t.envFreeList = some 3
    rw [hcr.envFreeList, hempty 2 (by decide)]
    rfl
  · rw [ho.envs]
    show (t.envs 3).envId = 0
    rw [hcr.envs, Function.update_of_ne (by decide), hempty 3 (by decide)]
    rfl
  · have hslot := hsole (.pte x (pdx b) (ptx b)) hb
    injection hslot with h3 h4 h5
    exact ⟨h3, at_iff.mp ⟨h4, h5⟩⟩
  · have hpg : pgnum (pageVa 0x800) = 0x800 := by decide
    rw [hset.away (by rw [hpg]; exact hb), pteOf, pteAt_of_no_tab (htab _)]

theorem ref_of_sole {L : List Nat} {e : EnvIdx} {a : Word} {f : Nat} (hL : PageInv t L ∅)
    (hf : mappedAt t e a = some f)
    (hs : ∀ x b, mappedAt t x b = some f → x = e ∧ pgnum b = pgnum a) : (t.pages f).ppRef = 1 := by
  have hslot : target t (.pte e (pdx a) (ptx a)) = some f := hf
  have hnt := hL.notTable_of_pte hslot
  refine BitVec.eq_of_toNat_eq ?_
  rw [hL.counted.exact f (hL.counted.target _ f hslot), refs_eq_one hslot fun r hr => ?_]
  · rfl
  · cases r with
    | dir x => exact absurd hr (hnt.2 _ trivial)
    | tab o i => exact absurd hr (hnt.2 _ trivial)
    | pte x i j =>
      have hb : mappedAt t x (pgaddr i j) = some f := by
        rw [mappedAt, pdx_pgaddr, ptx_pgaddr]
        exact hr
      obtain ⟨rfl, hpage⟩ := hs x _ hb
      obtain ⟨h1, h2⟩ := at_iff.mpr hpage
      rw [pdx_pgaddr] at h1
      rw [ptx_pgaddr] at h2
      rw [h1, h2]

/-- `sys_exofork` in this environment. -/
theorem Alone.exofork {L : List Nat} {perm : Word} (h : Alone s L d perm) :
    ∃ t L' p, sysExofork 1 s = .ok (.ok 4099) t ∧ PageInv t L' ∅ ∧ 899 ≤ L'.length ∧
      Parent 1 2 d t ∧ Child 2 3 p 4099 t ∧ (∀ b, mappedAt t 3 b = none) ∧
      ∀ x, x ≠ 3 → ∀ b, pteOf t x b = pteOf s x b := by
  obtain ⟨Le, hLe⟩ := h.envs
  have hroom := h.room
  rcases envAlloc_spec h.page (s.envs 2).envId with ⟨hwhy, -⟩ | ⟨e, p, -, m, hr, hcr, -, -, -, -,
    L', rfl, hinv⟩
  · rcases hwhy with hx | rfl
    · rw [h.next.1] at hx
      cases hx
    · simp at hroom
  have he : e = 3 := Option.some.inj (hcr.head.symm.trans h.next.1)
  subst he
  have hid : (m.envs 3).envId = 4099 := by
    have hgen : nextGeneration 0 ||| BitVec.ofNat 32 (3 : EnvIdx).val = 4099 := by decide
    rw [hcr.envs, Function.update_self, ← hgen, ← h.next.2]
    rfl
  have hfree : (s.envs 3).envPgdir = none := by
    have hh := hLe.chain.head_eq
    rw [hcr.head] at hh
    exact (hLe.dir 3).mpr ((hLe.free 3).mp (List.mem_of_mem_head? hh.symm))
  have hrun : ∃ t, sysExofork 1 s = .ok (.ok 4099) t ∧ PageInv t L' ∅ := by
    refine ⟨m.setEnv 3 { m.envs 3 with
      envStatus := .notRunnable, envTf := (m.envs 2).envTf.withEax 0 }, ?_,
      pageInv_congr (hinv hfree) rfl (setEnv_dir rfl) rfl rfl ⟨rfl, rfl, rfl, rfl, rfl⟩⟩
    simp only [sysExofork, run_bind, getCurenv_run h.parent.running, run_get, hr, run_modify,
      run_pure]
    rw [← hid]
    simp [KState.setEnv]
  obtain ⟨t, hrun, ht⟩ := hrun
  rcases sysExofork_ok h.parent hLe h.live hrun with ⟨err, hno⟩ | ⟨child, q, id, hok, hp, hc, hnone,
    hsame⟩
  · cases hno
  cases hok
  have hchild := hc (by decide)
  have h3 : child = 3 := by
    have hl := hchild.look
    unfold lookupEnv at hl
    rw [if_neg (by decide)] at hl
    split at hl
    · cases hl
    split at hl
    · cases hl
    · exact (Option.some.inj hl).symm.trans (by decide)
  subst h3
  rw [List.length_cons] at hroom
  exact ⟨t, L', q, hrun, ht, by omega, hp, hchild, hnone, hsame⟩

/-- What comes of `fork` in this environment. -/
structure AloneForked (s : KState) (perm : Word) (v : User) (x : Dup) : Prop where
  run : fork 1 2 noStores false 0 ⟨s, [], [], []⟩ = .ok 4099 v
  calls : v.calls = [(x.moment, pageVa 0x800)]
  dups : v.dups = [x]
  faults : v.faults = []
  page : x.pn = 0x800
  read : x.pte = pteOf x.moment 2 (pageVa 0x800)
  shows : ∃ f, Shows x.moment 2 (pageVa 0x800) f perm
  fits : Fits 2 [(x.moment, pageVa 0x800)]
  room : x.moment.pageFreeList ≠ none

theorem Alone.forks {L : List Nat} {perm : Word} (h : Alone s L d perm) (hperm : permOk perm = true)
    (hshare : perm &&& pteShare ≠ 0) (hw : perm &&& pteW ≠ 0) : ∃ v x, AloneForked s perm v x := by
  obtain ⟨t, L1, p, hexo, hL1, hlen1, hp1, hc1, hnone, hsame⟩ := h.exofork
  obtain ⟨f, hf, hsole⟩ := h.shows
  have hpg : ∀ j, j < pgnum ustacktop → pgnum (pageVa j) = j := fun j hj => pgnum_pageVa hj
  have hpage : pgnum (pageVa 0x800) = 0x800 := by decide
  have hft : Shows t 2 (pageVa 0x800) f perm := shows_of_pteOf (hsame 2 (by decide) _) hf
  have hflag : ∀ m : Word, 0xFFF &&& m = m → pteOf t 2 (pageVa 0x800) &&& m = perm &&& m :=
    fun m hm => flags_of_shows hft hm
  have hP : perm &&& pteP ≠ 0 ∧ perm &&& pteU ≠ 0 := by
    simp only [permOk, Bool.and_eq_true, decide_eq_true_eq] at hperm
    exact ⟨hperm.1.2, hperm.1.1⟩
  have hother : ∀ b, pgnum b ≠ 0x800 → pteOf t 2 b = 0 := fun b hb =>
    (hsame 2 (by decide) b).trans (h.alone b hb)
  have hzero : ¬ UserPage 0 := by decide
  set u : User := ⟨t, [], [], []⟩ with hu
  -- nothing up to the page
  have hscan1 : scan 1 2 noStores 4099 0x800 u = .ok () u := by
    have h0 : scan 1 2 noStores 4099 0 u = .ok () u := rfl
    have := scan_idle h0 0x800 fun j _ hj hx => by
      have hn : pgnum ustacktop = 0xEEBFE := by decide
      rw [hother _ (by rw [hpg j (by omega)]; omega)] at hx
      exact hzero hx
    simpa using this
  -- the page
  have hmay : MayMap t 2 (pageVa 0x800) (pageVa 0x800) pteSyscall :=
    ⟨⟨by decide, by decide⟩, by decide, by rw [hft.frame]; simp, fun hx => by
      rw [hflag _ (by decide)] at hx
      exact hw hx.1⟩
  rcases sysPageMap_run hL1 hp1.running (lookupEnv_self ..) hc1.look hp1.dir.1 hc1.dir hmay with
    ⟨hlt, -⟩ | ⟨-, g, w, hmaprun, hg, hmap⟩
  · unfold tablesMissing at hlt
    split at hlt <;> omega
  obtain rfl := Option.some.inj (hft.frame.symm.trans hg)
  have hsolet : ∀ x b, mappedAt t x b = some f → x = 2 ∧ pgnum b = pgnum (pageVa 0x800) := by
    intro x b hb
    by_cases hx : x = 3
    · rw [hx, hnone] at hb
      cases hb
    · rw [hpage]
      exact hsole x b ((mappedAt_of_pteOf (hsame x hx b)).symm.trans hb)
  have hone := ref_of_sole hL1 hft.frame hsolet
  have hfit : (t.pages f).ppRef ≠ 65535 := by
    rw [hone]
    decide
  obtain ⟨L2, hL2, hlen2⟩ := hmap.inv (by
    rw [← hmap.entry]
    exact (hmap.shows (hL1.lt_window (hL1.counted.target _ f hft.frame)).2 hmay.bits).frame)
    (Or.inl hfit)
  have hlen2 := hlen2 L1 hL1
  have hcheck : pdeAt t (some 2) (pdx (pageVa 0x800)) &&& pteP ≠ 0 ∧
      pteOf t 2 (pageVa 0x800) &&& pteP ≠ 0 ∧ pteOf t 2 (pageVa 0x800) &&& pteU ≠ 0 := by
    have h1 : pteOf t 2 (pageVa 0x800) &&& pteP ≠ 0 := by
      rw [hflag _ (by decide)]
      exact hP.1
    exact ⟨pde_of_pte h1, h1, by rw [hflag _ (by decide)]; exact hP.2⟩
  set x : Dup := ⟨0x800, pteOf t 2 (pageVa 0x800), t⟩ with hx
  have hscan2 : scan 1 2 noStores 4099 0x801 u = .ok () ⟨w, [(t, pageVa 0x800)], [x], []⟩ := by
    have hd := duppage_shared (u := u) (by rw [hflag _ (by decide)]; exact hshare) hmaprun
    exact scan_dup hscan1 hcheck hd
  have hw2 : ∀ b, pteOf w 2 b = pteOf t 2 b := fun b =>
    hmap.edit.pte (some 2) _ _ fun hy => absurd (Option.some.inj hy.1) (by decide)
  have hscan3 : scan 1 2 noStores 4099 (pgnum ustacktop) u = .ok () ⟨w, [(t, pageVa 0x800)], [x], []⟩ := by
    have hn : pgnum ustacktop = 0x801 + 0xEE3FD := by decide
    rw [hn]
    refine scan_idle hscan2 _ fun j hle hj hux => ?_
    rw [hw2, hother _ (by rw [hpg j (by omega)]; omega)] at hux
    exact hzero hux
  -- the exception stack and the fields of the child
  have hpw : Parent 1 2 d w := hp1.of_only ⟨L2, by simpa using hL2⟩ hmap.edit.only
  have hcw : Child 2 3 p 4099 w := hc1.of_only hmap.edit.only
  have hL2' : PageInv w L2 ∅ := by simpa using hL2
  rcases sysPageAlloc_run hL2' hpw.running hcw.look hcw.dir (by decide : vaOk uxstackPage = true)
    (by decide : permOk (pteP ||| pteW ||| pteU) = true) with
    ⟨rfl, -⟩ | ⟨_, -, hlt, -⟩ | ⟨q, m, y, L3, -, halloc, -, -, -⟩
  · simp at hlen2
    omega
  · unfold tablesMissing at hlt
    split at hlt <;> omega
  obtain ⟨-, -, hset, -⟩ := sysPageAlloc_sets hL2' hpw.running hcw.look hcw.dir halloc
  have hpy := hpw.sets hset
  have hcy : Child 2 3 p 4099 y := hcw.of_only hset.only
  have hup : sysEnvSetPgfaultUpcall 1 4099 0 y
      = .ok (.ok 0) (y.setEnv 3 { y.envs 3 with envPgfaultUpcall := 0 }) := by
    simp only [sysEnvSetPgfaultUpcall, run_bind, envid2env_run hpy.running, hcy.look, run_modify,
      run_pure]
  have hpz := hpy.setEnv (e := 3) (w := { y.envs 3 with envPgfaultUpcall := 0 }) rfl
  have hcz := hcy.setEnv (w := { y.envs 3 with envPgfaultUpcall := 0 }) rfl rfl rfl hcy.live
  set z := y.setEnv 3 { y.envs 3 with envPgfaultUpcall := 0 } with hz
  have hst : sysEnvSetStatus 1 4099 2 z
      = .ok (.ok 0) (z.setEnv 3 { z.envs 3 with envStatus := .runnable }) := by
    have h2 : statusOfWord 2 = some .runnable := by decide
    simp only [sysEnvSetStatus, h2, run_bind, envid2env_run hpz.running, hcz.look, run_modify,
      run_pure]
  refine ⟨⟨z.setEnv 3 { z.envs 3 with envStatus := .runnable }, [(t, pageVa 0x800)], [x], []⟩, x,
    ?_, rfl, rfl, rfl, rfl, rfl, ⟨f, hft⟩, fun m hm g hg => ?_, fun hnil => ?_⟩
  · have h1 : setPgfaultHandler 1 false 0 ⟨s, [], [], []⟩ = .ok () ⟨s, [], [], []⟩ := rfl
    have h2 : ∀ k (y : User), stores 1 2 (noStores k) y = .ok () y := fun _ _ => rfl
    have h3 : machine (sysExofork 1) ⟨s, [], [], []⟩ = .ok (.ok 4099) u := machine_run hexo
    have h4 := need_run (machine_run (u := ⟨w, [(t, pageVa 0x800)], [x], []⟩) halloc)
    have h5 := need_run (machine_run (u := ⟨y, [(t, pageVa 0x800)], [x], []⟩) hup)
    have h6 := need_run (machine_run (u := ⟨z, [(t, pageVa 0x800)], [x], []⟩) hst)
    have hpos : ¬ (4099 : Word).slt 0 = true := by decide
    have hne : ¬ (4099 : Word) = 0 := by decide
    have hret : retCode (.ok 4099) = 4099 := rfl
    simp only [fork, run_bind_ok h1, run_bind_ok (h2 _ _), run_bind_ok h3, hret, if_neg hpos,
      if_neg hne, run_bind_ok hscan3, run_bind_ok h4, run_bind_ok h5, run_bind_ok h6]
    rfl
  · obtain rfl := List.mem_singleton.mp hm
    obtain rfl := Option.some.inj (hft.frame.symm.trans hg)
    exact hfit
  · have hnil' := (freeList_none hL1).mp hnil
    rw [hnil'] at hlen1
    simp at hlen1

/-- A page with all of `PTE_SYSCALL` is shared as it should be. -/
theorem fork_complete_iff_demo : ∃ s v child,
    fork 1 2 noStores false 0 ⟨s, [], [], []⟩ = .ok 4099 v ∧ v.dups ≠ [] ∧
    lookupEnv v.kern 2 4099 true = some child ∧
    Complete s v.kern 2 child v.dups := by
  obtain ⟨s, L, d, ha⟩ := demo_alone pteSyscall (by decide)
  obtain ⟨v, x, hf⟩ := ha.forks (by decide) (by decide) (by decide)
  obtain ⟨Le, hLe⟩ := ha.envs
  obtain ⟨child, -, hlook, hiff⟩ := fork_complete_iff ha.page hLe ha.live ha.parent.running
    (by rw [ha.parent.dir.2]; exact ha.parent.dir.1) hf.run (by decide)
    (by rw [hf.calls]; exact hf.fits)
  refine ⟨s, v, child, hf.run, by rw [hf.dups]; simp, hlook, hiff.mpr ⟨fun y hy _ => ?_,
    fun _ done hd => ?_⟩⟩
  swap
  · rw [hf.faults] at hd
    cases hd
  rw [hf.dups] at hy
  obtain rfl := List.mem_singleton.mp hy
  obtain ⟨f, hshow⟩ := hf.shows
  refine ⟨fun _ => ?_, fun _ => Or.inl hf.room⟩
  rw [hf.page, flags_of_shows hshow (by decide)]
  decide

/-- A page that the parent shares with fewer bits, the child gets with more. -/
theorem shared_page_gets_more : ¬ ∀ (c : CpuIdx) (cur : EnvIdx) (w : Point → List (Word × Byte))
    (first : Bool) (upcall id : Word) (s : KState) (v : User) (L : List Nat) (Le : List EnvIdx),
    PageInv s L ∅ → EnvList s Le → (s.envs cur).envStatus ≠ .free → s.curenv c = some cur →
    (s.envs cur).envPgdir = some (s.cr3 c) →
    fork c cur w first upcall ⟨s, [], [], []⟩ = .ok id v → 0 < id.toInt →
    ∃ child, lookupEnv v.kern cur id true = some child ∧ Complete s v.kern cur child v.dups := by
  intro hall
  obtain ⟨s, L, d, ha⟩ := demo_alone (pteShare ||| pteW ||| pteU ||| pteP) (by decide)
  obtain ⟨v, x, hf⟩ := ha.forks (by decide) (by decide) (by decide)
  obtain ⟨Le, hLe⟩ := ha.envs
  have hd : (s.envs 2).envPgdir = some (s.cr3 1) := by rw [ha.parent.dir.2]; exact ha.parent.dir.1
  obtain ⟨child, hlook, hcomp⟩ := hall 1 2 noStores false 0 4099 s v L Le ha.page hLe ha.live
    ha.parent.running hd hf.run (by decide)
  obtain ⟨child', d', a, -, hready, -⟩ := fork_ok hf.run (by decide)
    (by rw [hf.calls]; exact hf.fits) (Begun.start ha.page hLe ha.live ha.parent.running hd) rfl rfl
  obtain rfl := Option.some.inj (hlook.symm.trans hready.forked.look)
  have hx : x ∈ v.dups := by rw [hf.dups]; exact List.mem_singleton_self x
  have hdup := (hready.finished.inherited x hx).mp (hcomp.inherited x hx)
  obtain ⟨f, hshow⟩ := hf.shows
  have hm : mappedAt x.moment 2 (pageVa x.pn) ≠ none := by
    rw [hf.page, hshow.frame]
    simp
  have hbits := (hdup hm).1 (by rw [hf.read, flags_of_shows hshow (by decide)]; decide)
  rw [hf.page, flags_of_shows hshow (by decide)] at hbits
  exact absurd hbits (by decide)

end

end Fork

end Jos
